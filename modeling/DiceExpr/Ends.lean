import DiceExpr.Value

namespace DiceExpr

/-- The two ends of a range, or something kept for each of them. -/
@[ext] structure Ends (α : Type) where
  low : α
  high : α
  deriving DecidableEq

namespace Ends

/-- Both ends through one function. -/
def map (f : α → β) (e : Ends α) : Ends β := ⟨f e.low, f e.high⟩

/-- Lists of lower and of upper ends, from the ends of each member. -/
def ofList (es : List (Ends α)) : Ends (List α) := ⟨es.map low, es.map high⟩

/-- The smallest range around the images of both ends, whichever way round these lie. -/
def image (f : Value → Value) (e : Ends Value) : Ends Value :=
  ⟨min (f e.low) (f e.high), max (f e.low) (f e.high)⟩

/-- The smallest range around some values. -/
def around? (vals : List Value) : Option (Ends Value) :=
  match vals.min?, vals.max? with
  | some low, some high => some ⟨low, high⟩
  | _, _ => none

/-- The values that two ranges share. -/
def meet? (e f : Ends Value) : Option (Ends Value) :=
  if max e.low f.low ≤ min e.high f.high then some ⟨max e.low f.low, min e.high f.high⟩ else none

/-- The extremes of the values of a range outside of a part of it. -/
def without? (e part : Ends Value) : Option (Ends Value) := do
  let low ←
    if e.low < part.low then some e.low else part.high.succ?.filter fun v => v ≤ e.high
  let high ←
    if part.high < e.high then some e.high else part.low.pred?.filter fun v => e.low ≤ v
  return ⟨low, high⟩

end Ends

end DiceExpr
