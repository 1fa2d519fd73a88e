import DiceExpr.Tree.Basic

namespace DiceExpr

/-- The range of an exploding chain whose target has a range and a split. Either the first result
ends the chain, or it goes on to the limit with passing results. -/
def Split.chain (split : Split) (limit : Nat) (range : Ends Value) : Ends Value :=
  let exhausted (pass : Ends Value) : Ends Value :=
    ⟨(pass.low.times limit).add range.low, (pass.high.times limit).add range.high⟩
  match split.failing, split.passing with
  | some fail, some pass =>
    ⟨min fail.low (exhausted pass).low, max fail.high (exhausted pass).high⟩
  | some fail, none => fail
  | none, some pass => exhausted pass
  | none, none => range

namespace Tree

/-- The split of what a tree of a range can show: the faces of a custom die, else all the range. -/
def split (condition : Condition) (target : Tree) (range : Ends Value) : Split :=
  match target with
  | die (.custom faces) => condition.splitList faces
  | _ => condition.splitRange range

def chainBounds (condition : Condition) (limit : Nat) (target : Tree) (range : Ends Value) :
    Ends Value :=
  (target.split condition range).chain limit range

mutual

/-- The lowest and the highest value of a tree. -/
def bounds : Tree → Ends Value
  | die d => d.ends
  | pool children => (Ends.ofList (boundsList children)).map Value.total
  | modified inner (.calculate op operand) => inner.bounds.image (op.apply · operand)
  | modified inner (.select selection) =>
    inner.partBounds.map fun vals => Value.total (selection.kept vals)
  | modified (pool children) (.explode condition limit) =>
    (Ends.ofList (children.zipWith (chainBounds condition limit) (boundsList children))).map
      Value.total
  | modified inner (.explode condition limit) => chainBounds condition limit inner inner.bounds

/-- The lowest and the highest values of the parts of a tree. What a selection keeps of the lowest
and of the highest values stands for the parts that it keeps. -/
def partBounds : Tree → Ends (List Value)
  | die d => d.ends.map ([·])
  | pool children => Ends.ofList (boundsList children)
  | modified inner (.calculate op operand) =>
    (inner.bounds.image (op.apply · operand)).map ([·])
  | modified inner (.select selection) => inner.partBounds.map selection.kept
  | modified (pool children) (.explode condition limit) =>
    Ends.ofList (children.zipWith (chainBounds condition limit) (boundsList children))
  | modified inner (.explode condition limit) =>
    (chainBounds condition limit inner inner.bounds).map ([·])

def boundsList : List Tree → List (Ends Value)
  | [] => []
  | t :: rest => t.bounds :: boundsList rest

end

theorem boundsList_eq_map (ts : List Tree) : boundsList ts = ts.map bounds := by
  induction ts with
  | nil => rfl
  | cons t rest ih => rw [boundsList, ih, List.map_cons]

def lowest (t : Tree) : Value := t.bounds.low

def highest (t : Tree) : Value := t.bounds.high

end Tree

end DiceExpr
