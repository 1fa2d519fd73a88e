import DiceExpr.Feed.Generator

namespace DiceExpr

/-- A source of numbers with a state of type `σ`. Asked for a number of a range it gives one, or
none if it has run dry. Nothing makes it stay in the range. -/
structure Feed (σ : Type) where
  next : Ends Value → σ → Option (Value × σ)

/-- The kinds of numbers that dice can be fed with. -/
inductive Supply where
  | highest
  | lowest
  /-- These numbers in turn, whatever range is asked for. -/
  | listed (numbers : List Value)
  | random (generator : Generator)
  deriving DecidableEq

namespace Supply

def next (range : Ends Value) : Supply → Option (Value × Supply)
  | highest => some (max range.high range.low, highest)
  | lowest => some (range.low, lowest)
  | listed [] => none
  | listed (v :: rest) => some (v, listed rest)
  | random g => (g.value range).map fun (v, g) => (v, random g)

def feed : Feed Supply := ⟨next⟩

def ofSeed (seed : UInt64) : Supply := random ⟨seed⟩

/-- How many numbers of a list are left. -/
def left? : Supply → Option Nat
  | listed numbers => some numbers.length
  | _ => none

/-- What is said where a number is missing. -/
def dryMessage : String := "iterator is finished"

end Supply

end DiceExpr
