import DiceExpr.Text.Basic

namespace DiceExpr

/-- What a value was meant to be. -/
inductive Purpose where
  | quantity
  | divisor
  | selected
  | faces
  deriving DecidableEq

def Purpose.name : Purpose → String
  | quantity => "quantity"
  | divisor => "divisor"
  | selected => "drop/keep count"
  | faces => "custom die face count"

/-- Why a text does not stand for a tree. -/
inductive Fault where
  /-- The grammar has no place for the text from here on. -/
  | unreadable (rest : Text)
  | tooFewSides (sides : Value)
  | illegal (purpose : Purpose) (value : Value)
  /-- More dice, parts or nested groups than there may be. -/
  | overLimit (count limit : Nat)
  | unknownSymbol (symbol : Text)
  deriving DecidableEq

namespace Fault

def message : Fault → Text
  | unreadable rest => "unknown expression: `".toList ++ rest ++ "`".toList
  | tooFewSides sides =>
    "a die needs at least 2 sides, but ".toList ++ sides.text ++ " were given".toList
  | illegal purpose value =>
    "illegal ".toList ++ purpose.name.toList ++ ": ".toList ++ value.text
  | overLimit count limit =>
    Text.ofNat count ++ " exceeds the limit of ".toList ++ Text.ofNat limit
  | unknownSymbol symbol => "unknown algorithm: `".toList ++ symbol ++ "`".toList

end Fault

end DiceExpr
