import DiceExpr.Text.Basic

namespace DiceExpr

/-- A type of dice as it is written. -/
inductive DieToken where
  | sides (n : Value)
  | fudge
  | percentile
  | custom (faces : List Value)
  deriving DecidableEq

inductive ModifierKind where
  | calculate
  | select
  | explode
  deriving DecidableEq

/-- A modifier as it is written: a symbol and the number after it. -/
structure ModifierToken where
  kind : ModifierKind
  symbol : Text
  value : Value
  deriving DecidableEq

/-- A term of a written sum, equal dice or a group in parentheses, with its modifiers. -/
inductive Term where
  | dice (quantity : Option Value) (type : DieToken) (modifiers : List ModifierToken)
  | group (inner : List Term) (modifiers : List ModifierToken)

namespace Term

/-- Adds a modifier after those that the term has. -/
def attach (m : ModifierToken) : Term → Term
  | dice quantity type modifiers => dice quantity type (modifiers ++ [m])
  | group inner modifiers => group inner (modifiers ++ [m])

def modifiers : Term → List ModifierToken
  | dice _ _ modifiers => modifiers
  | group _ modifiers => modifiers

mutual

/-- How deep groups are nested in a term. -/
def depth : Term → Nat
  | dice .. => 0
  | group inner _ => depths inner + 1

def depths : List Term → Nat
  | [] => 0
  | t :: rest => max t.depth (depths rest)

end

end Term

end DiceExpr
