import DiceExpr.Modifier.Condition
import DiceExpr.Modifier.Operator
import DiceExpr.Modifier.Selection

namespace DiceExpr

/-- What is done with the results of one tree. -/
inductive Modifier where
  | calculate (op : Operator) (operand : Value)
  /-- Sums only the selected parts. -/
  | select (selection : Selection)
  /-- Rolls again as long as the condition holds, at most `limit` times. -/
  | explode (condition : Condition) (limit : Nat)
  deriving DecidableEq

namespace Modifier

/-- The sign of equality is not written. -/
def text : Modifier → Text
  | calculate op operand => op.symbol ++ operand.text
  | select selection => selection.text
  | explode ⟨.eq, expected⟩ _ => '!' :: expected.text
  | explode condition _ => '!' :: condition.text

def kind : Modifier → String
  | calculate .. => "Arithmetic"
  | select _ => "DropKeep"
  | explode .. => "Explode"

end Modifier

end DiceExpr
