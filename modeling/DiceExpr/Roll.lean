import DiceExpr.Modifier.Operator

namespace DiceExpr

/-- The result of an evaluation, with the calculation that led to it. -/
@[ext] structure Roll where
  value : Value
  trace : Text
  deriving DecidableEq

namespace Roll

def ofValue (v : Value) : Roll := ⟨v, v.text⟩

/-- The trace as a part of a larger one: in parentheses if it holds a `+`. -/
def operand (r : Roll) : Text := if '+' ∈ r.trace then r.trace.parenthesised else r.trace

def plus : Text := [' ', '+', ' ']

/-- The rolls added up from left to right. -/
def added (rolls : List Roll) : Roll :=
  ⟨Value.total (rolls.map value), Text.joined plus (rolls.map operand)⟩

/-- The sum of a group: one roll stands for itself, no roll for zero. -/
def sum : List Roll → Roll
  | [] => ofValue 0
  | [r] => r
  | rolls => added rolls

theorem value_sum (rolls : List Roll) : (sum rolls).value = Value.total (rolls.map value) := by
  match rolls with
  | [] => rfl
  | [r] => simp [sum]
  | _ :: _ :: _ => rfl

def calculate (r : Roll) (op : Operator) (operand : Value) : Roll :=
  ⟨op.apply r.value operand, r.operand ++ ' ' :: op.symbol ++ ' ' :: operand.text⟩

def droppedMark : Text := [' ', '(', 'd', ')']

/-- The trace of some rolls, those that the mask leaves out marked as dropped. -/
def maskedTrace (mask : List Bool) (rolls : List Roll) : Text :=
  if rolls.isEmpty then ['0']
  else Text.joined plus
    (rolls.zipWith (fun r keep => if keep then r.operand else r.operand ++ droppedMark) mask)

def text (r : Roll) : Text := r.trace ++ ' ' :: '=' :: ' ' :: r.value.text

end Roll

end DiceExpr
