import DiceExpr.Fault

namespace DiceExpr

inductive Operator where
  | add
  | sub
  | mul
  | div
  deriving DecidableEq

namespace Operator

def symbol : Operator → Text
  | add => ['+']
  | sub => ['-']
  | mul => ['*']
  | div => ['/']

def all : List Operator := [add, sub, mul, div]

def ofSymbol? (symbol : Text) : Except Fault Operator :=
  match all.find? (·.symbol = symbol) with
  | some op => .ok op
  | none => .error (.unknownSymbol symbol)

@[simp] theorem ofSymbol?_symbol (op : Operator) : ofSymbol? op.symbol = .ok op := by
  cases op <;> rfl

theorem symbol_of_ofSymbol? {symbol : Text} {op : Operator} (h : ofSymbol? symbol = .ok op) :
    op.symbol = symbol := by
  unfold ofSymbol? at h
  split at h
  · next found hf =>
    cases h
    simpa using List.find?_some hf
  · cases h

def apply : Operator → Value → Value → Value
  | add => Value.add
  | sub => Value.sub
  | mul => Value.mul
  | div => Value.div

end Operator

end DiceExpr
