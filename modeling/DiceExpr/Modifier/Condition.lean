import DiceExpr.Ends
import DiceExpr.Fault

namespace DiceExpr

inductive Comparator where
  | eq
  | gt
  | gte
  | lt
  | lte
  deriving DecidableEq

namespace Comparator

def symbol : Comparator → Text
  | eq => ['=']
  | gt => ['>']
  | gte => ['>', '=']
  | lt => ['<']
  | lte => ['<', '=']

def all : List Comparator := [eq, gt, gte, lt, lte]

def ofSymbol? (symbol : Text) : Except Fault Comparator :=
  match all.find? (·.symbol = symbol) with
  | some c => .ok c
  | none => .error (.unknownSymbol symbol)

@[simp] theorem ofSymbol?_symbol (c : Comparator) : ofSymbol? c.symbol = .ok c := by
  cases c <;> rfl

end Comparator

/-- A test of values against a fixed one. -/
structure Condition where
  comparator : Comparator
  expected : Value
  deriving DecidableEq

/-- The extremes of those values that pass a condition and of those that fail it. -/
structure Split where
  passing : Option (Ends Value)
  failing : Option (Ends Value)
  deriving DecidableEq

namespace Condition

def check (c : Condition) (v : Value) : Bool :=
  match c.comparator with
  | .eq => v = c.expected
  | .gt => c.expected < v
  | .gte => c.expected ≤ v
  | .lt => v < c.expected
  | .lte => v ≤ c.expected

def text (c : Condition) : Text := c.comparator.symbol ++ c.expected.text

/-- The range of all values that pass. -/
def passing (c : Condition) : Option (Ends Value) :=
  match c.comparator with
  | .eq => some ⟨c.expected, c.expected⟩
  | .gt => c.expected.succ?.map fun low => ⟨low, .greatest⟩
  | .gte => some ⟨c.expected, .greatest⟩
  | .lt => c.expected.pred?.map fun high => ⟨.least, high⟩
  | .lte => some ⟨.least, c.expected⟩

/-- The part of a range that passes. -/
def passingIn (c : Condition) (range : Ends Value) : Option (Ends Value) :=
  c.passing.bind range.meet?

/-- The split of all values of a range. -/
def splitRange (c : Condition) (range : Ends Value) : Split :=
  match c.passingIn range with
  | none => ⟨none, some range⟩
  | some pass => ⟨some pass, range.without? pass⟩

/-- The split of the values of a list. -/
def splitList (c : Condition) (vals : List Value) : Split :=
  ⟨Ends.around? (vals.filter c.check), Ends.around? (vals.filter fun v => !c.check v)⟩

end Condition

end DiceExpr
