namespace DiceExpr

/-- A whole number in the range of signed 64-bit words. -/
@[ext] structure Value where
  toInt : Int
  least_le : -9223372036854775808 ≤ toInt
  le_greatest : toInt ≤ 9223372036854775807
  deriving DecidableEq

namespace Value

/-- The value nearest to a number: the number itself, or the end of the range it lies beyond. -/
def clamp (n : Int) : Value :=
  ⟨max (-9223372036854775808) (min n 9223372036854775807), by omega, by omega⟩

theorem toInt_clamp (n : Int) :
    (clamp n).toInt = max (-9223372036854775808) (min n 9223372036854775807) := rfl

theorem toInt_clamp_of_mem {n : Int} (hl : -9223372036854775808 ≤ n)
    (hh : n ≤ 9223372036854775807) : (clamp n).toInt = n := by
  rw [toInt_clamp]
  omega

@[simp] theorem clamp_toInt (a : Value) : clamp a.toInt = a :=
  Value.ext (toInt_clamp_of_mem a.least_le a.le_greatest)

instance (n : Nat) : OfNat Value n := ⟨clamp n⟩

instance : Inhabited Value := ⟨0⟩

def least : Value := clamp (-9223372036854775808)

def greatest : Value := clamp 9223372036854775807

instance : LE Value := ⟨fun a b => a.toInt ≤ b.toInt⟩

instance : LT Value := ⟨fun a b => a.toInt < b.toInt⟩

instance (a b : Value) : Decidable (a ≤ b) := inferInstanceAs (Decidable (a.toInt ≤ b.toInt))

instance (a b : Value) : Decidable (a < b) := inferInstanceAs (Decidable (a.toInt < b.toInt))

theorem le_def {a b : Value} : a ≤ b ↔ a.toInt ≤ b.toInt := Iff.rfl

theorem lt_def {a b : Value} : a < b ↔ a.toInt < b.toInt := Iff.rfl

instance : Min Value := ⟨fun a b => if a ≤ b then a else b⟩

instance : Max Value := ⟨fun a b => if a ≤ b then b else a⟩

/-- Every operation is the exact one, brought back into the range. -/
def add (a b : Value) : Value := clamp (a.toInt + b.toInt)

def sub (a b : Value) : Value := clamp (a.toInt - b.toInt)

def mul (a b : Value) : Value := clamp (a.toInt * b.toInt)

/-- The quotient without its fraction; division by zero leaves the dividend. -/
def div (a b : Value) : Value := if b = 0 then a else clamp (a.toInt.tdiv b.toInt)

instance : Neg Value := ⟨fun a => clamp (-a.toInt)⟩

/-- A value taken `n` times. -/
def times (a : Value) (n : Nat) : Value := clamp (a.toInt * n)

/-- The sum from left to right; every partial sum is kept in the range. -/
def total (vals : List Value) : Value := vals.foldl add 0

@[simp] theorem total_nil : total [] = 0 := rfl

@[simp] theorem zero_add (a : Value) : add 0 a = a := by
  change clamp (0 + a.toInt) = a
  simp

@[simp] theorem total_singleton (a : Value) : total [a] = a := zero_add a

theorem total_concat (vals : List Value) (a : Value) :
    total (vals ++ [a]) = add (total vals) a := by
  simp [total]

/-- The next value up, if the range has one. -/
def succ? (a : Value) : Option Value :=
  if a.toInt < 9223372036854775807 then some (clamp (a.toInt + 1)) else none

/-- The next value down, if the range has one. -/
def pred? (a : Value) : Option Value :=
  if -9223372036854775808 < a.toInt then some (clamp (a.toInt - 1)) else none

end Value

end DiceExpr
