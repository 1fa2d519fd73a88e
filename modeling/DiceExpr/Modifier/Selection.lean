import DiceExpr.Fault

namespace DiceExpr

inductive Extreme where
  | high
  | low
  deriving DecidableEq

namespace Extreme

/-- Whether a value goes before another one, although it comes later. -/
def outranks : Extreme → Value → Value → Bool
  | high, a, b => b < a
  | low, a, b => a < b

/-- The rank of each value: how many of the others go before it. Those of `before` come earlier than
all the values. -/
def ranks (e : Extreme) (before : List Value) : List Value → List Nat
  | [] => []
  | v :: after =>
    (before.countP (fun w => !e.outranks v w) + after.countP fun w => e.outranks w v) ::
      e.ranks (v :: before) after

theorem length_ranks (e : Extreme) (before vals : List Value) :
    (e.ranks before vals).length = vals.length := by
  induction vals generalizing before with
  | nil => rfl
  | cons v after ih => simp [ranks, ih]

end Extreme

inductive Choice where
  | keep
  | drop
  deriving DecidableEq

/-- Keeps or drops the `count` highest or lowest of some values. -/
structure Selection where
  choice : Choice
  extreme : Extreme
  count : Nat
  deriving DecidableEq

namespace Selection

def symbol (s : Selection) : Text :=
  match s.choice, s.extreme with
  | .keep, .high => ['K', 'H']
  | .keep, .low => ['K', 'L']
  | .drop, .high => ['D', 'H']
  | .drop, .low => ['D', 'L']

def all (count : Nat) : List Selection :=
  [⟨.keep, .high, count⟩, ⟨.keep, .low, count⟩, ⟨.drop, .high, count⟩, ⟨.drop, .low, count⟩]

def ofSymbol? (symbol : Text) (count : Nat) : Except Fault Selection :=
  match (all count).find? (·.symbol = symbol) with
  | some s => .ok s
  | none => .error (.unknownSymbol symbol)

@[simp] theorem ofSymbol?_symbol (s : Selection) : ofSymbol? s.symbol s.count = .ok s := by
  obtain ⟨choice, extreme, count⟩ := s
  cases choice <;> cases extreme <;> rfl

def text (s : Selection) : Text := s.symbol ++ Text.ofNat s.count

/-- How many of `available` values are kept. -/
def remaining (s : Selection) (available : Nat) : Nat :=
  match s.choice with
  | .keep => min s.count available
  | .drop => available - s.count

/-- Whether the value of a rank is kept. -/
def keeps (s : Selection) (rank : Nat) : Bool :=
  match s.choice with
  | .keep => rank < s.count
  | .drop => s.count ≤ rank

/-- Which of the values are kept, in their order. -/
def mask (s : Selection) (vals : List Value) : List Bool :=
  (s.extreme.ranks [] vals).map s.keeps

@[simp] theorem length_mask (s : Selection) (vals : List Value) :
    (s.mask vals).length = vals.length := by
  simp [mask, Extreme.length_ranks]

/-- The items that a mask marks. -/
def marked : List Bool → List α → List α
  | true :: mask, item :: items => item :: marked mask items
  | false :: mask, _ :: items => marked mask items
  | _, _ => []

theorem marked_map (f : α → β) (mask : List Bool) (items : List α) :
    marked mask (items.map f) = (marked mask items).map f := by
  induction mask generalizing items with
  | nil => rfl
  | cons mark mask ih => cases items <;> cases mark <;> simp [marked, ih]

/-- The values that are kept, in their order. -/
def kept (s : Selection) (vals : List Value) : List Value := marked (s.mask vals) vals

end Selection

end DiceExpr
