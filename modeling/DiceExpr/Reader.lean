import DiceExpr.Text.Basic

namespace DiceExpr

/-- A failed test of the text. -/
structure Miss where
  /-- The text from the failed character on. -/
  rest : Text
  /-- How many characters lie beyond the place of the test. -/
  left : Nat
  deriving DecidableEq

/-- What a reader leaves behind, also in the attempts that it gave up. -/
structure Trail where
  /-- Of the misses that lie farthest on, the first one. -/
  miss : Option Miss
  /-- The most groups that were open at once. -/
  deepest : Nat
  deriving DecidableEq

namespace Trail

def blank : Trail := ⟨none, 0⟩

/-- Of two misses the later one counts only if it lies farther on. -/
def farther : Option Miss → Option Miss → Option Miss
  | some m, some n => if n.left < m.left then some n else some m
  | some m, none => some m
  | none, n => n

def append (t u : Trail) : Trail := ⟨farther t.miss u.miss, max t.deepest u.deepest⟩

end Trail

/-- What was read and the text after it, or nothing if the text does not fit. -/
structure Reply (α : Type) where
  result : Option (α × Text)
  trail : Trail
  deriving DecidableEq

namespace Reply

/-- The reply of a reader that came after another one. -/
def after (earlier : Trail) : Reply α → Reply α
  | ⟨result, trail⟩ => ⟨result, earlier.append trail⟩

/-- The reply of a reader inside of a group. -/
def nested : Reply α → Reply α
  | ⟨result, ⟨miss, deepest⟩⟩ => ⟨result, ⟨miss, deepest + 1⟩⟩

@[simp] theorem result_after (earlier : Trail) (r : Reply α) :
    (r.after earlier).result = r.result := rfl

@[simp] theorem result_nested (r : Reply α) : r.nested.result = r.result := rfl

end Reply

/-- Reads the front of a text. -/
def Reader (α : Type) := Text → Reply α

namespace Reader

def give (a : α) : Reader α := fun text => ⟨some (a, text), .blank⟩

def fail : Reader α := fun _ => ⟨none, .blank⟩

def miss (m : Miss) : Reply α := ⟨none, ⟨some m, 0⟩⟩

def bind (p : Reader α) (f : α → Reader β) : Reader β := fun text =>
  match p text with
  | ⟨some (a, rest), trail⟩ => (f a rest).after trail
  | ⟨none, trail⟩ => ⟨none, trail⟩

/-- The second reader starts where the first one did, and only if that fails. -/
def orElse (p q : Reader α) : Reader α := fun text =>
  match p text with
  | ⟨some result, trail⟩ => ⟨some result, trail⟩
  | ⟨none, trail⟩ => (q text).after trail

instance : Monad Reader where
  pure := give
  bind := bind

instance : OrElse (Reader α) := ⟨fun p q => p.orElse (q ())⟩

def optional (p : Reader α) : Reader (Option α) := (some <$> p) <|> give none

/-- Reads as often as the reader fits, at most `n` times. -/
def atMost (p : Reader α) : Nat → Reader (List α)
  | 0 => give []
  | n + 1 =>
    (do
      let a ← p
      let rest ← atMost p n
      return a :: rest) <|> give []

/-- Reads as often as the reader fits. If it always takes a character, it fits no more often than
the text has characters. -/
def many (p : Reader α) : Reader (List α) := fun text => atMost p (text.length + 1) text

def char (expected : Char) : Reader Unit
  | [] => miss ⟨[], 0⟩
  | c :: rest =>
    if c = expected then ⟨some ((), rest), .blank⟩ else miss ⟨c :: rest, rest.length + 1⟩

def word : Text → Reader Unit
  | [] => give ()
  | c :: rest => do
    char c
    word rest

/-- One of some characters. The test takes any character before it fails, so that its place is
behind that character. -/
def oneOf (expected : List Char) : Reader Char
  | [] => miss ⟨[], 0⟩
  | c :: rest =>
    if c ∈ expected then ⟨some (c, rest), .blank⟩ else miss ⟨c :: rest, rest.length⟩

/-- The digits of a number. A zero stands alone. -/
def digits : Reader Text
  | [] => miss ⟨[], 0⟩
  | c :: rest =>
    if c = '0' then ⟨some ([c], rest), .blank⟩
    else if c.isDigit then
      ⟨some (c :: rest.takeWhile Char.isDigit, rest.dropWhile Char.isDigit), .blank⟩
    else miss ⟨c :: rest, rest.length + 1⟩

/-- A number beyond the greatest value is read as that. -/
def number : Reader Value := do
  let ds ← digits
  return .clamp (Nat.ofDigitChars 10 ds 0)

def signed : Reader Value := do
  let sign ← optional (char '-')
  let magnitude ← number
  return if sign.isSome then -magnitude else magnitude

/-- Reads inside of an open group. -/
def nested (p : Reader α) : Reader α := fun text => (p text).nested

def ending : Reader Unit
  | [] => ⟨some ((), []), .blank⟩
  | c :: rest => miss ⟨c :: rest, rest.length + 1⟩

/-- Reads a whole text. -/
def whole (p : Reader α) : Reader α := do
  let a ← p
  ending
  return a

end Reader

end DiceExpr
