import DiceExpr.Modifier.Condition
import DiceExpr.Reader
import DiceExpr.Term.Basic
import DiceExpr.Text.Normal

namespace DiceExpr

/-- What may follow the first term of a sum. -/
inductive Link where
  | joined (next : Term)
  | modified (m : ModifierToken)

namespace Reader

def faces : Reader (List Value) := do
  char '['
  let first ← signed
  let others ← many do
    char ','
    signed
  char ']'
  return first :: others

def dieToken : Reader DieToken :=
  (.sides <$> number) <|>
  ((fun _ => .fudge) <$> char 'F') <|>
  ((fun _ => .percentile) <$> char '%') <|>
  (.custom <$> faces)

def dice : Reader Term := do
  let quantity ← optional number
  char 'D'
  let type ← dieToken
  return .dice quantity type []

/-- Where one symbol begins with another, the longer one is tried first. -/
def comparator : Reader Comparator :=
  [Comparator.gte, .lte, .gt, .lt, .eq].foldr
    (fun c others => ((fun _ => c) <$> word c.symbol) <|> others) fail

def calculation : Reader ModifierToken := do
  let op ← oneOf ['+', '-', '*', '/']
  let operand ← number
  return ⟨.calculate, [op], operand⟩

def selection : Reader ModifierToken := do
  let choice ← oneOf ['K', 'D']
  let extreme ← oneOf ['H', 'L']
  let count ← number
  return ⟨.select, [choice, extreme], count⟩

/-- Without a comparator the value itself is meant. -/
def explosion : Reader ModifierToken := do
  char '!'
  let c ← optional comparator
  let expected ← signed
  return ⟨.explode, (c.getD .eq).symbol, expected⟩

def modifierToken : Reader ModifierToken := calculation <|> selection <|> explosion

def group (inside : Reader (List Term)) : Reader Term := do
  char '('
  let inner ← nested do
    let inner ← inside
    char ')'
    return inner
  return .group inner []

def operand (inside : Reader (List Term)) : Reader Term := dice <|> group inside

/-- A `+` adds a number only where no further term follows it. -/
def link (inside : Reader (List Term)) : Reader Link :=
  (do
    char '+'
    .joined <$> operand inside) <|>
  (.modified <$> modifierToken)

/-- The terms of a sum. Each modifier belongs to the term before it. -/
def gather (current : Term) : List Link → List Term
  | [] => [current]
  | .joined next :: links => current :: gather next links
  | .modified m :: links => gather (current.attach m) links

/-- A sum in which groups are nested less than `levels` deep. -/
def sumWithin : Nat → Reader (List Term)
  | 0 => fail
  | levels + 1 => do
    let first ← operand (sumWithin levels)
    let links ← many (link (sumWithin levels))
    return gather first links

/-- A sum. Its text cannot open more groups than it has characters. -/
def sum : Reader (List Term) := fun text => sumWithin (text.length + 1) text

end Reader

namespace Term

/-- The text to blame for a failed reading: from the miss on, or all of it if the miss is at the
end. -/
def blamed (text : Text) (trail : Trail) : Text :=
  match trail.miss with
  | some ⟨c :: rest, _⟩ => c :: rest
  | _ => text

/-- The terms written in a normal text. -/
def read (text : Text) : Except Fault (List Term) :=
  if text.isEmpty then .ok []
  else
    match Reader.sum.whole text with
    | ⟨some (terms, _), _⟩ => .ok terms
    | ⟨none, trail⟩ => .error (.unreadable (blamed text trail))

def ofText? (text : Text) : Except Fault (List Term) := read text.normal

end Term

end DiceExpr
