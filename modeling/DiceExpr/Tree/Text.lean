import DiceExpr.Tree.Basic

namespace DiceExpr

/-- Children of one pool that are written alike. -/
structure Batch where
  text : Text
  count : Nat
  /-- Whether the first of them is a die. -/
  isDie : Bool
  deriving DecidableEq

namespace Batch

/-- Counts one more child: in the batch that is written alike, or else in a new one. -/
def insert (text : Text) (isDie : Bool) : List Batch → List Batch
  | [] => [⟨text, 1, isDie⟩]
  | b :: rest =>
    if b.text = text then { b with count := b.count + 1 } :: rest else b :: insert text isDie rest

/-- The batches in the order of their first children. -/
def ofList (children : List (Text × Bool)) : List Batch :=
  children.foldl (fun batches c => insert c.1 c.2 batches) []

/-- The most dice written with one count. -/
def mostDice : Nat := 1000

def counted (text : Text) (n : Nat) : Text := if n = 1 then text else Text.ofNat n ++ text

/-- Dice are counted. Other trees are written again and again. -/
def texts (b : Batch) : List Text :=
  if b.isDie then
    List.replicate (b.count / mostDice) (counted b.text mostDice) ++
      if b.count % mostDice = 0 then [] else [counted b.text (b.count % mostDice)]
  else List.replicate b.count b.text

end Batch

namespace Text

/-- Whether a `+` stands outside of all parentheses, if `isOpen` of them are open at the start. -/
def hasSumAt (isOpen : Nat) : Text → Bool
  | [] => false
  | c :: rest =>
    if c = '(' then hasSumAt (isOpen + 1) rest
    else if c = ')' then hasSumAt (isOpen - 1) rest
    else if c = '+' ∧ isOpen = 0 then true
    else hasSumAt isOpen rest

def hasSum (text : Text) : Bool := hasSumAt 0 text

end Text

namespace Tree

def isDie : Tree → Bool
  | die _ => true
  | _ => false

/-- The text of a pool, from the texts of its children and which of these are dice. -/
def poolText (children : List (Text × Bool)) : Text :=
  if children.isEmpty then ['0']
  else Text.joined ['+'] ((Batch.ofList children).flatMap Batch.texts)

/-- A modifier follows the text it applies to, which is put in parentheses if it is a sum. -/
def modifiedText (inner : Text) (modifier : Modifier) : Text :=
  (if inner.hasSum then inner.parenthesised else inner) ++ modifier.text

mutual

/-- The text that stands for a tree. -/
def text : Tree → Text
  | die d => d.text
  | pool children => poolText (texts children)
  | modified inner modifier => modifiedText inner.text modifier

def texts : List Tree → List (Text × Bool)
  | [] => []
  | t :: rest => (t.text, t.isDie) :: texts rest

end

theorem texts_eq_map (ts : List Tree) : texts ts = ts.map fun t => (t.text, t.isDie) := by
  induction ts with
  | nil => rfl
  | cons t rest ih => rw [texts, ih, List.map_cons]

end Tree

end DiceExpr
