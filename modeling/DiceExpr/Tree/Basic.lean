import DiceExpr.Die
import DiceExpr.Modifier.Basic

namespace DiceExpr

/-- What can be rolled: a die, the sum of some trees, or a tree whose results are transformed. -/
inductive Tree where
  | die (die : Die)
  | pool (children : List Tree)
  | modified (inner : Tree) (modifier : Modifier)

namespace Tree

mutual

def decEq : (a b : Tree) → Decidable (a = b)
  | die a, die b =>
    if h : a = b then isTrue (congrArg die h) else isFalse fun e => h (die.inj e)
  | pool as, pool bs =>
    match decEqList as bs with
    | isTrue h => isTrue (congrArg pool h)
    | isFalse h => isFalse fun e => h (pool.inj e)
  | modified a m, modified b n =>
    match decEq a b with
    | isTrue h =>
      if g : m = n then isTrue (h ▸ g ▸ rfl) else isFalse fun e => g (modified.inj e).2
    | isFalse h => isFalse fun e => h (modified.inj e).1
  | die _, pool _ => isFalse nofun
  | die _, modified .. => isFalse nofun
  | pool _, die _ => isFalse nofun
  | pool _, modified .. => isFalse nofun
  | modified .., die _ => isFalse nofun
  | modified .., pool _ => isFalse nofun

def decEqList : (as bs : List Tree) → Decidable (as = bs)
  | [], [] => isTrue rfl
  | a :: as, b :: bs =>
    match decEq a b with
    | isTrue h =>
      match decEqList as bs with
      | isTrue g => isTrue (h ▸ g ▸ rfl)
      | isFalse g => isFalse fun e => g (List.cons.inj e).2
    | isFalse h => isFalse fun e => h (List.cons.inj e).1
  | [], _ :: _ => isFalse nofun
  | _ :: _, [] => isFalse nofun

end

instance : DecidableEq Tree := decEq

def isEmptyPool : Tree → Bool
  | pool [] => true
  | _ => false

/-- The pool of some trees, less the empty pools among them. -/
def ofList (children : List Tree) : Tree := pool (children.filter fun t => !t.isEmptyPool)

def replicate (n : Nat) (t : Tree) : Tree := ofList (List.replicate n t)

/-- A pool with one more child at its end, unless that is an empty pool. -/
def push? : Tree → Tree → Option Tree
  | pool children, t => some (pool (if t.isEmptyPool then children else children ++ [t]))
  | _, _ => none

/-- A pool of one child is that child. -/
def collapse : Tree → Tree
  | pool [only] => only
  | t => t

/-- How many parts there are to select from: the children of a pool, the parts that a selection
keeps, the chains of an exploding pool. Any other tree has one part. -/
def partCount : Tree → Nat
  | pool children => children.length
  | modified inner (.select selection) => selection.remaining inner.partCount
  | modified (pool children) (.explode ..) => children.length
  | _ => 1

/-- A modifier fits if it does not divide by zero or select more parts than there are. -/
def check (inner : Tree) : Modifier → Except Fault Unit
  | .calculate .div operand => if operand = 0 then .error (.illegal .divisor 0) else .ok ()
  | .select selection =>
    if inner.partCount < selection.count then
      .error (.overLimit selection.count inner.partCount)
    else .ok ()
  | _ => .ok ()

def modify? (inner : Tree) (modifier : Modifier) : Except Fault Tree := do
  inner.check modifier
  return modified inner modifier

def kind : Tree → String
  | die d => d.kind
  | pool _ => "Pool"
  | modified _ modifier => modifier.kind

end Tree

end DiceExpr
