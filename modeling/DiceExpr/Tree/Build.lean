import DiceExpr.Term.Read
import DiceExpr.Tree.Basic

namespace DiceExpr

/-- The limits of what is built. -/
structure Limits where
  /-- The most dice written with one count. -/
  mostDice : Nat := 1000
  /-- How often an exploding tree is rolled again at most. -/
  mostRerolls : Nat := 100
  /-- How deep groups are nested at most. -/
  deepestGroup : Nat := 32
  deriving DecidableEq

def DieToken.die? : DieToken → Except Fault Die
  | sides n => Die.sided? n
  | fudge => .ok .fudge
  | percentile => .ok .percentile
  | custom faces => Die.custom? faces

namespace Limits

/-- Without a quantity there is one die. -/
def quantity? (limits : Limits) (written : Option Value) : Except Fault Nat :=
  let n := written.getD 1
  if n < 1 then .error (.illegal .quantity n)
  else if limits.mostDice < n.toInt.toNat then
    .error (.overLimit n.toInt.toNat limits.mostDice)
  else .ok n.toInt.toNat

def modifier? (limits : Limits) : ModifierToken → Except Fault Modifier
  | ⟨.calculate, symbol, value⟩ => do
    let op ← Operator.ofSymbol? symbol
    return .calculate op value
  | ⟨.select, symbol, value⟩ =>
    if value < 0 then .error (.illegal .selected value)
    else do
      let selection ← Selection.ofSymbol? symbol value.toInt.toNat
      return .select selection
  | ⟨.explode, symbol, value⟩ => do
    let comparator ← Comparator.ofSymbol? symbol
    return .explode ⟨comparator, value⟩ limits.mostRerolls

/-- Each modifier applies to the tree with those before it. -/
def modifyAll? (limits : Limits) (t : Tree) : List ModifierToken → Except Fault Tree
  | [] => .ok t
  | token :: rest => do
    let modifier ← limits.modifier? token
    let modified ← t.modify? modifier
    limits.modifyAll? modified rest

mutual

/-- The tree of a term. A die is checked before its quantity. -/
def term? (limits : Limits) : Term → Except Fault Tree
  | .dice quantity type modifiers => do
    let die ← type.die?
    let n ← limits.quantity? quantity
    let t ← limits.modifyAll? (.replicate n (.die die)) modifiers
    return t.collapse
  | .group inner modifiers => do
    let trees ← limits.terms? inner
    let t ← limits.modifyAll? (Tree.ofList trees).collapse modifiers
    return t.collapse

def terms? (limits : Limits) : List Term → Except Fault (List Tree)
  | [] => .ok []
  | t :: rest => do
    let tree ← limits.term? t
    let trees ← limits.terms? rest
    return tree :: trees

end

/-- The tree of a written sum. -/
def sum? (limits : Limits) (terms : List Term) : Except Fault Tree := do
  let trees ← limits.terms? terms
  return (Tree.ofList trees).collapse

def checkDepth (limits : Limits) (depth : Nat) : Except Fault Unit :=
  if limits.deepestGroup < depth then .error (.overLimit depth limits.deepestGroup) else .ok ()

end Limits

namespace Tree

def ofTerms? (limits : Limits) (terms : List Term) : Except Fault Tree := do
  limits.checkDepth (Term.depths terms)
  limits.sum? terms

/-- The tree that a text stands for. Its depth is checked before it is read. -/
def ofText? (limits : Limits) (text : Text) : Except Fault Tree := do
  limits.checkDepth text.parenDepth
  let terms ← Term.ofText? text
  ofTerms? limits terms

end Tree

end DiceExpr
