import DiceExpr.Proofs.Nodes
import DiceExpr.Term.Basic

namespace DiceExpr

namespace Tree

def die? : Tree → Option Die
  | die d => some d
  | _ => none

def modifier? : Tree → Option Modifier
  | modified _ m => some m
  | _ => none

/-- The dice of a tree, in their order. -/
def leaves (t : Tree) : List Die := t.nodes.filterMap die?

def modifiers (t : Tree) : List Modifier := t.nodes.filterMap modifier?

@[simp] theorem leaves_die (d : Die) : (die d).leaves = [d] := rfl

@[simp] theorem leaves_pool (children : List Tree) :
    (pool children).leaves = children.flatMap leaves := by
  have hroot : die? (pool children) = none := rfl
  rw [leaves, nodes, nodesList_eq_flatMap, List.filterMap_cons_none hroot, List.filterMap_flatMap]
  rfl

@[simp] theorem leaves_modified (inner : Tree) (m : Modifier) :
    (modified inner m).leaves = inner.leaves := by
  have hroot : die? (modified inner m) = none := rfl
  rw [leaves, nodes, List.filterMap_cons_none hroot]
  rfl

@[simp] theorem modifiers_die (d : Die) : (die d).modifiers = [] := rfl

@[simp] theorem modifiers_pool (children : List Tree) :
    (pool children).modifiers = children.flatMap modifiers := by
  have hroot : modifier? (pool children) = none := rfl
  rw [modifiers, nodes, nodesList_eq_flatMap, List.filterMap_cons_none hroot,
    List.filterMap_flatMap]
  rfl

@[simp] theorem modifiers_modified (inner : Tree) (m : Modifier) :
    (modified inner m).modifiers = m :: inner.modifiers := by
  have hroot : modifier? (modified inner m) = some m := rfl
  rw [modifiers, nodes, List.filterMap_cons_some hroot]
  rfl

end Tree

namespace Term

@[elab_as_elim]
theorem induction {motive : Term → Prop}
    (dice : ∀ quantity type modifiers, motive (dice quantity type modifiers))
    (group : ∀ inner modifiers, (∀ s ∈ inner, motive s) → motive (group inner modifiers))
    (s : Term) : motive s := by
  refine @Term.rec motive (fun ts => ∀ s ∈ ts, motive s) dice group ?_ ?_ s
  · intro s h
    cases h
  · intro t rest ht hrest s hs
    rcases List.mem_cons.mp hs with rfl | hs
    · exact ht
    · exact hrest s hs

/-- How many dice a quantity stands for. -/
def amount (quantity : Option Value) : Nat := (quantity.getD 1).toInt.toNat

mutual

/-- The dice as a term writes them, also in its groups: how many, and of which type. -/
def counts : Term → List (Option Value × DieToken)
  | dice quantity type _ => [(quantity, type)]
  | group inner _ => countsList inner

def countsList : List Term → List (Option Value × DieToken)
  | [] => []
  | t :: rest => t.counts ++ countsList rest

end

mutual

/-- The modifiers that a term writes, also in its groups. -/
def tokens : Term → List ModifierToken
  | dice _ _ modifiers => modifiers
  | group inner modifiers => tokensList inner ++ modifiers

def tokensList : List Term → List ModifierToken
  | [] => []
  | t :: rest => t.tokens ++ tokensList rest

end

theorem countsList_eq_flatMap (ts : List Term) : countsList ts = ts.flatMap counts := by
  induction ts with
  | nil => rfl
  | cons t rest ih => rw [countsList, ih, List.flatMap_cons]

theorem tokensList_eq_flatMap (ts : List Term) : tokensList ts = ts.flatMap tokens := by
  induction ts with
  | nil => rfl
  | cons t rest ih => rw [tokensList, ih, List.flatMap_cons]

theorem mem_tokens_of_mem_modifiers {t : Term} {m : ModifierToken} (h : m ∈ t.modifiers) :
    m ∈ t.tokens := by
  cases t with
  | dice _ _ _ => exact h
  | group inner _ => exact List.mem_append_right (tokensList inner) h

theorem counts_attach (t : Term) (m : ModifierToken) : (t.attach m).counts = t.counts := by
  cases t with
  | dice _ _ _ => rfl
  | group _ _ => simp only [attach, counts]

theorem tokens_attach (t : Term) (m : ModifierToken) : (t.attach m).tokens = t.tokens ++ [m] := by
  cases t with
  | dice _ _ _ => rfl
  | group _ _ => simp only [attach, tokens, List.append_assoc]

end Term

end DiceExpr
