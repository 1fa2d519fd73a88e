import DiceExpr.Tree.Bounds
import DiceExpr.Tree.Evaluate

namespace DiceExpr.Tree

/-- What an exploding modifier rolls again: each child of a pool, or else the tree itself. -/
def targets : Tree → List Tree
  | pool children => children
  | t => [t]

theorem evaluate_explode (inner : Tree) (condition : Condition) (limit : Nat) :
    (modified inner (.explode condition limit)).evaluate =
      (Play.explode (modified inner (.explode condition limit)) condition limit
        (evaluations inner.targets)).map Parted.roll := by
  cases inner <;> rfl

/-- The parts of an explosion come from the same play, chain by chain or all in one. -/
theorem exists_parts_explode (inner : Tree) (condition : Condition) (limit : Nat) :
    ∃ view : Parted → List Roll, (modified inner (.explode condition limit)).parts =
      (Play.explode (modified inner (.explode condition limit)) condition limit
        (evaluations inner.targets)).map view := by
  cases inner <;> exact ⟨_, rfl⟩

mutual

/-- The trees that a tree is made of, the tree itself first. -/
def nodes : Tree → List Tree
  | t@(die _) => [t]
  | t@(pool children) => t :: nodesList children
  | t@(modified inner _) => t :: inner.nodes

def nodesList : List Tree → List Tree
  | [] => []
  | t :: rest => t.nodes ++ nodesList rest

end

theorem nodesList_eq_flatMap (ts : List Tree) : nodesList ts = ts.flatMap nodes := by
  induction ts with
  | nil => rfl
  | cons t rest ih => rw [nodesList, ih, List.flatMap_cons]

theorem mem_nodes_self (t : Tree) : t ∈ t.nodes := by
  cases t <;> simp [nodes]

theorem forall_nodes_pool {P : Tree → Prop} {children : List Tree} :
    (∀ n ∈ (pool children).nodes, P n) ↔
      P (pool children) ∧ ∀ c ∈ children, ∀ n ∈ c.nodes, P n := by
  rw [nodes, nodesList_eq_flatMap, List.forall_mem_cons]
  refine and_congr_right fun _ => ?_
  constructor
  · intro h c hc n hn
    exact h n (List.mem_flatMap_of_mem hc hn)
  · intro h n hn
    obtain ⟨c, hc, hn⟩ := List.mem_flatMap.mp hn
    exact h c hc n hn

theorem forall_nodes_modified {P : Tree → Prop} {inner : Tree} {m : Modifier} :
    (∀ n ∈ (modified inner m).nodes, P n) ↔ P (modified inner m) ∧ ∀ n ∈ inner.nodes, P n := by
  rw [nodes, List.forall_mem_cons]

theorem mem_nodes_of_target {t target n : Tree} (ht : target ∈ t.targets) (hn : n ∈ target.nodes) :
    n ∈ t.nodes := by
  cases t with
  | pool children =>
    rw [nodes, nodesList_eq_flatMap]
    exact List.mem_cons_of_mem _ (List.mem_flatMap_of_mem ht hn)
  | die d => exact List.mem_singleton.mp ht ▸ hn
  | modified inner m => exact List.mem_singleton.mp ht ▸ hn

@[elab_as_elim]
theorem plainInduction {motive : Tree → Prop} (die : ∀ d, motive (die d))
    (pool : ∀ children, (∀ c ∈ children, motive c) → motive (pool children))
    (modified : ∀ inner m, motive inner → motive (modified inner m)) (t : Tree) : motive t := by
  refine @Tree.rec motive (fun ts => ∀ t ∈ ts, motive t) die pool modified ?_ ?_ t
  · intro t h
    cases h
  · intro t rest ht hrest s hs
    rcases List.mem_cons.mp hs with rfl | hs
    · exact ht
    · exact hrest s hs

/-- Induction along the kinds of nodes. What explodes gives a hypothesis for each of its targets. -/
@[elab_as_elim]
theorem induction {motive : Tree → Prop} (die : ∀ d, motive (die d))
    (pool : ∀ children, (∀ c ∈ children, motive c) → motive (pool children))
    (calculate : ∀ inner op operand, motive inner → motive (modified inner (.calculate op operand)))
    (select : ∀ inner selection, motive inner → motive (modified inner (.select selection)))
    (explode : ∀ inner condition limit, (∀ t ∈ inner.targets, motive t) →
      motive (modified inner (.explode condition limit))) (t : Tree) : motive t := by
  -- the children of a pool are targets too, so the motive is carried for both
  have both : motive t ∧ ∀ target ∈ t.targets, motive target := by
    induction t using plainInduction with
    | die d =>
      refine ⟨die d, fun target h => ?_⟩
      rw [List.mem_singleton.mp h]
      exact die d
    | pool children ih =>
      exact ⟨pool children fun c hc => (ih c hc).1, fun c hc => (ih c hc).1⟩
    | modified inner m ih =>
      have hm : motive (modified inner m) := by
        cases m with
        | calculate op operand => exact calculate inner op operand ih.1
        | select selection => exact select inner selection ih.1
        | explode condition limit => exact explode inner condition limit ih.2
      refine ⟨hm, fun target h => ?_⟩
      rw [List.mem_singleton.mp h]
      exact hm
  exact both.1

/-! The bounds, with the targets of an explosion in one form -/

theorem bounds_pool (children : List Tree) :
    (pool children).bounds = (Ends.ofList (children.map bounds)).map Value.total := by
  rw [bounds, boundsList_eq_map]

theorem partBounds_pool (children : List Tree) :
    (pool children).partBounds = Ends.ofList (children.map bounds) := by
  rw [partBounds, boundsList_eq_map]

theorem partBounds_explode (inner : Tree) (condition : Condition) (limit : Nat) :
    (modified inner (.explode condition limit)).partBounds =
      Ends.ofList (inner.targets.map fun t => chainBounds condition limit t t.bounds) := by
  cases inner with
  | die d => rfl
  | pool children =>
    rw [partBounds, boundsList_eq_map, List.zipWith_map_right, List.zipWith_self]
    rfl
  | modified inner m => rfl

theorem bounds_explode (inner : Tree) (condition : Condition) (limit : Nat) :
    (modified inner (.explode condition limit)).bounds =
      (modified inner (.explode condition limit)).partBounds.map Value.total := by
  cases inner with
  | die d => simp [bounds, partBounds, Ends.map]
  | pool children => rfl
  | modified inner m => simp [bounds, partBounds, Ends.map]

end DiceExpr.Tree
