import DiceExpr.Proofs.Contents
import DiceExpr.Proofs.Notation.Formation
import Mathlib.Algebra.GroupWithZero.Nat

namespace DiceExpr

namespace Tree

/-- A pool of one child stands neither in a pool nor anywhere under a modifier but for a die. -/
def SinglesPlaced : Tree → Prop
  | die _ => True
  | pool children => ∀ only, pool [only] ∉ children
  | modified inner _ => ∀ only, inner = pool [only] → only.isDie

/-- What holds at each node of a tree that was built. -/
def WellFormed (limits : Limits) : Tree → Prop
  | die (.sided sides) => 2 ≤ sides
  | die (.custom faces) => faces ≠ []
  | die _ => True
  | pool children => children ≠ [] ∧ ∀ only, pool [only] ∉ children
  | modified inner m => (∀ only, inner = pool [only] → only.isDie) ∧
    match m with
    | .calculate op operand => ¬(op = .div ∧ operand = 0)
    | .select selection => selection.count ≤ inner.partCount
    | .explode _ limit => limit = limits.mostRerolls

theorem wellFormed_die {limits : Limits} {d : Die} (h : d.token.die? = .ok d) :
    (die d).WellFormed limits := by
  cases d with
  | sided sides =>
    simp only [Die.token, DieToken.die?, Die.sided?] at h
    split at h
    · cases h
    · next hsides => exact Int.not_lt.mp hsides
  | percentile => trivial
  | fudge => trivial
  | custom faces =>
    simp only [Die.token, DieToken.die?, Die.custom?] at h
    split at h
    · cases h
    · next hfaces => exact fun hnil => hfaces (List.isEmpty_iff.mpr hnil)

theorem check_calculate {inner : Tree} {op : Operator} {operand : Value}
    (h : inner.check (.calculate op operand) = .ok ()) : ¬(op = .div ∧ operand = 0) := by
  intro hzero
  obtain ⟨rfl, rfl⟩ := hzero
  simp [check] at h

theorem check_select {inner : Tree} {selection : Selection}
    (h : inner.check (.select selection) = .ok ()) : selection.count ≤ inner.partCount := by
  by_contra hcount
  have hover : inner.check (.select selection) =
      .error (.overLimit selection.count inner.partCount) := if_pos (Nat.not_le.mp hcount)
  rw [hover] at h
  cases h

theorem modifier?_explode {limits : Limits} {condition : Condition} {limit : Nat}
    (h : limits.modifier? (Modifier.explode condition limit).token =
      .ok (.explode condition limit)) : limit = limits.mostRerolls := by
  simp only [Modifier.token, Limits.modifier?, Comparator.ofSymbol?_symbol, Limits.bind_eq_ok,
    Except.ok.injEq, exists_eq_left', pure, Except.pure, Modifier.explode.injEq] at h
  exact h.2.symm

/-- What is checked at a node, and how it was written, make it well formed. -/
theorem wellFormed_of_formed {limits : Limits} {n : Tree} (hformed : n.Formed limits)
    (hpasses : n.Passes) (hplaced : n.SinglesPlaced) : n.WellFormed limits := by
  cases n with
  | die d => exact wellFormed_die hformed.2
  | pool children => exact ⟨hformed, hplaced⟩
  | modified inner m =>
    refine ⟨hplaced, ?_⟩
    cases m with
    | calculate op operand => exact check_calculate hpasses
    | select selection => exact check_select hpasses
    | explode condition limit => exact modifier?_explode hformed.2

end Tree

namespace Limits

open DiceExpr.Tree

variable {limits : Limits}

theorem modifyAll?_induction {P : Tree → Prop} {base y : Tree} {tokens : List ModifierToken}
    (hbase : P base) (hstep : ∀ inner m, P inner → inner.check m = .ok () → P (modified inner m))
    (h : limits.modifyAll? base tokens = .ok y) : P y := by
  induction tokens generalizing base with
  | nil =>
    rw [← Except.ok.inj h]
    exact hbase
  | cons token tokens ih =>
    simp only [modifyAll?, bind_eq_ok, modify?_eq_ok] at h
    obtain ⟨m, -, _, ⟨hcheck, rfl⟩, hrest⟩ := h
    exact ih (hstep base m hbase hcheck) hrest

/-- A tree that is built with so many dice, before a pool of one child is taken apart. -/
structure Assembled (dice : Nat) (y : Tree) : Prop where
  nodes : ∀ n ∈ y.nodes, n.Passes ∧ n.SinglesPlaced
  single : ∀ only, y = pool [only] → only.isDie
  leaves : y.leaves.length = dice

theorem Assembled.modified {dice : Nat} {inner : Tree} {m : Modifier} (h : Assembled dice inner)
    (hcheck : inner.check m = .ok ()) : Assembled dice (modified inner m) where
  nodes := forall_nodes_modified.mpr ⟨⟨hcheck, h.single⟩, h.nodes⟩
  single := nofun
  leaves := by rw [leaves_modified, h.leaves]

/-- How many dice the counts of a record stand for. -/
def diceCount (counts : List (Option Value × DieToken)) : Nat :=
  (counts.map fun p => Term.amount p.1).sum

/-- Every count of a record is within the limits. -/
def CountsWithin (limits : Limits) (counts : List (Option Value × DieToken)) : Prop :=
  ∀ p ∈ counts, 1 ≤ Term.amount p.1 ∧ Term.amount p.1 ≤ limits.mostDice

theorem quantity?_within {written : Option Value} {n : Nat} (h : limits.quantity? written = .ok n) :
    n = Term.amount written ∧ 1 ≤ n ∧ n ≤ limits.mostDice := by
  have hpos := quantity?_pos h
  simp only [quantity?] at h
  split at h
  · cases h
  · split at h
    · cases h
    · next hmost =>
      obtain rfl := Except.ok.inj h
      exact ⟨rfl, hpos, Nat.not_lt.mp hmost⟩

theorem assembled_replicate (d : Die) (n : Nat) : Assembled n (Tree.replicate n (die d)) := by
  rw [replicate_die]
  have hchild (c : Tree) (hc : c ∈ List.replicate n (die d)) : c = die d :=
    (List.mem_replicate.mp hc).2
  refine ⟨forall_nodes_pool.mpr ⟨⟨trivial, ?_⟩, ?_⟩, ?_, ?_⟩
  · intro only hmem
    exact Tree.noConfusion (hchild _ hmem)
  · intro c hc
    rw [hchild c hc]
    simp [Tree.nodes, Passes, SinglesPlaced]
  · intro only heq
    rw [hchild only (by rw [pool.inj heq]; exact List.mem_singleton_self only)]
    rfl
  · simp

/-- A tree that is built with so many dice, and is not a pool of one child. -/
structure Finished (dice : Nat) (t : Tree) : Prop where
  nodes : ∀ n ∈ t.nodes, n.Passes ∧ n.SinglesPlaced
  single : ∀ only, t ≠ pool [only]
  leaves : t.leaves.length = dice

theorem Finished.assembled {dice : Nat} {t : Tree} (h : Finished dice t) : Assembled dice t :=
  ⟨h.nodes, fun only heq => absurd heq (h.single only), h.leaves⟩

theorem Assembled.collapse {dice : Nat} {y : Tree} (h : Assembled dice y) :
    Finished dice y.collapse := by
  -- Only a pool of one die changes, and that die comes out of it.
  match y, h with
  | die d, h => exact ⟨h.nodes, nofun, h.leaves⟩
  | pool [], h => exact ⟨h.nodes, nofun, h.leaves⟩
  | pool (_ :: _ :: _), h => exact ⟨h.nodes, nofun, h.leaves⟩
  | Tree.modified _ _, h => exact ⟨h.nodes, nofun, h.leaves⟩
  | pool [only], h =>
    have hleaves := h.leaves
    rw [leaves_pool, List.flatMap_singleton] at hleaves
    refine ⟨(forall_nodes_pool.mp h.nodes).2 only (List.mem_singleton_self only), ?_, hleaves⟩
    intro other heq
    have hdie := h.single only rfl
    change only = pool [other] at heq
    rw [heq] at hdie
    cases hdie

theorem leaves_ofList (trees : List Tree) : (Tree.ofList trees).leaves = trees.flatMap leaves := by
  unfold Tree.ofList
  rw [leaves_pool]
  induction trees with
  | nil => rfl
  | cons t trees ih =>
    by_cases hempty : t.isEmptyPool
    · have hleaves : t.leaves = [] := by
        rw [isEmptyPool_iff.mp hempty]
        exact leaves_pool []
      rw [List.filter_cons_of_neg (by simpa using hempty), ih, List.flatMap_cons, hleaves,
        List.nil_append]
    · rw [List.filter_cons_of_pos (by simpa using hempty), List.flatMap_cons, ih,
        List.flatMap_cons]

/-- Trees that are finished make up a tree that is, without the empty pools among them. -/
theorem finished_ofList {ss : List Term} {trees : List Tree}
    (h : List.Forall₂ (fun s t => Finished (diceCount s.counts) t) ss trees) :
    Finished (diceCount (Term.countsList ss)) (Tree.ofList trees).collapse := by
  have hleaves : (Tree.ofList trees).leaves.length = diceCount (Term.countsList ss) := by
    rw [leaves_ofList]
    induction h with
    | nil => rfl
    | cons hst _ ih =>
      rw [List.flatMap_cons, List.length_append, hst.leaves, ih, Term.countsList, diceCount,
        diceCount, diceCount, List.map_append, List.sum_append]
  have hall : ∀ t ∈ trees, (∀ n ∈ t.nodes, n.Passes ∧ n.SinglesPlaced) ∧
      ∀ only, t ≠ pool [only] := by
    clear hleaves
    induction h with
    | nil => exact List.forall_mem_nil _
    | cons hst _ ih => exact List.forall_mem_cons.mpr ⟨⟨hst.nodes, hst.single⟩, ih⟩
  have hkept (t : Tree) (ht : t ∈ trees.filter fun t => !t.isEmptyPool) : t ∈ trees :=
    List.mem_of_mem_filter ht
  unfold Tree.ofList at hleaves ⊢
  -- The empty pools have no leaves. A tree that is kept alone takes the place of the pool.
  generalize trees.filter (fun t => !t.isEmptyPool) = kept at hkept hleaves
  cases kept with
  | nil =>
    have hplaced : (pool []).SinglesPlaced := fun _ => List.not_mem_nil
    have hsingle (only : Tree) : pool [] ≠ pool [only] := by simp
    exact ⟨forall_nodes_pool.mpr ⟨⟨trivial, hplaced⟩, List.forall_mem_nil _⟩, hsingle, hleaves⟩
  | cons t rest =>
    cases rest with
    | nil =>
      obtain ⟨hnodes, hsingle⟩ := hall t (hkept t (List.mem_singleton_self t))
      rw [leaves_pool, List.flatMap_singleton] at hleaves
      exact ⟨hnodes, hsingle, hleaves⟩
    | cons u rest =>
      have hplaced : (pool (t :: u :: rest)).SinglesPlaced :=
        fun only hmem => (hall _ (hkept _ hmem)).2 only rfl
      have hsingle (only : Tree) : pool (t :: u :: rest) ≠ pool [only] := by simp
      exact ⟨forall_nodes_pool.mpr ⟨⟨trivial, hplaced⟩, fun c hc => (hall c (hkept c hc)).1⟩,
        hsingle, hleaves⟩

/-- What a term is built into, while a pool may still consist of one child. -/
def Assembles (limits : Limits) (s : Term) : Prop :=
  ∀ y, limits.open? s = .ok y →
    Assembled (diceCount s.counts) y ∧ limits.CountsWithin s.counts

theorem finished_of_terms? {ss : List Term} (h : ∀ s ∈ ss, limits.Assembles s) {trees : List Tree}
    (ht : limits.terms? ss = .ok trees) :
    Finished (diceCount (Term.countsList ss)) (Tree.ofList trees).collapse ∧
      limits.CountsWithin (Term.countsList ss) := by
  rw [terms?_eq_ok] at ht
  have hboth : List.Forall₂ (fun s t => Finished (diceCount s.counts) t) ss trees ∧
      limits.CountsWithin (Term.countsList ss) := by
    induction ht with
    | nil => exact ⟨.nil, by simp [CountsWithin, Term.countsList]⟩
    | @cons s t ss trees hst _ ih =>
      obtain ⟨y, hy, rfl⟩ := term?_eq_ok.mp hst
      obtain ⟨hassembled, hwithin⟩ := h s List.mem_cons_self y hy
      obtain ⟨hfinished, hrest⟩ := ih fun s' hs => h s' (List.mem_cons_of_mem s hs)
      exact ⟨.cons hassembled.collapse hfinished, List.forall_mem_append.mpr ⟨hwithin, hrest⟩⟩
  exact ⟨finished_ofList hboth.1, hboth.2⟩

theorem assembles (s : Term) : limits.Assembles s := by
  induction s using Term.induction with
  | dice quantity type tokens =>
    intro y hy
    simp only [open?, bind_eq_ok] at hy
    obtain ⟨d, -, n, hn, hy⟩ := hy
    obtain ⟨rfl, hwithin⟩ := quantity?_within hn
    have hbase : Assembled (diceCount [(quantity, type)]) (Tree.replicate _ (die d)) :=
      assembled_replicate d (Term.amount quantity)
    refine ⟨?_, List.forall_mem_singleton.mpr hwithin⟩
    exact modifyAll?_induction hbase (fun _ _ => Assembled.modified) hy
  | group inner tokens ih =>
    intro y hy
    simp only [open?, bind_eq_ok] at hy
    obtain ⟨trees, htrees, hy⟩ := hy
    obtain ⟨hfinished, hwithin⟩ := finished_of_terms? ih htrees
    refine ⟨?_, hwithin⟩
    exact modifyAll?_induction hfinished.assembled (fun _ _ => Assembled.modified) hy

end Limits

namespace Tree

theorem finished_of_ofText? {limits : Limits} {text : Text} {t : Tree}
    (h : ofText? limits text = .ok t) :
    ∃ terms, Term.ofText? text = .ok terms ∧
      limits.CountsWithin (Term.countsList terms) ∧
      Limits.Finished (Limits.diceCount (Term.countsList terms)) t := by
  simp only [ofText?, ofTerms?, Limits.sum?, Limits.bind_eq_ok] at h
  obtain ⟨_, _, terms, hterms, _, _, trees, htrees, ht⟩ := h
  obtain ⟨hfinished, hwithin⟩ := Limits.finished_of_terms? (fun s _ => Limits.assembles s) htrees
  rw [← Except.ok.inj ht]
  exact ⟨terms, hterms, hwithin, hfinished⟩

theorem ofText?_blank {limits : Limits} {text : Text} (hblank : text.normal = []) {t : Tree}
    (h : ofText? limits text = .ok t) : t = pool [] := by
  simp only [ofText?, ofTerms?, Limits.sum?, Limits.bind_eq_ok, Term.ofText?_of_blank hblank,
    Except.ok.injEq, exists_eq_left', Limits.terms?] at h
  obtain ⟨_, _, _, _, ht⟩ := h
  exact (Except.ok.inj ht).symm

/-- Whatever text a tree is built from, the tree is well formed and has just the dice that are
counted there. Only a blank text stands for an empty pool. -/
theorem wellFormed_of_ofText? {limits : Limits} {text : Text} {t : Tree}
    (h : ofText? limits text = .ok t) :
    (text.normal = [] ∧ t = pool [] ∨
      text.normal ≠ [] ∧ (∀ n ∈ t.nodes, n.WellFormed limits) ∧ ∀ only, t ≠ pool [only]) ∧
    ∃ terms, Term.ofText? text = .ok terms ∧
      (∀ p ∈ Term.countsList terms, 1 ≤ Term.amount p.1 ∧ Term.amount p.1 ≤ limits.mostDice) ∧
      t.leaves.length = ((Term.countsList terms).map fun p => Term.amount p.1).sum := by
  obtain ⟨terms, hterms, hwithin, hfinished⟩ := finished_of_ofText? h
  refine ⟨?_, terms, hterms, hwithin, hfinished.leaves⟩
  by_cases hblank : text.normal = []
  · exact .inl ⟨hblank, ofText?_blank hblank h⟩
  · have hformed := formed_of_ofText? hblank h
    refine .inr ⟨hblank, fun n hn => ?_, hfinished.single⟩
    obtain ⟨hpasses, hplaced⟩ := hfinished.nodes n hn
    exact wellFormed_of_formed (hformed n hn) hpasses hplaced

/-- Only the one die that explodes stands in a pool of its own, and no group is left. -/
theorem wellFormed_of_nested_groups :
    let limits : Limits := { mostDice := 3, mostRerolls := 7 }
    let text : Text := "((d6 + 3d8) kl1) + ((d4)) + d4!4".toList
    let t := pool [modified (pool [die (.sided 6), replicate 3 (die (.sided 8))])
        (.select ⟨.keep, .low, 1⟩), die (.sided 4),
      modified (pool [die (.sided 4)]) (.explode ⟨.eq, 4⟩ 7)]
    ofText? limits text = .ok t ∧ text.normal ≠ [] ∧ (∀ n ∈ t.nodes, n.WellFormed limits) ∧
      ∃ terms, Term.ofText? text = .ok terms ∧
        (∀ p ∈ Term.countsList terms, 1 ≤ Term.amount p.1 ∧ Term.amount p.1 ≤ limits.mostDice) ∧
        t.leaves.length = ((Term.countsList terms).map fun p => Term.amount p.1).sum := by
  intro limits text t
  have hbuilt : ofText? limits text = .ok t := by decide +kernel
  have hne : text.normal ≠ [] := by decide +kernel
  obtain ⟨hshape, hcounts⟩ := wellFormed_of_ofText? hbuilt
  obtain ⟨-, hnodes, -⟩ := hshape.resolve_left fun h => hne h.1
  exact ⟨hbuilt, hne, hnodes, hcounts⟩

end Tree

end DiceExpr
