import DiceExpr.Proofs.Bounds.Chains
import DiceExpr.Proofs.Bounds.Dominance
import DiceExpr.Proofs.Shown

namespace DiceExpr

namespace Die

theorem shows_custom {faces : List Value} {v : Value} (hne : faces ≠ [])
    (h : (custom faces).Shows v) : v ∈ faces := by
  obtain ⟨n, ⟨hlow, hhigh⟩, rfl⟩ := h
  have hlen := List.length_pos_iff.mpr hne
  have hlow : (0 : Value) ≤ n := hlow
  have hn0 : 0 ≤ n.toInt := hlow
  have hn : n.toInt ≤ (Value.clamp (faces.length - 1 : Nat)).toInt := hhigh
  rw [Value.toInt_clamp] at hn
  have hi : n.toInt.toNat < faces.length := by omega
  have hshown : (custom faces).shown n = faces[n.toInt.toNat] := by
    simp only [shown, if_pos hlow, List.getElem?_eq_getElem hi, Option.getD_some]
  rw [hshown]
  exact List.getElem_mem hi

theorem shows_custom_nil {v : Value} (h : (custom []).Shows v) : v = 0 := by
  obtain ⟨n, -, rfl⟩ := h
  simp [shown]

theorem shows_mem_ends {d : Die} {v : Value} (h : d.Shows v) : v ∈ d.ends := by
  cases d with
  | custom faces =>
    by_cases hne : faces = []
    · subst hne
      rw [shows_custom_nil h]
      exact ⟨le_refl 0, le_refl 0⟩
    · exact (extremes_ends hne).2.2 v (shows_custom hne h)
  | sided sides =>
    obtain ⟨n, hn, rfl⟩ := h
    exact hn
  | percentile =>
    obtain ⟨n, hn, rfl⟩ := h
    exact hn
  | fudge =>
    obtain ⟨n, hn, rfl⟩ := h
    exact hn

end Die

namespace Tree

/-- At a node that selects, the absolute values of the bounds of all parts fit into the range. -/
def Fits : Tree → Prop
  | modified inner (.select _) =>
    Value.magnitude inner.partBounds.low + Value.magnitude inner.partBounds.high ≤
      9223372036854775807
  | _ => True

instance (t : Tree) : Decidable t.Fits :=
  match t with
  | die _ => isTrue trivial
  | pool _ => isTrue trivial
  | modified _ (.calculate ..) => isTrue trivial
  | modified _ (.select _) => Nat.decLe ..
  | modified _ (.explode ..) => isTrue trivial

/-- The bounds hold for the values of a tree, and in order of size for those of its parts. -/
def Bounded (t : Tree) : Prop :=
  (∀ v, t.Shows v → v ∈ t.bounds) ∧
    ∀ vals, t.ShowsParts vals →
      Dominated t.partBounds.low vals ∧ Dominated vals t.partBounds.high

private theorem forall₂_le_of_mem {range : Tree → Ends Value} {ts : List Tree} {vals : List Value}
    (h : List.Forall₂ (fun t v => v ∈ range t) ts vals) :
    List.Forall₂ (· ≤ ·) (Ends.ofList (ts.map range)).low vals ∧
      List.Forall₂ (· ≤ ·) vals (Ends.ofList (ts.map range)).high := by
  induction h with
  | nil => exact ⟨.nil, .nil⟩
  | cons hv _ ih => exact ⟨.cons hv.1 ih.1, .cons hv.2 ih.2⟩

private theorem forall₂_of_mem {P Q : Tree → Value → Prop} {ts : List Tree} {vals : List Value}
    (h : List.Forall₂ P ts vals) (hpq : ∀ t ∈ ts, ∀ v, P t v → Q t v) :
    List.Forall₂ Q ts vals := by
  induction h with
  | nil => exact .nil
  | @cons t v ts vals hv _ ih =>
    refine .cons (hpq t List.mem_cons_self v hv) (ih fun s hs => ?_)
    exact hpq s (List.mem_cons_of_mem t hs)

private theorem single_dominated {range : Ends Value} {v : Value} (h : v ∈ range) :
    Dominated (range.map ([·])).low [v] ∧ Dominated [v] (range.map ([·])).high :=
  ⟨.of_forall₂ (.cons h.1 .nil), .of_forall₂ (.cons h.2 .nil)⟩

theorem bounded_die (d : Die) : (die d).Bounded := by
  have hmem (v : Value) (hv : (die d).Shows v) : v ∈ d.ends := Die.shows_mem_ends (shows_die.mp hv)
  refine ⟨hmem, fun vals h => ?_⟩
  obtain ⟨v, hv, rfl⟩ := showsParts_die.mp h
  exact single_dominated (hmem v hv)

theorem bounded_pool {children : List Tree} (h : ∀ c ∈ children, c.Bounded) :
    (pool children).Bounded := by
  have hle {vals : List Value} (hvals : List.Forall₂ Shows children vals) :=
    forall₂_le_of_mem (forall₂_of_mem hvals fun c hc => (h c hc).1)
  constructor
  · intro v hv
    obtain ⟨vals, hvals, rfl⟩ := shows_pool.mp hv
    rw [bounds_pool]
    exact ⟨Value.total_le_total (hle hvals).1, Value.total_le_total (hle hvals).2⟩
  · intro vals hvals
    rw [showsParts_pool] at hvals
    rw [partBounds_pool]
    exact ⟨.of_forall₂ (hle hvals).1, .of_forall₂ (hle hvals).2⟩

theorem bounded_calculate {inner : Tree} (op : Operator) (operand : Value) (h : inner.Bounded) :
    (modified inner (.calculate op operand)).Bounded := by
  have hmem (v : Value) (hv : (modified inner (.calculate op operand)).Shows v) :
      v ∈ inner.bounds.image (op.apply · operand) := by
    obtain ⟨w, hw, rfl⟩ := shows_calculate.mp hv
    exact Ends.mem_image (op.apply_mono_or_antitone operand) (h.1 w hw)
  refine ⟨hmem, fun vals hvals => ?_⟩
  obtain ⟨v, hv, rfl⟩ := showsParts_calculate.mp hvals
  exact single_dominated (hmem v hv)

theorem bounded_select {inner : Tree} {selection : Selection} (h : inner.Bounded)
    (hfits : (modified inner (.select selection)).Fits) :
    (modified inner (.select selection)).Bounded := by
  constructor
  · intro v hv
    obtain ⟨vals, hvals, rfl⟩ := shows_select.mp hv
    obtain ⟨hlow, hhigh⟩ := h.2 vals hvals
    have hkept (all : List Value) :
        Value.magnitude (selection.kept all) ≤ Value.magnitude all :=
      Value.magnitude_le_of_sublist (Selection.marked_sublist _ _)
    have hvalsFit := hlow.magnitude_le hhigh
    have hfits : Value.magnitude inner.partBounds.low + Value.magnitude inner.partBounds.high ≤
        9223372036854775807 := hfits
    have hl := hkept inner.partBounds.low
    have hv := hkept vals
    have hh := hkept inner.partBounds.high
    exact ⟨(hlow.kept selection).total_le (by omega) (by omega),
      (hhigh.kept selection).total_le (by omega) (by omega)⟩
  · intro vals hvals
    obtain ⟨all, hall, rfl⟩ := showsParts_select.mp hvals
    obtain ⟨hlow, hhigh⟩ := h.2 all hall
    exact ⟨hlow.kept selection, hhigh.kept selection⟩

theorem Bounded.splits {t : Tree} (ht : t.Bounded) (hne : t ≠ die (.custom [])) {v : Value}
    (hv : t.Shows v) : t.Splits v := by
  rcases t with (_ | _ | _ | ⟨faces⟩) | children | ⟨inner, m⟩
  case die.custom =>
    have hfaces : faces ≠ [] := fun h => hne (by rw [h])
    exact Die.shows_custom hfaces (shows_die.mp hv)
  all_goals exact ht.1 v hv

theorem mem_chainBounds {t : Tree} (ht : t.Bounded) {c : Condition} {limit : Nat} {v : Value}
    (hv : ShowsChain c limit t v) : v ∈ chainBounds c limit t t.bounds := by
  by_cases hne : t = die (.custom [])
  · -- a die without faces shows zeros, however often it is rolled
    subst hne
    obtain ⟨passed, last, hpassed, hlast, hstops, rfl⟩ := hv
    have hzero (w : Value) (hw : w ∈ passed ++ [last]) : w = 0 := by
      rcases List.mem_append.mp hw with hw | hw
      · exact Die.shows_custom_nil (shows_die.mp (hpassed w hw))
      · rw [List.mem_singleton.mp hw]
        exact Die.shows_custom_nil (shows_die.mp hlast)
    have hsum : Value.total (passed ++ [last]) = 0 := by
      rw [List.eq_replicate_of_mem hzero, Value.total_replicate, Value.zero_times]
    rw [hsum]
    exact ⟨le_refl 0, le_refl 0⟩
  · obtain ⟨passed, last, hpassed, hlast, -⟩ := id hv
    have hdivides := split_divides (Ends.low_le_high_of_mem (ht.1 last hlast)) c
    exact Split.mem_chain hdivides (fun _ => Splits.mem_bounds) (hv.imp fun _ => ht.splits hne)

theorem bounded_explode {inner : Tree} (condition : Condition) (limit : Nat)
    (h : ∀ t ∈ inner.targets, t.Bounded) :
    (modified inner (.explode condition limit)).Bounded := by
  have hle {vals : List Value}
      (hvals : List.Forall₂ (ShowsChain condition limit) inner.targets vals) :=
    have hmem : List.Forall₂ (fun t v => v ∈ chainBounds condition limit t t.bounds)
        inner.targets vals :=
      forall₂_of_mem hvals fun t ht v hv => mem_chainBounds (h t ht) hv
    forall₂_le_of_mem hmem
  constructor
  · intro v hv
    obtain ⟨vals, hvals, rfl⟩ := shows_explode.mp hv
    rw [bounds_explode, partBounds_explode]
    exact ⟨Value.total_le_total (hle hvals).1, Value.total_le_total (hle hvals).2⟩
  · intro vals hvals
    rw [showsParts_explode] at hvals
    rw [partBounds_explode]
    exact ⟨.of_forall₂ (hle hvals).1, .of_forall₂ (hle hvals).2⟩

theorem bounded_of_fits (t : Tree) (h : ∀ n ∈ t.nodes, n.Fits) : t.Bounded := by
  induction t using Tree.induction with
  | die d => exact bounded_die d
  | pool children ih =>
    have hchildren := (forall_nodes_pool.mp h).2
    exact bounded_pool fun c hc => ih c hc (hchildren c hc)
  | calculate inner op operand ih =>
    have hinner := (forall_nodes_modified.mp h).2
    exact bounded_calculate op operand (ih hinner)
  | select inner selection ih =>
    obtain ⟨hnode, hinner⟩ := forall_nodes_modified.mp h
    exact bounded_select (ih hinner) hnode
  | explode inner condition limit ih =>
    have hinner := (forall_nodes_modified.mp h).2
    refine bounded_explode condition limit fun t ht => ih t ht fun n hn => ?_
    exact hinner n (mem_nodes_of_target ht hn)

end Tree

end DiceExpr
