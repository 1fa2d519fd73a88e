import DiceExpr.Proofs.Selections.Cuts
import Mathlib.Data.List.Pairwise
import Mathlib.Data.List.Sort

namespace DiceExpr

namespace Extreme

/-- Whether two values with their positions may be sorted one after the other. -/
def inOrder (e : Extreme) (p q : Value × Nat) : Bool := !e.outranks q.1 p.1

/-- Some values with their positions, the foremost first. Equal values stay in their order. -/
def sorted (e : Extreme) (vals : List Value) : List (Value × Nat) :=
  vals.zipIdx.mergeSort e.inOrder

theorem inOrder_trans (e : Extreme) (p q r : Value × Nat) (hpq : e.inOrder p q)
    (hqr : e.inOrder q r) : e.inOrder p r := by
  simp only [inOrder, Bool.not_eq_true', Bool.eq_false_iff] at hpq hqr ⊢
  exact not_outranks_of_not_outranks hqr hpq

theorem inOrder_total (e : Extreme) (p q : Value × Nat) : e.inOrder p q || e.inOrder q p := by
  by_cases h : e.outranks q.1 p.1
  · have hnot := not_outranks_of_outranks h
    simp [inOrder, hnot]
  · simp [inOrder, h]

theorem sorted_perm (e : Extreme) (vals : List Value) : (e.sorted vals).Perm vals.zipIdx :=
  List.mergeSort_perm vals.zipIdx e.inOrder

/-- Sorting moves no value past an equal one. -/
theorem filter_sorted (e : Extreme) (vals : List Value) (v : Value) :
    (e.sorted vals).filter (·.1 = v) = vals.zipIdx.filter (·.1 = v) := by
  have hequal : (vals.zipIdx.filter (·.1 = v)).Pairwise fun p q => e.inOrder p q := by
    refine List.pairwise_of_forall_mem_list fun p hp q hq => ?_
    have hpv : p.1 = v := by simpa using (List.mem_filter.mp hp).2
    have hqv : q.1 = v := by simpa using (List.mem_filter.mp hq).2
    simp [inOrder, hpv, hqv, e.not_outranks_self v]
  have hstays : (vals.zipIdx.filter (·.1 = v)).Sublist (e.sorted vals) :=
    List.sublist_mergeSort e.inOrder_trans e.inOrder_total hequal List.filter_sublist
  have hsublist := hstays.filter (·.1 = v)
  simp only [List.filter_filter, Bool.and_self] at hsublist
  have hlength := ((e.sorted_perm vals).filter (·.1 = v)).length_eq
  exact (hsublist.eq_of_length hlength.symm).symm

/-- The positions of some values, the foremost first. -/
def ranking (e : Extreme) (vals : List Value) : List Nat := (e.sorted vals).map Prod.snd

theorem ranking_perm (e : Extreme) (vals : List Value) :
    (e.ranking vals).Perm (List.range vals.length) := by
  have hpositions := (e.sorted_perm vals).map Prod.snd
  rw [List.zipIdx_map_snd, ← List.range_eq_range'] at hpositions
  exact hpositions

theorem pairwise_ranking (e : Extreme) (vals : List Value) :
    (e.ranking vals).Pairwise (e.Precedes vals) := by
  have hsorted : (e.sorted vals).Pairwise fun p q => e.inOrder p q :=
    List.pairwise_mergeSort e.inOrder_trans e.inOrder_total vals.zipIdx
  have hpositions : vals.zipIdx.Pairwise fun p q => p.2 < q.2 := by
    rw [← List.pairwise_map, List.zipIdx_map_snd]
    exact List.pairwise_lt_range'
  have hvalue (p : Value × Nat) (hp : p ∈ e.sorted vals) : vals[p.2]? = some p.1 :=
    List.mem_zipIdx_iff_getElem?.mp ((e.sorted_perm vals).mem_iff.mp hp)
  rw [ranking, List.pairwise_map, List.pairwise_iff_forall_sublist]
  intro p q hpair
  have hp := hvalue p (hpair.subset List.mem_cons_self)
  have hq := hvalue q (hpair.subset (List.mem_cons_of_mem p List.mem_cons_self))
  refine ⟨p.1, q.1, hp, hq, ?_⟩
  rcases e.outranks_trichotomy p.1 q.1 with h | h | h
  · exact .inl h
  · -- equal values stand as they stood before they were sorted
    have hkept := hpair.filter (·.1 = q.1)
    rw [filter_sorted] at hkept
    simp only [h, List.filter_cons, List.filter_nil, decide_true, if_true] at hkept
    have hbefore := hkept.trans List.filter_sublist
    exact .inr ⟨h, List.pairwise_iff_forall_sublist.mp hpositions hbefore⟩
  · have horder := List.pairwise_iff_forall_sublist.mp hsorted hpair
    simp [inOrder, h] at horder

end Extreme

namespace Selection

open Extreme

/-- The mask by sorting: the foremost positions, as many as the selection counts, get their mark in
a list of the other mark. -/
def sortedMask (s : Selection) (vals : List Value) : List Bool :=
  ((s.extreme.ranking vals).take s.count).foldl (fun mask i => mask.set i s.frontMark)
    (List.replicate vals.length (!s.frontMark))

theorem foldl_set (mark : Bool) (positions : List Nat) (mask : List Bool) :
    positions.foldl (fun mask k => mask.set k mark) mask =
      mask.mapIdx fun i old => if i ∈ positions then mark else old := by
  induction positions generalizing mask with
  | nil => exact List.ext_getElem (by simp) (by simp)
  | cons k positions ih =>
    rw [List.foldl_cons, ih]
    refine List.ext_getElem (by simp) fun i hi hi' => ?_
    simp only [List.getElem_mapIdx, List.getElem_set, List.mem_cons]
    by_cases hk : k = i
    · simp [hk]
    · simp [hk, Ne.symm hk]

theorem length_sortedMask (s : Selection) (vals : List Value) :
    (s.sortedMask vals).length = vals.length := by
  simp [sortedMask, foldl_set]

theorem sortedMask_eq_map (s : Selection) (vals : List Value) :
    s.sortedMask vals = (List.range vals.length).map fun i =>
      if i ∈ (s.extreme.ranking vals).take s.count then s.frontMark else !s.frontMark := by
  rw [sortedMask, foldl_set]
  exact List.ext_getElem (by simp) (by simp)

/-- Each position is ranked once, so the mask has as many marks as there are foremost positions. -/
theorem count_sortedMask (s : Selection) (vals : List Value) :
    (s.sortedMask vals).count s.frontMark = min s.count vals.length := by
  have hperm := s.extreme.ranking_perm vals
  have hnodup : (s.extreme.ranking vals).Nodup := hperm.nodup_iff.mpr List.nodup_range
  have hfront : ∀ i, ((if i ∈ (s.extreme.ranking vals).take s.count then s.frontMark
      else !s.frontMark) == s.frontMark) = ((s.extreme.ranking vals).take s.count).elem i := by
    intro i
    by_cases hi : i ∈ (s.extreme.ranking vals).take s.count <;> simp [hi]
  calc (s.sortedMask vals).count s.frontMark
      = (List.range vals.length).countP ((s.extreme.ranking vals).take s.count).elem := by
        rw [sortedMask_eq_map, List.count, List.countP_map]
        exact List.countP_congr fun i _ => by simp only [Function.comp_apply, hfront]
    _ = (s.extreme.ranking vals).countP ((s.extreme.ranking vals).take s.count).elem :=
        (hperm.countP_eq _).symm
    _ = ((s.extreme.ranking vals).take s.count).length := by
        rw [List.countP_eq_length_filter, ← hnodup.take_eq_filter_mem]
    _ = min s.count vals.length := by
        rw [List.length_take, hperm.length_eq, List.length_range]

theorem getElem?_sortedMask_eq_some {s : Selection} {vals : List Value} {i : Nat} {mark : Bool} :
    (s.sortedMask vals)[i]? = some mark ↔ i < vals.length ∧
      (if i ∈ (s.extreme.ranking vals).take s.count then s.frontMark else !s.frontMark) = mark := by
  simp [sortedMask_eq_map, List.getElem?_eq_some_iff]

theorem isCut_sortedMask (s : Selection) (vals : List Value) :
    s.IsCut vals (s.sortedMask vals) := by
  refine ⟨s.length_sortedMask vals, s.count_sortedMask vals, fun i j hi hj => ?_⟩
  obtain ⟨-, hi⟩ := getElem?_sortedMask_eq_some.mp hi
  obtain ⟨hlt, hj⟩ := getElem?_sortedMask_eq_some.mp hj
  have hfront : i ∈ (s.extreme.ranking vals).take s.count := by
    by_contra hnot
    simp [hnot] at hi
  have hnotFront : j ∉ (s.extreme.ranking vals).take s.count := by
    intro hmem
    simp [hmem] at hj
  have hranked : j ∈ s.extreme.ranking vals :=
    (s.extreme.ranking_perm vals).mem_iff.mpr (List.mem_range.mpr hlt)
  have hpairs := s.extreme.pairwise_ranking vals
  rw [← List.take_append_drop s.count (s.extreme.ranking vals)] at hranked hpairs
  have hrest := (List.mem_append.mp hranked).resolve_left hnotFront
  exact (List.pairwise_append.mp hpairs).2.2 i hfront j hrest

/-- Counting those that go before each value finds the same mask as sorting the values. -/
theorem sortedMask_eq_mask (s : Selection) (vals : List Value) : s.sortedMask vals = s.mask vals :=
  (s.isCut_sortedMask vals).unique (s.isCut_mask vals)

end Selection

end DiceExpr
