import DiceExpr.Modifier.Selection
import DiceExpr.Proofs.Saturation
import Mathlib.Data.List.Nodup
import Mathlib.Data.List.Perm.Basic

namespace DiceExpr

namespace Extreme

theorem not_outranks_of_outranks {e : Extreme} {v w : Value} (h : e.outranks v w) :
    ¬e.outranks w v := by
  cases e <;> simp only [outranks, decide_eq_true_eq] at h ⊢ <;> exact not_lt_of_gt h

/-- A property is kept by values that nothing with the property outranks. -/
def Upward (e : Extreme) (p : Value → Bool) : Prop := ∀ v w, p v → ¬e.outranks v w → p w

theorem upward_true (e : Extreme) : e.Upward fun _ => true := fun _ _ _ _ => rfl

theorem upward_ge (t : Value) : high.Upward fun v => decide (t ≤ v) := by
  intro v w hv hw
  simp only [outranks, decide_eq_true_eq, not_lt] at hv hw ⊢
  exact hv.trans hw

theorem upward_lt (t : Value) : low.Upward fun v => decide (v < t) := by
  intro v w hv hw
  simp only [outranks, decide_eq_true_eq, not_lt] at hv hw ⊢
  exact lt_of_le_of_lt hw hv

theorem upward_outranks (e : Extreme) (t : Value) : e.Upward fun v => e.outranks v t := by
  intro v w hv hw
  cases e <;> simp only [outranks, decide_eq_true_eq, not_lt] at hv hw ⊢
  · exact lt_of_lt_of_le hv hw
  · exact lt_of_le_of_lt hw hv

/-- The values with an upward property are those of the foremost ranks. -/
theorem ranks_lt_iff {e : Extreme} {p : Value → Bool} (hp : e.Upward p)
    (before vals : List Value) :
    ∀ q ∈ vals.zip (e.ranks before vals), p q.1 ↔ q.2 < before.countP p + vals.countP p := by
  induction vals generalizing before with
  | nil =>
    intro q hq
    cases hq
  | cons v after ih =>
    intro q hq
    rw [ranks, List.zip_cons_cons, List.mem_cons] at hq
    rcases hq with rfl | hq
    · cases hv : p v with
      | true =>
        have hbefore : before.countP (fun w => !e.outranks v w) ≤ before.countP p :=
          List.countP_mono_left fun w _ hw => hp v w hv (by simpa using hw)
        have hafter : after.countP (fun w => e.outranks w v) ≤ after.countP p :=
          List.countP_mono_left fun w _ hw => hp v w hv (not_outranks_of_outranks hw)
        rw [List.countP_cons_of_pos hv]
        simp only [true_iff]
        omega
      | false =>
        have hall (w : Value) (hw : p w) : e.outranks w v := by
          by_contra hnot
          rw [hp w v hw hnot] at hv
          cases hv
        have hbefore : before.countP p ≤ before.countP fun w => !e.outranks v w :=
          List.countP_mono_left fun w _ hw => by
            simpa using not_outranks_of_outranks (hall w hw)
        have hafter : after.countP p ≤ after.countP fun w => e.outranks w v :=
          List.countP_mono_left fun w _ hw => hall w hw
        rw [List.countP_cons_of_neg (by simp [hv])]
        simp only [Bool.false_eq_true, false_iff]
        omega
    · rw [ih (v :: before) q hq, List.countP_cons, List.countP_cons]
      omega

/-- One more value before the others moves those back that do not outrank it. -/
theorem ranks_insert (e : Extreme) (xs : List Value) (b : Value) (ys vals : List Value) :
    e.ranks (xs ++ b :: ys) vals =
      vals.zipWith (fun w r => if e.outranks w b then r else r + 1) (e.ranks (xs ++ ys) vals) := by
  induction vals generalizing xs with
  | nil => rfl
  | cons v after ih =>
    have hrest := ih (v :: xs)
    rw [List.cons_append, List.cons_append] at hrest
    rw [ranks, ranks, List.zipWith_cons_cons, hrest]
    congr 1
    rw [List.countP_append, List.countP_cons, List.countP_append]
    by_cases hb : e.outranks v b
    · simp [hb]
    · simp only [hb, Bool.not_false, if_true, Bool.false_eq_true, if_false]
      omega

theorem zipWith_eq_map {f : α → β → γ} {g : β → γ} {as : List α} {bs : List β}
    (hlen : as.length = bs.length) (h : ∀ q ∈ as.zip bs, f q.1 q.2 = g q.2) :
    as.zipWith f bs = bs.map g := by
  induction as generalizing bs with
  | nil =>
    rw [List.eq_nil_of_length_eq_zero hlen.symm]
    rfl
  | cons a as ih =>
    cases bs with
    | nil => cases hlen
    | cons b bs =>
      rw [List.zipWith_cons_cons, List.map_cons, h (a, b) List.mem_cons_self,
        ih (Nat.succ.inj hlen) fun q hq => h q (List.mem_cons_of_mem _ hq)]

private theorem cons_range_perm {n k : Nat} (hk : k ≤ n) :
    (k :: (List.range n).map fun r => if r < k then r else r + 1).Perm (List.range (n + 1)) := by
  have hnodup : (k :: (List.range n).map fun r => if r < k then r else r + 1).Nodup := by
    rw [List.nodup_cons]
    constructor
    · intro hmem
      obtain ⟨r, -, hr⟩ := List.mem_map.mp hmem
      split_ifs at hr <;> omega
    · refine List.nodup_range.map ?_
      intro r r' h
      simp only at h
      split_ifs at h <;> omega
  refine (List.perm_ext_iff_of_nodup hnodup List.nodup_range).mpr fun r => ?_
  rw [List.mem_cons, List.mem_map, List.mem_range]
  constructor
  · intro h
    rcases h with rfl | ⟨s, hs, rfl⟩
    · omega
    · rw [List.mem_range] at hs
      split_ifs <;> omega
  · intro h
    rcases Nat.lt_trichotomy r k with hr | hr | hr
    · exact .inr ⟨r, List.mem_range.mpr (by omega), if_pos hr⟩
    · exact .inl hr
    · exact .inr ⟨r - 1, List.mem_range.mpr (by omega), by rw [if_neg (by omega)]; omega⟩

/-- Every rank is taken once. -/
theorem ranks_perm (e : Extreme) (vals : List Value) :
    (e.ranks [] vals).Perm (List.range vals.length) := by
  induction vals with
  | nil => exact .refl _
  | cons v after ih =>
    have hmoved : e.ranks [v] after = (e.ranks [] after).map fun r =>
        if r < after.countP (fun w => e.outranks w v) then r else r + 1 := by
      rw [show [v] = [] ++ v :: [] from rfl, ranks_insert]
      refine zipWith_eq_map (length_ranks e [] after).symm ?_
      intro q hq
      have hlt := ranks_lt_iff (e.upward_outranks v) [] after q hq
      rw [List.countP_nil, Nat.zero_add] at hlt
      simp only [hlt]
    rw [ranks, hmoved, List.countP_nil, Nat.zero_add, List.length_cons]
    exact ((ih.map _).cons _).trans (cons_range_perm (List.countP_le_length ..))

end Extreme

namespace Selection

open Extreme

theorem countP_marked {α : Type} (p : α → Bool) (mask : List Bool) (items : List α) :
    (marked mask items).countP p = (items.zip mask).countP fun q => q.2 && p q.1 := by
  induction mask generalizing items with
  | nil => cases items <;> rfl
  | cons mark mask ih =>
    cases items with
    | nil => cases mark <;> rfl
    | cons item items => cases mark <;> simp [marked, List.countP_cons, ih]

theorem marked_sublist {α : Type} (mask : List Bool) (items : List α) :
    (marked mask items).Sublist items := by
  induction mask generalizing items with
  | nil => exact List.nil_sublist _
  | cons mark mask ih =>
    cases items with
    | nil => cases mark <;> exact List.nil_sublist _
    | cons item items =>
      cases mark with
      | true => exact (ih items).cons_cons item
      | false => exact (ih items).cons item

private theorem countP_range_keeps (s : Selection) (k n : Nat) :
    (List.range n).countP (fun r => s.keeps r && decide (r < k)) = s.remaining (min k n) := by
  obtain ⟨choice, extreme, count⟩ := s
  induction n with
  | zero => cases choice <;> simp [remaining]
  | succ n ih =>
    rw [List.range_succ, List.countP_append, ih, List.countP_singleton]
    simp only [remaining, keeps]
    cases choice with
    | keep =>
      simp only [Bool.and_eq_true, decide_eq_true_eq]
      split_ifs <;> omega
    | drop =>
      simp only [Bool.and_eq_true, decide_eq_true_eq]
      split_ifs <;> omega

/-- Of the values with an upward property a selection leaves as many as of that many values. -/
theorem countP_kept (s : Selection) {p : Value → Bool} (hp : s.extreme.Upward p)
    (vals : List Value) : (s.kept vals).countP p = s.remaining (vals.countP p) := by
  have hzip : (vals.zip (s.mask vals)).countP (fun q => q.2 && p q.1) =
      (s.extreme.ranks [] vals).countP
        fun r => s.keeps r && decide (r < vals.countP p) := by
    have hsnd : (vals.zip (s.extreme.ranks [] vals)).map Prod.snd = s.extreme.ranks [] vals :=
      List.map_snd_zip (length_ranks s.extreme [] vals).le
    rw [mask, List.zip_map_right, List.countP_map]
    conv_rhs => rw [← hsnd, List.countP_map]
    refine List.countP_congr fun q hq => ?_
    have hlt := ranks_lt_iff hp [] vals q hq
    rw [List.countP_nil, Nat.zero_add] at hlt
    simp only [Function.comp_apply, Prod.map_fst, Prod.map_snd, id_eq, Bool.and_eq_true, hlt,
      decide_eq_true_eq]
  rw [kept, countP_marked, hzip, (ranks_perm _ vals).countP_eq, countP_range_keeps,
    Nat.min_eq_left (List.countP_le_length ..)]

theorem length_kept (s : Selection) (vals : List Value) :
    (s.kept vals).length = s.remaining vals.length := by
  have h := s.countP_kept (upward_true s.extreme) vals
  simpa only [List.countP_true] using h

theorem length_marked_mask (s : Selection) (f : α → Value) (items : List α) :
    (marked (s.mask (items.map f)) items).length = s.remaining items.length := by
  have hkept := s.length_kept (items.map f)
  rwa [kept, marked_map, List.length_map, List.length_map] at hkept

theorem remaining_le (s : Selection) (available : Nat) : s.remaining available ≤ available := by
  unfold remaining
  split
  · exact Nat.min_le_right _ _
  · exact Nat.sub_le _ _

theorem remaining_le_remaining (s : Selection) {m n : Nat} (h : m ≤ n) :
    s.remaining m ≤ s.remaining n := by
  unfold remaining
  cases s.choice with
  | keep => exact min_le_min_left s.count h
  | drop => exact Nat.sub_le_sub_right h s.count

end Selection

end DiceExpr
