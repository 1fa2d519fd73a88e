import DiceExpr.Proofs.Bounds.Ranks

namespace DiceExpr

/-- As many values on both sides, and from every threshold on no more of them on the left: in order
of size, each value on the left is at most the one beside it. -/
structure Dominated (as bs : List Value) : Prop where
  length_eq : as.length = bs.length
  countP_le : ∀ t, as.countP (fun v => decide (t ≤ v)) ≤ bs.countP fun v => decide (t ≤ v)

namespace Dominated

theorem of_forall₂ {as bs : List Value} (h : List.Forall₂ (· ≤ ·) as bs) : Dominated as bs := by
  induction h with
  | nil => exact ⟨rfl, fun _ => Nat.le_refl 0⟩
  | @cons a b as bs hab _ ih =>
    refine ⟨by rw [List.length_cons, List.length_cons, ih.length_eq], fun t => ?_⟩
    have hrest := ih.countP_le t
    by_cases ht : t ≤ a
    · rw [List.countP_cons_of_pos (by simpa using ht),
        List.countP_cons_of_pos (by simpa using ht.trans hab)]
      omega
    · rw [List.countP_cons_of_neg (by simpa using ht), List.countP_cons]
      omega

theorem countP_lt_le {as bs : List Value} (h : Dominated as bs) (t : Value) :
    bs.countP (fun v => decide (v < t)) ≤ as.countP fun v => decide (v < t) := by
  have hle := h.countP_le t
  have hlen := h.length_eq
  rw [List.length_eq_countP_add_countP (fun v => decide (t ≤ v)),
    List.length_eq_countP_add_countP (fun v => decide (t ≤ v)) (l := bs)] at hlen
  simp only [decide_eq_true_eq, not_le] at hlen
  omega

/-- A selection keeps the order of size. -/
theorem kept {as bs : List Value} (h : Dominated as bs) (s : Selection) :
    Dominated (s.kept as) (s.kept bs) := by
  have hlen : (s.kept as).length = (s.kept bs).length := by
    rw [s.length_kept, s.length_kept, h.length_eq]
  refine ⟨hlen, fun t => ?_⟩
  obtain ⟨choice, extreme, count⟩ := s
  cases extreme with
  | high =>
    rw [Selection.countP_kept _ (Extreme.upward_ge t),
      Selection.countP_kept _ (Extreme.upward_ge t)]
    exact Selection.remaining_le_remaining _ (h.countP_le t)
  | low =>
    have hlt := Selection.remaining_le_remaining ⟨choice, .low, count⟩ (h.countP_lt_le t)
    rw [← Selection.countP_kept _ (Extreme.upward_lt t),
      ← Selection.countP_kept _ (Extreme.upward_lt t)] at hlt
    rw [List.length_eq_countP_add_countP (fun v => decide (t ≤ v)),
      List.length_eq_countP_add_countP (fun v => decide (t ≤ v))
        (l := Selection.kept _ bs)] at hlen
    simp only [decide_eq_true_eq, not_le] at hlen
    omega

private theorem erase_erase {as bs : List Value} (h : Dominated as bs) {a b : Value} (ha : a ∈ as)
    (hmax : ∀ v ∈ as, v ≤ a) (hb : b ∈ bs) (hab : a ≤ b) :
    Dominated (as.erase a) (bs.erase b) := by
  refine ⟨?_, fun t => ?_⟩
  · rw [List.length_erase_of_mem ha, List.length_erase_of_mem hb, h.length_eq]
  · by_cases ht : t ≤ a
    · have hle := h.countP_le t
      rw [(List.perm_cons_erase ha).countP_eq, (List.perm_cons_erase hb).countP_eq,
        List.countP_cons_of_pos (by simpa using ht),
        List.countP_cons_of_pos (by simpa using ht.trans hab)] at hle
      omega
    · have hzero : (as.erase a).countP (fun v => decide (t ≤ v)) = 0 := by
        rw [List.countP_eq_zero]
        intro v hv
        simpa using lt_of_le_of_lt (hmax v (List.mem_of_mem_erase hv)) (not_le.mp ht)
      rw [hzero]
      exact Nat.zero_le _

/-- Sums of a monotone measure follow the order of size. -/
theorem sum_map_le {f : Value → Int} (hf : ∀ v w, v ≤ w → f v ≤ f w) {as bs : List Value}
    (h : Dominated as bs) : (as.map f).sum ≤ (bs.map f).sum := by
  induction hn : as.length generalizing as bs with
  | zero =>
    have has : as = [] := List.eq_nil_of_length_eq_zero hn
    have hbs : bs = [] := List.eq_nil_of_length_eq_zero (h.length_eq ▸ hn)
    rw [has, hbs]
  | succ n ih =>
    -- the greatest value on the left goes with any value on the right that is not less
    obtain ⟨a, hmax?⟩ : ∃ a, as.max? = some a := by
      cases as with
      | nil => cases hn
      | cons a as => exact ⟨_, List.max?_cons'⟩
    obtain ⟨ha, hmax⟩ := List.max?_eq_some_iff.mp hmax?
    have hcount : 0 < bs.countP fun v => decide (a ≤ v) := by
      refine lt_of_lt_of_le ?_ (h.countP_le a)
      exact List.countP_pos_iff.mpr ⟨a, ha, by simp⟩
    obtain ⟨b, hb, hab⟩ := List.countP_pos_iff.mp hcount
    rw [decide_eq_true_eq] at hab
    have hrest := ih (h.erase_erase ha hmax hb hab) (by
      rw [List.length_erase_of_mem ha, hn]
      rfl)
    rw [((List.perm_cons_erase ha).map f).sum_eq, ((List.perm_cons_erase hb).map f).sum_eq,
      List.map_cons, List.map_cons, List.sum_cons, List.sum_cons]
    have hhead := hf a b hab
    omega

private theorem magnitude_eq (vals : List Value) :
    (Value.magnitude vals : Int) =
      (vals.map fun v => max v.toInt 0).sum - (vals.map fun v => min v.toInt 0).sum ∧
    0 ≤ (vals.map fun v => max v.toInt 0).sum ∧ (vals.map fun v => min v.toInt 0).sum ≤ 0 := by
  induction vals with
  | nil => exact ⟨rfl, Int.le_refl 0, Int.le_refl 0⟩
  | cons v vals ih =>
    simp only [Value.magnitude, List.map_cons, List.sum_cons, Nat.cast_add] at ih ⊢
    omega

/-- Values between two lists are together no larger than both lists. -/
theorem magnitude_le {as vals bs : List Value} (hlow : Dominated as vals)
    (hhigh : Dominated vals bs) :
    Value.magnitude vals ≤ Value.magnitude as + Value.magnitude bs := by
  have hpos : ∀ v w : Value, v ≤ w → max v.toInt 0 ≤ max w.toInt 0 := by
    intro v w hvw
    have := Value.le_def.mp hvw
    omega
  have hneg : ∀ v w : Value, v ≤ w → min v.toInt 0 ≤ min w.toInt 0 := by
    intro v w hvw
    have := Value.le_def.mp hvw
    omega
  have hupper := hhigh.sum_map_le hpos
  have hlower := hlow.sum_map_le hneg
  have hvals := magnitude_eq vals
  have has := magnitude_eq as
  have hbs := magnitude_eq bs
  omega

/-- The saturating sums follow the order of size where they are exact. -/
theorem total_le {as bs : List Value} (h : Dominated as bs)
    (has : Value.magnitude as ≤ 9223372036854775807)
    (hbs : Value.magnitude bs ≤ 9223372036854775807) : Value.total as ≤ Value.total bs := by
  rw [Value.le_def, (Value.toInt_total has).1, (Value.toInt_total hbs).1]
  exact h.sum_map_le fun v w hvw => Value.le_def.mp hvw

end Dominated

end DiceExpr
