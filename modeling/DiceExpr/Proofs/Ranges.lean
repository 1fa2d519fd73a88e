import DiceExpr.Die
import DiceExpr.Proofs.Saturation

namespace DiceExpr

theorem Value.succ?_eq_some {a b : Value} : a.succ? = some b ↔ b.toInt = a.toInt + 1 := by
  have hb := b.le_greatest
  have hl := a.least_le
  unfold succ?
  split_ifs with h
  · rw [Option.some.injEq, Value.ext_iff, toInt_clamp_of_mem (by omega) (by omega), eq_comm]
  · simp only [false_iff]
    omega

theorem Value.pred?_eq_some {a b : Value} : a.pred? = some b ↔ b.toInt = a.toInt - 1 := by
  have hb := b.least_le
  have hh := a.le_greatest
  unfold pred?
  split_ifs with h
  · rw [Option.some.injEq, Value.ext_iff, toInt_clamp_of_mem (by omega) (by omega), eq_comm]
  · simp only [false_iff]
    omega

theorem Value.exists_succ?_le {a v : Value} : (∃ b, a.succ? = some b ∧ b ≤ v) ↔ a < v := by
  rw [lt_def]
  constructor
  · intro h
    obtain ⟨b, hb, hle⟩ := h
    have hval := succ?_eq_some.mp hb
    rw [le_def] at hle
    omega
  · intro h
    have hl := a.least_le
    have hh := v.le_greatest
    have hval : (clamp (a.toInt + 1)).toInt = a.toInt + 1 :=
      toInt_clamp_of_mem (by omega) (by omega)
    refine ⟨clamp (a.toInt + 1), succ?_eq_some.mpr hval, ?_⟩
    rw [le_def]
    omega

theorem Value.exists_le_pred? {a v : Value} : (∃ b, a.pred? = some b ∧ v ≤ b) ↔ v < a := by
  rw [lt_def]
  constructor
  · intro h
    obtain ⟨b, hb, hle⟩ := h
    have hval := pred?_eq_some.mp hb
    rw [le_def] at hle
    omega
  · intro h
    have hl := v.least_le
    have hh := a.le_greatest
    have hval : (clamp (a.toInt - 1)).toInt = a.toInt - 1 :=
      toInt_clamp_of_mem (by omega) (by omega)
    refine ⟨clamp (a.toInt - 1), pred?_eq_some.mpr hval, ?_⟩
    rw [le_def]
    omega

namespace Ends

instance : Membership Value (Ends Value) := ⟨fun e v => e.low ≤ v ∧ v ≤ e.high⟩

theorem mem_def {e : Ends Value} {v : Value} : v ∈ e ↔ e.low ≤ v ∧ v ≤ e.high := Iff.rfl

instance (v : Value) (e : Ends Value) : Decidable (v ∈ e) :=
  inferInstanceAs (Decidable (e.low ≤ v ∧ v ≤ e.high))

theorem low_mem {e : Ends Value} (h : e.low ≤ e.high) : e.low ∈ e := ⟨le_refl _, h⟩

theorem high_mem {e : Ends Value} (h : e.low ≤ e.high) : e.high ∈ e := ⟨h, le_refl _⟩

theorem low_le_high_of_mem {e : Ends Value} {v : Value} (h : v ∈ e) : e.low ≤ e.high :=
  le_trans h.1 h.2

theorem mem_image {f : Value → Value} (hf : Monotone f ∨ Antitone f) {e : Ends Value} {v : Value}
    (h : v ∈ e) : f v ∈ e.image f := by
  obtain ⟨hlow, hhigh⟩ := h
  rcases hf with hf | hf
  · exact ⟨(min_le_left _ _).trans (hf hlow), (hf hhigh).trans (le_max_right _ _)⟩
  · exact ⟨(min_le_right _ _).trans (hf hhigh), (hf hlow).trans (le_max_left _ _)⟩

/-- The range spanned by the values with a property, if there are any: both of its ends are such
values. -/
def Extremes (P : Value → Prop) : Option (Ends Value) → Prop
  | none => ∀ v, ¬P v
  | some e => P e.low ∧ P e.high ∧ ∀ v, P v → v ∈ e

theorem Extremes.congr {P Q : Value → Prop} {e? : Option (Ends Value)} (h : Extremes P e?)
    (hpq : ∀ v, P v ↔ Q v) : Extremes Q e? := by
  have heq : P = Q := funext fun v => propext (hpq v)
  exact heq ▸ h

/-- A value with the property lies in the range of all of them. -/
theorem Extremes.exists_mem {P : Value → Prop} {e? : Option (Ends Value)} (h : Extremes P e?)
    {v : Value} (hv : P v) : ∃ e, e? = some e ∧ v ∈ e := by
  cases e? with
  | none => exact absurd hv (h v)
  | some e => exact ⟨e, rfl, h.2.2 v hv⟩

theorem Extremes.exists_iff {P : Value → Prop} {e? : Option (Ends Value)} (h : Extremes P e?) :
    (∃ e, e? = some e) ↔ ∃ v, P v := by
  constructor
  · intro hsome
    obtain ⟨e, rfl⟩ := hsome
    exact ⟨e.low, h.1⟩
  · intro hvalue
    obtain ⟨v, hv⟩ := hvalue
    obtain ⟨e, he, -⟩ := h.exists_mem hv
    exact ⟨e, he⟩

theorem extremes_around? (vals : List Value) : Extremes (· ∈ vals) (around? vals) := by
  cases vals with
  | nil =>
    intro v hv
    exact absurd hv List.not_mem_nil
  | cons a as =>
    obtain ⟨low, hlow⟩ : ∃ low, (a :: as).min? = some low := ⟨_, List.min?_cons'⟩
    obtain ⟨high, hhigh⟩ : ∃ high, (a :: as).max? = some high := ⟨_, List.max?_cons'⟩
    simp only [around?, hlow, hhigh, Extremes]
    rw [List.min?_eq_some_iff] at hlow
    rw [List.max?_eq_some_iff] at hhigh
    exact ⟨hlow.1, hhigh.1, fun v hv => ⟨hlow.2 v hv, hhigh.2 v hv⟩⟩

theorem extremes_meet? (e f : Ends Value) : Extremes (fun v => v ∈ e ∧ v ∈ f) (e.meet? f) := by
  unfold meet?
  split_ifs with h
  · have hel : e.low ≤ max e.low f.low := le_max_left _ _
    have hfl : f.low ≤ max e.low f.low := le_max_right _ _
    have heh : min e.high f.high ≤ e.high := min_le_left _ _
    have hfh : min e.high f.high ≤ f.high := min_le_right _ _
    refine ⟨⟨⟨hel, h.trans heh⟩, ⟨hfl, h.trans hfh⟩⟩, ⟨⟨hel.trans h, heh⟩, ⟨hfl.trans h, hfh⟩⟩, ?_⟩
    intro v hv
    exact ⟨max_le hv.1.1 hv.2.1, le_min hv.1.2 hv.2.2⟩
  · intro v hv
    exact h ((max_le hv.1.1 hv.2.1).trans (le_min hv.1.2 hv.2.2))

/-- Outside of a part of a range lie the values below the part and those above it. -/
theorem extremes_without? {e part : Ends Value} (hlow : part.low ∈ e) (hhigh : part.high ∈ e) :
    Extremes (fun v => v ∈ e ∧ v ∉ part) (e.without? part) := by
  have hout (v : Value) : v ∈ e ∧ v ∉ part ↔
      (e.low.toInt ≤ v.toInt ∧ v.toInt ≤ e.high.toInt) ∧
        (v.toInt < part.low.toInt ∨ part.high.toInt < v.toInt) := by
    simp only [mem_def, Value.le_def]
    omega
  refine Extremes.congr ?_ fun v => (hout v).symm
  simp only [mem_def, Value.le_def] at hlow hhigh
  simp only [without?, Value.lt_def, Value.le_def]
  by_cases hl : e.low.toInt < part.low.toInt
  · obtain ⟨below, hbelow, hfilter⟩ := Value.exists_le_pred?.mpr (Value.lt_def.mpr hl)
    have hval := Value.pred?_eq_some.mp hbelow
    rw [Value.le_def] at hfilter
    by_cases hh : part.high.toInt < e.high.toInt
    · simp only [hl, hh, if_true, Option.bind_eq_bind, Option.bind_some, Option.pure_def, Extremes,
        mem_def, Value.le_def, true_or, or_true, and_true]
      refine ⟨by omega, by omega, ?_⟩
      intro v hv
      omega
    · simp only [hl, hh, if_true, if_false, hbelow, Option.filter_some, hfilter, decide_true,
        Option.bind_eq_bind, Option.bind_some, Option.pure_def, Extremes, mem_def, Value.le_def,
        true_or, true_and, and_true]
      refine ⟨by omega, by omega, ?_⟩
      intro v hv
      omega
  · by_cases hh : part.high.toInt < e.high.toInt
    · obtain ⟨above, habove, hfilter⟩ := Value.exists_succ?_le.mpr (Value.lt_def.mpr hh)
      have hval := Value.succ?_eq_some.mp habove
      rw [Value.le_def] at hfilter
      simp only [hl, hh, if_true, if_false, habove, Option.filter_some, hfilter, decide_true,
        Option.bind_eq_bind, Option.bind_some, Option.pure_def, Extremes, mem_def, Value.le_def,
        or_true, and_true]
      refine ⟨by omega, by omega, ?_⟩
      intro v hv
      omega
    · have hnone : (part.high.succ?.filter fun v => decide (v.toInt ≤ e.high.toInt)) = none := by
        rw [Option.filter_eq_none_iff]
        intro above habove
        have hval := Value.succ?_eq_some.mp habove
        rw [decide_eq_true_eq]
        omega
      simp only [hl, if_false, hnone, Option.bind_eq_bind, Option.bind_none, Extremes]
      intro v hv
      omega

end Ends

theorem Die.extremes_ends {faces : List Value} (hne : faces ≠ []) :
    Ends.Extremes (· ∈ faces) (some (custom faces).ends) := by
  obtain ⟨a, as, rfl⟩ := List.exists_cons_of_ne_nil hne
  have hends : Ends.around? (a :: as) = some (custom (a :: as)).ends := by
    simp only [Ends.around?, ends, List.min?_cons', List.max?_cons', Option.getD_some]
  rw [← hends]
  exact Ends.extremes_around? (a :: as)

end DiceExpr
