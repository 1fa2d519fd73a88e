import DiceExpr.Proofs.Ranges
import DiceExpr.Tree.Bounds

namespace DiceExpr

namespace Condition

/-- The range of the passing values holds these and no others. -/
theorem mem_passing (c : Condition) (v : Value) :
    (∃ pass, c.passing = some pass ∧ v ∈ pass) ↔ c.check v := by
  have hl := Value.least_le_any v
  have hh := Value.any_le_greatest v
  obtain ⟨comparator, expected⟩ := c
  cases comparator with
  | eq =>
    simp only [passing, check, Option.some.injEq, exists_eq_left', Ends.mem_def, decide_eq_true_eq]
    exact ⟨fun h => le_antisymm h.2 h.1, fun h => ⟨h.ge, h.le⟩⟩
  | gt =>
    simp only [passing, check, decide_eq_true_eq, Option.map_eq_some_iff, ← Value.exists_succ?_le]
    constructor
    · intro h
      obtain ⟨_, ⟨low, hlow, rfl⟩, hmem⟩ := h
      exact ⟨low, hlow, hmem.1⟩
    · intro h
      obtain ⟨low, hlow, hle⟩ := h
      exact ⟨_, ⟨low, hlow, rfl⟩, hle, hh⟩
  | gte =>
    simp only [passing, check, Option.some.injEq, exists_eq_left', Ends.mem_def, decide_eq_true_eq,
      hh, and_true]
  | lt =>
    simp only [passing, check, decide_eq_true_eq, Option.map_eq_some_iff, ← Value.exists_le_pred?]
    constructor
    · intro h
      obtain ⟨_, ⟨high, hhigh, rfl⟩, hmem⟩ := h
      exact ⟨high, hhigh, hmem.2⟩
    · intro h
      obtain ⟨high, hhigh, hle⟩ := h
      exact ⟨_, ⟨high, hhigh, rfl⟩, hl, hle⟩
  | lte =>
    simp only [passing, check, Option.some.injEq, exists_eq_left', Ends.mem_def, decide_eq_true_eq,
      hl, true_and]

theorem mem_of_passing {c : Condition} {pass : Ends Value} (h : c.passing = some pass) (v : Value) :
    v ∈ pass ↔ c.check v := by
  rw [← mem_passing, h]
  simp

theorem extremes_passingIn (c : Condition) (range : Ends Value) :
    Ends.Extremes (fun v => v ∈ range ∧ c.check v) (c.passingIn range) := by
  unfold passingIn
  cases h : c.passing with
  | none =>
    intro v hv
    obtain ⟨pass, hpass, -⟩ := (mem_passing c v).mpr hv.2
    rw [h] at hpass
    cases hpass
  | some pass =>
    refine (Ends.extremes_meet? range pass).congr ?_
    intro v
    rw [mem_of_passing h]

/-- Between two passing values every value passes. So those of a range that pass make up a range. -/
theorem mem_of_passingIn {c : Condition} {range pass : Ends Value}
    (h : c.passingIn range = some pass) (v : Value) : v ∈ pass ↔ v ∈ range ∧ c.check v := by
  have hin := extremes_passingIn c range
  rw [h] at hin
  obtain ⟨hlow, hhigh, hin⟩ := hin
  refine ⟨fun hv => ?_, hin v⟩
  obtain ⟨all, hall, hlow'⟩ := (mem_passing c pass.low).mpr hlow.2
  have hhigh' := (mem_of_passing hall pass.high).mpr hhigh.2
  exact ⟨⟨hlow.1.1.trans hv.1, hv.2.trans hhigh.1.2⟩,
    (mem_of_passing hall v).mp ⟨hlow'.1.trans hv.1, hv.2.trans hhigh'.2⟩⟩

end Condition

/-- A split holds the extremes of those values with a property that pass and of those that fail. -/
structure Split.Divides (split : Split) (c : Condition) (P : Value → Prop) : Prop where
  passing : Ends.Extremes (fun v => P v ∧ c.check v) split.passing
  failing : Ends.Extremes (fun v => P v ∧ ¬c.check v) split.failing

namespace Condition

theorem splitRange_divides (c : Condition) {range : Ends Value} (h : range.low ≤ range.high) :
    (c.splitRange range).Divides c (· ∈ range) := by
  have hin := extremes_passingIn c range
  unfold splitRange
  cases hpass : c.passingIn range with
  | none =>
    rw [hpass] at hin
    refine ⟨hin, ⟨Ends.low_mem h, fun hc => hin _ ⟨Ends.low_mem h, hc⟩⟩,
      ⟨Ends.high_mem h, fun hc => hin _ ⟨Ends.high_mem h, hc⟩⟩, ?_⟩
    intro v hv
    exact hv.1
  | some pass =>
    rw [hpass] at hin
    refine ⟨hin, (Ends.extremes_without? hin.1.1 hin.2.1.1).congr ?_⟩
    intro v
    refine and_congr_right fun hv => not_congr ?_
    rw [mem_of_passingIn hpass, and_iff_right hv]

theorem splitList_divides (c : Condition) (vals : List Value) :
    (c.splitList vals).Divides c (· ∈ vals) where
  passing := (Ends.extremes_around? _).congr fun v => by rw [List.mem_filter]
  failing := (Ends.extremes_around? _).congr fun v => by
    rw [List.mem_filter, Bool.not_eq_true, Bool.not_eq_true']

end Condition

namespace Tree

/-- The values that the split of a target is about: the faces of a custom die, else all the range.
-/
def Splits : Tree → Value → Prop
  | die (.custom faces), v => v ∈ faces
  | t, v => v ∈ t.bounds

theorem Splits.mem_bounds {t : Tree} {v : Value} (h : t.Splits v) : v ∈ t.bounds := by
  rcases t with (_ | _ | _ | ⟨faces⟩) | children | ⟨inner, m⟩
  case die.custom => exact (Die.extremes_ends (List.ne_nil_of_mem h)).2.2 v h
  all_goals exact h

theorem split_divides {t : Tree} (h : t.bounds.low ≤ t.bounds.high) (c : Condition) :
    (t.split c t.bounds).Divides c t.Splits := by
  rcases t with (_ | _ | _ | ⟨faces⟩) | children | ⟨inner, m⟩
  case die.custom => exact c.splitList_divides faces
  all_goals exact c.splitRange_divides h

/-- Only a die without faces has ends that are none of the values it is split at. -/
theorem splits_ends {t : Tree} (h : t.bounds.low ≤ t.bounds.high) (hne : t ≠ die (.custom [])) :
    t.Splits t.bounds.low ∧ t.Splits t.bounds.high := by
  rcases t with (_ | _ | _ | ⟨faces⟩) | children | ⟨inner, m⟩
  case die.custom =>
    have hfaces : faces ≠ [] := fun hnil => hne (by rw [hnil])
    obtain ⟨hlow, hhigh, -⟩ := Die.extremes_ends hfaces
    exact ⟨hlow, hhigh⟩
  all_goals exact ⟨Ends.low_mem h, Ends.high_mem h⟩

end Tree

namespace Condition

/-- What is found of the values that pass a condition, and of those that fail it, is exact. Of a
range the passing values are just those of the range found, and none is found only where none
passes. The extremes that a tree is split into are values of its range or, if it is a custom die,
among its faces. -/
theorem extremes_exact (c : Condition) :
    (∀ range : Ends Value, ((∃ pass, c.passingIn range = some pass) ↔ ∃ v ∈ range, c.check v) ∧
      ∀ pass, c.passingIn range = some pass → ∀ v, v ∈ pass ↔ v ∈ range ∧ c.check v) ∧
    (∀ t : Tree, (∀ faces, t ≠ .die (.custom faces)) → t.lowest ≤ t.highest →
      (t.split c t.bounds).Divides c fun v => t.lowest ≤ v ∧ v ≤ t.highest) ∧
    ∀ faces, let t := Tree.die (.custom faces)
      (t.split c t.bounds).Divides c (· ∈ faces) := by
  refine ⟨fun range => ⟨?_, fun pass => mem_of_passingIn⟩, fun t hplain hle => ?_, fun faces => ?_⟩
  · exact (extremes_passingIn c range).exists_iff
  · have hdivides := Tree.split_divides hle c
    rcases t with (_ | _ | _ | ⟨faces⟩) | children | ⟨inner, m⟩
    case die.custom => exact absurd rfl (hplain faces)
    all_goals exact hdivides
  · exact c.splitList_divides faces

/-- The threshold is the least value of all, and the range of the difference begins there. Beyond
the greatest value nothing passes. -/
theorem extremes_exact_at_least :
    let t := Tree.modified (.modified (.die .fudge) (.calculate .mul .greatest)) (.calculate .sub 1)
    let c : Condition := ⟨.eq, .least⟩
    (∀ faces, t ≠ .die (.custom faces)) ∧ t.lowest ≤ t.highest ∧
      t.split c t.bounds = ⟨some ⟨.least, .least⟩,
        some ⟨.clamp (-9223372036854775807), .clamp 9223372036854775806⟩⟩ ∧
      (t.split c t.bounds).Divides c (fun v => t.lowest ≤ v ∧ v ≤ t.highest) ∧
      (∀ v, v ∈ (⟨.least, .least⟩ : Ends Value) ↔ v ∈ t.bounds ∧ c.check v) ∧
      ¬∃ v ∈ (⟨0, .greatest⟩ : Ends Value), (⟨.gt, .greatest⟩ : Condition).check v := by
  intro t c
  have hplain : ∀ faces, t ≠ .die (.custom faces) := nofun
  have hle : t.lowest ≤ t.highest := by decide
  have hpass : c.passingIn t.bounds = some ⟨.least, .least⟩ := by decide
  have hnone : (⟨.gt, .greatest⟩ : Condition).passingIn ⟨0, .greatest⟩ = none := by decide
  obtain ⟨hrange, htree, -⟩ := extremes_exact c
  obtain ⟨hrange', -, -⟩ := extremes_exact ⟨.gt, .greatest⟩
  refine ⟨hplain, hle, by decide, htree t hplain hle, (hrange t.bounds).2 _ hpass, fun h => ?_⟩
  obtain ⟨pass, hsome⟩ := (hrange' _).1.mpr h
  rw [hnone] at hsome
  cases hsome

end Condition

end DiceExpr
