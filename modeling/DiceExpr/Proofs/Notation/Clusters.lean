import Mathlib.Data.List.Basic

namespace DiceExpr

/-- Equal items stand next to each other. -/
def Clustered (items : List α) : Prop :=
  ∀ before between after a, items = before ++ a :: between ++ a :: after → ∀ b ∈ between, b = a

namespace Clustered

variable {a : α} {items : List α}

theorem tail (h : Clustered (a :: items)) : Clustered items := by
  intro before between after b heq c hc
  have hall : a :: items = (a :: before) ++ b :: between ++ b :: after := by
    rw [heq]
    simp only [List.cons_append]
  exact h (a :: before) between after b hall c hc

theorem nil : Clustered ([] : List α) := by
  intro before between after a heq
  simp at heq

theorem singleton (a : α) : Clustered [a] := by
  intro before between after b heq
  have hlen := congrArg List.length heq
  simp at hlen
  omega

end Clustered

theorem clustered_cons_cons {a b : α} {items : List α} :
    Clustered (a :: b :: items) ↔ (a = b ∨ a ∉ b :: items) ∧ Clustered (b :: items) := by
  constructor
  · intro h
    refine ⟨or_iff_not_imp_right.mpr fun hmem => ?_, h.tail⟩
    rcases List.mem_cons.mp (not_not.mp hmem) with hb | hitems
    · exact hb
    · obtain ⟨s, t, rfl⟩ := List.append_of_mem hitems
      exact (h [] (b :: s) t a rfl b List.mem_cons_self).symm
  · intro h before between after c heq x hx
    obtain ⟨hfirst, hrest⟩ := h
    cases before with
    | nil =>
      obtain ⟨rfl, hbetween⟩ := List.cons.inj heq
      have hmem : a ∈ b :: items := by simp [hbetween]
      obtain rfl := hfirst.resolve_right fun hnot => hnot hmem
      cases between with
      | nil => cases hx
      | cons y between =>
        obtain ⟨rfl, hitems⟩ := List.cons.inj hbetween
        rcases List.mem_cons.mp hx with rfl | hx
        · rfl
        · exact hrest [] between after a (congrArg (a :: ·) hitems) x hx
    | cons y before =>
      obtain ⟨-, htail⟩ := List.cons.inj heq
      exact hrest before between after c htail x hx

instance Clustered.decidable [DecidableEq α] : (items : List α) → Decidable (Clustered items)
  | [] => isTrue .nil
  | [a] => isTrue (.singleton a)
  | _ :: b :: items =>
    have := Clustered.decidable (b :: items)
    decidable_of_iff _ clustered_cons_cons.symm

namespace Clustered

variable {a : α} {items : List α}

/-- The first item comes as often as it does at the beginning. -/
theorem exists_run (h : Clustered (a :: items)) :
    ∃ k rest, a :: items = List.replicate (k + 1) a ++ rest ∧ a ∉ rest ∧ Clustered rest := by
  induction items with
  | nil => exact ⟨0, [], rfl, List.not_mem_nil, .nil⟩
  | cons b items ih =>
    obtain ⟨hfirst, hrest⟩ := clustered_cons_cons.mp h
    obtain rfl | hmem := hfirst
    · obtain ⟨k, rest, heq, hmem, hclustered⟩ := ih hrest
      refine ⟨k + 1, rest, ?_, hmem, hclustered⟩
      rw [heq, List.replicate_succ (n := k + 1), List.cons_append]
    · exact ⟨0, b :: items, rfl, hmem, hrest⟩

theorem of_map {f : α → β} (hinj : ∀ a ∈ items, ∀ b ∈ items, f a = f b → a = b)
    (h : Clustered (items.map f)) : Clustered items := by
  intro before between after a heq b hb
  have hall : items.map f = before.map f ++ f a :: between.map f ++ f a :: after.map f := by
    rw [heq]
    simp only [List.map_append, List.map_cons]
  have hfb := h _ _ _ _ hall (f b) (List.mem_map_of_mem hb)
  have hmem (c : α) (hc : c = a ∨ c ∈ between) : c ∈ items := by
    rw [heq]
    rcases hc with rfl | hc
    · simp
    · simp [hc]
  exact hinj b (hmem b (.inr hb)) a (hmem a (.inl rfl)) hfb

end Clustered

end DiceExpr
