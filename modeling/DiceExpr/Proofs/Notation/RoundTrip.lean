import DiceExpr.Proofs.Notation.Formation

namespace DiceExpr.Tree

variable {limits : Limits}

theorem terms_of_text {t : Tree} (h : ∀ n ∈ t.nodes, n.Written) {terms : List Term} :
    Term.ofText? t.text = .ok terms ↔ terms = t.terms := by
  have hderives := derives_terms h
  have hnormal := Text.normal_of_derives hderives
  have hne : t.text.normal ≠ [] := by
    rw [hnormal]
    exact hderives.text_ne_nil
  have hread : Term.ofText? t.text = .ok t.terms := by
    refine (Term.read_eq_ok hne).mpr ?_
    rw [hnormal]
    exact hderives
  rw [hread, Except.ok.injEq, eq_comm]

theorem checkDepth_eq_ok {depth : Nat} :
    limits.checkDepth depth = .ok () ↔ depth ≤ limits.deepestGroup := by
  unfold Limits.checkDepth
  split
  · next h => exact ⟨nofun, fun hle => absurd h (Nat.not_lt.mpr hle)⟩
  · next h => exact ⟨fun _ => Nat.not_lt.mp h, fun _ => rfl⟩

/-- The text of a tree is built into the regrouped tree, if its groups are not nested too deep and
all modifiers fit there, and else into none. -/
theorem ofText?_text (hmost : Batch.mostDice ≤ limits.mostDice) {t t' : Tree}
    (h : ∀ n ∈ t.nodes, n.Formed limits) :
    ofText? limits t.text = .ok t' ↔ t.text.parenDepth ≤ limits.deepestGroup ∧
      (∀ n ∈ t.regrouped.nodes, n.Passes) ∧ t' = t.regrouped := by
  have hwritten : ∀ n ∈ t.nodes, n.Written := fun n hn => (h n hn).written
  have hdepth := Text.parenDepth_of_derives (derives_terms hwritten)
  simp only [ofText?, ofTerms?, Limits.bind_eq_ok, terms_of_text hwritten, exists_eq_left,
    Limits.sum?_terms hmost h, ← hdepth]
  constructor
  · intro hbuilt
    obtain ⟨⟨⟩, hdeep, ⟨⟩, -, rfl, hpasses⟩ := hbuilt
    exact ⟨checkDepth_eq_ok.mp hdeep, hpasses, rfl⟩
  · intro hbuilt
    obtain ⟨hdeep, hpasses, rfl⟩ := hbuilt
    have hcheck := checkDepth_eq_ok.mpr hdeep
    exact ⟨(), hcheck, (), hcheck, rfl, hpasses⟩

/-- The text of a tree keeps its bounds just if the groups in it are not nested too deep, and the
regrouped tree has modifiers that fit and the same bounds. -/
theorem round_trip_keeps_bounds_iff {text : Text} (hne : text.normal ≠ []) {t : Tree}
    (h : ofText? {} text = .ok t) :
    (∃ t', ofText? {} t.text = .ok t' ∧ t'.lowest = t.lowest ∧ t'.highest = t.highest) ↔
      t.text.parenDepth ≤ 32 ∧ (∀ n ∈ t.regrouped.nodes, n.Passes) ∧
        t.regrouped.lowest = t.lowest ∧ t.regrouped.highest = t.highest := by
  have hmost : Batch.mostDice ≤ ({} : Limits).mostDice := by decide
  simp only [ofText?_text hmost (formed_of_ofText? hne h)]
  constructor
  · intro hkept
    obtain ⟨_, ⟨hdeep, hpasses, rfl⟩, hlow, hhigh⟩ := hkept
    exact ⟨hdeep, hpasses, hlow, hhigh⟩
  · intro hkept
    obtain ⟨hdeep, hpasses, hlow, hhigh⟩ := hkept
    exact ⟨t.regrouped, ⟨hdeep, hpasses, rfl⟩, hlow, hhigh⟩

/-- Once a modifier has taken a group as a whole, the bounds stay the same. -/
theorem round_trip_of_kept_dice :
    let text : Text := "(2d4 + d6) kh1 * 3 + 2d4".toList
    let t := pool [modified (modified (pool [pool [die (.sided 4), die (.sided 4)],
      die (.sided 6)]) (.select ⟨.keep, .high, 1⟩)) (.calculate .mul 3),
      pool [die (.sided 4), die (.sided 4)]]
    text.normal ≠ [] ∧ ofText? {} text = .ok t ∧
      ∃ t', ofText? {} t.text = .ok t' ∧ t'.lowest = t.lowest ∧ t'.highest = t.highest := by
  intro text t
  have hne : text.normal ≠ [] := by decide +kernel
  have hbuilt : ofText? {} text = .ok t := by decide +kernel
  have hkept : t.text.parenDepth ≤ 32 ∧ (∀ n ∈ t.regrouped.nodes, n.Passes) ∧
      t.regrouped.lowest = t.lowest ∧ t.regrouped.highest = t.highest := by decide +kernel
  exact ⟨hne, hbuilt, (round_trip_keeps_bounds_iff hne hbuilt).mpr hkept⟩

/-- The dice of four sides come together to one part, of which the highest is kept. -/
theorem round_trip_changes_bounds :
    let text : Text := "(D4+D6+D4)KH1".toList
    ∃ t t', text.normal ≠ [] ∧ ofText? {} text = .ok t ∧ t.text = "(2D4+D6)KH1".toList ∧
      ofText? {} t.text = .ok t' ∧ t.lowest = 1 ∧ t.highest = 6 ∧ t'.lowest = 2 ∧
      t'.highest = 8 := by
  refine ⟨modified (pool [die (.sided 4), die (.sided 6), die (.sided 4)])
      (.select ⟨.keep, .high, 1⟩),
    modified (pool [pool [die (.sided 4), die (.sided 4)], die (.sided 6)])
      (.select ⟨.keep, .high, 1⟩), ?_⟩
  decide +kernel

end DiceExpr.Tree
