import DiceExpr.Proofs.Agreement.Likeness

namespace DiceExpr.Tree

section

variable (condition : Condition) (limit : Nat)

theorem bounds_explode_single {t : Tree} (h : t.targets = [t]) :
    (modified t (.explode condition limit)).bounds = chainBounds condition limit t t.bounds := by
  rw [bounds_explode, partBounds_explode, h]
  simp [Ends.ofList, Ends.map]

theorem muted_evaluate_explode_single {t : Tree} (h : t.targets = [t]) :
    (modified t (.explode condition limit)).evaluate.muted = chained condition limit t := by
  rw [muted_evaluate_explode, h]
  exact Play.each_singleton_sum (chained condition limit t)

/-- What is done to the children of a pool in one explosion is done to each of them in its own. -/
theorem alike_exploding_pool {children : List Tree} (h : ∀ c ∈ children, ∀ inner, c ≠ pool inner) :
    (modified (pool children) (.explode condition limit)).Alike
      (pool (children.map fun c => modified c (.explode condition limit))) := by
  have hranges : (children.map fun c => modified c (.explode condition limit)).map bounds =
      children.map fun c => chainBounds condition limit c c.bounds := by
    rw [List.map_map]
    exact List.map_congr_left fun c hc =>
      bounds_explode_single condition limit (targets_of_ne_pool (h c hc))
  have hchains : (children.map fun c => modified c (.explode condition limit)).map
      (fun c => c.evaluate.muted) = children.map (chained condition limit) := by
    rw [List.map_map]
    exact List.map_congr_left fun c hc =>
      muted_evaluate_explode_single condition limit (targets_of_ne_pool (h c hc))
  constructor
  · rw [bounds_explode, partBounds_explode, bounds_pool, hranges, targets]
  · rw [partCount_explode, partCount, List.length_map, targets]
  · rw [partBounds_explode, partBounds_pool, hranges, targets]
  · rw [muted_evaluate_explode, muted_evaluate_pool, hchains, targets]
  · rw [muted_parts_explode, muted_parts_pool, hchains, targets]

end

/-- A pool that explodes and the pool of its exploding children agree, also under any selections.
The children are no pools, since the dice of such a child would explode one by one. -/
theorem exploding_pool_agrees {children : List Tree}
    (h : ∀ c ∈ children, ∀ inner, c ≠ pool inner) (condition : Condition) (limit : Nat) :
    let whole := modified (pool children) (.explode condition limit)
    let apart := pool (children.map fun c => modified c (.explode condition limit))
    whole.Agree apart ∧ ∀ chain, (whole.selected chain).Agree (apart.selected chain) := by
  intro whole apart
  have halike : whole.Alike apart := alike_exploding_pool condition limit h
  exact ⟨halike.agree, fun chain => (halike.selected chain).agree⟩

/-- A die, a custom die and a product explode, and the lowest of the three is dropped. -/
theorem exploding_pool_agrees_of_mixed_children :
    let children := [die (.sided 6), die (.custom [2, 5]),
      modified (die .fudge) (.calculate .mul 6)]
    let whole := modified (pool children) (.explode ⟨.gte, 5⟩ 2)
    let apart := pool (children.map fun c => modified c (.explode ⟨.gte, 5⟩ 2))
    let chain : List Selection := [⟨.drop, .low, 1⟩]
    (∀ c ∈ children, ∀ inner, c ≠ pool inner) ∧ whole.Agree apart ∧
      (whole.selected chain).Agree (apart.selected chain) ∧ whole.lowest = .clamp (-3) ∧
      (apart.selected chain).highest = 36 := by
  intro children whole apart chain
  have hchildren : ∀ c ∈ children, ∀ inner, c ≠ pool inner := by
    simp [children]
  obtain ⟨hagree, hselected⟩ := exploding_pool_agrees hchildren ⟨.gte, 5⟩ 2
  exact ⟨hchildren, hagree, hselected chain, by decide, by decide⟩

end DiceExpr.Tree
