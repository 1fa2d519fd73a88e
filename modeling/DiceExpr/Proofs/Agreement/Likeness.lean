import DiceExpr.Proofs.Runs.Muting
import DiceExpr.Proofs.Selections.Laws

namespace DiceExpr

/-- A single play adds up to itself. -/
theorem Play.each_singleton_sum (p : Play Roll) : (each [p]).map Roll.sum = p :=
  (each_bind [p] _).trans (bind_done p)

namespace Tree

/-- Two trees with the same bounds and equally many parts with the same bounds. Whatever feeds
them, they come to the same roll and to the same parts from the same numbers. -/
structure Agree (a b : Tree) : Prop where
  lowest : a.lowest = b.lowest
  highest : a.highest = b.highest
  partCount : a.partCount = b.partCount
  partBounds : a.partBounds = b.partBounds
  evaluate : a.evaluate.Agree b.evaluate
  parts : a.parts.Agree b.parts

/-- Two trees with the same bounds that are played alike but for the notes. -/
structure Alike (a b : Tree) : Prop where
  bounds : a.bounds = b.bounds
  partCount : a.partCount = b.partCount
  partBounds : a.partBounds = b.partBounds
  evaluate : a.evaluate.muted = b.evaluate.muted
  parts : a.parts.muted = b.parts.muted

theorem partCount_explode (inner : Tree) (condition : Condition) (limit : Nat) :
    (modified inner (.explode condition limit)).partCount = inner.targets.length := by
  cases inner <;> rfl

theorem targets_of_ne_pool {t : Tree} (h : ∀ children, t ≠ pool children) : t.targets = [t] := by
  cases t with
  | die d => rfl
  | pool children => exact absurd rfl (h children)
  | modified inner m => rfl

namespace Alike

variable {a b : Tree}

theorem agree (h : a.Alike b) : a.Agree b where
  lowest := congrArg Ends.low h.bounds
  highest := congrArg Ends.high h.bounds
  partCount := h.partCount
  partBounds := h.partBounds
  evaluate := Play.agree_of_muted_eq h.evaluate
  parts := Play.agree_of_muted_eq h.parts

theorem calculate (h : a.Alike b) (op : Operator) (operand : Value) :
    (modified a (.calculate op operand)).Alike (modified b (.calculate op operand)) where
  bounds := by simp only [Tree.bounds, h.bounds]
  partCount := rfl
  partBounds := by simp only [Tree.partBounds, h.bounds]
  evaluate := by rw [muted_evaluate_calculate, muted_evaluate_calculate, h.evaluate]
  parts := by rw [muted_parts_calculate, muted_parts_calculate, h.evaluate]

theorem select (h : a.Alike b) (selection : Selection) :
    (modified a (.select selection)).Alike (modified b (.select selection)) where
  bounds := by simp only [Tree.bounds, h.partBounds]
  partCount := by simp only [Tree.partCount, h.partCount]
  partBounds := by simp only [Tree.partBounds, h.partBounds]
  evaluate := by rw [muted_evaluate_select, muted_evaluate_select, h.parts]
  parts := by rw [muted_parts_select, muted_parts_select, h.parts]

theorem selected (h : a.Alike b) (chain : List Selection) :
    (a.selected chain).Alike (b.selected chain) := by
  induction chain generalizing a b with
  | nil => exact h
  | cons selection chain ih => exact ih (h.select selection)

/-- Of an explosion only the ranges and the chains of the targets matter. -/
theorem explode {condition : Condition} {limit : Nat}
    (hranges : (a.targets.map fun t => chainBounds condition limit t t.bounds) =
      b.targets.map fun t => chainBounds condition limit t t.bounds)
    (hchains : a.targets.map (chained condition limit) =
      b.targets.map (chained condition limit)) :
    (modified a (.explode condition limit)).Alike (modified b (.explode condition limit)) := by
  have hcount : a.targets.length = b.targets.length := by
    simpa only [List.length_map] using congrArg List.length hchains
  constructor
  · rw [bounds_explode, bounds_explode, partBounds_explode, partBounds_explode, hranges]
  · rw [partCount_explode, partCount_explode, hcount]
  · rw [partBounds_explode, partBounds_explode, hranges]
  · rw [muted_evaluate_explode, muted_evaluate_explode, hchains]
  · rw [muted_parts_explode, muted_parts_explode, hchains]

/-- What is modified already explodes as a whole. -/
theorem explode_modified {m m' : Modifier} (h : (modified a m).Alike (modified b m'))
    (condition : Condition) (limit : Nat) :
    (modified (modified a m) (.explode condition limit)).Alike
      (modified (modified b m') (.explode condition limit)) := by
  apply explode
  · simp only [targets, List.map_cons, List.map_nil, chainBounds, split, h.bounds]
  · simp only [targets, List.map_cons, List.map_nil, chained, h.evaluate]

end Alike

end Tree

end DiceExpr
