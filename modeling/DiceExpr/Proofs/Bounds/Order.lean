import DiceExpr.Proofs.Bounds.Chains
import DiceExpr.Proofs.Bounds.Dominance
import DiceExpr.Proofs.Nodes
import DiceExpr.Tree.Build

namespace DiceExpr

theorem Die.low_le_high (d : Die) : d.ends.low ≤ d.ends.high := by
  cases d with
  | sided sides => exact le_max_right sides 1
  | percentile => decide
  | fudge => decide
  | custom faces =>
    cases faces with
    | nil => exact le_refl 0
    | cons v vs =>
      obtain ⟨hlow, -, hmem⟩ := Die.extremes_ends (List.cons_ne_nil v vs)
      exact Ends.low_le_high_of_mem (hmem _ hlow)

theorem Ends.image_low_le_high (f : Value → Value) (e : Ends Value) :
    (e.image f).low ≤ (e.image f).high :=
  (min_le_left _ _).trans (le_max_left _ _)

namespace Tree

/-- At a node that selects, the sums of what is kept of the bounds leave the range between the exact
sums at most outward, although partial sums may be saturated. -/
def SumsOutward : Tree → Prop
  | modified inner (.select selection) =>
    let lows := selection.kept inner.partBounds.low
    let highs := selection.kept inner.partBounds.high
    Value.total lows ≤ .clamp (lows.map Value.toInt).sum ∧
      .clamp (highs.map Value.toInt).sum ≤ Value.total highs
  | _ => True

instance (t : Tree) : Decidable t.SumsOutward :=
  match t with
  | die _ => isTrue trivial
  | pool _ => isTrue trivial
  | modified _ (.calculate ..) => isTrue trivial
  | modified _ (.select _) => instDecidableAnd
  | modified _ (.explode ..) => isTrue trivial

/-- The bounds are the right way round, and in order of size so are those of the parts. -/
structure Ordered (t : Tree) : Prop where
  bounds : t.lowest ≤ t.highest
  parts : Dominated t.partBounds.low t.partBounds.high

private theorem forall₂_low_le_high {range : Tree → Ends Value} {ts : List Tree}
    (h : ∀ t ∈ ts, (range t).low ≤ (range t).high) :
    List.Forall₂ (· ≤ ·) (Ends.ofList (ts.map range)).low (Ends.ofList (ts.map range)).high := by
  rw [Ends.ofList, List.map_map, List.map_map, List.forall₂_map_left_iff,
    List.forall₂_map_right_iff, List.forall₂_same]
  exact h

private theorem dominated_single {range : Ends Value} (h : range.low ≤ range.high) :
    Dominated (range.map ([·])).low (range.map ([·])).high :=
  .of_forall₂ (.cons h .nil)

theorem ordered_pool {children : List Tree} (h : ∀ c ∈ children, c.Ordered) :
    (pool children).Ordered := by
  have hle := forall₂_low_le_high fun c hc => (h c hc).bounds
  refine ⟨?_, ?_⟩
  · rw [lowest, highest, bounds_pool]
    exact Value.total_le_total hle
  · rw [partBounds_pool]
    exact .of_forall₂ hle

theorem ordered_select {inner : Tree} {selection : Selection} (h : inner.Ordered)
    (hsums : (modified inner (.select selection)).SumsOutward) :
    (modified inner (.select selection)).Ordered := by
  have hkept := h.parts.kept selection
  obtain ⟨hlow, hhigh⟩ := hsums
  have hexact := Value.clamp_le_clamp (hkept.sum_map_le fun v w hvw => Value.le_def.mp hvw)
  exact ⟨hlow.trans (hexact.trans hhigh), hkept⟩

/-- The chains of a target are split at values of the target, so their range is not turned round. -/
theorem chainBounds_low_le_high (condition : Condition) (limit : Nat) {t : Tree}
    (h : t.bounds.low ≤ t.bounds.high) :
    (chainBounds condition limit t t.bounds).low ≤
      (chainBounds condition limit t t.bounds).high := by
  by_cases hne : t = die (.custom [])
  · rw [hne]
    exact le_refl 0
  · have hdivides := split_divides h condition
    obtain ⟨hlow, hhigh⟩ := splits_ends h hne
    obtain ⟨hchain, -⟩ := Split.chainSum_chain hdivides hlow hhigh
    exact Ends.low_le_high_of_mem (Split.mem_chain hdivides (fun _ => Splits.mem_bounds) hchain)

theorem ordered_explode {inner : Tree} (condition : Condition) (limit : Nat)
    (h : ∀ t ∈ inner.targets, t.Ordered) :
    (modified inner (.explode condition limit)).Ordered := by
  have hle := forall₂_low_le_high fun t ht =>
    chainBounds_low_le_high condition limit (h t ht).bounds
  refine ⟨?_, ?_⟩
  · rw [lowest, highest, bounds_explode, partBounds_explode]
    exact Value.total_le_total hle
  · rw [partBounds_explode]
    exact .of_forall₂ hle

/-- Only a selection can turn a range round, and only where partial sums are saturated. -/
theorem ordered_of_sumsOutward {t : Tree} (h : ∀ n ∈ t.nodes, n.SumsOutward) : t.Ordered := by
  induction t using Tree.induction with
  | die d => exact ⟨d.low_le_high, dominated_single d.low_le_high⟩
  | pool children ih =>
    obtain ⟨-, hchildren⟩ := forall_nodes_pool.mp h
    exact ordered_pool fun c hc => ih c hc (hchildren c hc)
  | calculate inner op operand ih =>
    have hle := inner.bounds.image_low_le_high (op.apply · operand)
    exact ⟨hle, dominated_single hle⟩
  | select inner selection ih =>
    obtain ⟨hnode, hinner⟩ := forall_nodes_modified.mp h
    exact ordered_select (ih hinner) hnode
  | explode inner condition limit ih =>
    have hinner := (forall_nodes_modified.mp h).2
    refine ordered_explode condition limit fun t ht => ih t ht fun n hn => ?_
    exact hinner n (mem_nodes_of_target ht hn)

/-- Where partial sums move the sums of a selection at most outward, the range of a tree holds a
value. -/
theorem lowest_le_highest {t : Tree} (h : ∀ n ∈ t.nodes, n.SumsOutward) : t.lowest ≤ t.highest :=
  (ordered_of_sumsOutward h).bounds

/-- Both sums of the selection are saturated here. -/
theorem lowest_le_highest_of_saturated_sums :
    let text : Text := "(D[9223372036854775807] + D[9223372036854775807,1] + D[-1])KH2".toList
    let t := modified (pool [die (.custom [.greatest]), die (.custom [.greatest, 1]),
      die (.custom [-1])]) (.select ⟨.keep, .high, 2⟩)
    ofText? {} text = .ok t ∧ (∀ n ∈ t.nodes, n.SumsOutward) ∧ t.lowest ≤ t.highest := by
  intro text t
  have hbuilt : ofText? {} text = .ok t := by decide +kernel
  have hsums : ∀ n ∈ t.nodes, n.SumsOutward := by decide +kernel
  exact ⟨hbuilt, hsums, lowest_le_highest hsums⟩

/-- Of the lower bounds the first one is kept, and the sum comes to the greatest value. Of the upper
bounds the last one is kept, and the sum is saturated before that brings it down to one. -/
theorem highest_lt_lowest_of_selection :
    let text : Text := ("(D[-9223372036854775807] + D[9223372036854775807] + " ++
      "D[9223372036854775807] + D[-9223372036854775807,-9223372036854775806])KH3").toList
    let t := modified (pool [die (.custom [-.greatest]), die (.custom [.greatest]),
      die (.custom [.greatest]), die (.custom [-.greatest, .add 1 (-.greatest)])])
      (.select ⟨.keep, .high, 3⟩)
    ofText? {} text = .ok t ∧ t.lowest = .greatest ∧ t.highest = 1 ∧ t.highest < t.lowest := by
  decide +kernel

end Tree

end DiceExpr
