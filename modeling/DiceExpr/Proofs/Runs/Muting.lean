import DiceExpr.Proofs.Runs.Watching
import DiceExpr.Proofs.Traces.Work

namespace DiceExpr

namespace Play

/-- The play without its notes. -/
def muted : Play α → Play α
  | done a => done a
  | draw range next => draw range fun v => (next v).muted
  | note _ next => next.muted

@[simp] theorem muted_bind (p : Play α) (f : α → Play β) :
    (p.bind f).muted = p.muted.bind fun a => (f a).muted := by
  induction p with
  | done a => rfl
  | draw range next ih => simp only [bind, muted, ih]
  | note step next ih => exact ih

@[simp] theorem muted_map (p : Play α) (f : α → β) : (p.map f).muted = p.muted.map f :=
  muted_bind p fun a => done (f a)

@[simp] theorem muted_eachThen (plays : List (Play α)) (follow : List α → Play β) :
    (eachThen plays follow).muted = eachThen (plays.map muted) fun as => (follow as).muted := by
  induction plays generalizing follow with
  | nil => rfl
  | cons p rest ih => simp only [eachThen, muted_bind, List.map_cons, ih]

@[simp] theorem muted_chainThen (target : Play Roll) (condition : Condition) (limit : Nat)
    (follow : List Roll → Play β) : (chainThen target condition limit follow).muted =
      chainThen target.muted condition limit fun rolls => (follow rolls).muted := by
  induction limit generalizing follow with
  | zero => simp only [chainThen, muted_bind]
  | succ more ih =>
    simp only [chainThen, muted_bind]
    congr 1
    funext r
    split
    · exact ih _
    · rfl

theorem run_muted (p : Play α) (feed : Feed σ) (listener : Listener τ) (s : σ) (u : τ) :
    (p.muted.run feed listener s u).result = (p.run feed listener s u).result ∧
      (p.muted.run feed listener s u).feed = (p.run feed listener s u).feed := by
  rw [run_eq p.muted, run_eq p]
  induction p generalizing s with
  | done a => exact ⟨rfl, rfl⟩
  | draw range next ih =>
    simp only [muted, run]
    cases feed.next range s with
    | none => exact ⟨rfl, rfl⟩
    | some answer => exact ih answer.1 answer.2
  | note step next ih => exact ih s

theorem draws_muted (p : Play α) (feed : Feed σ) (s : σ) :
    p.muted.draws feed s = p.draws feed s := by
  induction p generalizing s with
  | done a => rfl
  | draw range next ih =>
    simp only [muted, draws]
    cases feed.next range s with
    | none => rfl
    | some answer => exact congrArg (_ :: ·) (ih answer.1 answer.2)
  | note step next ih => exact ih s

/-- Whatever feeds them, and whoever listens, both plays draw the same numbers and come to the same
result, or both run dry. -/
structure Agree (p q : Play α) : Prop where
  result : ∀ {σ τ : Type} (feed : Feed σ) (listener : Listener τ) (s : σ) (u : τ),
    (p.run feed listener s u).result = (q.run feed listener s u).result
  feed : ∀ {σ τ : Type} (feed : Feed σ) (listener : Listener τ) (s : σ) (u : τ),
    (p.run feed listener s u).feed = (q.run feed listener s u).feed
  draws : ∀ {σ : Type} (feed : Feed σ) (s : σ), p.draws feed s = q.draws feed s

theorem agree_of_muted_eq {p q : Play α} (h : p.muted = q.muted) : p.Agree q where
  result feed listener s u := by
    rw [← (p.run_muted feed listener s u).1, h, (q.run_muted feed listener s u).1]
  feed feed listener s u := by
    rw [← (p.run_muted feed listener s u).2, h, (q.run_muted feed listener s u).2]
  draws feed s := by
    rw [← p.draws_muted, h, q.draws_muted]

/-- An explosion comes to the chains of its targets, one after another. -/
theorem muted_explode (node : Tree) (condition : Condition) (limit : Nat)
    (targets : List (Play Roll)) : (explode node condition limit targets).muted =
      (each (targets.map fun p => (chain p.muted condition limit).map Roll.added)).map
        fun rolls => ⟨Roll.sum rolls, rolls⟩ := by
  have hchains : targets.map (fun p => (chain p.muted condition limit).map Roll.added) =
      (targets.map fun p => chain p.muted condition limit).map (map Roll.added) := by
    rw [List.map_map]
    rfl
  rw [explode, muted_eachThen, List.map_map, hchains, each, eachThen_map, map, eachThen_bind]
  simp only [Function.comp_def, chain, muted_chainThen]
  rfl

end Play

namespace Tree

/-! The evaluation of each kind of tree without its notes, and that of its parts -/

theorem muted_evaluate_pool (children : List Tree) : (pool children).evaluate.muted =
    (Play.each (children.map fun c => c.evaluate.muted)).map Roll.sum := by
  rw [evaluate_pool, Play.muted_eachThen, List.map_map, Play.map, Play.each_bind]
  rfl

theorem muted_parts_pool (children : List Tree) : (pool children).parts.muted =
    Play.each (children.map fun c => c.evaluate.muted) := by
  rw [parts_pool, Play.each, Play.muted_eachThen, List.map_map]
  rfl

theorem muted_evaluate_calculate (inner : Tree) (op : Operator) (operand : Value) :
    (modified inner (.calculate op operand)).evaluate.muted =
      inner.evaluate.muted.map fun r => r.calculate op operand := by
  rw [evaluate, Play.muted_bind]
  rfl

theorem muted_parts_calculate (inner : Tree) (op : Operator) (operand : Value) :
    (modified inner (.calculate op operand)).parts.muted =
      inner.evaluate.muted.map fun r => [r.calculate op operand] := by
  rw [parts, Play.muted_bind]
  rfl

/-- What a selection makes of the parts of a tree. -/
def selectedParts (selection : Selection) (rolls : List Roll) : Parted :=
  let mask := selection.mask (rolls.map Roll.value)
  let kept := Selection.marked mask rolls
  ⟨⟨Value.total (kept.map Roll.value), Roll.maskedTrace mask rolls⟩, kept⟩

theorem muted_select (node inner : Tree) (selection : Selection) :
    (Play.select node selection inner.parts).muted =
      inner.parts.muted.map (selectedParts selection) := by
  rw [Play.select, Play.muted_bind]
  rfl

theorem muted_evaluate_select (inner : Tree) (selection : Selection) :
    (modified inner (.select selection)).evaluate.muted =
      inner.parts.muted.map fun rolls => (selectedParts selection rolls).roll := by
  rw [evaluate, Play.muted_map, muted_select, Play.map_map]
  rfl

theorem muted_parts_select (inner : Tree) (selection : Selection) :
    (modified inner (.select selection)).parts.muted =
      inner.parts.muted.map fun rolls => (selectedParts selection rolls).parts := by
  rw [parts, Play.muted_map, muted_select, Play.map_map]
  rfl

/-- The chain of a target, added up. -/
def chained (condition : Condition) (limit : Nat) (target : Tree) : Play Roll :=
  (Play.chain target.evaluate.muted condition limit).map Roll.added

theorem muted_explode_targets (inner : Tree) (condition : Condition) (limit : Nat) :
    (Play.explode (modified inner (.explode condition limit)) condition limit
      (evaluations inner.targets)).muted =
        (Play.each (inner.targets.map (chained condition limit))).map
          fun rolls => ⟨Roll.sum rolls, rolls⟩ := by
  rw [Play.muted_explode, evaluations_eq_map, List.map_map]
  rfl

theorem muted_evaluate_explode (inner : Tree) (condition : Condition) (limit : Nat) :
    (modified inner (.explode condition limit)).evaluate.muted =
      (Play.each (inner.targets.map (chained condition limit))).map Roll.sum := by
  rw [evaluate_explode, Play.muted_map, muted_explode_targets, Play.map_map]
  rfl

/-- A tree that explodes as a whole is one part, which is the sum of its one chain. -/
theorem muted_parts_explode (inner : Tree) (condition : Condition) (limit : Nat) :
    (modified inner (.explode condition limit)).parts.muted =
      Play.each (inner.targets.map (chained condition limit)) := by
  have hpool (children : List Tree) : (modified (pool children) (.explode condition limit)).parts =
      (Play.explode (modified (pool children) (.explode condition limit)) condition limit
        (evaluations (pool children).targets)).map Parted.parts := rfl
  have hone (t : Tree) (h : t.targets = [t])
      (hparts : (modified t (.explode condition limit)).parts =
        (Play.explode (modified t (.explode condition limit)) condition limit
          (evaluations t.targets)).map ([·.roll])) :
      (modified t (.explode condition limit)).parts.muted =
        Play.each (t.targets.map (chained condition limit)) := by
    rw [hparts, Play.muted_map, muted_explode_targets, Play.map_map, h]
    simp only [List.map_cons, List.map_nil, Play.each, Play.eachThen, Play.map, Play.bind_assoc,
      Play.bind]
    rfl
  cases inner with
  | die d => exact hone (die d) rfl rfl
  | pool children =>
    rw [hpool, Play.muted_map, muted_explode_targets, Play.map_map]
    exact Play.bind_done _
  | modified inner m => exact hone (modified inner m) rfl rfl

end Tree

end DiceExpr
