import DiceExpr.Proofs.Bounds.Soundness

namespace DiceExpr

namespace Play

theorem askable_select (node : Tree) (selection : Selection) {parts : Play (List Roll)}
    (h : parts.Askable) : (select node selection parts).Askable :=
  askable_bind h fun _ => trivial

theorem askable_explode (node : Tree) (condition : Condition) (limit : Nat)
    {targets : List (Play Roll)} (h : ∀ p ∈ targets, p.Askable) :
    (explode node condition limit targets).Askable := by
  refine askable_eachThen ?_ fun _ => trivial
  intro p hp
  obtain ⟨target, htarget, rfl⟩ := List.mem_map.mp hp
  exact askable_chainThen (h target htarget) fun _ => trivial

end Play

namespace Tree

theorem askable_evaluations {ts : List Tree} (h : ∀ t ∈ ts, t.evaluate.Askable) :
    ∀ p ∈ evaluations ts, p.Askable := by
  intro p hp
  rw [evaluations_eq_map] at hp
  obtain ⟨t, ht, rfl⟩ := List.mem_map.mp hp
  exact h t ht

theorem askable_explosion {inner : Tree} (condition : Condition) (limit : Nat)
    (h : ∀ t ∈ inner.targets, t.evaluate.Askable) :
    (modified inner (.explode condition limit)).evaluate.Askable ∧
      (modified inner (.explode condition limit)).parts.Askable := by
  have hplays := Play.askable_explode (modified inner (.explode condition limit)) condition limit
    (askable_evaluations h)
  obtain ⟨view, hparts⟩ := exists_parts_explode inner condition limit
  rw [evaluate_explode, hparts]
  exact ⟨Play.askable_map _ hplays, Play.askable_map _ hplays⟩

/-- No die is ever asked for a number of an empty range. -/
theorem askable (t : Tree) : t.evaluate.Askable ∧ t.parts.Askable := by
  induction t using Tree.induction with
  | die d =>
    have hplay := d.askable_play
    exact ⟨Play.askable_bind hplay fun _ => trivial, Play.askable_bind hplay fun _ => trivial⟩
  | pool children ih =>
    have hplays := askable_evaluations fun c hc => (ih c hc).1
    exact ⟨Play.askable_eachThen hplays fun _ => trivial,
      Play.askable_eachThen hplays fun _ => trivial⟩
  | calculate inner op operand ih =>
    exact ⟨Play.askable_bind ih.1 fun _ => trivial, Play.askable_bind ih.1 fun _ => trivial⟩
  | select inner selection ih =>
    have hplay := Play.askable_select (modified inner (.select selection)) selection ih.2
    exact ⟨Play.askable_map _ hplay, Play.askable_map _ hplay⟩
  | explode inner condition limit ih =>
    exact askable_explosion condition limit fun t ht => (ih t ht).1

/-- The value of an evaluation lies within the bounds of its tree, and there is one if the feed
does not run dry. -/
theorem run_within_bounds {feed : Feed σ} (hfeed : feed.Obeys) (listener : Listener τ) (t : Tree)
    (hfits : ∀ n ∈ t.nodes, n.Fits) (s : σ) (u : τ) :
    (∀ roll, (t.evaluate.run feed listener s u).result = some roll →
      t.lowest ≤ roll.value ∧ roll.value ≤ t.highest) ∧
    (feed.Answers → ∃ roll, (t.evaluate.run feed listener s u).result = some roll) := by
  obtain ⟨hplay, -⟩ := t.askable
  constructor
  · intro roll hroll
    have hgives := Play.gives_of_run hfeed hplay hroll
    exact (bounded_of_fits t hfits).1 roll.value ⟨roll, hgives, rfl⟩
  · intro hanswers
    exact Play.run_ends listener hanswers hplay s u

/-- A feed that gives the low and the high end of its ranges by turns, and the two highest of a
custom die with negative faces, an exploding six-sided die and a product. -/
theorem run_within_bounds_by_turns :
    let feed : Feed Bool := ⟨fun range s => some (if s then range.low else range.high, !s)⟩
    let inner := pool [die (.custom [.clamp (-3), 5]),
      modified (die (.sided 6)) (.explode ⟨.eq, 6⟩ 2),
      modified (die .fudge) (.calculate .mul (.clamp (-4)))]
    let t := modified inner (.select ⟨.keep, .high, 2⟩)
    feed.Obeys ∧ feed.Answers ∧ (∀ n ∈ t.nodes, n.Fits) ∧ t.lowest = .clamp (-2) ∧
      t.highest = 23 ∧ ∃ roll, (t.evaluate.run feed .silent true ()).result = some roll ∧
        roll.value = 4 ∧ t.lowest ≤ roll.value ∧ roll.value ≤ t.highest := by
  intro feed inner t
  have hobeys : feed.Obeys := by
    intro range s v s' hrange hnext
    cases s with
    | false =>
      cases hnext
      exact ⟨hrange, le_refl _⟩
    | true =>
      cases hnext
      exact ⟨le_refl _, hrange⟩
  have hanswers : feed.Answers := fun range s _ => ⟨_, _, rfl⟩
  have hfits : ∀ n ∈ t.nodes, n.Fits := by decide
  obtain ⟨hbounds, hends⟩ := run_within_bounds hobeys .silent t hfits true ()
  obtain ⟨roll, hroll⟩ := hends hanswers
  have hvalue : (t.evaluate.run feed .silent true ()).result.map Roll.value = some 4 := by decide
  rw [hroll] at hvalue
  exact ⟨hobeys, hanswers, hfits, by decide, by decide, roll, hroll, Option.some.inj hvalue,
    hbounds roll hroll⟩

end Tree

end DiceExpr
