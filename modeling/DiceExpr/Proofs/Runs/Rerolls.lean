import DiceExpr.Proofs.Courses
import DiceExpr.Proofs.Nodes
import DiceExpr.Proofs.Runs.Sequencing

namespace DiceExpr

/-- Several things done in turn, each of them in the state that the one before has left. -/
inductive InTurn (Does : ι → S → α → S → Prop) : List ι → S → List α → S → Prop
  | done (state : S) : InTurn Does [] state [] state
  | next {i : ι} {is : List ι} {a : α} {as : List α} {state between state' : S}
    (h : Does i state a between) (hrest : InTurn Does is between as state') :
    InTurn Does (i :: is) state (a :: as) state'

namespace InTurn

variable {Does Does' : ι → S → α → S → Prop} {i : ι} {is : List ι} {as : List α} {state state' : S}

theorem nil_iff : InTurn Does [] state as state' ↔ as = [] ∧ state' = state := by
  constructor
  · intro h
    cases h
    exact ⟨rfl, rfl⟩
  · intro h
    obtain ⟨rfl, rfl⟩ := h
    exact .done _

theorem cons_iff : InTurn Does (i :: is) state as state' ↔
    ∃ a rest between, as = a :: rest ∧ Does i state a between ∧
      InTurn Does is between rest state' := by
  constructor
  · intro h
    cases h with
    | next h hrest => exact ⟨_, _, _, rfl, h, hrest⟩
  · intro h
    obtain ⟨a, rest, between, rfl, h, hrest⟩ := h
    exact .next h hrest

theorem congr (h : ∀ i state a state', Does i state a state' ↔ Does' i state a state') :
    InTurn Does is state as state' ↔ InTurn Does' is state as state' := by
  have heq : Does = Does' := by
    funext i state a state'
    exact propext (h i state a state')
  rw [heq]

theorem map_iff {κ : Type} {f : κ → ι} {ks : List κ} :
    InTurn Does (ks.map f) state as state' ↔ InTurn (fun k => Does (f k)) ks state as state' := by
  induction ks generalizing state as with
  | nil => rw [List.map_nil, nil_iff, nil_iff]
  | cons k ks ih => simp only [List.map_cons, cons_iff, ih]

theorem forall_mem {P : α → Prop} (h : InTurn Does is state as state')
    (hdoes : ∀ i state a state', Does i state a state' → P a) : ∀ a ∈ as, P a := by
  induction h with
  | done state => exact List.forall_mem_nil _
  | next h _ ih => exact List.forall_mem_cons.mpr ⟨hdoes _ _ _ _ h, ih⟩

end InTurn

namespace Play

/-- The run of a play comes to a result, and leaves the feed and the listener in another state. -/
def Runs (feed : Feed σ) (listener : Listener τ) (p : Play α) (state : σ × τ) (a : α)
    (state' : σ × τ) : Prop :=
  p.run feed listener state.1 state.2 = ⟨some a, state'.1, state'.2⟩

variable {feed : Feed σ} {listener : Listener τ} {state state' : σ × τ}

theorem runs_done {a b : α} :
    (done a).Runs feed listener state b state' ↔ b = a ∧ state' = state := by
  simp only [Runs, run, Outcome.mk.injEq, Option.some.injEq, Prod.ext_iff, eq_comm]

theorem runs_note {step : Step} {next : Play α} {a : α} :
    (note step next).Runs feed listener state a state' ↔
      next.Runs feed listener (state.1, listener.tell state.2 step) a state' := Iff.rfl

theorem runs_bind {p : Play α} {f : α → Play β} {b : β} :
    (p.bind f).Runs feed listener state b state' ↔
      ∃ a between, p.Runs feed listener state a between ∧
        (f a).Runs feed listener between b state' := by
  unfold Runs
  rw [run_bind]
  cases hp : p.run feed listener state.1 state.2 with
  | mk result s u =>
    cases result with
    | none =>
      rw [Outcome.bind_of_none rfl]
      simp
    | some a =>
      rw [Outcome.bind_of_some rfl]
      constructor
      · intro h
        exact ⟨a, (s, u), rfl, h⟩
      · intro h
        obtain ⟨_, _, heq, h⟩ := h
        cases heq
        exact h

theorem runs_map {p : Play α} {f : α → β} {b : β} :
    (p.map f).Runs feed listener state b state' ↔
      ∃ a, p.Runs feed listener state a state' ∧ b = f a := by
  simp only [map, runs_bind, runs_done]
  constructor
  · intro h
    obtain ⟨a, _, ha, rfl, rfl⟩ := h
    exact ⟨a, ha, rfl⟩
  · intro h
    obtain ⟨a, ha, rfl⟩ := h
    exact ⟨a, state', ha, rfl, rfl⟩

theorem runs_eachThen {plays : List (Play α)} {follow : List α → Play β} {b : β} :
    (eachThen plays follow).Runs feed listener state b state' ↔
      ∃ as between, InTurn (Runs feed listener) plays state as between ∧
        (follow as).Runs feed listener between b state' := by
  induction plays generalizing state follow with
  | nil =>
    simp only [eachThen, InTurn.nil_iff]
    constructor
    · intro h
      exact ⟨[], state, ⟨rfl, rfl⟩, h⟩
    · intro h
      obtain ⟨_, _, ⟨rfl, rfl⟩, h⟩ := h
      exact h
  | cons p plays ih =>
    simp only [eachThen, runs_bind, ih, InTurn.cons_iff]
    constructor
    · intro h
      obtain ⟨a, between, ha, as, between', has, h⟩ := h
      exact ⟨a :: as, between', ⟨a, as, between, rfl, ha, has⟩, h⟩
    · intro h
      obtain ⟨_, between', ⟨a, as, between, rfl, ha, has⟩, h⟩ := h
      exact ⟨a, between, ha, as, between', has, h⟩

/-! Chains -/

/-- The shortest run of rolls of a target that has to stop: the target is rolled again and again,
all rolls before the last one pass, and the last one fails or stands at the limit. -/
structure ShortestRun (feed : Feed σ) (listener : Listener τ) (condition : Condition) (limit : Nat)
    (target : Play Roll) (state : σ × τ) (rolls : List Roll) (state' : σ × τ) : Prop where
  inTurn : InTurn (Runs feed listener) (List.replicate rolls.length target) state rolls state'
  stops : ∃ passed last, rolls = passed ++ [last] ∧
    condition.Stops limit (passed.map Roll.value) last.value

variable {condition : Condition} {limit : Nat} {target : Play Roll} {rolls : List Roll}

theorem ShortestRun.ne_nil
    (h : ShortestRun feed listener condition limit target state rolls state') : rolls ≠ [] := by
  obtain ⟨passed, last, rfl, -⟩ := h.stops
  simp

theorem inTurn_replicate_one {r : Roll} :
    InTurn (Runs feed listener) (List.replicate [r].length target) state [r] state' ↔
      target.Runs feed listener state r state' := by
  simp only [List.length_singleton, List.replicate_one, InTurn.cons_iff, InTurn.nil_iff]
  constructor
  · intro h
    obtain ⟨_, _, _, heq, h, rfl, rfl⟩ := h
    cases heq
    exact h
  · intro h
    exact ⟨r, [], state', rfl, h, rfl, rfl⟩

/-- At the limit a single roll is all. -/
theorem shortestRun_zero :
    ShortestRun feed listener condition 0 target state rolls state' ↔
      ∃ r, target.Runs feed listener state r state' ∧ rolls = [r] := by
  constructor
  · intro h
    obtain ⟨hrolls, passed, last, rfl, hstops⟩ := h
    have hnil : passed = [] := by
      simpa using List.length_eq_zero_iff.mp (Nat.le_zero.mp hstops.length_le)
    subst hnil
    exact ⟨last, inTurn_replicate_one.mp hrolls, rfl⟩
  · intro h
    obtain ⟨r, hr, rfl⟩ := h
    exact ⟨inTurn_replicate_one.mpr hr, [], r, rfl, Condition.stops_nil.mpr (.inr rfl)⟩

/-- Below the limit the first roll is followed by a shorter run, or else it fails. -/
theorem shortestRun_succ :
    ShortestRun feed listener condition (limit + 1) target state rolls state' ↔
      ∃ r between, target.Runs feed listener state r between ∧
        if condition.check r.value then
          ∃ rest, ShortestRun feed listener condition limit target between rest state' ∧
            rolls = r :: rest
        else rolls = [r] ∧ state' = between := by
  constructor
  · intro h
    obtain ⟨hrolls, passed, last, rfl, hstops⟩ := h
    cases passed with
    | nil =>
      have hfails : ¬condition.check last.value := by simpa using Condition.stops_nil.mp hstops
      refine ⟨last, state', inTurn_replicate_one.mp hrolls, ?_⟩
      rw [if_neg hfails]
      exact ⟨rfl, rfl⟩
    | cons r passed =>
      obtain ⟨hpasses, hstops⟩ := Condition.stops_cons.mp hstops
      rw [List.cons_append, List.length_cons, List.replicate_succ, InTurn.cons_iff] at hrolls
      obtain ⟨_, _, between, heq, hr, hrest⟩ := hrolls
      cases heq
      refine ⟨r, between, hr, ?_⟩
      rw [if_pos hpasses]
      exact ⟨passed ++ [last], ⟨hrest, passed, last, rfl, hstops⟩, rfl⟩
  · intro h
    obtain ⟨r, between, hr, h⟩ := h
    split_ifs at h with hc
    · obtain ⟨_, ⟨hrest, passed, last, rfl, hstops⟩, rfl⟩ := h
      exact ⟨.next hr hrest, r :: passed, last, rfl, Condition.stops_cons.mpr ⟨hc, hstops⟩⟩
    · obtain ⟨rfl, rfl⟩ := h
      exact ⟨inTurn_replicate_one.mpr hr, [], r, rfl, Condition.stops_nil.mpr (.inl hc)⟩

theorem chain_succ (target : Play Roll) (condition : Condition) (limit : Nat) :
    chain target condition (limit + 1) = target.bind fun r =>
      if condition.check r.value then (chain target condition limit).map (r :: ·)
      else done [r] := by
  unfold chain
  rw [chainThen]
  congr 1
  funext r
  split
  · exact (chainThen_bind target condition limit done fun rest => done (r :: rest)).symm
  · rfl

/-- A chain is the shortest run that has to stop. -/
theorem runs_chain_iff : (chain target condition limit).Runs feed listener state rolls state' ↔
    ShortestRun feed listener condition limit target state rolls state' := by
  induction limit generalizing state rolls with
  | zero =>
    rw [shortestRun_zero]
    exact runs_map
  | succ limit ih =>
    rw [chain_succ, runs_bind, shortestRun_succ]
    refine exists_congr fun r => exists_congr fun between => and_congr_right fun _ => ?_
    split
    · simp only [runs_map, ih]
    · exact runs_done

/-- The targets of an explosion have their chains in turn. -/
theorem runs_explode {node : Tree} {targets : List (Play Roll)} {parted : Parted} :
    (explode node condition limit targets).Runs feed listener state parted state' ↔
      ∃ chains between,
        InTurn (ShortestRun feed listener condition limit) targets state chains between ∧
        parted = ⟨Roll.sum (chains.map Roll.added), chains.map Roll.added⟩ ∧
        state' = (between.1, listener.tell between.2
          ⟨node, parted.roll, .exploded (chains.map List.length).sum⟩) := by
  have hchains (rolls : List (List Roll)) (between : σ × τ) :
      InTurn (Runs feed listener) (targets.map (chain · condition limit)) state rolls between ↔
        InTurn (ShortestRun feed listener condition limit) targets state rolls between := by
    rw [InTurn.map_iff]
    exact InTurn.congr fun _ _ _ _ => runs_chain_iff
  simp only [explode, runs_eachThen, hchains, runs_note, runs_done, List.length_flatten]
  refine exists_congr fun chains => exists_congr fun between => and_congr_right fun _ => ?_
  refine and_congr_right fun hparted => ?_
  rw [hparted]

end Play

/-- A roll adds up others from left to right. Its trace shows theirs, those of sums in parentheses.
-/
def Roll.AddsUp (rolls : List Roll) (sum : Roll) : Prop :=
  ∃ first rest, rolls = first :: rest ∧
    sum.value = rest.foldl (fun v r => v.add r.value) first.value ∧
    sum.trace = Text.joined " + ".toList (rolls.map fun r =>
      if '+' ∈ r.trace then r.trace.parenthesised else r.trace)

theorem Roll.addsUp_iff {rolls : List Roll} (hne : rolls ≠ []) {sum : Roll} :
    AddsUp rolls sum ↔ sum = added rolls := by
  obtain ⟨first, rest, rfl⟩ := List.exists_cons_of_ne_nil hne
  have hvalue : (added (first :: rest)).value =
      rest.foldl (fun v r => v.add r.value) first.value := by
    rw [added, Value.total, List.map_cons, List.foldl_cons, Value.zero_add, List.foldl_map]
  constructor
  · intro h
    obtain ⟨_, _, heq, hsum, htrace⟩ := h
    cases heq
    exact Roll.ext (hsum.trans hvalue.symm) htrace
  · intro h
    subst h
    exact ⟨first, rest, rfl, hvalue, rfl⟩

theorem Roll.forall₂_addsUp_iff {chains : List (List Roll)} (hne : ∀ rolls ∈ chains, rolls ≠ [])
    {sums : List Roll} : List.Forall₂ AddsUp chains sums ↔ sums = chains.map added := by
  induction chains generalizing sums with
  | nil => rw [List.forall₂_nil_left_iff, List.map_nil]
  | cons rolls chains ih =>
    obtain ⟨hrolls, hchains⟩ := List.forall_mem_cons.mp hne
    simp only [List.forall₂_cons_left_iff, addsUp_iff hrolls, ih hchains, List.map_cons]
    constructor
    · intro h
      obtain ⟨_, _, rfl, rfl, rfl⟩ := h
      rfl
    · intro h
      exact ⟨_, _, rfl, rfl, h⟩

namespace Tree

/-- An exploding tree has the chains of its targets in turn. -/
theorem runs_evaluate_explode {feed : Feed σ} {listener : Listener τ} {condition : Condition}
    {limit : Nat} {inner : Tree} {state state' : σ × τ} {roll : Roll} :
    let node := modified inner (.explode condition limit)
    node.evaluate.Runs feed listener state roll state' ↔
      ∃ chains between,
        InTurn (fun target : Tree =>
          Play.ShortestRun feed listener condition limit target.evaluate)
          inner.targets state chains between ∧
        roll = Roll.sum (chains.map Roll.added) ∧
        state' = (between.1, listener.tell between.2
          ⟨node, roll, .exploded (chains.map List.length).sum⟩) := by
  intro node
  rw [evaluate_explode, evaluations_eq_map, Play.runs_map]
  simp only [Play.runs_explode, InTurn.map_iff]
  constructor
  · intro h
    obtain ⟨_, ⟨chains, between, hturn, rfl, hstate⟩, rfl⟩ := h
    exact ⟨chains, between, hturn, rfl, hstate⟩
  · intro h
    obtain ⟨chains, between, hturn, rfl, hstate⟩ := h
    exact ⟨_, ⟨chains, between, hturn, rfl, hstate⟩, rfl⟩

/-- A chain is the shortest run of its target that has to stop, with the sum and the number of the
rolls. An explosion has the chains of all its targets in turn, comes to their sum, and tells how many
rolls were made for all of them. -/
theorem explosion_runs_iff (feed : Feed σ) (listener : Listener τ) (condition : Condition)
    (limit : Nat) :
    (∀ (target : Tree) (state : σ × τ) (sum : Roll) (count : Nat) (state' : σ × τ),
      ((Play.chain target.evaluate condition limit).map fun rolls =>
        (Roll.added rolls, rolls.length)).Runs feed listener state (sum, count) state' ↔
        ∃ rolls, Play.ShortestRun feed listener condition limit target.evaluate state rolls state' ∧
          Roll.AddsUp rolls sum ∧ count = rolls.length) ∧
    ∀ (inner : Tree) (state : σ × τ) (roll : Roll) (state' : σ × τ),
      let node := modified inner (.explode condition limit)
      node.evaluate.Runs feed listener state roll state' ↔
        ∃ chains sums between,
          InTurn (fun target : Tree =>
            Play.ShortestRun feed listener condition limit target.evaluate)
            inner.targets state chains between ∧
          List.Forall₂ Roll.AddsUp chains sums ∧ roll = Roll.sum sums ∧
          let step : Step := ⟨node, roll, .exploded (chains.map List.length).sum⟩
          state' = (between.1, listener.tell between.2 step) ∧
            step.entry.extensions = [("total_rolls", .clamp (chains.map List.length).sum)] := by
  refine ⟨fun target state sum count state' => ?_, fun inner state roll state' => ?_⟩
  · rw [Play.runs_map]
    refine exists_congr fun rolls => ?_
    rw [Play.runs_chain_iff, Prod.mk.injEq]
    exact and_congr_right fun hrun => and_congr_left' (Roll.addsUp_iff hrun.ne_nil).symm
  · intro node
    refine runs_evaluate_explode.trans ?_
    constructor
    · intro h
      obtain ⟨chains, between, hturn, hroll, hstate⟩ := h
      have hne := hturn.forall_mem fun _ _ _ _ hrun => hrun.ne_nil
      exact ⟨chains, _, between, hturn, (Roll.forall₂_addsUp_iff hne).mpr rfl, hroll, hstate, rfl⟩
    · intro h
      obtain ⟨chains, sums, between, hturn, hsums, hroll, hstate, -⟩ := h
      have hne := hturn.forall_mem fun _ _ _ _ hrun => hrun.ne_nil
      rw [(Roll.forall₂_addsUp_iff hne).mp hsums] at hroll
      exact ⟨chains, between, hturn, hroll, hstate⟩

/-- All rolls of the first die pass, so that its chain ends at the limit. The second die fails at
once. -/
example :
    let node := modified (pool [die (.sided 6), die (.sided 4)]) (.explode ⟨.gte, 4⟩ 2)
    node.evaluate.Runs Supply.feed .silent (.listed [5, 6, 4, 1, 3], ())
      ⟨16, "(5 + 6 + 4) + 1".toList⟩ (.listed [3], ()) := by
  rfl

end Tree

end DiceExpr
