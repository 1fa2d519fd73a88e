import DiceExpr.Proofs.Bounds.Ranks
import DiceExpr.Proofs.Building.WellFormed
import DiceExpr.Proofs.Nodes
import DiceExpr.Proofs.Runs.Sequencing
import DiceExpr.Proofs.Traces.Work

namespace DiceExpr

/-- A step of a selection tells how many parts are kept and dropped: all parts of the inner tree are
there, and so many remain as the selection leaves of that many. -/
def Step.CountsParts (step : Step) : Prop :=
  match step.node with
  | .modified inner (.select selection) => ∃ kept dropped,
    step.details = .selected kept dropped ∧ kept = selection.remaining inner.partCount ∧
      kept + dropped = inner.partCount
  | _ => True

/-- How many parts a selection asks for: those that it keeps or those that it drops. -/
def Selection.asked (s : Selection) (kept dropped : Nat) : Nat :=
  match s.choice with
  | .keep => kept
  | .drop => dropped

/-- A selection gets as many parts as it counts, where there are that many. -/
theorem Selection.asked_eq_count {s : Selection} {kept dropped count : Nat}
    (hkept : kept = s.remaining count) (hall : kept + dropped = count) (hfits : s.count ≤ count) :
    s.asked kept dropped = s.count := by
  subst hkept
  unfold asked
  unfold remaining at hall ⊢
  cases hchoice : s.choice with
  | keep => exact Nat.min_eq_left hfits
  | drop =>
    simp only [hchoice] at hall ⊢
    omega

namespace Tree

theorem length_partBounds (t : Tree) :
    t.partBounds.low.length = t.partCount ∧ t.partBounds.high.length = t.partCount := by
  induction t using plainInduction with
  | die d => exact ⟨rfl, rfl⟩
  | pool children _ =>
    rw [partBounds_pool]
    simp [Ends.ofList, partCount]
  | modified inner m ih =>
    cases m with
    | calculate op operand => exact ⟨rfl, rfl⟩
    | select selection =>
      have hlow := selection.length_kept inner.partBounds.low
      have hhigh := selection.length_kept inner.partBounds.high
      rw [ih.1] at hlow
      rw [ih.2] at hhigh
      exact ⟨hlow, hhigh⟩
    | explode condition limit =>
      rw [partBounds_explode]
      cases inner <;> simp [Ends.ofList, partCount, targets]

/-- The evaluation of a tree together with its parts. A pool has not made its own step yet. -/
def parted : Tree → Play Parted
  | pool children => (Play.each (evaluations children)).map fun rolls => ⟨.sum rolls, rolls⟩
  | t@(modified inner (.select selection)) => Play.select t selection inner.parts
  | t@(modified (pool children) (.explode condition limit)) =>
    Play.explode t condition limit (evaluations children)
  | t => t.evaluate.map fun roll => ⟨roll, [roll]⟩

/-- What an evaluation still has to do when all parts are there: only a pool has a step to make. -/
def conclude : Tree → Roll → Play Roll
  | t@(pool _), roll => .finish t roll
  | _, roll => .done roll

/-- A tree of one part makes all its steps for that part. -/
theorem views_of_single {t : Tree} (hparted : t.parted = t.evaluate.map fun roll => ⟨roll, [roll]⟩)
    (hparts : t.parts = t.evaluate.map ([·])) (hconclude : t.conclude = .done) :
    t.parts = t.parted.map Parted.parts ∧
      t.evaluate = t.parted.bind fun parted => t.conclude parted.roll := by
  rw [hparted, hparts, hconclude, Play.map_map, Play.bind_map, Play.bind_done]
  exact ⟨rfl, rfl⟩

/-- The parts of a tree and its roll are two views of one play. -/
theorem views_of_parted (t : Tree) : t.parts = t.parted.map Parted.parts ∧
    t.evaluate = t.parted.bind fun parted => t.conclude parted.roll := by
  have hsingle (p : Play Parted) : p.map (fun parted => [parted.roll]) =
      (p.map Parted.roll).map ([·]) := (Play.map_map p Parted.roll ([·])).symm
  match t with
  | die d =>
    refine views_of_single rfl ?_ rfl
    rw [parts, evaluate, Play.map_bind]
  | pool children =>
    constructor
    · rw [parts, parted, Play.map_map]
      exact (Play.bind_done _).symm
    · rw [evaluate, parted, Play.bind_map, Play.each_bind]
      rfl
  | modified inner (.calculate op operand) =>
    refine views_of_single rfl ?_ rfl
    rw [parts, evaluate, Play.map_bind]
  | modified inner (.select selection) => exact ⟨rfl, rfl⟩
  | modified (pool children) (.explode condition limit) => exact ⟨rfl, rfl⟩
  | modified (die d) (.explode condition limit) => exact views_of_single rfl (hsingle _) rfl
  | modified (modified inner m) (.explode condition limit) =>
    exact views_of_single rfl (hsingle _) rfl

/-- What the parts of a tree come to: there are as many as counted beforehand, and their values add
up to that of the roll. -/
structure Sums (t : Tree) (parted : Parted) : Prop where
  length_parts : parted.parts.length = t.partCount
  value_roll : parted.roll.value = Value.total (parted.parts.map Roll.value)

/-- A step of some node of the tree, with the right counts. -/
def Makes (t : Tree) (step : Step) : Prop := step.node ∈ t.nodes ∧ step.CountsParts

theorem Makes.of_inner {inner : Tree} {step : Step} (h : inner.Makes step) (m : Modifier) :
    (modified inner m).Makes step := by
  refine ⟨?_, h.2⟩
  rw [nodes]
  exact List.mem_cons_of_mem _ h.1

theorem Makes.of_target {inner target : Tree} (ht : target ∈ inner.targets) {step : Step}
    (h : target.Makes step) (m : Modifier) : (modified inner m).Makes step :=
  Makes.of_inner ⟨mem_nodes_of_target ht h.1, h.2⟩ m

/-- All evaluations of a tree, and of its parts, make the right counts. -/
structure Counted (t : Tree) : Prop where
  parted : t.parted.Ensures t.Makes t.Sums
  evaluate : t.evaluate.Ensures t.Makes fun _ => True
  parts : t.parts.Ensures t.Makes fun rolls => rolls.length = t.partCount

theorem counted_of_parted {t : Tree} (h : t.parted.Ensures t.Makes t.Sums) : t.Counted := by
  obtain ⟨hparts, hevaluate⟩ := t.views_of_parted
  refine ⟨h, ?_, ?_⟩
  · rw [hevaluate]
    refine h.bind fun parted _ => ?_
    cases t with
    | die d => trivial
    | pool children => exact ⟨⟨mem_nodes_self _, trivial⟩, trivial⟩
    | modified inner m => trivial
  · rw [hparts]
    exact h.map fun parted hsums => hsums.length_parts

theorem counted_of_single {t : Tree} (hparted : t.parted = t.evaluate.map fun roll => ⟨roll, [roll]⟩)
    (hcount : t.partCount = 1) (h : t.evaluate.Ensures t.Makes fun _ => True) : t.Counted := by
  refine counted_of_parted ?_
  rw [hparted]
  refine h.map fun roll _ => ⟨hcount.symm, ?_⟩
  exact (Value.total_singleton roll.value).symm

theorem counted_pool {children : List Tree} (h : ∀ c ∈ children, c.Counted) :
    (pool children).Counted := by
  have hchildren : ∀ c ∈ children, c.evaluate.Ensures (pool children).Makes fun _ => True := by
    intro c hc
    refine (h c hc).evaluate.imp_steps fun step hstep => ⟨?_, hstep.2⟩
    rw [nodes, nodesList_eq_flatMap]
    exact List.mem_cons_of_mem _ (List.mem_flatMap_of_mem hc hstep.1)
  have hrolls : (Play.each (children.map evaluate)).Ensures (pool children).Makes
      fun rolls => rolls.length = children.length :=
    .eachThen hchildren fun rolls hrolls => hrolls.length_eq.symm
  refine counted_of_parted ?_
  rw [parted, evaluations_eq_map]
  exact hrolls.map fun rolls hlength => ⟨hlength, Roll.value_sum rolls⟩

theorem counted_select {inner : Tree} (selection : Selection) (h : inner.Counted) :
    (modified inner (.select selection)).Counted := by
  have hparts := h.parts.imp_steps fun _ hstep => hstep.of_inner (.select selection)
  refine counted_of_parted (hparts.bind fun rolls hlength => ?_)
  have hkept := selection.length_marked_mask Roll.value rolls
  have hle := selection.remaining_le inner.partCount
  rw [hlength] at hkept
  refine ⟨⟨mem_nodes_self _, _, _, rfl, hkept, ?_⟩, hkept, rfl⟩
  omega

theorem ensures_explode {inner : Tree} (condition : Condition) (limit : Nat)
    (h : ∀ t ∈ inner.targets, t.Counted) :
    (Play.explode (modified inner (.explode condition limit)) condition limit
      (evaluations inner.targets)).Ensures (modified inner (.explode condition limit)).Makes
      fun parted => parted.parts.length = inner.targets.length ∧
        parted.roll.value = Value.total (parted.parts.map Roll.value) := by
  have hchains : ∀ t ∈ inner.targets, (Play.chain t.evaluate condition limit).Ensures
      (modified inner (.explode condition limit)).Makes fun _ => True := by
    intro t ht
    have hsteps := (h t ht).evaluate.imp_steps
      fun _ hstep => hstep.of_target ht (.explode condition limit)
    exact hsteps.chainThen fun _ => trivial
  rw [Play.explode, evaluations_eq_map, List.map_map]
  refine .eachThen hchains fun chains hchains => ⟨⟨mem_nodes_self _, trivial⟩, ?_, ?_⟩
  · rw [List.length_map, hchains.length_eq]
  · exact Roll.value_sum _

theorem counted_explode {inner : Tree} (condition : Condition) (limit : Nat)
    (h : ∀ t ∈ inner.targets, t.Counted) :
    (modified inner (.explode condition limit)).Counted := by
  have hexplode := ensures_explode condition limit h
  have hroll : (modified inner (.explode condition limit)).evaluate.Ensures
      (modified inner (.explode condition limit)).Makes fun _ => True := by
    rw [evaluate_explode]
    exact hexplode.map fun _ _ => trivial
  cases inner with
  | die d => exact counted_of_single rfl rfl hroll
  | pool children =>
    refine counted_of_parted (hexplode.imp (fun _ hstep => hstep) ?_)
    exact fun parted hparted => ⟨hparted.1, hparted.2⟩
  | modified inner m => exact counted_of_single rfl rfl hroll

theorem counted (t : Tree) : t.Counted := by
  induction t using Tree.induction with
  | die d =>
    refine counted_of_single rfl rfl fun v => ?_
    exact ⟨⟨mem_nodes_self _, trivial⟩, trivial⟩
  | pool children ih => exact counted_pool ih
  | calculate inner op operand ih =>
    refine counted_of_single rfl rfl ?_
    have hinner := ih.evaluate.imp_steps fun _ hstep => hstep.of_inner (.calculate op operand)
    exact hinner.bind fun roll _ => ⟨⟨mem_nodes_self _, trivial⟩, trivial⟩
  | select inner selection ih => exact counted_select selection ih
  | explode inner condition limit ih => exact counted_explode condition limit ih

/-- There are as many parts at an evaluation as are counted, and as have bounds. So a selection that
passes its check never asks for more of them than there are, in whatever it is nested. -/
theorem part_counts_agree (t : Tree) (feed : Feed σ) (listener : Listener τ) (s : σ) (u : τ) :
    t.partBounds.low.length = t.partCount ∧ t.partBounds.high.length = t.partCount ∧
      (∀ rolls, (t.parts.run feed listener s u).result = some rolls →
        rolls.length = t.partCount ∧
          ∀ selection, t.check (.select selection) = .ok () → selection.count ≤ rolls.length) ∧
      ((∀ n ∈ t.nodes, n.Passes) → ∀ step ∈ t.evaluate.steps feed s, ∀ inner selection,
        step.node = modified inner (.select selection) → ∃ kept dropped,
          step.details = .selected kept dropped ∧ kept + dropped = inner.partCount ∧
            selection.asked kept dropped = selection.count) := by
  obtain ⟨hlow, hhigh⟩ := t.length_partBounds
  refine ⟨hlow, hhigh, fun rolls hrolls => ?_, fun hpasses step hstep inner selection hnode => ?_⟩
  · have hlength := t.counted.parts.of_run hrolls
    refine ⟨hlength, fun selection h => ?_⟩
    rw [hlength]
    exact check_select h
  · obtain ⟨hmem, hcounts⟩ := t.counted.evaluate.of_mem_steps step hstep
    have hcheck := hpasses step.node hmem
    rw [hnode] at hcheck
    simp only [Step.CountsParts, hnode] at hcounts
    obtain ⟨kept, dropped, hdetails, hkept, hall⟩ := hcounts
    exact ⟨kept, dropped, hdetails, hall, Selection.asked_eq_count hkept hall (check_select hcheck)⟩

/-- A selection of two of three parts that another selection leaves of an exploding pool: it keeps
two and drops one. -/
theorem part_counts_agree_of_nested_selections :
    let feed : Feed Bool := ⟨fun range s => some (if s then range.low else range.high, !s)⟩
    let chains := modified (pool [die .fudge, die (.sided 6), die (.sided 4), die .percentile])
      (.explode ⟨.gte, 6⟩ 2)
    let inner := modified chains (.select ⟨.drop, .low, 1⟩)
    let t := modified inner (.select ⟨.keep, .high, 2⟩)
    (∀ n ∈ t.nodes, n.Passes) ∧ inner.check (.select ⟨.keep, .high, 2⟩) = .ok () ∧
      (∃ rolls, (inner.parts.run feed .silent true ()).result = some rolls ∧ rolls.length = 3 ∧
        2 ≤ rolls.length) ∧
      ∃ step ∈ t.evaluate.steps feed true, step.node = t ∧
        ∃ kept dropped, step.details = .selected kept dropped ∧ kept + dropped = 3 ∧ kept = 2 := by
  intro feed chains inner t
  have hpasses : ∀ n ∈ t.nodes, n.Passes := by decide
  have hcheck : inner.check (.select ⟨.keep, .high, 2⟩) = .ok () := by decide
  obtain ⟨-, -, hparts, -⟩ := part_counts_agree inner feed .silent true ()
  obtain ⟨-, -, -, hsteps⟩ := part_counts_agree t feed .silent true ()
  have hends : (inner.parts.run feed .silent true ()).result.isSome := by decide +kernel
  obtain ⟨rolls, hrolls⟩ := Option.isSome_iff_exists.mp hends
  obtain ⟨hlength, hfits⟩ := hparts rolls hrolls
  have hstep : ∃ step ∈ t.evaluate.steps feed true, step.node = t := by decide +kernel
  obtain ⟨step, hmem, hnode⟩ := hstep
  exact ⟨hpasses, hcheck, ⟨rolls, hrolls, hlength, hfits _ hcheck⟩, step, hmem, hnode,
    hsteps hpasses step hmem inner _ hnode⟩

/-- What a pool tells of itself after all its parts. -/
def conclusion : Tree → Roll → List Entry
  | t@(pool _), roll => [⟨t.kind, t.text, roll.trace, roll.value, []⟩]
  | _, _ => []

theorem run_conclude (t : Tree) (roll : Roll) (feed : Feed σ) (listener : Listener τ) (s : σ)
    (u : τ) : ((t.conclude roll).run feed listener s u).result = some roll ∧
      ((t.conclude roll).run feed listener s u).feed = s := by
  cases t <;> exact ⟨rfl, rfl⟩

theorem log_conclude (t : Tree) (roll : Roll) (feed : Feed σ) (s : σ) (earlier : Array Entry) :
    ((t.conclude roll).run feed .recorder s earlier).listener.toList =
      earlier.toList ++ t.conclusion roll := by
  rw [Play.run_recorder]
  cases t <;> rfl

/-- The parts of a tree show, added up, what the tree shows for the same numbers. -/
theorem view_evaluate (t : Tree) (feed : Feed σ) (listener : Listener τ) (s : σ) (u : τ) :
    (t.evaluate.run feed listener s u).view Roll.value =
      (t.parts.run feed listener s u).view fun rolls => Value.total (rolls.map Roll.value) := by
  obtain ⟨hparts, hevaluate⟩ := t.views_of_parted
  rw [hparts, hevaluate, Play.view_run_map, Play.run_bind]
  refine Outcome.view_bind fun parted hparted => ?_
  have hsums := t.counted.parted.of_run hparted
  obtain ⟨hresult, hfeed⟩ := t.run_conclude parted.roll feed listener
    (t.parted.run feed listener s u).feed (t.parted.run feed listener s u).listener
  simp only [Outcome.view, hresult, hfeed, Option.map_some, hsums.value_roll]

/-- An evaluation is that of the parts. With the same numbers drawn, both come to an end or both run
dry, the values of the parts add up to the value of the whole, and the same entries are recorded in
the same order; only a pool adds one of its own, as the last. -/
theorem evaluate_sums_parts (t : Tree) (feed : Feed σ) (s : σ) (earlier : Array Entry) :
    let whole := t.evaluate.run feed .recorder s earlier
    let apart := t.parts.run feed .recorder s earlier
    whole.feed = apart.feed ∧
      whole.result.map Roll.value =
        apart.result.map (fun rolls => Value.total (rolls.map Roll.value)) ∧
      whole.listener.toList =
        apart.listener.toList ++ (whole.result.map t.conclusion).getD [] := by
  intro whole apart
  have hview : whole.view Roll.value = apart.view fun rolls => Value.total (rolls.map Roll.value) :=
    t.view_evaluate feed .recorder s earlier
  obtain ⟨hvalue, hfeed⟩ := Prod.mk.inj hview
  refine ⟨hfeed, hvalue, ?_⟩
  obtain ⟨hparts, hevaluate⟩ := t.views_of_parted
  have hwhole : whole = _ := congrArg (·.run feed .recorder s earlier) hevaluate
  have hapart : apart = _ := congrArg (·.run feed .recorder s earlier) hparts
  rw [hwhole, hapart, Play.map, Play.run_bind, Play.run_bind]
  cases hresult : (t.parted.run feed .recorder s earlier).result with
  | none =>
    simp only [Outcome.bind_of_none hresult, Option.map_none, Option.getD_none, List.append_nil]
  | some parted =>
    obtain ⟨hroll, -⟩ := t.run_conclude parted.roll feed .recorder
      (t.parted.run feed .recorder s earlier).feed
      (t.parted.run feed .recorder s earlier).listener
    simp only [Outcome.bind_of_some hresult, hroll, Option.map_some, Option.getD_some,
      log_conclude]
    rfl

end Tree

end DiceExpr
