import DiceExpr.Proofs.Bounds.Ranks
import DiceExpr.Proofs.Runs.Accounts
import DiceExpr.Proofs.Traces.Lengths
import DiceExpr.Proofs.Traces.Work

namespace DiceExpr

namespace Tree

/-- A pool whose children can be counted with a value. -/
def Countable : Tree → Prop
  | pool children => children.length ≤ 9223372036854775807
  | _ => True

instance (t : Tree) : Decidable t.Countable :=
  match t with
  | pool _ => Nat.decLe ..
  | die _ => isTrue trivial
  | modified .. => isTrue trivial

theorem partCount_le {t : Tree} (h : ∀ n ∈ t.nodes, n.Countable) :
    t.partCount ≤ 9223372036854775807 := by
  induction t using plainInduction with
  | die d => exact Nat.le_of_ble_eq_true rfl
  | pool children _ => exact h _ (mem_nodes_self _)
  | modified inner m ih =>
    obtain ⟨-, hinner⟩ := forall_nodes_modified.mp h
    cases m with
    | calculate op operand => exact Nat.le_of_ble_eq_true rfl
    | select selection => exact (selection.remaining_le inner.partCount).trans (ih hinner)
    | explode condition limit =>
      cases inner with
      | pool children => exact hinner _ (mem_nodes_self _)
      | die d => exact Nat.le_of_ble_eq_true rfl
      | modified inner m => exact Nat.le_of_ble_eq_true rfl

open Account

/-- All evaluations of a tree, and of its parts, can be accounted for. -/
structure Tracked (t : Tree) : Prop where
  roll : t.evaluate.Accounted (Single t)
  parts : t.parts.Accounted fun accounts rolls => accounts.map node = t.targets ∧
    rolls.length = t.partCount ∧ ∀ r ∈ rolls, r.trace ≠ []

/-- A tree of one part is evaluated as a whole. -/
theorem tracked_of_single {t : Tree} (h : t.evaluate.Accounted (Single t))
    (hparts : t.parts = t.evaluate.map ([·])) (htargets : t.targets = [t])
    (hcount : t.partCount = 1) : t.Tracked := by
  refine ⟨h, ?_⟩
  rw [hparts, htargets, hcount]
  refine (h.map ([·])).imp ?_
  rintro accounts _ ⟨r, ⟨a, rfl, hnode, -, hr⟩, rfl⟩
  exact ⟨congrArg ([·]) hnode, rfl, List.forall_mem_singleton.mpr hr⟩

/-- One account of a node that is taken apart into so many parts. -/
structure TakenApart (t : Tree) (count : Nat) (accounts : List Account) (parted : Parted) :
    Prop where
  single : Single t accounts parted.roll
  length_parts : parted.parts.length = count
  shown : ∀ r ∈ parted.parts, r.trace ≠ []

theorem accounted_roll {t : Tree} {count : Nat} {p : Play Parted}
    (h : p.Accounted (t.TakenApart count)) : (p.map Parted.roll).Accounted (Single t) := by
  refine (h.map Parted.roll).imp ?_
  rintro accounts _ ⟨parted, hparted, rfl⟩
  exact hparted.single

theorem tracked_of_takenApart {t : Tree} {p : Play Parted}
    (h : p.Accounted (t.TakenApart t.partCount)) (hevaluate : t.evaluate = p.map Parted.roll)
    (hparts : t.parts = p.map Parted.parts) (htargets : t.targets = [t]) : t.Tracked := by
  constructor
  · rw [hevaluate]
    exact accounted_roll h
  · rw [hparts, htargets]
    refine (h.map Parted.parts).imp ?_
    rintro accounts _ ⟨parted, ⟨⟨a, rfl, hnode, -, -⟩, hlength, hrolls⟩, rfl⟩
    exact ⟨congrArg ([·]) hnode, hlength, hrolls⟩

theorem tracked_die (d : Die) : (die d).Tracked := by
  refine tracked_of_single ?_ ?_ rfl rfl
  · intro draws steps r h
    cases h with
    | @draw _ _ v _ _ _ h =>
      cases h with
      | note h =>
        cases h
        let account : Account :=
          ⟨⟨die d, .ofValue (d.shown v), .plain⟩, [⟨d.drawn, v⟩], []⟩
        have hcovers : Covers [account] _ _ := covers_nil.enclose ⟨v, rfl⟩
        exact ⟨[account], hcovers, account, rfl, rfl, rfl, Value.text_ne_nil _⟩
  · rw [parts, evaluate, Play.map_bind]

/-- The children of a pool are evaluated one after another. -/
theorem accounted_children {children : List Tree} (h : ∀ c ∈ children, c.Tracked) :
    (Play.each (evaluations children)).Accounted fun accounts rolls =>
      accounts.map node = children ∧ rolls.length = children.length ∧
        ∀ r ∈ rolls, r.trace ≠ [] := by
  rw [evaluations_eq_map]
  refine (Play.Accounted.each fun c hc => (h c hc).roll).imp ?_
  rintro _ _ ⟨runs, hruns, rfl, rfl⟩
  induction hruns with
  | nil => exact ⟨rfl, rfl, List.forall_mem_nil _⟩
  | cons hrun _ ih =>
    obtain ⟨a, ha, hnode, hroll, hr⟩ := hrun
    obtain ⟨hnodes, hlength, hrest⟩ := ih fun c hc => h c (List.mem_cons_of_mem _ hc)
    refine ⟨?_, congrArg Nat.succ hlength, List.forall_mem_cons.mpr ⟨hr, hrest⟩⟩
    rw [List.map_cons, List.flatten_cons, ha, List.singleton_append, List.map_cons, hnode, hnodes]

theorem tracked_pool {children : List Tree} (h : ∀ c ∈ children, c.Tracked) :
    (pool children).Tracked := by
  have hchildren := accounted_children h
  constructor
  · rw [evaluate, ← Play.each_bind]
    refine (hchildren.enclose fun made rolls hmade => ?_).imp ?_
    · exact ⟨rfl, hmade.1⟩
    · rintro _ _ ⟨made, rolls, ⟨-, -, hrolls⟩, rfl, rfl⟩
      exact ⟨_, rfl, rfl, rfl, Roll.trace_sum_ne_nil hrolls⟩
  · exact hchildren

theorem tracked_calculate {inner : Tree} (op : Operator) (operand : Value) (h : inner.Tracked) :
    (modified inner (.calculate op operand)).Tracked := by
  refine tracked_of_single ?_ ?_ rfl rfl
  · rw [evaluate]
    refine (h.roll.enclose fun made r hmade => ?_).imp ?_
    · obtain ⟨a, rfl, hnode, -, -⟩ := hmade
      exact ⟨rfl, congrArg ([·]) hnode⟩
    · rintro _ _ ⟨made, r, -, rfl, rfl⟩
      exact ⟨_, rfl, rfl, rfl, List.append_ne_nil_of_right_ne_nil _ (List.cons_ne_nil _ _)⟩
  · rw [parts, evaluate, Play.map_bind]

theorem accounted_select {inner : Tree} (selection : Selection) (h : inner.Tracked)
    (hcount : inner.partCount ≤ 9223372036854775807) :
    (Play.select (modified inner (.select selection)) selection inner.parts).Accounted
      (TakenApart (modified inner (.select selection)) (selection.remaining inner.partCount)) := by
  refine (h.parts.enclose fun made rolls hmade => ?_).imp ?_
  · obtain ⟨hnodes, hlength, -⟩ := hmade
    have hkept := selection.length_marked_mask Roll.value rolls
    have hle := selection.remaining_le inner.partCount
    rw [hlength] at hkept
    refine ⟨rfl, hnodes, _, _, rfl, ?_, ?_⟩
    · rw [hkept, Value.toInt_clamp_of_mem (by omega) (by omega)]
    · rw [hkept, hlength, Value.toInt_clamp_of_mem (by omega) (by omega),
        Value.toInt_clamp_of_mem (by omega) (by omega)]
      omega
  · rintro _ _ ⟨made, rolls, ⟨-, hlength, hrolls⟩, rfl, rfl⟩
    have hmask := selection.length_mask (rolls.map Roll.value)
    rw [List.length_map] at hmask
    refine ⟨⟨_, rfl, rfl, rfl, Roll.maskedTrace_ne_nil hmask hrolls⟩, ?_, ?_⟩
    · rw [← hlength]
      exact selection.length_marked_mask Roll.value rolls
    · exact fun r hr => hrolls r ((Selection.marked_sublist _ _).mem hr)

theorem tracked_select {inner : Tree} (selection : Selection) (h : inner.Tracked)
    (hcount : inner.partCount ≤ 9223372036854775807) :
    (modified inner (.select selection)).Tracked :=
  tracked_of_takenApart (accounted_select selection h hcount) (by rw [evaluate]) (by rw [parts]) rfl

/-- The targets of an explosion are evaluated in chains, one target after another. -/
theorem accounted_chains {targets : List Tree} (condition : Condition) (limit : Nat)
    (h : ∀ t ∈ targets, t.Tracked) :
    (Play.each ((evaluations targets).map (Play.chain · condition limit))).Accounted
      fun accounts chains => ∃ runs : List (List Account), accounts = runs.flatten ∧
        List.Forall₂ (IsChain condition limit) targets runs ∧
        chains = runs.map (List.map Account.roll) ∧
        ∀ rolls ∈ chains, rolls ≠ [] ∧ ∀ r ∈ rolls, r.trace ≠ [] := by
  rw [evaluations_eq_map, List.map_map]
  refine (Play.Accounted.each fun t ht => (h t ht).roll.chain condition limit).imp ?_
  rintro _ _ ⟨runs, hruns, rfl, rfl⟩
  induction hruns with
  | nil => exact ⟨[], rfl, .nil, rfl, List.forall_mem_nil _⟩
  | @cons t run _ _ hrun _ ih =>
    obtain ⟨hchain, hroll, hrolls⟩ := hrun
    obtain ⟨rest, hmade, hchains, hrest, hall⟩ := ih fun c hc => h c (List.mem_cons_of_mem _ hc)
    have hne : run.2 ≠ [] := by
      rw [← hroll]
      exact List.ne_nil_of_length_pos (by rw [List.length_map]; exact hchain.one_le_length)
    refine ⟨run.1 :: rest, ?_, .cons hchain hchains, ?_,
      List.forall_mem_cons.mpr ⟨⟨hne, hrolls⟩, hall⟩⟩
    · rw [List.map_cons, List.flatten_cons, hmade, List.flatten_cons]
    · rw [List.map_cons, hrest, List.map_cons, hroll]

theorem accounted_explode {inner : Tree} (condition : Condition) (limit : Nat)
    (h : ∀ t ∈ inner.targets, t.Tracked) :
    (Play.explode (modified inner (.explode condition limit)) condition limit
      (evaluations inner.targets)).Accounted
      (TakenApart (modified inner (.explode condition limit)) inner.targets.length) := by
  rw [Play.explode, ← Play.each_bind]
  refine ((accounted_chains condition limit h).enclose fun made chains hmade => ?_).imp ?_
  · obtain ⟨runs, rfl, hruns, rfl, hrolls⟩ := hmade
    have hlength : (runs.map (List.map Account.roll)).flatten.length = runs.flatten.length := by
      rw [← List.map_flatten, List.length_map]
    -- the trace has a character at least for each roll, so if it fits, the count of rolls does too
    have hshown := Roll.length_flatten_le_trace fun rolls hr => (hrolls rolls hr).2
    rw [hlength] at hshown
    refine ⟨rfl, ⟨runs, rfl, hruns⟩, _, rfl, by rw [hlength], fun hfits => ?_⟩
    rw [hlength]
    have hfits : (Roll.sum ((runs.map (List.map Account.roll)).map Roll.added)).trace.length ≤
      9223372036854775807 := hfits
    exact Value.toInt_clamp_of_mem (by omega) (by omega)
  · rintro _ _ ⟨made, chains, ⟨runs, rfl, hruns, rfl, hrolls⟩, rfl, rfl⟩
    have hadded : ∀ r ∈ (runs.map (List.map Account.roll)).map Roll.added, r.trace ≠ [] := by
      rw [List.forall_mem_map]
      intro rolls hr
      obtain ⟨hne, htraces⟩ := hrolls rolls hr
      exact List.ne_nil_of_length_pos
        ((List.length_pos_iff.mpr hne).trans_le (Roll.length_le_trace_added htraces))
    refine ⟨⟨_, rfl, rfl, rfl, Roll.trace_sum_ne_nil hadded⟩, ?_, hadded⟩
    rw [List.length_map, List.length_map, hruns.length_eq]

theorem tracked_explode {inner : Tree} (condition : Condition) (limit : Nat)
    (h : ∀ t ∈ inner.targets, t.Tracked) :
    (modified inner (.explode condition limit)).Tracked := by
  have hexplode := accounted_explode condition limit h
  have hroll := accounted_roll hexplode
  rw [← evaluate_explode] at hroll
  -- what is no pool explodes in one chain, and so is one part
  have hsingle (p : Play Parted) : p.map (fun parted => [parted.roll]) =
      (p.map Parted.roll).map ([·]) := (Play.map_map p Parted.roll ([·])).symm
  cases inner with
  | die d => exact tracked_of_single hroll (hsingle _) rfl rfl
  | modified inner m => exact tracked_of_single hroll (hsingle _) rfl rfl
  | pool children => exact tracked_of_takenApart hexplode rfl rfl rfl

theorem tracked (t : Tree) (h : ∀ n ∈ t.nodes, n.Countable) : t.Tracked := by
  induction t using Tree.induction with
  | die d => exact tracked_die d
  | pool children ih =>
    obtain ⟨-, hchildren⟩ := forall_nodes_pool.mp h
    exact tracked_pool fun c hc => ih c hc (hchildren c hc)
  | calculate inner op operand ih =>
    obtain ⟨-, hinner⟩ := forall_nodes_modified.mp h
    exact tracked_calculate op operand (ih hinner)
  | select inner selection ih =>
    obtain ⟨-, hinner⟩ := forall_nodes_modified.mp h
    exact tracked_select selection (ih hinner) (partCount_le hinner)
  | explode inner condition limit ih =>
    obtain ⟨-, hinner⟩ := forall_nodes_modified.mp h
    exact tracked_explode condition limit fun t ht =>
      ih t ht fun n hn => hinner n (mem_nodes_of_target ht hn)

/-- The log of an evaluation accounts for all of it. Its entries of dice are those of the numbers
drawn, one for each and in the same order. Its last entry is that of the tree, with the roll that
the evaluation gives. And it lists the entries of an account of the tree, and of all accounts below
it, each of them correct about its node. -/
theorem log_accounts_for_run {t : Tree} (hcountable : ∀ n ∈ t.nodes, n.Countable) {feed : Feed σ}
    {s : σ} {roll : Roll} (hroll : (t.evaluate.run feed .recorder s #[]).result = some roll) :
    let log := (t.evaluate.run feed .recorder s #[]).listener.toList
    let draws := (t.evaluate.run feed.watched .recorder (s, []) #[]).feed.2
    List.Forall₂ Draw.ToldBy draws (log.filter Entry.isOfDie) ∧
      (∃ earlier extensions,
        log = earlier ++ [⟨t.kind, t.text, roll.trace, roll.value, extensions⟩]) ∧
      ∃ account : Account, account.node = t ∧ account.roll = roll ∧ account.all.map entry = log ∧
        account.all.flatMap drawn = draws ∧ ∀ a ∈ account.all, a.Correct := by
  intro log draws
  have hlog : log = (t.evaluate.steps feed s).map Step.entry := t.evaluate.run_recorder feed s #[]
  have hdraws : draws = t.evaluate.draws feed s := Play.draws_watched ..
  obtain ⟨accounts, hcovers, account, rfl, rfl, rfl, -⟩ :=
    (t.tracked hcountable).roll _ _ _ (Play.proceeds_of_run hroll)
  obtain ⟨hdrawn, hsteps, hcorrect⟩ := hcovers
  rw [allOf_singleton] at hdrawn hsteps hcorrect
  have hentries : account.all.map entry = log := by
    rw [hlog, ← hsteps, List.map_map]
    rfl
  rw [← hdraws] at hdrawn
  refine ⟨?_, ?_, account, rfl, rfl, hentries, hdrawn, hcorrect⟩
  · rw [← hentries, ← hdrawn]
    exact told_of_correct hcorrect
  · rw [← hentries, all_eq, List.map_append]
    exact ⟨_, _, rfl⟩

/-- A selection among a pool and an exploding pool: six draws, nine entries. -/
theorem log_accounts_for_run_of_exploding_pool :
    let feed : Feed Bool := ⟨fun range s => some (if s then range.low else range.high, !s)⟩
    let t := modified (pool [pool [die .percentile, die (.custom [5, 9])],
      modified (pool [die .fudge, die (.sided 4)]) (.explode ⟨.gte, 1⟩ 2)])
      (.select ⟨.keep, .high, 1⟩)
    let log := (t.evaluate.run feed .recorder true #[]).listener.toList
    let draws := (t.evaluate.run feed.watched .recorder (true, []) #[]).feed.2
    let roll : Roll := ⟨10, "(1 + 9) + (-1 + (4 + 1 + 4)) (d)".toList⟩
    (∀ n ∈ t.nodes, n.Countable) ∧ (t.evaluate.run feed .recorder true #[]).result = some roll ∧
      draws.map Draw.number = [1, 1, -1, 4, 1, 4] ∧
      log.map Entry.source = ["PercentileDie", "CustomDie", "Pool", "FudgeDie", "SidedDie",
        "SidedDie", "SidedDie", "Explode", "DropKeep"] ∧
      List.Forall₂ Draw.ToldBy draws (log.filter Entry.isOfDie) ∧
      (∃ earlier extensions,
        log = earlier ++ [⟨t.kind, t.text, roll.trace, roll.value, extensions⟩]) ∧
      ∃ account : Account, account.node = t ∧ account.roll = roll ∧ account.all.map entry = log ∧
        account.all.flatMap drawn = draws ∧ ∀ a ∈ account.all, a.Correct := by
  intro feed t log draws roll
  have hcountable : ∀ n ∈ t.nodes, n.Countable := by decide
  have hroll : (t.evaluate.run feed .recorder true #[]).result = some roll := by decide +kernel
  exact ⟨hcountable, hroll, by decide, by decide +kernel, log_accounts_for_run hcountable hroll⟩

end Tree

end DiceExpr
