import DiceExpr.Proofs.Bounds.Enclosure
import DiceExpr.Proofs.Building.WellFormed
import DiceExpr.Proofs.Shown
import DiceExpr.Proofs.Traces.Legibility

namespace DiceExpr

open Arithmetic

/-- Every operation is exact and legible. -/
def Worked.Fair (w : Worked α) : Prop := ∀ op ∈ w.work, op.Exact ∧ op.Legible

theorem Worked.fair_further {w : Worked α} {ops : List Operation} {b : β} :
    (w.further ops b).Fair ↔ w.Fair ∧ ∀ op ∈ ops, op.Exact ∧ op.Legible :=
  List.forall_mem_append

theorem Worked.fair_all {ws : List (Worked α)} : (Worked.all ws).Fair ↔ ∀ w ∈ ws, w.Fair := by
  simp only [Fair, all, List.mem_flatMap]
  exact ⟨fun h w hw op hop => h op ⟨w, hw, hop⟩, fun h op ⟨w, hw, hop⟩ => h w hw op hop⟩

namespace Tree

/-- Where all operations are exact and legible, the traces stand for the values. -/
structure Told (t : Tree) : Prop where
  roll : ∀ w, t.audit.Gives w → w.Fair → w.result.Tells
  parts : ∀ w, t.auditParts.Gives w → w.Fair → ∀ r ∈ w.result, r.Tells

private theorem forall_mem_of_forall₂ {R : α → β → Prop} {P : β → Prop} {as : List α} {bs : List β}
    (h : List.Forall₂ R as bs) (hp : ∀ a ∈ as, ∀ b, R a b → P b) : ∀ b ∈ bs, P b := by
  induction h with
  | nil => exact List.forall_mem_nil _
  | @cons a b as bs hab _ ih =>
    obtain ⟨ha, has⟩ := List.forall_mem_cons.mp hp
    exact List.forall_mem_cons.mpr ⟨ha b hab, ih has⟩

theorem tells_all {ts : List Tree} (h : ∀ t ∈ ts, t.Told) {ws : List (Worked Roll)}
    (hws : List.Forall₂ Play.Gives (audits ts) ws) (hfair : (Worked.all ws).Fair) :
    ∀ r ∈ (Worked.all ws).result, r.Tells := by
  rw [audits_eq_map, List.forall₂_map_left_iff] at hws
  have htells : ∀ w ∈ ws, w.Fair → w.result.Tells :=
    forall_mem_of_forall₂ hws fun t ht w hw => (h t ht).roll w hw
  rw [Worked.all, List.forall_mem_map]
  exact fun w hw => htells w hw (Worked.fair_all.mp hfair w hw)

theorem told_die (d : Die) : (die d).Told where
  roll w hw _ := by
    simp only [audit, Play.gives_bind, Play.gives_map, gives_finish] at hw
    obtain ⟨v, -, _, rfl, rfl⟩ := hw
    exact Roll.tells_ofValue v
  parts w hw _ := by
    simp only [auditParts, Play.gives_bind, Play.gives_map, gives_finish] at hw
    obtain ⟨v, -, _, rfl, rfl⟩ := hw
    exact List.forall_mem_singleton.mpr (Roll.tells_ofValue v)

theorem told_pool {children : List Tree} (h : ∀ c ∈ children, c.Told) : (pool children).Told where
  roll w hw hfair := by
    simp only [audit, Play.gives_eachThen, Play.gives_map, gives_finish] at hw
    obtain ⟨ws, hws, _, rfl, rfl⟩ := hw
    obtain ⟨hall, hadd⟩ := Worked.fair_further.mp hfair
    obtain ⟨hexact, -⟩ := List.forall_mem_singleton.mp hadd
    exact Roll.tells_sum (tells_all h hws hall) hexact
  parts w hw hfair := by
    simp only [auditParts, Play.gives_eachThen, Play.gives_done] at hw
    obtain ⟨ws, hws, rfl⟩ := hw
    exact tells_all h hws hfair

theorem told_calculate {inner : Tree} {op : Operator} {operand : Value} (h : inner.Told)
    (hzero : ¬(op = .div ∧ operand = 0)) : (modified inner (.calculate op operand)).Told := by
  have htells (w : Worked Roll) (hw : inner.audit.Gives w) (hfair : w.Fair)
      (hops : ∀ o ∈ [Operation.calculate w.result op operand], o.Exact ∧ o.Legible) :
      (w.result.calculate op operand).Tells := by
    obtain ⟨hexact, hlegible⟩ := hops _ (List.mem_singleton_self _)
    exact (h.roll w hw hfair).calculate hzero hexact hlegible
  constructor
  · intro w hw hfair
    simp only [audit, Play.gives_bind, Play.gives_map, gives_finish] at hw
    obtain ⟨w, hw, _, rfl, rfl⟩ := hw
    obtain ⟨hfair, hops⟩ := Worked.fair_further.mp hfair
    exact htells w hw hfair hops
  · intro w hw hfair
    simp only [auditParts, Play.gives_bind, Play.gives_map, gives_finish] at hw
    obtain ⟨w, hw, _, rfl, rfl⟩ := hw
    obtain ⟨hfair, hops⟩ := Worked.fair_further.mp hfair
    exact List.forall_mem_singleton.mpr (htells w hw hfair hops)

/-- A selection is told by its parts, the dropped ones included. -/
theorem tells_workedSelect {node : Tree} {selection : Selection}
    {parts : Play (Worked (List Roll))}
    (h : ∀ w, parts.Gives w → w.Fair → ∀ r ∈ w.result, r.Tells) {w : Worked Parted}
    (hw : (Play.workedSelect node selection parts).Gives w) (hfair : w.Fair) :
    w.result.roll.Tells ∧ ∀ r ∈ w.result.parts, r.Tells := by
  simp only [Play.workedSelect, Play.gives_bind, Play.gives_map, gives_select,
    Play.gives_done] at hw
  obtain ⟨all, hall, _, ⟨_, rfl, rfl⟩, rfl⟩ := hw
  obtain ⟨hallfair, hops⟩ := Worked.fair_further.mp hfair
  obtain ⟨hdrop, hadd⟩ := List.forall_mem_append.mp hops
  rw [List.forall_mem_map] at hdrop
  obtain ⟨hexact, -⟩ := List.forall_mem_singleton.mp hadd
  have hrolls := h all hall hallfair
  have hlen : (selection.mask (all.result.map Roll.value)).length = all.result.length := by
    rw [Selection.length_mask, List.length_map]
  have hroll := Roll.tells_masked hlen hrolls (fun r hr => (hdrop r hr).2) hexact
  refine ⟨?_, fun r hr => hrolls r ((Selection.marked_sublist _ _).mem hr)⟩
  rwa [← Selection.marked_map] at hroll

theorem told_select {inner : Tree} {selection : Selection} (h : inner.Told) :
    (modified inner (.select selection)).Told := by
  constructor
  · intro w hw hfair
    simp only [audit, Play.gives_map] at hw
    obtain ⟨w, hw, rfl⟩ := hw
    exact (tells_workedSelect h.parts hw hfair).1
  · intro w hw hfair
    simp only [auditParts, Play.gives_map] at hw
    obtain ⟨w, hw, rfl⟩ := hw
    exact (tells_workedSelect h.parts hw hfair).2

/-- An explosion is told by its chains, and these by the rolls of the targets. -/
theorem tells_workedExplode {node : Tree} {condition : Condition} {limit : Nat}
    {targets : List Tree} (h : ∀ t ∈ targets, t.Told) {w : Worked Parted}
    (hw : (Play.workedExplode node condition limit (audits targets)).Gives w) (hfair : w.Fair) :
    w.result.roll.Tells ∧ ∀ r ∈ w.result.parts, r.Tells := by
  simp only [Play.workedExplode, Play.gives_eachThen, Play.gives_note, Play.gives_done] at hw
  obtain ⟨chains, hchains, rfl⟩ := hw
  obtain ⟨hops, hadd⟩ := List.forall_mem_append.mp hfair
  obtain ⟨hall, hchain⟩ := List.forall_mem_append.mp hops
  obtain ⟨hexact, -⟩ := List.forall_mem_singleton.mp hadd
  rw [List.forall_mem_map] at hchain
  rw [audits_eq_map, List.map_map, List.forall₂_map_left_iff] at hchains
  have hrolls : ∀ ws ∈ chains, ws ≠ [] ∧ ∀ w ∈ ws, w.Fair → w.result.Tells := by
    refine forall_mem_of_forall₂ hchains fun t ht ws hws => ?_
    obtain ⟨hne, hgives⟩ := Play.gives_workedChain hws
    exact ⟨hne, fun w hw => (h t ht).roll w (hgives w hw)⟩
  have hadded : ∀ r ∈ chains.map (fun ws => Roll.added (ws.map Worked.result)), r.Tells := by
    rw [List.forall_mem_map]
    intro ws hws
    obtain ⟨hne, htells⟩ := hrolls ws hws
    refine Roll.tells_added (by simpa using hne) ?_ (hchain ws hws).1
    rw [List.forall_mem_map]
    have hfair := Worked.fair_all.mp hall
    exact fun w hw => htells w hw (hfair w (List.mem_flatten_of_mem hws hw))
  exact ⟨Roll.tells_sum hadded hexact, hadded⟩

theorem told_explode {inner : Tree} {condition : Condition} {limit : Nat}
    (h : ∀ t ∈ inner.targets, t.Told) : (modified inner (.explode condition limit)).Told := by
  have hsingle (w : Worked (List Roll)) (hw : ((Play.workedExplode (modified inner
      (.explode condition limit)) condition limit (audits inner.targets)).map
      (Worked.map ([·.roll]))).Gives w) (hfair : w.Fair) : ∀ r ∈ w.result, r.Tells := by
    obtain ⟨w, hparted, rfl⟩ := Play.gives_map.mp hw
    exact List.forall_mem_singleton.mpr (tells_workedExplode h hparted hfair).1
  constructor
  · intro w hw hfair
    rw [audit_explode] at hw
    obtain ⟨w, hparted, rfl⟩ := Play.gives_map.mp hw
    exact (tells_workedExplode h hparted hfair).1
  · intro w hw hfair
    cases inner with
    | die d => exact hsingle w hw hfair
    | modified inner m => exact hsingle w hw hfair
    | pool children =>
      simp only [auditParts, Play.gives_map] at hw
      obtain ⟨w, hw, rfl⟩ := hw
      exact (tells_workedExplode h hw hfair).2

/-- Nothing is divided by zero in a tree whose modifiers fit. -/
theorem told_of_passes {t : Tree} (h : ∀ n ∈ t.nodes, n.Passes) : t.Told := by
  induction t using Tree.induction with
  | die d => exact told_die d
  | pool children ih =>
    obtain ⟨-, hchildren⟩ := forall_nodes_pool.mp h
    exact told_pool fun c hc => ih c hc (hchildren c hc)
  | calculate inner op operand ih =>
    obtain ⟨hnode, hinner⟩ := forall_nodes_modified.mp h
    exact told_calculate (ih hinner) (check_calculate hnode)
  | select inner selection ih =>
    obtain ⟨-, hinner⟩ := forall_nodes_modified.mp h
    exact told_select (ih hinner)
  | explode inner condition limit ih =>
    obtain ⟨-, hinner⟩ := forall_nodes_modified.mp h
    refine told_explode fun t ht => ih t ht fun n hn => ?_
    exact hinner n (mem_nodes_of_target ht hn)

/-- The trace of an evaluation stands for its value and for nothing else, unless an operation is
saturated, or a difference without parentheses is multiplied, divided or dropped. -/
theorem trace_denotes_value {limits : Limits} {text : Text} {t : Tree}
    (h : ofText? limits text = .ok t) {feed : Feed σ} (hfeed : feed.Obeys) (listener : Listener τ)
    (s : σ) (u : τ) {roll : Roll}
    (hroll : (t.evaluate.run feed listener s u).result = some roll) :
    ∃ work, (t.audit.run feed listener s u).result = some ⟨roll, work⟩ ∧
      ((∀ op ∈ work, op.Exact) → (∀ op ∈ work, op.Legible) →
        ∀ n, Denotes .sum roll.trace n ↔ n = roll.value.toInt) := by
  obtain ⟨haudit, -⟩ := t.audit_results
  obtain ⟨hplay, -⟩ := t.askable
  rw [← haudit, Play.askable_map_iff] at hplay
  rw [← haudit, Play.result_run_map, Option.map_eq_some_iff] at hroll
  obtain ⟨⟨roll, work⟩, hrun, rfl⟩ := hroll
  refine ⟨work, hrun, fun hexact hlegible n => ?_⟩
  obtain ⟨_, -, -, hfinished⟩ := finished_of_ofText? h
  have htold := told_of_passes fun n hn => (hfinished.nodes n hn).1
  have hfair (op : Operation) (hop : op ∈ work) : op.Exact ∧ op.Legible :=
    ⟨hexact op hop, hlegible op hop⟩
  have htells := htold.roll _ (Play.gives_of_run hfeed hplay hrun) hfair
  exact ⟨fun hn => hn.unique htells, fun hn => hn ▸ htells⟩

/-- A feed that gives the low and the high end of its ranges by turns, a dropped die and an
exploding one. -/
theorem trace_denotes_value_by_turns :
    let feed : Feed Bool := ⟨fun range s => some (if s then range.low else range.high, !s)⟩
    let text : Text := "(3d6 kl2 + d4!4) * 2 - 1".toList
    let t := modified (modified (pool [modified (pool (List.replicate 3 (die (.sided 6))))
      (.select ⟨.keep, .low, 2⟩), modified (pool [die (.sided 4)]) (.explode ⟨.eq, 4⟩ 100)])
      (.calculate .mul 2)) (.calculate .sub 1)
    let roll : Roll := ⟨13, "(((1 + 6 (d) + 1) + (4 + 1)) * 2) - 1".toList⟩
    ofText? {} text = .ok t ∧ feed.Obeys ∧
      (t.evaluate.run feed .silent true ()).result = some roll ∧
      ∀ n, Denotes .sum roll.trace n ↔ n = 13 := by
  intro feed text t roll
  have hbuilt : ofText? {} text = .ok t := by decide +kernel
  have hobeys : feed.Obeys := by
    intro range s v s' hrange hnext
    cases s with
    | false =>
      cases hnext
      exact ⟨hrange, le_refl _⟩
    | true =>
      cases hnext
      exact ⟨le_refl _, hrange⟩
  have hroll : (t.evaluate.run feed .silent true ()).result = some roll := by decide +kernel
  obtain ⟨work, hrun, hdenotes⟩ := trace_denotes_value hbuilt hobeys .silent true () hroll
  have hfair : (t.audit.run feed .silent true ()).result.all fun w =>
      decide ((∀ op ∈ w.work, op.Exact) ∧ ∀ op ∈ w.work, op.Legible) := by decide +kernel
  rw [hrun] at hfair
  obtain ⟨hexact, hlegible⟩ := of_decide_eq_true hfair
  exact ⟨hbuilt, hobeys, hroll, hdenotes hexact hlegible⟩

/-- The difference is not put in parentheses before it is multiplied, so that only its second number
is multiplied in the trace. -/
theorem trace_of_multiplied_difference :
    let feed : Feed Unit := ⟨fun range s => some (range.high, s)⟩
    let t := modified (modified (pool [die (.sided 6)]) (.calculate .sub 1)) (.calculate .mul 2)
    let roll : Roll := ⟨10, "6 - 1 * 2".toList⟩
    let work := [.add [.ofValue 6], .calculate (.ofValue 6) .sub 1,
      .calculate ⟨5, "6 - 1".toList⟩ .mul 2]
    ofText? {} "D6-1*2".toList = .ok t ∧ feed.Obeys ∧
      (t.evaluate.run feed .silent () ()).result = some roll ∧
      (t.audit.run feed .silent () ()).result = some ⟨roll, work⟩ ∧
      (∀ op ∈ work, op.Exact) ∧ Denotes .sum roll.trace 4 ∧
      ¬Denotes .sum roll.trace roll.value.toInt := by
  intro feed t roll work
  have hbuilt : ofText? {} "D6-1*2".toList = .ok t := by decide +kernel
  have hobeys : feed.Obeys := by
    intro range s v s' hrange hnext
    cases hnext
    exact ⟨hrange, le_refl _⟩
  have hroll : (t.evaluate.run feed .silent () ()).result = some roll := by decide +kernel
  have hwork : (t.audit.run feed .silent () ()).result = some ⟨roll, work⟩ := by decide +kernel
  have hfour : Denotes .sum roll.trace 4 :=
    .minus (.summand (.single (.number 6))) (.times (.single (.number 1)) (.number 2))
  refine ⟨hbuilt, hobeys, hroll, hwork, by decide, hfour, fun hten => ?_⟩
  have heq : (4 : Int) = 10 := hfour.unique hten
  cases heq

end Tree

end DiceExpr
