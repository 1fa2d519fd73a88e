import DiceExpr.Proofs.Courses
import DiceExpr.Proofs.Nodes
import DiceExpr.Tree.Evaluate

namespace DiceExpr

/-- What is done with rolls in an evaluation. -/
inductive Operation where
  | add (rolls : List Roll)
  | calculate (roll : Roll) (op : Operator) (operand : Value)
  /-- Marks a roll as dropped. -/
  | drop (roll : Roll)
  deriving DecidableEq

/-- A result and all that was done for it. -/
structure Worked (α : Type) where
  result : α
  work : List Operation
  deriving DecidableEq

namespace Worked

def map (f : α → β) (w : Worked α) : Worked β := ⟨f w.result, w.work⟩

/-- A further result, after some more operations. -/
def further (w : Worked α) (ops : List Operation) (result : β) : Worked β := ⟨result, w.work ++ ops⟩

def all (ws : List (Worked α)) : Worked (List α) := ⟨ws.map result, ws.flatMap work⟩

end Worked

namespace Play

theorem map_bind (p : Play α) (f : α → Play β) (g : β → γ) :
    (p.bind f).map g = p.bind fun a => (f a).map g := bind_assoc p f _

theorem bind_map (p : Play α) (f : α → β) (g : β → Play γ) :
    (p.map f).bind g = p.bind fun a => g (f a) := bind_assoc p _ g

theorem map_map (p : Play α) (f : α → β) (g : β → γ) : (p.map f).map g = p.map (g ∘ f) :=
  bind_map p f _

theorem askable_map_iff {p : Play α} {f : α → β} : (p.map f).Askable ↔ p.Askable := by
  induction p with
  | done a => exact Iff.rfl
  | draw range next ih => exact and_congr_right fun _ => forall_congr' ih
  | note step next ih => exact ih

theorem result_run_map (p : Play α) (f : α → β) (feed : Feed σ) (listener : Listener τ) (s : σ)
    (u : τ) : ((p.map f).run feed listener s u).result =
      (p.run feed listener s u).result.map f := by
  induction p generalizing s u with
  | done a => rfl
  | draw range next ih =>
    simp only [map, bind, run]
    cases feed.next range s with
    | none => rfl
    | some answer => exact ih answer.1 answer.2 u
  | note step next ih => exact ih s _

theorem eachThen_map (plays : List (Play α)) (f : α → β) (follow : List β → Play γ) :
    eachThen (plays.map (map f)) follow = eachThen plays fun as => follow (as.map f) := by
  induction plays generalizing follow with
  | nil => rfl
  | cons p rest ih =>
    simp only [List.map_cons, eachThen, bind_map, ih]

theorem map_results {p : Play (Worked α)} {q : Play α} (h : p.map Worked.result = q) (f : α → β) :
    (p.map (Worked.map f)).map Worked.result = q.map f := by
  rw [← h, map_map, map_map]
  rfl

/-- A chain whose results come with their work. -/
def workedChain (target : Play (Worked Roll)) (condition : Condition) :
    Nat → Play (List (Worked Roll))
  | 0 => target.map ([·])
  | more + 1 =>
    target.bind fun w =>
      if condition.check w.result.value then (workedChain target condition more).map (w :: ·)
      else done [w]

theorem workedChain_results (target : Play (Worked Roll)) (condition : Condition) (limit : Nat) :
    (workedChain target condition limit).map (List.map Worked.result) =
      chain (target.map Worked.result) condition limit := by
  induction limit with
  | zero =>
    rw [workedChain, map_map, chain, chainThen, bind_map]
    rfl
  | succ more ih =>
    rw [workedChain, map_bind, chain, chainThen, bind_map]
    congr 1
    funext w
    by_cases hpasses : condition.check w.result.value
    · have hrest := chainThen_bind (target.map Worked.result) condition more done
        fun rest => done (w.result :: rest)
      rw [if_pos hpasses, if_pos hpasses, map_map]
      refine Eq.trans ?_ hrest
      rw [← chain, ← ih, bind_map]
      rfl
    · rw [if_neg hpasses, if_neg hpasses]
      rfl

/-- A chain has one result at least, and all of them are results of its target. -/
theorem gives_workedChain {target : Play (Worked Roll)} {condition : Condition} {limit : Nat}
    {ws : List (Worked Roll)} (h : (workedChain target condition limit).Gives ws) :
    ws ≠ [] ∧ ∀ w ∈ ws, target.Gives w := by
  induction limit generalizing ws with
  | zero =>
    obtain ⟨w, hw, rfl⟩ := gives_map.mp h
    exact ⟨List.cons_ne_nil _ _, List.forall_mem_singleton.mpr hw⟩
  | succ more ih =>
    obtain ⟨w, hw, h⟩ := gives_bind.mp h
    split at h
    · obtain ⟨rest, hrest, rfl⟩ := gives_map.mp h
      exact ⟨List.cons_ne_nil _ _, List.forall_mem_cons.mpr ⟨hw, (ih hrest).2⟩⟩
    · obtain rfl := gives_done.mp h
      exact ⟨List.cons_ne_nil _ _, List.forall_mem_singleton.mpr hw⟩

/-- A selection drops the other parts and adds up those it keeps. -/
def workedSelect (node : Tree) (selection : Selection) (parts : Play (Worked (List Roll))) :
    Play (Worked Parted) :=
  parts.bind fun w =>
    let mask := selection.mask (w.result.map Roll.value)
    let dropped := Selection.marked (mask.map (!·)) w.result
    let kept := Selection.marked mask w.result
    (select node selection (done w.result)).map
      (w.further (dropped.map Operation.drop ++ [.add kept]))

theorem workedSelect_results (node : Tree) (selection : Selection)
    (parts : Play (Worked (List Roll))) :
    (workedSelect node selection parts).map Worked.result =
      select node selection (parts.map Worked.result) := by
  rw [workedSelect, map_bind, select, bind_map]
  rfl

/-- An explosion adds up every chain, and then the sums of the chains. -/
def workedExplode (node : Tree) (condition : Condition) (limit : Nat)
    (targets : List (Play (Worked Roll))) : Play (Worked Parted) :=
  eachThen (targets.map (workedChain · condition limit)) fun chains =>
    let rolls := chains.map fun ws => Roll.added (ws.map Worked.result)
    let roll := Roll.sum rolls
    let work := (Worked.all chains.flatten).work ++
      chains.map (fun ws => .add (ws.map Worked.result)) ++ [.add rolls]
    note ⟨node, roll, .exploded chains.flatten.length⟩ (done ⟨⟨roll, rolls⟩, work⟩)

theorem workedExplode_results (node : Tree) (condition : Condition) (limit : Nat)
    (targets : List (Play (Worked Roll))) :
    (workedExplode node condition limit targets).map Worked.result =
      explode node condition limit (targets.map (map Worked.result)) := by
  have hchains : (targets.map (map Worked.result)).map (chain · condition limit) =
      (targets.map (workedChain · condition limit)).map (map (List.map Worked.result)) := by
    simp only [List.map_map, List.map_inj_left, Function.comp_apply, workedChain_results,
      implies_true]
  rw [workedExplode, explode, hchains, eachThen_map, map, eachThen_bind]
  congr 1
  funext chains
  simp only [bind, List.map_map, List.length_flatten, Function.comp_def, List.length_map]

end Play

namespace Tree

mutual

/-- The evaluation of a tree, and what is done in it. -/
def audit : Tree → Play (Worked Roll)
  | t@(die d) => d.play.bind fun v => (Play.finish t (.ofValue v)).map (⟨·, []⟩)
  | t@(pool children) => .eachThen (audits children) fun ws =>
    let w := Worked.all ws
    (Play.finish t (.sum w.result)).map (w.further [.add w.result])
  | t@(modified inner (.calculate op operand)) => inner.audit.bind fun w =>
    (Play.finish t (w.result.calculate op operand)).map
      (w.further [.calculate w.result op operand])
  | t@(modified inner (.select selection)) =>
    (Play.workedSelect t selection inner.auditParts).map (Worked.map Parted.roll)
  | t@(modified (pool children) (.explode condition limit)) =>
    (Play.workedExplode t condition limit (audits children)).map (Worked.map Parted.roll)
  | t@(modified inner (.explode condition limit)) =>
    (Play.workedExplode t condition limit [inner.audit]).map (Worked.map Parted.roll)

def auditParts : Tree → Play (Worked (List Roll))
  | t@(die d) => d.play.bind fun v => (Play.finish t (.ofValue v)).map fun r => ⟨[r], []⟩
  | pool children => .eachThen (audits children) fun ws => .done (Worked.all ws)
  | t@(modified inner (.calculate op operand)) => inner.audit.bind fun w =>
    (Play.finish t (w.result.calculate op operand)).map fun r =>
      w.further [.calculate w.result op operand] [r]
  | t@(modified inner (.select selection)) =>
    (Play.workedSelect t selection inner.auditParts).map (Worked.map Parted.parts)
  | t@(modified (pool children) (.explode condition limit)) =>
    (Play.workedExplode t condition limit (audits children)).map (Worked.map Parted.parts)
  | t@(modified inner (.explode condition limit)) =>
    (Play.workedExplode t condition limit [inner.audit]).map (Worked.map ([·.roll]))

def audits : List Tree → List (Play (Worked Roll))
  | [] => []
  | t :: rest => t.audit :: audits rest

end

theorem audits_eq_map (ts : List Tree) : audits ts = ts.map audit := by
  induction ts with
  | nil => rfl
  | cons t rest ih => rw [audits, ih, List.map_cons]

theorem audit_explode (inner : Tree) (condition : Condition) (limit : Nat) :
    (modified inner (.explode condition limit)).audit =
      (Play.workedExplode (modified inner (.explode condition limit)) condition limit
        (audits inner.targets)).map (Worked.map Parted.roll) := by
  cases inner <;> rfl

theorem audits_results {ts : List Tree} (h : ∀ t ∈ ts, t.audit.map Worked.result = t.evaluate) :
    (audits ts).map (Play.map Worked.result) = evaluations ts := by
  rw [audits_eq_map, evaluations_eq_map, List.map_map]
  exact List.map_congr_left h

/-- An audit goes through the same draws and notes as the evaluation, to the same result. -/
theorem audit_results (t : Tree) :
    t.audit.map Worked.result = t.evaluate ∧ t.auditParts.map Worked.result = t.parts := by
  induction t using Tree.induction with
  | die d =>
    simp only [audit, auditParts, evaluate, parts, Play.map_bind, Play.map_map]
    exact ⟨rfl, rfl⟩
  | pool children ih =>
    have hchildren := audits_results fun c hc => (ih c hc).1
    constructor
    · rw [audit, evaluate, ← hchildren, Play.eachThen_map, Play.map, Play.eachThen_bind]
      rfl
    · rw [auditParts, parts, ← hchildren, Play.each, Play.eachThen_map, Play.map,
        Play.eachThen_bind]
      rfl
  | calculate inner op operand ih =>
    simp only [audit, auditParts, evaluate, parts, ← ih.1, Play.map_bind, Play.bind_map,
      Play.map_map]
    exact ⟨rfl, rfl⟩
  | select inner selection ih =>
    have hselect := Play.workedSelect_results (modified inner (.select selection)) selection
      inner.auditParts
    rw [ih.2] at hselect
    exact ⟨Play.map_results hselect Parted.roll, Play.map_results hselect Parted.parts⟩
  | explode inner condition limit ih =>
    have hexplode := Play.workedExplode_results (modified inner (.explode condition limit))
      condition limit (audits inner.targets)
    rw [audits_results fun t ht => (ih t ht).1] at hexplode
    have hroll := Play.map_results hexplode Parted.roll
    cases inner with
    | die d => exact ⟨hroll, Play.map_results hexplode ([·.roll])⟩
    | pool children => exact ⟨hroll, Play.map_results hexplode Parted.parts⟩
    | modified inner m => exact ⟨hroll, Play.map_results hexplode ([·.roll])⟩

end Tree

end DiceExpr
