import DiceExpr.Outcome
import DiceExpr.Tree.Evaluate
import Mathlib.Data.List.Infix

namespace DiceExpr

/-- A number that was asked for, and given. -/
structure Draw where
  range : Ends Value
  number : Value
  deriving DecidableEq

/-- A feed under watch: what it gives is kept beside its state. -/
def Feed.watched (feed : Feed σ) : Feed (σ × List Draw) :=
  ⟨fun range s => (feed.next range s.1).map fun (v, s') => (v, s', s.2 ++ [⟨range, v⟩])⟩

/-- A listener under watch: what it hears is kept beside its state. -/
def Listener.watched (listener : Listener τ) : Listener (τ × List Entry) :=
  ⟨fun u => listener.listens u.1, fun u e => (listener.hear u.1 e, u.2 ++ [e])⟩

namespace Play

/-- The steps that a run notes, whoever listens. -/
def steps (feed : Feed σ) : Play α → σ → List Step
  | done _, _ => []
  | draw range next, s =>
    match feed.next range s with
    | some (v, s') => (next v).steps feed s'
    | none => []
  | note step next, s => step :: next.steps feed s

/-- The numbers that a run draws. -/
def draws (feed : Feed σ) : Play α → σ → List Draw
  | done _, _ => []
  | draw range next, s =>
    match feed.next range s with
    | some (v, s') => ⟨range, v⟩ :: (next v).draws feed s'
    | none => []
  | note _ next, s => next.draws feed s

/-- A listener has no influence on a run. It is told the steps one after another. -/
theorem run_eq (p : Play α) (feed : Feed σ) (listener : Listener τ) (s : σ) (u : τ) :
    p.run feed listener s u = ⟨(p.run feed .silent s ()).result, (p.run feed .silent s ()).feed,
      (p.steps feed s).foldl listener.tell u⟩ := by
  induction p generalizing s u with
  | done a => rfl
  | draw range next ih =>
    simp only [run, steps]
    cases feed.next range s with
    | none => rfl
    | some answer => exact ih answer.1 answer.2 u
  | note step next ih => exact ih s _

/-- Watching a feed changes nothing but the record of its draws. -/
theorem run_watched (p : Play α) (feed : Feed σ) (listener : Listener τ) (s : σ)
    (earlier : List Draw) (u : τ) :
    p.run feed.watched listener (s, earlier) u = ⟨(p.run feed listener s u).result,
      ((p.run feed listener s u).feed, earlier ++ p.draws feed s),
      (p.run feed listener s u).listener⟩ := by
  induction p generalizing s earlier u with
  | done a => simp only [run, draws, List.append_nil]
  | draw range next ih =>
    simp only [run, draws, Feed.watched]
    cases feed.next range s with
    | none => simp only [Option.map_none, List.append_nil]
    | some answer =>
      have hrest := ih answer.1 answer.2 (earlier ++ [⟨range, answer.1⟩]) u
      rwa [List.append_assoc] at hrest
  | note step next ih => exact ih s earlier _

theorem draws_watched (p : Play α) (feed : Feed σ) (listener : Listener τ) (s : σ) (u : τ) :
    (p.run feed.watched listener (s, []) u).feed.2 = p.draws feed s := by
  rw [run_watched, List.nil_append]

end Play

namespace Listener

/-- What a listener hears of a history. -/
def heard (listener : Listener τ) : τ → List Entry → List Entry
  | _, [] => []
  | u, e :: rest =>
    if listener.listens u then e :: listener.heard (listener.hear u e) rest
    else listener.heard u rest

theorem foldl_tell_watched (listener : Listener τ) (steps : List Step) (u : τ)
    (earlier : List Entry) :
    steps.foldl listener.watched.tell (u, earlier) =
      (steps.foldl listener.tell u, earlier ++ listener.heard u (steps.map Step.entry)) := by
  induction steps generalizing u earlier with
  | nil => simp only [List.foldl_nil, List.map_nil, heard, List.append_nil]
  | cons step rest ih =>
    simp only [List.foldl_cons, List.map_cons, heard, tell, watched]
    split
    · have hrest := ih (listener.hear u step.entry) (earlier ++ [step.entry])
      rwa [List.append_assoc] at hrest
    · exact ih u earlier

theorem foldl_tell_recorder (steps : List Step) (earlier : Array Entry) :
    (steps.foldl recorder.tell earlier).toList = earlier.toList ++ steps.map Step.entry := by
  induction steps generalizing earlier with
  | nil => simp only [List.foldl_nil, List.map_nil, List.append_nil]
  | cons step rest ih =>
    rw [List.foldl_cons, ih, List.map_cons]
    change (earlier.push step.entry).toList ++ _ = _
    rw [Array.toList_push, List.append_assoc]
    rfl

/-- A listener that does not listen stays as it is, and so hears nothing more. -/
theorem heard_eq_nil {listener : Listener τ} {u : τ} (h : listener.listens u = false)
    (history : List Entry) : listener.heard u history = [] := by
  induction history with
  | nil => rfl
  | cons e rest ih => rw [heard, h, if_neg Bool.false_ne_true, ih]

theorem heard_isPrefix (listener : Listener τ) (u : τ) (history : List Entry) :
    listener.heard u history <+: history := by
  induction history generalizing u with
  | nil => exact List.prefix_rfl
  | cons e rest ih =>
    cases hu : listener.listens u with
    | true =>
      rw [heard, hu, if_pos rfl]
      exact List.cons_prefix_cons.mpr ⟨rfl, ih _⟩
    | false =>
      rw [heard_eq_nil hu]
      exact List.nil_prefix

/-- A listener hears all of a history if it listens before each entry of it. -/
theorem heard_eq_self_iff (listener : Listener τ) (u : τ) (history : List Entry) :
    listener.heard u history = history ↔
      ∀ front e, front ++ [e] <+: history → listener.listens (front.foldl listener.hear u) := by
  induction history generalizing u with
  | nil =>
    refine iff_of_true rfl fun front e h => ?_
    simp only [List.prefix_nil, List.append_eq_nil_iff, List.cons_ne_nil, and_false] at h
  | cons e rest ih =>
    cases hu : listener.listens u with
    | true =>
      rw [heard, hu, if_pos rfl, List.cons.injEq, eq_self, true_and, ih]
      constructor
      · intro h front e' hfront
        cases front with
        | nil => exact hu
        | cons first front =>
          obtain ⟨rfl, hrest⟩ := List.cons_prefix_cons.mp hfront
          exact h front e' hrest
      · intro h front e' hfront
        exact h (e :: front) e' (List.cons_prefix_cons.mpr ⟨rfl, hfront⟩)
    | false =>
      rw [heard_eq_nil hu]
      refine iff_of_false (List.cons_ne_nil e rest).symm fun h => ?_
      have hfirst := h [] e (List.cons_prefix_cons.mpr ⟨rfl, List.nil_prefix⟩)
      rw [List.foldl_nil, hu] at hfirst
      exact Bool.false_ne_true hfirst

end Listener

/-- The recorder keeps what it has and adds the entry of each step. -/
theorem Play.run_recorder (p : Play α) (feed : Feed σ) (s : σ) (earlier : Array Entry) :
    (p.run feed .recorder s earlier).listener.toList =
      earlier.toList ++ (p.steps feed s).map Step.entry := by
  rw [run_eq]
  exact Listener.foldl_tell_recorder (p.steps feed s) earlier

namespace Tree

/-- All listeners hear of one history, and none of them changes a result. A listener hears all of
the history exactly if it listens all along, and nothing if it does not listen at first. The
recorder keeps what it has and adds the history. -/
theorem listeners_share_history (t : Tree) (feed : Feed σ) (listener : Listener τ) (s : σ) (u : τ) :
    let untold := t.evaluate.run feed .silent s ()
    let told := t.evaluate.run feed listener s u
    let watched := t.evaluate.run feed listener.watched s (u, [])
    let heard := watched.listener.2
    let history := (t.evaluate.run feed .recorder s #[]).listener.toList
    told.result = untold.result ∧ told.feed = untold.feed ∧
      watched.listener.1 = told.listener ∧ heard.Sublist history ∧
      (heard = history ↔
        ∀ front e, front ++ [e] <+: history → listener.listens (front.foldl listener.hear u)) ∧
      (listener.listens u = false → heard = []) ∧
      ∀ earlier, (t.evaluate.run feed .recorder s earlier).listener.toList =
        earlier.toList ++ history := by
  intro untold told watched heard history
  have htold : told = ⟨untold.result, untold.feed, _⟩ := Play.run_eq ..
  have hhistory : history = (t.evaluate.steps feed s).map Step.entry :=
    t.evaluate.run_recorder feed s #[]
  have hwatched : watched.listener = (told.listener, listener.heard u history) := by
    have hrun : watched.listener = _ := congrArg Outcome.listener (Play.run_eq ..)
    rw [hrun, Listener.foldl_tell_watched, List.nil_append, htold, hhistory]
  have hheard : heard = listener.heard u history := congrArg Prod.snd hwatched
  refine ⟨by rw [htold], by rw [htold], congrArg Prod.fst hwatched, ?_, ?_, ?_, ?_⟩
  · rw [hheard]
    exact (listener.heard_isPrefix u history).sublist
  · rw [hheard]
    exact listener.heard_eq_self_iff u history
  · intro hu
    rw [hheard]
    exact Listener.heard_eq_nil hu history
  · intro earlier
    rw [Play.run_recorder, hhistory]

/-- A listener that listens all along, one that hears two entries at most, and the same one when it
has heard enough. -/
theorem listeners_share_history_of_attentive :
    let feed : Feed Bool := ⟨fun range s => some (if s then range.low else range.high, !s)⟩
    let t := modified (pool [die (.sided 6), modified (pool [die (.sided 4)])
      (.explode ⟨.eq, 4⟩ 3), die .fudge]) (.select ⟨.keep, .high, 2⟩)
    let attentive : Listener Nat := ⟨fun _ => true, fun n _ => n + 1⟩
    let brief : Listener Nat := ⟨fun n => n < 2, fun n _ => n + 1⟩
    let history := (t.evaluate.run feed .recorder true #[]).listener.toList
    history.length = 6 ∧
      (t.evaluate.run feed attentive.watched true (0, [])).listener = (6, history) ∧
      (t.evaluate.run feed brief.watched true (0, [])).listener.1 = 2 ∧
      (t.evaluate.run feed brief.watched true (0, [])).listener.2.Sublist history ∧
      (t.evaluate.run feed brief.watched true (2, [])).listener.2 = [] := by
  intro feed t attentive brief history
  obtain ⟨-, -, hstate, -, hall, -, -⟩ := listeners_share_history t feed attentive true 0
  obtain ⟨-, -, hcount, hsublist, -, -, -⟩ := listeners_share_history t feed brief true 0
  obtain ⟨-, -, -, -, -, hnone, -⟩ := listeners_share_history t feed brief true 2
  have hheard := hall.mpr fun _ _ _ => rfl
  have hsix : (t.evaluate.run feed attentive true 0).listener = 6 := by decide
  have htwo : (t.evaluate.run feed brief true 0).listener = 2 := by decide
  exact ⟨by decide, Prod.ext (hstate.trans hsix) hheard, hcount.trans htwo, hsublist, hnone rfl⟩

end Tree

end DiceExpr
