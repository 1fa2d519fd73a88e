import DiceExpr.Outcome
import DiceExpr.Proofs.Ranges

namespace DiceExpr

namespace Play

/-- A course of a play: its result after these draws, each of them in the range asked for. -/
inductive Yields : Play α → List Value → α → Prop
  | done (a : α) : Yields (done a) [] a
  | draw {range : Ends Value} {next : Value → Play α} {v : Value} {draws : List Value} {a : α}
    (hv : v ∈ range) (h : Yields (next v) draws a) : Yields (draw range next) (v :: draws) a
  | note {step : Step} {next : Play α} {draws : List Value} {a : α}
    (h : Yields next draws a) : Yields (note step next) draws a

/-- Some course of the play ends with this result. -/
def Gives (p : Play α) (a : α) : Prop := ∃ draws, p.Yields draws a

theorem gives_done {a b : α} : (done a).Gives b ↔ b = a := by
  constructor
  · intro h
    obtain ⟨_, ⟨⟩⟩ := h
    rfl
  · intro h
    subst h
    exact ⟨[], .done b⟩

theorem gives_draw {range : Ends Value} {next : Value → Play α} {a : α} :
    (draw range next).Gives a ↔ ∃ v ∈ range, (next v).Gives a := by
  constructor
  · intro h
    obtain ⟨_, h⟩ := h
    cases h with
    | draw hv h => exact ⟨_, hv, _, h⟩
  · intro h
    obtain ⟨v, hv, draws, h⟩ := h
    exact ⟨v :: draws, .draw hv h⟩

theorem gives_note {step : Step} {next : Play α} {a : α} :
    (note step next).Gives a ↔ next.Gives a := by
  constructor
  · intro h
    obtain ⟨draws, h⟩ := h
    cases h with
    | note h => exact ⟨draws, h⟩
  · intro h
    obtain ⟨draws, h⟩ := h
    exact ⟨draws, .note h⟩

theorem gives_bind {p : Play α} {f : α → Play β} {b : β} :
    (p.bind f).Gives b ↔ ∃ a, p.Gives a ∧ (f a).Gives b := by
  induction p with
  | done a => simp only [bind, gives_done, exists_eq_left]
  | draw range next ih =>
    simp only [bind, gives_draw, ih]
    constructor
    · intro h
      obtain ⟨v, hv, a, ha, hb⟩ := h
      exact ⟨a, ⟨v, hv, ha⟩, hb⟩
    · intro h
      obtain ⟨a, ⟨v, hv, ha⟩, hb⟩ := h
      exact ⟨v, hv, a, ha, hb⟩
  | note step next ih => simp only [bind, gives_note, ih]

theorem gives_map {p : Play α} {f : α → β} {b : β} :
    (p.map f).Gives b ↔ ∃ a, p.Gives a ∧ b = f a := by
  simp only [map, gives_bind, gives_done]

theorem gives_eachThen {plays : List (Play α)} {follow : List α → Play β} {b : β} :
    (eachThen plays follow).Gives b ↔
      ∃ as, List.Forall₂ Gives plays as ∧ (follow as).Gives b := by
  induction plays generalizing follow with
  | nil => simp only [eachThen, List.forall₂_nil_left_iff, exists_eq_left]
  | cons p rest ih =>
    simp only [eachThen, gives_bind, ih, List.forall₂_cons_left_iff]
    constructor
    · intro h
      obtain ⟨a, ha, as, has, hb⟩ := h
      exact ⟨a :: as, ⟨a, as, ha, has, rfl⟩, hb⟩
    · intro h
      obtain ⟨_, ⟨a, as, ha, has, rfl⟩, hb⟩ := h
      exact ⟨a, ha, as, has, hb⟩

theorem gives_each {plays : List (Play α)} {as : List α} :
    (each plays).Gives as ↔ List.Forall₂ Gives plays as := by
  simp only [each, gives_eachThen, gives_done, exists_eq_right']

end Play

/-- Where a chain of results ends: those before the last one pass, and the last one fails or stands
at the limit. -/
structure Condition.Stops (c : Condition) (limit : Nat) (passed : List Value) (last : Value) :
    Prop where
  passes : ∀ v ∈ passed, c.check v
  length_le : passed.length ≤ limit
  ends : ¬c.check last ∨ passed.length = limit

/-- The sums of the chains of values with a property. -/
def Condition.ChainSum (c : Condition) (limit : Nat) (P : Value → Prop) (v : Value) : Prop :=
  ∃ passed last, (∀ w ∈ passed, P w) ∧ P last ∧ c.Stops limit passed last ∧
    v = Value.total (passed ++ [last])

namespace Condition

theorem ChainSum.imp {c : Condition} {limit : Nat} {P Q : Value → Prop} {v : Value}
    (h : c.ChainSum limit P v) (hpq : ∀ w, P w → Q w) : c.ChainSum limit Q v := by
  obtain ⟨passed, last, hpassed, hlast, hstops, rfl⟩ := h
  exact ⟨passed, last, fun w hw => hpq w (hpassed w hw), hpq last hlast, hstops, rfl⟩

theorem stops_nil {c : Condition} {limit : Nat} {v : Value} :
    c.Stops limit [] v ↔ ¬c.check v ∨ limit = 0 := by
  constructor
  · intro h
    simpa only [List.length_nil, eq_comm] using h.ends
  · intro h
    exact ⟨by simp, Nat.zero_le _, by simpa only [List.length_nil, eq_comm] using h⟩

theorem stops_cons {c : Condition} {limit : Nat} {passed : List Value} {v last : Value} :
    c.Stops (limit + 1) (v :: passed) last ↔ c.check v ∧ c.Stops limit passed last := by
  constructor
  · intro h
    have hlen := h.length_le
    rw [List.length_cons] at hlen
    refine ⟨h.passes v List.mem_cons_self, ⟨fun w hw => ?_, by omega, ?_⟩⟩
    · exact h.passes w (List.mem_cons_of_mem v hw)
    · refine h.ends.imp_right fun hl => ?_
      rw [List.length_cons] at hl
      omega
  · intro h
    obtain ⟨hv, h⟩ := h
    have hlen := h.length_le
    refine ⟨?_, by rw [List.length_cons]; omega, ?_⟩
    · intro w hw
      rcases List.mem_cons.mp hw with rfl | hw
      · exact hv
      · exact h.passes w hw
    · refine h.ends.imp_right fun hl => ?_
      rw [List.length_cons, hl]

end Condition

namespace Play

/-- A chain gives the shortest runs of results that have to stop. -/
theorem gives_chainThen {target : Play Roll} {c : Condition} {limit : Nat}
    {follow : List Roll → Play β} {b : β} :
    (chainThen target c limit follow).Gives b ↔
      ∃ passed last, (∀ r ∈ passed, target.Gives r) ∧ target.Gives last ∧
        c.Stops limit (passed.map Roll.value) last.value ∧ (follow (passed ++ [last])).Gives b := by
  induction limit generalizing follow with
  | zero =>
    simp only [chainThen, gives_bind]
    constructor
    · intro h
      obtain ⟨r, hr, hb⟩ := h
      exact ⟨[], r, by simp, hr, Condition.stops_nil.mpr (.inr rfl), hb⟩
    · intro h
      obtain ⟨passed, last, -, hlast, hstops, hb⟩ := h
      have hnil : passed = [] := by
        simpa using List.length_eq_zero_iff.mp (Nat.le_zero.mp hstops.length_le)
      subst hnil
      exact ⟨last, hlast, hb⟩
  | succ more ih =>
    simp only [chainThen, gives_bind]
    constructor
    · intro h
      obtain ⟨r, hr, hb⟩ := h
      split_ifs at hb with hc
      · obtain ⟨passed, last, hpassed, hlast, hstops, hb⟩ := ih.mp hb
        refine ⟨r :: passed, last, ?_, hlast, Condition.stops_cons.mpr ⟨hc, hstops⟩, hb⟩
        intro x hx
        rcases List.mem_cons.mp hx with rfl | hx
        · exact hr
        · exact hpassed x hx
      · exact ⟨[], r, by simp, hr, Condition.stops_nil.mpr (.inl hc), hb⟩
    · intro h
      obtain ⟨passed, last, hpassed, hlast, hstops, hb⟩ := h
      cases passed with
      | nil =>
        have hc : ¬c.check last.value := by
          simpa using Condition.stops_nil.mp hstops
        exact ⟨last, hlast, by rw [if_neg hc]; exact hb⟩
      | cons r passed =>
        obtain ⟨hc, hstops⟩ := Condition.stops_cons.mp hstops
        refine ⟨r, hpassed r List.mem_cons_self, ?_⟩
        rw [if_pos hc, ih]
        exact ⟨passed, last, fun x hx => hpassed x (List.mem_cons_of_mem r hx), hlast, hstops, hb⟩

theorem gives_chain {target : Play Roll} {c : Condition} {limit : Nat} {rolls : List Roll} :
    (chain target c limit).Gives rolls ↔
      ∃ passed last, (∀ r ∈ passed, target.Gives r) ∧ target.Gives last ∧
        c.Stops limit (passed.map Roll.value) last.value ∧ rolls = passed ++ [last] := by
  simp only [chain, gives_chainThen, gives_done]

/-! Plays and feeds -/

/-- No course of the play comes to ask for a number of an empty range. -/
def Askable : Play α → Prop
  | done _ => True
  | draw range next => range.low ≤ range.high ∧ ∀ v, (next v).Askable
  | note _ next => next.Askable

theorem askable_bind {p : Play α} {f : α → Play β} (hp : p.Askable) (hf : ∀ a, (f a).Askable) :
    (p.bind f).Askable := by
  induction p with
  | done a => exact hf a
  | draw range next ih => exact ⟨hp.1, fun v => ih v (hp.2 v)⟩
  | note step next ih => exact ih hp

theorem askable_map {p : Play α} (f : α → β) (hp : p.Askable) : (p.map f).Askable :=
  askable_bind hp fun _ => trivial

theorem askable_eachThen {plays : List (Play α)} {follow : List α → Play β}
    (hp : ∀ p ∈ plays, p.Askable) (hf : ∀ as, (follow as).Askable) :
    (eachThen plays follow).Askable := by
  induction plays generalizing follow with
  | nil => exact hf []
  | cons p rest ih =>
    refine askable_bind (hp p List.mem_cons_self) fun a => ih ?_ fun as => hf (a :: as)
    intro q hq
    exact hp q (List.mem_cons_of_mem p hq)

theorem askable_chainThen {target : Play Roll} {c : Condition} {limit : Nat}
    {follow : List Roll → Play β} (ht : target.Askable) (hf : ∀ rs, (follow rs).Askable) :
    (chainThen target c limit follow).Askable := by
  induction limit generalizing follow with
  | zero => exact askable_bind ht fun r => hf [r]
  | succ more ih =>
    refine askable_bind ht fun r => ?_
    split_ifs
    · exact ih fun rs => hf (r :: rs)
    · exact hf [r]

end Play

namespace Feed

/-- Asked for a number of a range the feed gives one that lies in it, if it gives one at all. -/
def Obeys (feed : Feed σ) : Prop :=
  ∀ (range : Ends Value) (s : σ) (v : Value) (s' : σ), range.low ≤ range.high →
    feed.next range s = some (v, s') → v ∈ range

/-- Asked for a number of a range the feed always gives one. -/
def Answers (feed : Feed σ) : Prop :=
  ∀ (range : Ends Value) (s : σ), range.low ≤ range.high → ∃ v s', feed.next range s = some (v, s')

end Feed

/-- A supply obeys as long as it is no list, and it never turns into one. -/
theorem Supply.mem_of_next {range : Ends Value} (hrange : range.low ≤ range.high) {s s' : Supply}
    {v : Value} (hs : s.left? = none) (h : s.next range = some (v, s')) :
    v ∈ range ∧ s'.left? = none := by
  cases s with
  | highest =>
    obtain ⟨rfl, rfl⟩ := Prod.mk.inj (Option.some.inj h)
    rw [max_eq_left hrange]
    exact ⟨⟨hrange, le_refl _⟩, rfl⟩
  | lowest =>
    obtain ⟨rfl, rfl⟩ := Prod.mk.inj (Option.some.inj h)
    exact ⟨⟨le_refl _, hrange⟩, rfl⟩
  | listed numbers => cases hs
  | random g =>
    obtain ⟨⟨w, g'⟩, hw, heq⟩ := Option.map_eq_some_iff.mp h
    obtain ⟨rfl, rfl⟩ := Prod.mk.inj heq
    exact ⟨Generator.value_within hrange hw, rfl⟩

namespace Play

theorem gives_of_run {feed : Feed σ} {listener : Listener τ} (hfeed : feed.Obeys) {p : Play α}
    (hp : p.Askable) {s : σ} {u : τ} {a : α} (h : (p.run feed listener s u).result = some a) :
    p.Gives a := by
  induction p generalizing s u with
  | done b =>
    rw [gives_done]
    exact (Option.some.inj h).symm
  | draw range next ih =>
    rw [gives_draw]
    simp only [run] at h
    cases hnext : feed.next range s with
    | none =>
      rw [hnext] at h
      cases h
    | some answer =>
      obtain ⟨v, s'⟩ := answer
      rw [hnext] at h
      exact ⟨v, hfeed range s v s' hp.1 hnext, ih v (hp.2 v) h⟩
  | note step next ih =>
    rw [gives_note]
    exact ih hp h

theorem run_ends {feed : Feed σ} (listener : Listener τ) (hfeed : feed.Answers) {p : Play α}
    (hp : p.Askable) (s : σ) (u : τ) : ∃ a, (p.run feed listener s u).result = some a := by
  induction p generalizing s u with
  | done b => exact ⟨b, rfl⟩
  | draw range next ih =>
    obtain ⟨v, s', hnext⟩ := hfeed range s hp.1
    simp only [run, hnext]
    exact ih v (hp.2 v) s' u
  | note step next ih => exact ih hp s _

/-- A run that is fed with the draws of a course ends with its result, and uses up just these
draws. -/
theorem Yields.run {p : Play α} {draws : List Value} {a : α} (h : p.Yields draws a)
    (listener : Listener τ) (rest : List Value) (u : τ) :
    (p.run Supply.feed listener (.listed (draws ++ rest)) u).result = some a ∧
      (p.run Supply.feed listener (.listed (draws ++ rest)) u).feed = .listed rest := by
  induction h generalizing u with
  | done a => exact ⟨rfl, rfl⟩
  | draw _ _ ih => exact ih u
  | note _ ih => exact ih _

end Play

end DiceExpr
