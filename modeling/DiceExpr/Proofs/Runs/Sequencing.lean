import DiceExpr.Proofs.Runs.Watching
import Mathlib.Data.List.Forall2

namespace DiceExpr

namespace Outcome

/-- What comes after an outcome. Without a result there is nothing to go on with. -/
def bind (o : Outcome σ τ α) (next : α → σ → τ → Outcome σ τ β) : Outcome σ τ β :=
  match o.result with
  | some a => next a o.feed o.listener
  | none => ⟨none, o.feed, o.listener⟩

variable {o : Outcome σ τ α} {next : α → σ → τ → Outcome σ τ β}

theorem bind_of_some {a : α} (h : o.result = some a) : o.bind next = next a o.feed o.listener := by
  simp only [bind, h]

theorem bind_of_none (h : o.result = none) : o.bind next = ⟨none, o.feed, o.listener⟩ := by
  simp only [bind, h]

/-- The result in some view, and the state of the feed. -/
def view (f : α → β) (o : Outcome σ τ α) : Option β × σ := (o.result.map f, o.feed)

/-- A further view of the result. -/
theorem view_congr {o' : Outcome σ υ β} {f : α → γ} {g : β → γ}
    (h : o.view f = o'.view g) (f' : γ → δ) :
    (o.view fun a => f' (f a)) = o'.view fun b => f' (g b) := by
  obtain ⟨hresult, hfeed⟩ := Prod.mk.inj h
  have hfurther := congrArg (Option.map f') hresult
  rw [Option.map_map, Option.map_map] at hfurther
  exact Prod.ext hfurther hfeed

/-- What comes after a result shows nothing but a view of it, without a draw. -/
theorem view_bind {f : β → γ} {g : α → γ}
    (h : ∀ a, o.result = some a → (next a o.feed o.listener).view f = (some (g a), o.feed)) :
    (o.bind next).view f = o.view g := by
  cases hresult : o.result with
  | none => simp only [bind_of_none hresult, view, hresult, Option.map_none]
  | some a =>
    rw [bind_of_some hresult, h a hresult]
    simp only [view, hresult, Option.map_some]

end Outcome

namespace Play

variable {feed : Feed σ} {listener : Listener τ} {s : σ} {u : τ}

theorem run_bind (p : Play α) (f : α → Play β) (feed : Feed σ) (listener : Listener τ) (s : σ)
    (u : τ) : (p.bind f).run feed listener s u =
      (p.run feed listener s u).bind fun a => (f a).run feed listener := by
  induction p generalizing s u with
  | done a => rfl
  | draw range next ih =>
    simp only [bind, run]
    cases feed.next range s with
    | none => rfl
    | some answer => exact ih answer.1 answer.2 u
  | note step next ih => exact ih s _

theorem view_run_map (p : Play α) (f : α → β) (g : β → γ) :
    ((p.map f).run feed listener s u).view g =
      (p.run feed listener s u).view fun a => g (f a) := by
  rw [map, run_bind]
  exact Outcome.view_bind fun a _ => rfl

/-- Whatever the numbers are, each step on the way has one property, and the result another one. -/
def Ensures (P : Step → Prop) (Q : α → Prop) : Play α → Prop
  | done a => Q a
  | draw _ next => ∀ v, (next v).Ensures P Q
  | note step next => P step ∧ next.Ensures P Q

namespace Ensures

variable {P P' : Step → Prop}

theorem imp {p : Play α} {Q Q' : α → Prop} (h : p.Ensures P Q) (hsteps : ∀ step, P step → P' step)
    (hresult : ∀ a, Q a → Q' a) : p.Ensures P' Q' := by
  induction p with
  | done a => exact hresult a h
  | draw range next ih => exact fun v => ih v (h v)
  | note step next ih => exact ⟨hsteps step h.1, ih h.2⟩

theorem imp_steps {p : Play α} {Q : α → Prop} (h : p.Ensures P Q)
    (hsteps : ∀ step, P step → P' step) : p.Ensures P' Q := h.imp hsteps fun _ ha => ha

theorem bind {p : Play α} {f : α → Play β} {Q : α → Prop} {R : β → Prop} (h : p.Ensures P Q)
    (hf : ∀ a, Q a → (f a).Ensures P R) : (p.bind f).Ensures P R := by
  induction p with
  | done a => exact hf a h
  | draw range next ih => exact fun v => ih v (h v)
  | note step next ih => exact ⟨h.1, ih h.2⟩

theorem map {p : Play α} {f : α → β} {Q : α → Prop} {R : β → Prop} (h : p.Ensures P Q)
    (hf : ∀ a, Q a → R (f a)) : (p.map f).Ensures P R := h.bind hf

theorem eachThen {ι : Type} {is : List ι} {play : ι → Play α} {Q : ι → α → Prop}
    {follow : List α → Play β} {R : β → Prop} (h : ∀ i ∈ is, (play i).Ensures P (Q i))
    (hf : ∀ as, List.Forall₂ Q is as → (follow as).Ensures P R) :
    (eachThen (is.map play) follow).Ensures P R := by
  induction is generalizing follow with
  | nil => exact hf [] .nil
  | cons i rest ih =>
    obtain ⟨hi, hrest⟩ := List.forall_mem_cons.mp h
    exact hi.bind fun a ha => ih hrest fun as has => hf (a :: as) (.cons ha has)

theorem chainThen {target : Play Roll} {condition : Condition} {limit : Nat}
    {follow : List Roll → Play β} {R : β → Prop} (h : target.Ensures P fun _ => True)
    (hf : ∀ rolls, (follow rolls).Ensures P R) :
    (chainThen target condition limit follow).Ensures P R := by
  induction limit generalizing follow with
  | zero => exact h.bind fun r _ => hf [r]
  | succ more ih =>
    refine h.bind fun r _ => ?_
    split
    · exact ih fun rest => hf (r :: rest)
    · exact hf [r]

theorem of_run {p : Play α} {Q : α → Prop} (h : p.Ensures P Q) {a : α}
    (hrun : (p.run feed listener s u).result = some a) : Q a := by
  induction p generalizing s u with
  | done b =>
    cases hrun
    exact h
  | draw range next ih =>
    simp only [run] at hrun
    cases hanswer : feed.next range s with
    | none =>
      rw [hanswer] at hrun
      cases hrun
    | some answer =>
      rw [hanswer] at hrun
      exact ih answer.1 (h answer.1) hrun
  | note step next ih => exact ih h.2 hrun

/-- The steps of a run have the property even if it does not come to a result. -/
theorem of_mem_steps {p : Play α} {Q : α → Prop} (h : p.Ensures P Q) :
    ∀ step ∈ p.steps feed s, P step := by
  induction p generalizing s with
  | done b => exact List.forall_mem_nil _
  | draw range next ih =>
    simp only [steps]
    cases feed.next range s with
    | none => exact List.forall_mem_nil _
    | some answer => exact ih answer.1 (h answer.1)
  | note step next ih => exact List.forall_mem_cons.mpr ⟨h.1, ih h.2⟩

end Ensures

end Play

end DiceExpr
