import DiceExpr.Proofs.Contents
import DiceExpr.Proofs.Notation.Regrouping

namespace DiceExpr

/-- Both computations find the same fault, or both come to results, which are related. -/
inductive Concurs (R : α → β → Prop) : Except Fault α → Except Fault β → Prop
  | fault (fault : Fault) : Concurs R (.error fault) (.error fault)
  | result {a : α} {b : β} (h : R a b) : Concurs R (.ok a) (.ok b)

namespace Concurs

variable {R : α → β → Prop} {S : γ → δ → Prop} {x : Except Fault α} {y : Except Fault β}

theorem rfl (x : Except Fault α) : Concurs (· = ·) x x := by
  cases x with
  | error f => exact .fault f
  | ok a => exact .result (Eq.refl a)

theorem imp {R' : α → β → Prop} (h : Concurs R x y) (himp : ∀ a b, R a b → R' a b) :
    Concurs R' x y := by
  cases h with
  | fault f => exact .fault f
  | result h => exact .result (himp _ _ h)

theorem bind {f : α → Except Fault γ} {g : β → Except Fault δ} (h : Concurs R x y)
    (hf : ∀ a b, R a b → Concurs S (f a) (g b)) : Concurs S (x >>= f) (y >>= g) := by
  cases h with
  | fault f => exact .fault f
  | result h => exact hf _ _ h

theorem of_ok {a : α} (h : Concurs R (.ok a) y) : ∃ b, y = .ok b ∧ R a b := by
  cases h with
  | result h => exact ⟨_, Eq.refl _, h⟩

theorem map {f : α → γ} {g : β → δ} (h : Concurs R x y) (hf : ∀ a b, R a b → S (f a) (g b)) :
    Concurs S (x >>= fun a => pure (f a)) (y >>= fun b => pure (g b)) :=
  h.bind fun a b hab => .result (hf a b hab)

/-- After one step the results are still related, and so they are after all. -/
theorem foldlM {ι : Type} {f : α → ι → Except Fault α} {g : β → ι → Except Fault β}
    (hstep : ∀ a b i, R a b → Concurs R (f a i) (g b i)) {a : α} {b : β} (h : R a b)
    (is : List ι) : Concurs R (is.foldlM f a) (is.foldlM g b) := by
  induction is generalizing a b with
  | nil => exact .result h
  | cons i is ih =>
    rw [List.foldlM_cons, List.foldlM_cons]
    exact (hstep a b i h).bind fun _ _ => ih

end Concurs

namespace Tree

/-- How many parts there are is all that a check needs to know of a tree. -/
theorem check_congr {t t' : Tree} (h : t.partCount = t'.partCount) (m : Modifier) :
    t.check m = t'.check m := by
  cases m with
  | calculate op operand => cases op <;> rfl
  | select selection => simp only [check, h]
  | explode condition limit => rfl

/-- The same modifier fits both of two trees with equally many parts, or none of them. -/
theorem concurs_modify {R : Tree → Tree → Prop} {t t' : Tree} {m m' : Modifier}
    (hcheck : t.check m = t'.check m') (h : R (modified t m) (modified t' m')) :
    Concurs R (t.modify? m) (t'.modify? m') := by
  rw [modify?, modify?, hcheck]
  exact (Concurs.rfl _).map fun _ _ _ => h

end Tree

namespace Limits

variable {limits limits' : Limits} {R : Tree → Tree → Prop}

theorem modifyAll?_eq_foldlM (base : Tree) (tokens : List ModifierToken) :
    limits.modifyAll? base tokens =
      tokens.foldlM (fun t token => limits.modifier? token >>= t.modify?) base := by
  induction tokens generalizing base with
  | nil => rfl
  | cons token tokens ih => simp only [modifyAll?, ih, List.foldlM_cons, bind_assoc]

theorem concurs_terms {ss : List Term}
    (h : ∀ s ∈ ss, Concurs R (limits.term? s) (limits'.term? s)) :
    Concurs (List.Forall₂ R) (limits.terms? ss) (limits'.terms? ss) := by
  induction ss with
  | nil => exact .result .nil
  | cons s ss ih =>
    obtain ⟨hs, hss⟩ := List.forall_mem_cons.mp h
    exact hs.bind fun t t' ht => (ih hss).map fun ts ts' hts => .cons ht hts

end Limits

end DiceExpr
