import DiceExpr.Proofs.Traces.Arithmetic
import DiceExpr.Proofs.Traces.Work
import Mathlib.Data.List.Forall2

namespace DiceExpr

open Arithmetic

/-- The operation without the ends of the range. -/
def Operator.exact : Operator → Int → Int → Int
  | add => (· + ·)
  | sub => (· - ·)
  | mul => (· * ·)
  | div => Int.tdiv

namespace Roll

/-- The trace stands in parentheses as an operand, or nothing is subtracted in it. -/
def Closed (r : Roll) : Prop := '+' ∈ r.trace ∨ ¬[' ', '-', ' '] <:+: r.trace

instance (r : Roll) : Decidable r.Closed :=
  inferInstanceAs (Decidable ('+' ∈ r.trace ∨ ¬[' ', '-', ' '] <:+: r.trace))

/-- The trace stands for the value. -/
def Tells (r : Roll) : Prop := Denotes .sum r.trace r.value.toInt

end Roll

namespace Operation

/-- The result is not saturated. -/
def Exact : Operation → Prop
  | add rolls => (Value.total (rolls.map Roll.value)).toInt =
    (rolls.map fun r => r.value.toInt).sum
  | calculate roll op operand => (op.apply roll.value operand).toInt =
    op.exact roll.value.toInt operand.toInt
  | drop _ => True

/-- What binds tighter than a difference, a product, a quotient or the mark of a dropped roll, is
applied to none that lacks its parentheses. -/
def Legible : Operation → Prop
  | add _ => True
  | calculate roll op _ => op = .mul ∨ op = .div → roll.Closed
  | drop roll => roll.Closed

instance : DecidablePred Exact
  | add _ => inferInstanceAs (Decidable (_ = _))
  | calculate .. => inferInstanceAs (Decidable (_ = _))
  | drop _ => isTrue trivial

instance : DecidablePred Legible
  | add _ => isTrue trivial
  | calculate roll op _ => inferInstanceAs (Decidable (op = .mul ∨ op = .div → roll.Closed))
  | drop roll => inferInstanceAs (Decidable roll.Closed)

end Operation

namespace Roll

theorem tells_ofValue (v : Value) : (ofValue v).Tells := .summand (.single (.number v.toInt))

variable {r : Roll}

theorem Tells.operand (h : r.Tells) : Denotes .sum r.operand r.value.toInt := by
  unfold Roll.operand
  split
  · exact .summand (.single (.group h))
  · exact h

theorem Tells.operand_of_closed (h : r.Tells) (hclosed : r.Closed) :
    Denotes .product r.operand r.value.toInt := by
  unfold Roll.operand
  split
  · exact .single (.group h)
  · next hplus => exact Denotes.product_of_sum h hplus (hclosed.resolve_left hplus)

theorem tells_added {rolls : List Roll} (hne : rolls ≠ []) (h : ∀ r ∈ rolls, r.Tells)
    (hexact : (Operation.add rolls).Exact) : (added rolls).Tells := by
  have hoperands : List.Forall₂ (Denotes .sum) (rolls.map Roll.operand)
      (rolls.map fun r => r.value.toInt) := by
    rw [List.forall₂_map_left_iff, List.forall₂_map_right_iff, List.forall₂_same]
    exact fun r hr => (h r hr).operand
  have hsum := denotes_joined hoperands (by simpa using hne)
  rw [← hexact] at hsum
  exact hsum

theorem tells_sum {rolls : List Roll} (h : ∀ r ∈ rolls, r.Tells)
    (hexact : (Operation.add rolls).Exact) : (sum rolls).Tells := by
  match rolls with
  | [] => exact tells_ofValue 0
  | [r] => exact h r (List.mem_singleton_self r)
  | _ :: _ :: _ => exact tells_added (List.cons_ne_nil _ _) h hexact

theorem Tells.calculate (h : r.Tells) {op : Operator} {operand : Value}
    (hzero : ¬(op = .div ∧ operand = 0)) (hexact : (Operation.calculate r op operand).Exact)
    (hlegible : (Operation.calculate r op operand).Legible) : (r.calculate op operand).Tells := by
  have hnumber : Denotes .factor operand.text operand.toInt := .number operand.toInt
  have hexact : (op.apply r.value operand).toInt = op.exact r.value.toInt operand.toInt := hexact
  unfold Tells Roll.calculate
  rw [hexact, List.append_assoc]
  cases op with
  | add => exact .plus h.operand (.single hnumber)
  | sub => exact .minus h.operand (.single hnumber)
  | mul => exact .summand (.times (h.operand_of_closed (hlegible (.inl rfl))) hnumber)
  | div =>
    have hne : operand.toInt ≠ 0 := fun h => hzero ⟨rfl, Value.ext h⟩
    exact .summand (.divided (h.operand_of_closed (hlegible (.inr rfl))) hnumber hne)

/-- In a trace the dropped rolls count for nothing. -/
theorem denotes_masked {mask : List Bool} {rolls : List Roll} (hlen : mask.length = rolls.length)
    (h : ∀ r ∈ rolls, r.Tells)
    (hclosed : ∀ r ∈ Selection.marked (mask.map (!·)) rolls, r.Closed) :
    ∃ ns, List.Forall₂ (Denotes .sum) (rolls.zipWith (fun r keep =>
        if keep then r.operand else r.operand ++ droppedMark) mask) ns ∧
      ns.sum = ((Selection.marked mask rolls).map fun r => r.value.toInt).sum := by
  induction rolls generalizing mask with
  | nil =>
    rw [List.eq_nil_of_length_eq_zero hlen]
    exact ⟨[], .nil, rfl⟩
  | cons r rolls ih =>
    cases mask with
    | nil => cases hlen
    | cons keep mask =>
      obtain ⟨hr, hrolls⟩ := List.forall_mem_cons.mp h
      have htail : mask.length = rolls.length := Nat.succ.inj hlen
      cases keep with
      | true =>
        obtain ⟨ns, htexts, hsum⟩ := ih htail hrolls hclosed
        refine ⟨r.value.toInt :: ns, .cons hr.operand htexts, ?_⟩
        simp [Selection.marked, hsum]
      | false =>
        obtain ⟨hrclosed, hclosed⟩ := List.forall_mem_cons.mp hclosed
        obtain ⟨ns, htexts, hsum⟩ := ih htail hrolls hclosed
        have hdropped := Denotes.dropped (hr.operand_of_closed hrclosed)
        refine ⟨0 :: ns, .cons (.summand hdropped) htexts, ?_⟩
        simp [Selection.marked, hsum]

theorem tells_masked {mask : List Bool} {rolls : List Roll} (hlen : mask.length = rolls.length)
    (h : ∀ r ∈ rolls, r.Tells)
    (hclosed : ∀ r ∈ Selection.marked (mask.map (!·)) rolls, r.Closed)
    (hexact : (Operation.add (Selection.marked mask rolls)).Exact) :
    Tells ⟨Value.total ((Selection.marked mask rolls).map Roll.value), maskedTrace mask rolls⟩ := by
  cases rolls with
  | nil =>
    rw [List.eq_nil_of_length_eq_zero hlen]
    exact tells_ofValue 0
  | cons r rolls =>
    obtain ⟨ns, htexts, hsum⟩ := denotes_masked hlen h hclosed
    obtain ⟨keep, mask, rfl⟩ := List.exists_cons_of_length_eq_add_one hlen
    have htrace := denotes_joined htexts (List.cons_ne_nil _ _)
    rwa [hsum, ← hexact] at htrace

end Roll

end DiceExpr
