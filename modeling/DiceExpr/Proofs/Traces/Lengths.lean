import DiceExpr.Proofs.Notation.Tokens
import DiceExpr.Roll
import Mathlib.Algebra.GroupWithZero.Nat
import Mathlib.Algebra.Order.BigOperators.Group.List
import Mathlib.Algebra.Order.Group.Nat

namespace DiceExpr

namespace Text

theorem ofNat_ne_nil (n : Nat) : ofNat n ≠ [] := by
  rcases Nat.eq_zero_or_pos n with rfl | hpos
  · decide
  · obtain ⟨c, ds, hcons, -⟩ := ofNat_cons hpos
    rw [hcons]
    exact List.cons_ne_nil c ds

theorem sum_length_le_joined (separator : Text) (texts : List Text) :
    (texts.map List.length).sum ≤ (joined separator texts).length := by
  induction texts with
  | nil => exact Nat.zero_le _
  | cons text rest ih =>
    rw [List.map_cons, List.sum_cons]
    cases rest with
    | nil => rw [List.map_nil, List.sum_nil, joined_singleton, Nat.add_zero]
    | cons next rest =>
      rw [joined_cons_cons, List.length_append, List.length_append]
      omega

end Text

theorem Value.text_ne_nil (v : Value) : v.text ≠ [] := by
  unfold Value.text Text.ofInt
  split
  · exact Text.ofNat_ne_nil _
  · exact List.cons_ne_nil _ _

namespace Roll

theorem length_trace_le_operand (r : Roll) : r.trace.length ≤ r.operand.length := by
  unfold operand
  split
  · simp only [Text.parenthesised, List.length_cons, List.length_append]
    omega
  · exact le_refl _

theorem operand_ne_nil {r : Roll} (h : r.trace ≠ []) : r.operand ≠ [] := by
  have hpos := List.length_pos_iff.mpr h
  exact List.ne_nil_of_length_pos (hpos.trans_le r.length_trace_le_operand)

/-- The trace of a sum shows each of its rolls. -/
theorem length_le_trace_added {rolls : List Roll} (h : ∀ r ∈ rolls, r.trace ≠ []) :
    rolls.length ≤ (added rolls).trace.length := by
  have hones : ∀ n ∈ (rolls.map operand).map List.length, 1 ≤ n := by
    simp only [List.forall_mem_map]
    exact fun r hr => List.length_pos_iff.mpr (operand_ne_nil (h r hr))
  calc
    rolls.length = ((rolls.map operand).map List.length).length := by simp only [List.length_map]
    _ ≤ ((rolls.map operand).map List.length).sum := List.length_le_sum_of_one_le _ hones
    _ ≤ (added rolls).trace.length := Text.sum_length_le_joined plus (rolls.map operand)

theorem sum_length_trace_le (rolls : List Roll) :
    (rolls.map fun r => r.trace.length).sum ≤ (sum rolls).trace.length := by
  match rolls with
  | [] => exact Nat.zero_le _
  | [r] => exact le_refl _
  | r :: r' :: rest =>
    have hoperands : ∀ x ∈ r :: r' :: rest, x.trace.length ≤ (List.length ∘ operand) x :=
      fun x _ => x.length_trace_le_operand
    refine (List.sum_le_sum hoperands).trans ?_
    rw [← List.map_map]
    exact Text.sum_length_le_joined plus ((r :: r' :: rest).map operand)

theorem trace_sum_ne_nil {rolls : List Roll} (h : ∀ r ∈ rolls, r.trace ≠ []) :
    (sum rolls).trace ≠ [] := by
  match rolls with
  | [] => exact Value.text_ne_nil 0
  | [r] => exact h r (List.mem_singleton_self r)
  | r :: r' :: rest =>
    exact List.ne_nil_of_length_pos ((Nat.succ_pos _).trans_le (length_le_trace_added h))

theorem length_flatten_le_trace {chains : List (List Roll)}
    (h : ∀ rolls ∈ chains, ∀ r ∈ rolls, r.trace ≠ []) :
    chains.flatten.length ≤ (sum (chains.map added)).trace.length := by
  have hchains : ∀ rolls ∈ chains, rolls.length ≤ (added rolls).trace.length :=
    fun rolls hrolls => length_le_trace_added (h rolls hrolls)
  calc
    chains.flatten.length = (chains.map List.length).sum := List.length_flatten
    _ ≤ (chains.map fun rolls => (added rolls).trace.length).sum := List.sum_le_sum hchains
    _ = ((chains.map added).map fun r => r.trace.length).sum := by rw [List.map_map]; rfl
    _ ≤ (sum (chains.map added)).trace.length := sum_length_trace_le _

theorem maskedTrace_ne_nil {mask : List Bool} {rolls : List Roll}
    (hlen : mask.length = rolls.length) (h : ∀ r ∈ rolls, r.trace ≠ []) :
    maskedTrace mask rolls ≠ [] := by
  cases rolls with
  | nil => exact List.cons_ne_nil _ _
  | cons r rest =>
    cases mask with
    | nil => cases hlen
    | cons keep mask =>
      have hr := operand_ne_nil (h r List.mem_cons_self)
      have hfirst : (if keep then r.operand else r.operand ++ droppedMark) ≠ [] := by
        split
        · exact hr
        · exact List.append_ne_nil_of_left_ne_nil hr _
      refine List.ne_nil_of_length_pos ?_
      refine (List.length_pos_iff.mpr hfirst).trans_le (le_trans ?_
        (Text.sum_length_le_joined plus _))
      rw [List.zipWith_cons_cons, List.map_cons, List.sum_cons]
      exact Nat.le_add_right _ _

end Roll

end DiceExpr
