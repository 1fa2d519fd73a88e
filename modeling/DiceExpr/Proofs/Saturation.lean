import DiceExpr.Modifier.Operator
import Mathlib.Algebra.Order.BigOperators.Group.List
import Mathlib.Algebra.Order.Group.Int
import Mathlib.Data.List.Forall2
import Mathlib.Data.List.Induction
import Mathlib.Tactic.Linarith
import Mathlib.Tactic.Ring

namespace DiceExpr.Value

instance : LinearOrder Value where
  le_refl a := Int.le_refl a.toInt
  le_trans _ _ _ hab hbc := Int.le_trans hab hbc
  le_antisymm _ _ hab hba := Value.ext (Int.le_antisymm hab hba)
  le_total a b := Int.le_total a.toInt b.toInt
  lt_iff_le_not_ge _ _ := Int.lt_iff_le_and_not_ge
  toDecidableLE := inferInstance
  toDecidableLT := inferInstance
  toDecidableEq := inferInstance
  min_def _ _ := rfl
  max_def _ _ := rfl

theorem least_le_any (a : Value) : least ≤ a := by
  rw [le_def, least, toInt_clamp]
  have := a.least_le
  omega

theorem any_le_greatest (a : Value) : a ≤ greatest := by
  rw [le_def, greatest, toInt_clamp]
  have := a.le_greatest
  omega

theorem clamp_le_clamp {m n : Int} (h : m ≤ n) : clamp m ≤ clamp n := by
  rw [le_def, toInt_clamp, toInt_clamp]
  omega

theorem add_le_add {a b c d : Value} (hab : a ≤ b) (hcd : c ≤ d) : add a c ≤ add b d := by
  rw [le_def] at hab hcd
  exact clamp_le_clamp (Int.add_le_add hab hcd)

theorem foldl_add_le {as bs : List Value} (h : List.Forall₂ (· ≤ ·) as bs) {a b : Value}
    (hab : a ≤ b) : as.foldl add a ≤ bs.foldl add b := by
  induction h generalizing a b with
  | nil => exact hab
  | cons hx _ ih => exact ih (add_le_add hab hx)

/-- Saturation keeps the order of sums that are taken member by member. -/
theorem total_le_total {as bs : List Value} (h : List.Forall₂ (· ≤ ·) as bs) :
    total as ≤ total bs := foldl_add_le h (le_refl 0)

/-! Products with a count -/

private theorem mul_nonneg_or_nonpos (m : Int) (n : Nat) :
    (0 ≤ m → 0 ≤ m * n) ∧ (m ≤ 0 → m * n ≤ 0) := by
  constructor
  · intro h
    exact Int.mul_nonneg h (Int.natCast_nonneg n)
  · intro h
    exact Int.mul_nonpos_of_nonpos_of_nonneg h (Int.natCast_nonneg n)

theorem times_succ (a : Value) (n : Nat) : times a (n + 1) = add (times a n) a := by
  obtain ⟨hpos, hneg⟩ := mul_nonneg_or_nonpos a.toInt n
  have hsucc : a.toInt * ((n + 1 : Nat) : Int) = a.toInt * n + a.toInt := by
    push_cast
    ring
  apply Value.ext
  rw [times, hsucc, add, times, toInt_clamp, toInt_clamp, toInt_clamp]
  -- the partial products all have the sign of `a`, so they leave the range at one end only
  generalize a.toInt * n = m at hpos hneg ⊢
  have hl := a.least_le
  have hh := a.le_greatest
  omega

/-- Equal values add up to a saturated product. -/
theorem total_replicate (n : Nat) (a : Value) : total (List.replicate n a) = times a n := by
  induction n with
  | zero =>
    rw [List.replicate_zero, total_nil, times]
    simp only [Nat.cast_zero, mul_zero]
    rfl
  | succ n ih => rw [List.replicate_succ', total_concat, ih, times_succ]

theorem times_le_times_right {a : Value} (ha : 0 ≤ a) {m n : Nat} (h : m ≤ n) :
    times a m ≤ times a n :=
  clamp_le_clamp (Int.mul_le_mul_of_nonneg_left (Int.ofNat_le.mpr h) ha)

theorem times_nonpos {a : Value} (ha : a ≤ 0) (n : Nat) : times a n ≤ 0 :=
  clamp_le_clamp (n := 0) ((mul_nonneg_or_nonpos a.toInt n).2 ha)

theorem times_nonneg {a : Value} (ha : 0 ≤ a) (n : Nat) : 0 ≤ times a n :=
  clamp_le_clamp (m := 0) ((mul_nonneg_or_nonpos a.toInt n).1 ha)

@[simp] theorem zero_times (n : Nat) : times 0 n = 0 :=
  le_antisymm (times_nonpos (le_refl 0) n) (times_nonneg (le_refl 0) n)

/-! Sums that stay in the range -/

/-- The absolute values of some numbers, added up without a limit. -/
def magnitude (vals : List Value) : Nat := (vals.map fun v => v.toInt.natAbs).sum

theorem magnitude_concat (vals : List Value) (a : Value) :
    magnitude (vals ++ [a]) = magnitude vals + a.toInt.natAbs := by
  simp [magnitude]

theorem magnitude_le_of_sublist {as bs : List Value} (h : as.Sublist bs) :
    magnitude as ≤ magnitude bs :=
  (h.map _).sum_le_sum fun _ _ => Nat.zero_le _

/-- A sum is exact if the absolute values of its members add up to no more than the greatest
value. -/
theorem toInt_total {vals : List Value} (h : magnitude vals ≤ 9223372036854775807) :
    (total vals).toInt = (vals.map toInt).sum ∧
      (total vals).toInt.natAbs ≤ magnitude vals := by
  induction vals using List.reverseRecOn with
  | nil => exact ⟨rfl, Nat.le_refl 0⟩
  | append_singleton vals a ih =>
    rw [magnitude_concat] at h ⊢
    obtain ⟨hsum, hle⟩ := ih (by omega)
    rw [total_concat, List.map_append, List.sum_append, ← hsum]
    simp only [List.map_cons, List.map_nil, List.sum_cons, List.sum_nil, add_zero]
    have hexact : (add (total vals) a).toInt = (total vals).toInt + a.toInt :=
      toInt_clamp_of_mem (by omega) (by omega)
    exact ⟨hexact, by omega⟩

end DiceExpr.Value

namespace DiceExpr.Operator

/-! Every operation with a fixed operand keeps the order of values or turns it round -/

theorem sub_mono (c : Value) : Monotone (Value.sub · c) := by
  intro a b h
  exact Value.clamp_le_clamp (Int.sub_le_sub_right h c.toInt)

theorem mul_mono_or_antitone (c : Value) :
    Monotone (Value.mul · c) ∨ Antitone (Value.mul · c) := by
  rcases Int.le_total 0 c.toInt with hc | hc
  · left
    intro a b h
    exact Value.clamp_le_clamp (Int.mul_le_mul_of_nonneg_right h hc)
  · right
    intro a b h
    exact Value.clamp_le_clamp (Int.mul_le_mul_of_nonpos_right h hc)

theorem div_mono_or_antitone (c : Value) :
    Monotone (Value.div · c) ∨ Antitone (Value.div · c) := by
  by_cases hzero : c = 0
  · left
    intro a b h
    simpa only [Value.div, if_pos hzero] using h
  rcases Int.lt_or_gt_of_ne (fun h => hzero (Value.ext h) : c.toInt ≠ 0) with hc | hc
  · right
    intro a b h
    simp only [Value.div, if_neg hzero]
    apply Value.clamp_le_clamp
    have hflip := Int.tdiv_le_tdiv (Int.neg_pos_of_neg hc) h
    rw [Int.tdiv_neg, Int.tdiv_neg] at hflip
    omega
  · left
    intro a b h
    simp only [Value.div, if_neg hzero]
    exact Value.clamp_le_clamp (Int.tdiv_le_tdiv hc h)

theorem apply_mono_or_antitone (op : Operator) (c : Value) :
    Monotone (op.apply · c) ∨ Antitone (op.apply · c) := by
  cases op with
  | add => exact .inl fun a b h => Value.add_le_add h (le_refl c)
  | sub => exact .inl (sub_mono c)
  | mul => exact mul_mono_or_antitone c
  | div => exact div_mono_or_antitone c

end DiceExpr.Operator
