import DiceExpr.Proofs.Bounds.Ranks
import Mathlib.Data.Bool.Count

namespace DiceExpr

namespace Extreme

def opposite : Extreme → Extreme
  | high => low
  | low => high

theorem outranks_opposite (e : Extreme) (v w : Value) : e.opposite.outranks v w = e.outranks w v := by
  cases e <;> rfl

theorem outranks_trichotomy (e : Extreme) (v w : Value) :
    e.outranks v w ∨ v = w ∨ e.outranks w v := by
  cases e with
  | high =>
    have h := lt_trichotomy w v
    simpa [outranks, eq_comm] using h
  | low =>
    have h := lt_trichotomy v w
    simpa [outranks] using h

theorem not_outranks_self (e : Extreme) (v : Value) : ¬e.outranks v v := by
  cases e <;> simp [outranks]

theorem ne_of_outranks {e : Extreme} {v w : Value} (h : e.outranks v w) : v ≠ w := by
  rintro rfl
  exact e.not_outranks_self v h

/-- A position goes before another one if its value outranks the other value, and among equal values
if it comes earlier. -/
def Precedes (e : Extreme) (vals : List Value) (i j : Nat) : Prop :=
  ∃ v w, vals[i]? = some v ∧ vals[j]? = some w ∧ (e.outranks v w ∨ v = w ∧ i < j)

theorem Precedes.asymm {e : Extreme} {vals : List Value} {i j : Nat} (h : e.Precedes vals i j) :
    ¬e.Precedes vals j i := by
  intro h'
  obtain ⟨v, w, hv, hw, h⟩ := h
  obtain ⟨w', v', hw', hv', h'⟩ := h'
  obtain rfl : v = v' := Option.some.inj (hv.symm.trans hv')
  obtain rfl : w = w' := Option.some.inj (hw.symm.trans hw')
  rcases h with h | ⟨rfl, hij⟩
  · rcases h' with h' | ⟨rfl, -⟩
    · exact not_outranks_of_outranks h h'
    · exact e.not_outranks_self _ h
  · rcases h' with h' | ⟨-, hji⟩
    · exact e.not_outranks_self _ h'
    · omega

theorem precedes_or {e : Extreme} {vals : List Value} {i j : Nat} (hi : i < vals.length)
    (hj : j < vals.length) (hne : i ≠ j) : e.Precedes vals i j ∨ e.Precedes vals j i := by
  have hv := List.getElem?_eq_getElem hi
  have hw := List.getElem?_eq_getElem hj
  rcases e.outranks_trichotomy vals[i] vals[j] with h | h | h
  · exact .inl ⟨_, _, hv, hw, .inl h⟩
  · rcases Nat.lt_or_gt_of_ne hne with hlt | hlt
    · exact .inl ⟨_, _, hv, hw, .inr ⟨h, hlt⟩⟩
    · exact .inr ⟨_, _, hw, hv, .inr ⟨h.symm, hlt⟩⟩
  · exact .inr ⟨_, _, hw, hv, .inl h⟩

theorem outranks_of_not_outranks {e : Extreme} {v w x : Value} (h : ¬e.outranks w v)
    (hx : e.outranks x v) : e.outranks x w := by
  cases e <;> simp only [outranks, decide_eq_true_eq, not_lt] at h hx ⊢
  · exact lt_of_le_of_lt h hx
  · exact lt_of_lt_of_le hx h

theorem not_outranks_of_not_outranks {e : Extreme} {v w x : Value} (h : ¬e.outranks w v)
    (hx : ¬e.outranks v x) : ¬e.outranks w x := by
  intro hwx
  rcases e.outranks_trichotomy v x with hvx | rfl | hxv
  · exact hx hvx
  · exact h hwx
  · exact not_outranks_of_outranks hwx (outranks_of_not_outranks h hxv)

/-- A rank is at least the number of earlier values that are not outranked and of values that
outrank its own. -/
theorem le_of_mem_ranks {e : Extreme} {before vals : List Value} {v : Value} {r : Nat}
    (h : (v, r) ∈ vals.zip (e.ranks before vals)) :
    before.countP (fun w => !e.outranks v w) + vals.countP (fun w => e.outranks w v) ≤ r := by
  induction vals generalizing before with
  | nil => cases h
  | cons x after ih =>
    rw [ranks, List.zip_cons_cons, List.mem_cons, Prod.mk.injEq] at h
    rcases h with ⟨rfl, rfl⟩ | h
    · simp [e.not_outranks_self v]
    · have hrest := ih h
      by_cases hx : e.outranks x v
      · have hnot := not_outranks_of_outranks hx
        simp only [List.countP_cons, hnot, hx, Bool.not_false, if_true] at hrest ⊢
        omega
      · simp only [List.countP_cons, hx, Bool.false_eq_true, if_false] at hrest ⊢
        omega

/-- Of two values the later one has the lower rank only if it outranks the earlier one. -/
theorem pairwise_ranks (e : Extreme) (before vals : List Value) :
    (vals.zip (e.ranks before vals)).Pairwise fun p q =>
      (e.outranks q.1 p.1 → q.2 < p.2) ∧ (¬e.outranks q.1 p.1 → p.2 < q.2) := by
  induction vals generalizing before with
  | nil => exact List.Pairwise.nil
  | cons v after ih =>
    rw [ranks, List.zip_cons_cons, List.pairwise_cons]
    refine ⟨?_, ih (v :: before)⟩
    rintro ⟨w, r⟩ hmem
    constructor
    · intro hout
      -- what outranks `v` is among the values that `v` has to give way to
      have hlt := (ranks_lt_iff (e.upward_outranks v) (v :: before) after _ hmem).mp hout
      have hbefore : before.countP (fun x => e.outranks x v) ≤
          before.countP fun x => !e.outranks v x :=
        List.countP_mono_left fun x _ hx => by simpa using not_outranks_of_outranks hx
      rw [List.countP_cons] at hlt
      simp only [e.not_outranks_self v, Bool.false_eq_true, if_false] at hlt ⊢
      omega
    · intro hnot
      have hle := le_of_mem_ranks hmem
      have hbefore : before.countP (fun x => !e.outranks v x) ≤
          before.countP fun x => !e.outranks w x :=
        List.countP_mono_left fun x _ hx => by
          simpa using not_outranks_of_not_outranks hnot (by simpa using hx)
      have hafter : after.countP (fun x => e.outranks x v) ≤
          after.countP fun x => e.outranks x w :=
        List.countP_mono_left fun x _ hx => outranks_of_not_outranks hnot hx
      rw [List.countP_cons_of_pos (by simpa using hnot)] at hle
      show _ < r
      omega

/-- Ranks follow the order of positions. -/
theorem rank_lt_of_precedes {e : Extreme} {vals : List Value} {i j r q : Nat}
    (h : e.Precedes vals i j) (hr : (e.ranks [] vals)[i]? = some r)
    (hq : (e.ranks [] vals)[j]? = some q) : r < q := by
  obtain ⟨v, w, hv, hw, h⟩ := h
  have hi : (vals.zip (e.ranks [] vals))[i]? = some (v, r) := List.getElem?_zip_eq_some.mpr ⟨hv, hr⟩
  have hj : (vals.zip (e.ranks [] vals))[j]? = some (w, q) := List.getElem?_zip_eq_some.mpr ⟨hw, hq⟩
  obtain ⟨hilt, hi⟩ := List.getElem?_eq_some_iff.mp hi
  obtain ⟨hjlt, hj⟩ := List.getElem?_eq_some_iff.mp hj
  have hpairs := List.pairwise_iff_getElem.mp (e.pairwise_ranks [] vals)
  rcases Nat.lt_trichotomy i j with hij | rfl | hji
  · have hpair := hpairs i j hilt hjlt hij
    rw [hi, hj] at hpair
    apply hpair.2
    rcases h with h | ⟨rfl, -⟩
    · exact not_outranks_of_outranks h
    · exact e.not_outranks_self v
  · have hvw : v = w := Option.some.inj (hv.symm.trans hw)
    rcases h with h | ⟨-, hlt⟩
    · exact absurd (hvw ▸ h) (e.not_outranks_self v)
    · omega
  · have hpair := hpairs j i hjlt hilt hji
    rw [hi, hj] at hpair
    apply hpair.1
    rcases h with h | ⟨-, hlt⟩
    · exact h
    · omega

end Extreme

namespace Selection

open Extreme

/-- The mark of the foremost positions: a selection either keeps or drops them. -/
def frontMark (s : Selection) : Bool :=
  match s.choice with
  | .keep => true
  | .drop => false

/-- A mask that cuts off the foremost positions, as many as the selection counts or all there are:
each of them goes before each of the others. -/
structure IsCut (s : Selection) (vals : List Value) (mask : List Bool) : Prop where
  length_eq : mask.length = vals.length
  count_eq : mask.count s.frontMark = min s.count vals.length
  precedes : ∀ i j, mask[i]? = some s.frontMark → mask[j]? = some (!s.frontMark) →
    s.extreme.Precedes vals i j

private theorem eq_of_count_eq {b : Bool} {as bs : List Bool}
    (h : List.Forall₂ (fun x y => x = b → y = b) as bs) :
    as.count b ≤ bs.count b ∧ (as.count b = bs.count b → as = bs) := by
  induction h with
  | nil => exact ⟨le_refl 0, fun _ => rfl⟩
  | @cons x y as bs hxy _ ih =>
    obtain ⟨hle, heq⟩ := ih
    rw [List.count_cons, List.count_cons]
    by_cases hx : x = b
    · subst hx
      obtain rfl := hxy rfl
      refine ⟨by omega, fun hcount => ?_⟩
      rw [heq (by omega)]
    · by_cases hy : y = b
      · subst hy
        simp only [beq_iff_eq, hx, if_false, if_true]
        exact ⟨by omega, fun hcount => by omega⟩
      · obtain rfl : x = y := (Bool.eq_not.mpr hx).trans (Bool.eq_not.mpr hy).symm
        refine ⟨by omega, fun hcount => ?_⟩
        rw [heq (by omega)]

private theorem eq_of_getElem? {b : Bool} {as bs : List Bool} (hlen : as.length = bs.length)
    (hcount : as.count b = bs.count b)
    (h : ¬∃ i : Nat, as[i]? = some b ∧ bs[i]? = some (!b)) : as = bs := by
  refine (eq_of_count_eq (List.forall₂_iff_get.mpr ⟨hlen, fun i hi hi' hb => ?_⟩)).2 hcount
  by_contra hne
  refine h ⟨i, ?_, ?_⟩
  · rw [List.getElem?_eq_getElem hi, ← hb]
    rfl
  · rw [List.getElem?_eq_getElem hi', ← Bool.eq_not.mpr hne]
    rfl

/-- There is one cut only: if two of them differ, a position of each goes before one of the other.
-/
theorem IsCut.unique {s : Selection} {vals : List Value} {mask mask' : List Bool}
    (h : s.IsCut vals mask) (h' : s.IsCut vals mask') : mask = mask' := by
  have hlen := h.length_eq.trans h'.length_eq.symm
  have hcount := h.count_eq.trans h'.count_eq.symm
  by_cases hi : ∃ i : Nat, mask[i]? = some s.frontMark ∧ mask'[i]? = some (!s.frontMark)
  · by_cases hj : ∃ j : Nat, mask'[j]? = some s.frontMark ∧ mask[j]? = some (!s.frontMark)
    · obtain ⟨i, hi, hi'⟩ := hi
      obtain ⟨j, hj', hj⟩ := hj
      exact absurd (h'.precedes j i hj' hi') (h.precedes i j hi hj).asymm
    · exact (eq_of_getElem? hlen.symm hcount.symm hj).symm
  · exact eq_of_getElem? hlen hcount hi

theorem length_marked {mask : List Bool} {items : List α} (h : mask.length = items.length) :
    (marked mask items).length = mask.count true := by
  induction mask generalizing items with
  | nil => rfl
  | cons mark mask ih =>
    cases items with
    | nil => cases h
    | cons item items => cases mark <;> simp [marked, ih (Nat.succ.inj h)]

theorem count_mask (s : Selection) (vals : List Value) :
    (s.mask vals).count s.frontMark = min s.count vals.length := by
  have hkept : (s.mask vals).count true = s.remaining vals.length := by
    rw [← length_marked (s.length_mask vals)]
    exact s.length_kept vals
  have hall := List.count_false_add_count_true (s.mask vals)
  rw [s.length_mask] at hall
  unfold frontMark
  unfold remaining at hkept
  cases hchoice : s.choice with
  | keep => simpa only [hchoice] using hkept
  | drop =>
    simp only [hchoice] at hkept ⊢
    omega

/-- The ranks of the marked positions are those below the count. -/
theorem keeps_eq_iff (s : Selection) (rank : Nat) :
    (s.keeps rank = s.frontMark ↔ rank < s.count) ∧
      (s.keeps rank = !s.frontMark ↔ s.count ≤ rank) := by
  unfold keeps frontMark
  cases s.choice <;> simp

theorem isCut_mask (s : Selection) (vals : List Value) : s.IsCut vals (s.mask vals) := by
  refine ⟨s.length_mask vals, s.count_mask vals, fun i j hi hj => ?_⟩
  rw [mask, List.getElem?_map, Option.map_eq_some_iff] at hi hj
  obtain ⟨r, hr, hi⟩ := hi
  obtain ⟨q, hq, hj⟩ := hj
  have hfront := (s.keeps_eq_iff r).1.mp hi
  have hrest := (s.keeps_eq_iff q).2.mp hj
  have hranked {k rank : Nat} (h : (s.extreme.ranks [] vals)[k]? = some rank) :
      k < vals.length := by
    rw [← length_ranks s.extreme [] vals]
    exact (List.getElem?_eq_some_iff.mp h).1
  have hne : i ≠ j := by
    rintro rfl
    have hrq : r = q := Option.some.inj (hr.symm.trans hq)
    omega
  rcases precedes_or (hranked hr) (hranked hq) hne with h | h
  · exact h
  · have hlt := rank_lt_of_precedes h hq hr
    omega

private theorem countP_not_outranks (e : Extreme) (v : Value) (vals : List Value) :
    vals.countP (fun w => !e.outranks v w) = vals.countP (fun w => e.outranks w v) + vals.count v := by
  induction vals with
  | nil => rfl
  | cons w vals ih =>
    rw [List.countP_cons, List.countP_cons, List.count_cons, ih]
    rcases e.outranks_trichotomy v w with h | rfl | h
    · have hne := (ne_of_outranks h).symm
      have hnot := not_outranks_of_outranks h
      simp [h, hnot, hne]
    · have hself := e.not_outranks_self v
      simp [hself]
      omega
    · have hne := ne_of_outranks h
      have hnot := not_outranks_of_outranks h
      simp [h, hnot, hne]
      omega

/-- How often a value is kept: the selection leaves so many of the values from it on to the front,
less those before it. -/
theorem count_kept (s : Selection) (vals : List Value) (v : Value) :
    (s.kept vals).count v = s.remaining (vals.countP fun w => !s.extreme.outranks v w) -
      s.remaining (vals.countP fun w => s.extreme.outranks w v) := by
  have hupward : s.extreme.Upward fun w => !s.extreme.outranks v w := by
    intro a b ha hab
    simp only [Bool.not_eq_true', Bool.eq_false_iff] at ha ⊢
    exact fun hvb => ha (outranks_of_not_outranks hab hvb)
  have hfrom := s.countP_kept hupward vals
  have hbefore := s.countP_kept (s.extreme.upward_outranks v) vals
  rw [countP_not_outranks] at hfrom
  omega

/-- Keeping so many values at one end leaves each value as often as dropping all others at the other
end. -/
theorem kept_perm (e : Extreme) (count : Nat) (vals : List Value) :
    (kept ⟨.keep, e, count⟩ vals).Perm
      (kept ⟨.drop, e.opposite, vals.length - count⟩ vals) := by
  refine List.perm_iff_count.mpr fun v => ?_
  have hfrom := List.length_eq_countP_add_countP (fun w => e.outranks v w) (l := vals)
  have hbefore := List.length_eq_countP_add_countP (fun w => e.outranks w v) (l := vals)
  have hcount := countP_not_outranks e v vals
  rw [count_kept, count_kept]
  simp only [remaining, outranks_opposite]
  simp only [decide_not, Bool.decide_eq_true] at hfrom hbefore
  omega

/-- A selection marks the one cut that it stands for. Keeping some values at one end and dropping the
others at the other end leave the same values, though not at the same positions: of two equal values
the former keeps the first, the latter the second. -/
theorem mask_eq_iff_isCut (vals : List Value) :
    (∀ (s : Selection) mask, mask = s.mask vals ↔ s.IsCut vals mask) ∧
      (∀ e count, (kept ⟨.keep, e, count⟩ vals).Perm
        (kept ⟨.drop, e.opposite, vals.length - count⟩ vals)) ∧
      ∀ e v, mask ⟨.keep, e, 1⟩ [v, v] = [true, false] ∧
        mask ⟨.drop, e.opposite, 1⟩ [v, v] = [false, true] := by
  refine ⟨fun s mask => ⟨?_, fun h => h.unique (s.isCut_mask vals)⟩,
    fun e count => kept_perm e count vals, fun e v => ?_⟩
  · rintro rfl
    exact s.isCut_mask vals
  · have hself := e.not_outranks_self v
    simp [mask, ranks, keeps, outranks_opposite, hself]

end Selection

end DiceExpr
