import DiceExpr.Proofs.Runs.Parts
import DiceExpr.Proofs.Selections.Cuts
import Mathlib.Logic.Function.Iterate

namespace DiceExpr

namespace Extreme

theorem opposite_opposite (e : Extreme) : e.opposite.opposite = e := by
  cases e <;> rfl

def foremost? : Extreme → List Value → Option Value
  | high, vals => vals.max?
  | low, vals => vals.min?

/-- The values less the foremost one, the first of several. -/
def withoutForemost (e : Extreme) (vals : List Value) : List Value :=
  match e.foremost? vals with
  | some v => vals.erase v
  | none => []

theorem withoutForemost_nil (e : Extreme) : e.withoutForemost [] = [] := by
  cases e <;> rfl

theorem withoutForemost_eq {e : Extreme} {vals : List Value} {v : Value}
    (h : e.foremost? vals = some v) : e.withoutForemost vals = vals.erase v := by
  simp only [withoutForemost, h]

theorem foremost?_eq_some_iff {e : Extreme} {vals : List Value} {v : Value} :
    e.foremost? vals = some v ↔ v ∈ vals ∧ ∀ w ∈ vals, ¬e.outranks w v := by
  cases e with
  | high => simp [foremost?, List.max?_eq_some_iff, outranks]
  | low => simp [foremost?, List.min?_eq_some_iff, outranks]

theorem exists_foremost? (e : Extreme) {vals : List Value} (h : vals ≠ []) :
    ∃ v, e.foremost? vals = some v := by
  cases vals with
  | nil => exact absurd rfl h
  | cons v vals =>
    cases e with
    | high => exact ⟨_, List.max?_cons'⟩
    | low => exact ⟨_, List.min?_cons'⟩

/-- The hindmost value stays the same without the foremost one, if there are any values left. -/
theorem withoutForemost_erase {e : Extreme} {vals : List Value} {v w : Value}
    (hv : e.foremost? vals = some v) (hw : e.opposite.foremost? vals = some w) :
    e.opposite.withoutForemost (vals.erase v) = (vals.erase v).erase w := by
  by_cases hne : vals.erase v = []
  · rw [hne, withoutForemost_nil, List.erase_nil]
  · refine withoutForemost_eq (foremost?_eq_some_iff.mpr ?_)
    obtain ⟨-, hfront⟩ := foremost?_eq_some_iff.mp hv
    obtain ⟨hmem, hback⟩ := foremost?_eq_some_iff.mp hw
    refine ⟨?_, fun x hx => hback x (List.mem_of_mem_erase hx)⟩
    by_cases hvw : w = v
    · -- all values are equal
      subst hvw
      obtain ⟨x, hx⟩ := List.exists_mem_of_ne_nil _ hne
      have hmem := List.mem_of_mem_erase hx
      have hnot := hback x hmem
      rw [outranks_opposite] at hnot
      rcases e.outranks_trichotomy x w with h | rfl | h
      · exact absurd h (hfront x hmem)
      · exact hx
      · exact absurd h hnot
    · exact (List.mem_erase_of_ne hvw).mpr hmem

/-- It makes no difference which end a value is taken away from first. -/
theorem commute_withoutForemost (e : Extreme) :
    Function.Commute e.withoutForemost e.opposite.withoutForemost := by
  intro vals
  by_cases hne : vals = []
  · simp only [hne, withoutForemost_nil]
  obtain ⟨v, hv⟩ := e.exists_foremost? hne
  obtain ⟨w, hw⟩ := e.opposite.exists_foremost? hne
  have hback := withoutForemost_erase hv hw
  have hfront := withoutForemost_erase (e := e.opposite) hw (by rwa [opposite_opposite])
  rw [opposite_opposite] at hfront
  calc e.withoutForemost (e.opposite.withoutForemost vals)
    _ = (vals.erase w).erase v := by rw [withoutForemost_eq hw, hfront]
    _ = (vals.erase v).erase w := List.erase_comm w v
    _ = e.opposite.withoutForemost (e.withoutForemost vals) := by
      rw [withoutForemost_eq hv, hback]

/-- Behind a value that none of them outranks, all values have one rank more. -/
theorem ranks_cons_of_not_outranks {e : Extreme} {v : Value} {vals : List Value}
    (h : ∀ w ∈ vals, ¬e.outranks w v) (before : List Value) :
    e.ranks (v :: before) vals = (e.ranks before vals).map (· + 1) := by
  have hmoved := e.ranks_insert [] v before vals
  rw [List.nil_append, List.nil_append] at hmoved
  rw [hmoved]
  refine zipWith_eq_map (length_ranks e before vals).symm fun q hq => ?_
  rw [if_neg (h q.1 (List.of_mem_zip hq).1)]

theorem Precedes.of_reverse {e : Extreme} {vals : List Value} {i j : Nat} (hi : i < vals.length)
    (hj : j < vals.length)
    (h : e.opposite.Precedes vals.reverse (vals.length - 1 - j) (vals.length - 1 - i)) :
    e.Precedes vals i j := by
  have hback {k : Nat} (hk : k < vals.length) : vals.reverse[vals.length - 1 - k]? = vals[k]? := by
    rw [List.getElem?_reverse (by omega)]
    congr 1
    omega
  obtain ⟨w, v, hw, hv, h⟩ := h
  rw [hback hj] at hw
  rw [hback hi] at hv
  refine ⟨v, w, hv, hw, ?_⟩
  rw [outranks_opposite] at h
  rcases h with h | ⟨rfl, hlt⟩
  · exact .inl h
  · exact .inr ⟨rfl, by omega⟩

end Extreme

namespace Selection

open Extreme

theorem kept_drop_zero (e : Extreme) (vals : List Value) : kept ⟨.drop, e, 0⟩ vals = vals :=
  (marked_sublist _ vals).eq_of_length (length_kept ⟨.drop, e, 0⟩ vals)

/-- Of values with a foremost one among them, one more is dropped than without it. -/
theorem marked_drop_succ {e : Extreme} {v : Value} {before xs ys : List Value} (n : Nat)
    (hbefore : ∀ w ∈ before, e.outranks v w) (hxs : ∀ w ∈ xs, e.outranks v w)
    (hys : ∀ w ∈ ys, ¬e.outranks w v) :
    marked ((e.ranks before (xs ++ v :: ys)).map (keeps ⟨.drop, e, n + 1⟩)) (xs ++ v :: ys) =
      marked ((e.ranks before (xs ++ ys)).map (keeps ⟨.drop, e, n⟩)) (xs ++ ys) := by
  have hkeeps (r : Nat) : keeps ⟨.drop, e, n + 1⟩ (r + 1) = keeps ⟨.drop, e, n⟩ r := by
    simp [keeps]
  induction xs generalizing before with
  | nil =>
    have hrank : before.countP (fun w => !e.outranks v w) + ys.countP (fun w => e.outranks w v) =
        0 := by
      rw [List.countP_eq_zero.mpr hys, List.countP_eq_zero.mpr]
      intro w hw
      simpa using hbefore w hw
    have hrest : (e.ranks (v :: before) ys).map (keeps ⟨.drop, e, n + 1⟩) =
        (e.ranks before ys).map (keeps ⟨.drop, e, n⟩) := by
      rw [ranks_cons_of_not_outranks hys, List.map_map]
      exact List.map_congr_left fun r _ => hkeeps r
    rw [List.nil_append, List.nil_append, ranks, hrank, List.map_cons, hrest]
    rfl
  | cons x xs ih =>
    obtain ⟨hx, hxs⟩ := List.forall_mem_cons.mp hxs
    have hrest := ih (List.forall_mem_cons.mpr ⟨hx, hbefore⟩) hxs
    have hcount : (xs ++ v :: ys).countP (fun w => e.outranks w x) =
        (xs ++ ys).countP (fun w => e.outranks w x) + 1 := by
      simp only [List.countP_append, List.countP_cons, hx, if_true, Nat.add_assoc]
    rw [List.cons_append, List.cons_append, ranks, ranks, hcount, ← Nat.add_assoc, List.map_cons,
      List.map_cons, hkeeps]
    cases keeps ⟨.drop, e, n⟩ _ with
    | true => exact congrArg (x :: ·) hrest
    | false => exact hrest

theorem kept_drop_succ (e : Extreme) (n : Nat) (vals : List Value) :
    kept ⟨.drop, e, n + 1⟩ vals = kept ⟨.drop, e, n⟩ (e.withoutForemost vals) := by
  by_cases hne : vals = []
  · rw [hne, withoutForemost_nil]
    rfl
  obtain ⟨v, hv⟩ := e.exists_foremost? hne
  obtain ⟨hmem, hfront⟩ := foremost?_eq_some_iff.mp hv
  obtain ⟨xs, ys, hnot, hsplit, herase⟩ := List.exists_erase_eq hmem
  rw [withoutForemost_eq hv, herase]
  subst hsplit
  refine marked_drop_succ n (List.forall_mem_nil _) (fun w hw => ?_) fun w hw => ?_
  · rcases e.outranks_trichotomy v w with h | rfl | h
    · exact h
    · exact absurd hw hnot
    · exact absurd h (hfront w (List.mem_append_left _ hw))
  · exact hfront w (List.mem_append_right _ (List.mem_cons_of_mem v hw))

/-- Values are dropped one after another, each time the foremost one of those that are left. -/
theorem kept_drop_eq_iterate (e : Extreme) (n : Nat) (vals : List Value) :
    kept ⟨.drop, e, n⟩ vals = e.withoutForemost^[n] vals := by
  induction n generalizing vals with
  | zero => exact kept_drop_zero e vals
  | succ n ih => rw [kept_drop_succ, ih, Function.iterate_succ_apply]

theorem marked_append {mask mask' : List Bool} {items items' : List α}
    (h : mask.length = items.length) :
    marked (mask ++ mask') (items ++ items') = marked mask items ++ marked mask' items' := by
  induction mask generalizing items with
  | nil =>
    obtain rfl := List.eq_nil_of_length_eq_zero h.symm
    rfl
  | cons mark mask ih =>
    cases items with
    | nil => cases h
    | cons item items => cases mark <;> simp [marked, ih (Nat.succ.inj h)]

theorem marked_reverse {mask : List Bool} {items : List α} (h : mask.length = items.length) :
    marked mask.reverse items.reverse = (marked mask items).reverse := by
  induction mask generalizing items with
  | nil => cases items <;> simp [marked]
  | cons mark mask ih =>
    cases items with
    | nil => cases h
    | cons item items =>
      have hlen := Nat.succ.inj h
      rw [List.reverse_cons, List.reverse_cons, marked_append (by simpa using hlen), ih hlen]
      cases mark <;> simp [marked]

/-- To keep values at one end is to drop all others at the other end, seen from behind. -/
theorem mask_keep_eq_reverse (e : Extreme) (n : Nat) (vals : List Value) :
    mask ⟨.keep, e, n⟩ vals =
      (mask ⟨.drop, e.opposite, vals.length - n⟩ vals.reverse).reverse := by
  obtain ⟨hlength, hcount, hprecedes⟩ :=
    isCut_mask ⟨.drop, e.opposite, vals.length - n⟩ vals.reverse
  rw [List.length_reverse] at hlength hcount
  refine (isCut_mask ⟨.keep, e, n⟩ vals).unique ⟨?_, ?_, fun i j hi hj => ?_⟩
  · rw [List.length_reverse, hlength]
  · have hall := List.count_false_add_count_true
      (mask ⟨.drop, e.opposite, vals.length - n⟩ vals.reverse)
    simp only [frontMark, List.count_reverse] at hcount ⊢
    omega
  · have hmarked {k : Nat} {mark : Bool}
        (h : (mask ⟨.drop, e.opposite, vals.length - n⟩ vals.reverse).reverse[k]? = some mark) :
        k < vals.length ∧ (mask ⟨.drop, e.opposite, vals.length - n⟩
          vals.reverse)[vals.length - 1 - k]? = some mark := by
      have hlt := (List.getElem?_eq_some_iff.mp h).1
      rw [List.length_reverse, hlength] at hlt
      rw [List.getElem?_reverse (by omega), hlength] at h
      exact ⟨hlt, h⟩
    obtain ⟨hilt, hi⟩ := hmarked hi
    obtain ⟨hjlt, hj⟩ := hmarked hj
    exact .of_reverse hilt hjlt (hprecedes _ _ hj hi)

theorem kept_keep_eq_reverse (e : Extreme) (n : Nat) (vals : List Value) :
    kept ⟨.keep, e, n⟩ vals =
      (kept ⟨.drop, e.opposite, vals.length - n⟩ vals.reverse).reverse := by
  have hlength := length_mask ⟨.drop, e.opposite, vals.length - n⟩ vals.reverse
  rw [kept, kept, mask_keep_eq_reverse, ← marked_reverse hlength, List.reverse_reverse]

theorem kept_drop_drop (e : Extreme) (m n : Nat) (vals : List Value) :
    kept ⟨.drop, e, n⟩ (kept ⟨.drop, e, m⟩ vals) = kept ⟨.drop, e, m + n⟩ vals := by
  rw [kept_drop_eq_iterate, kept_drop_eq_iterate, kept_drop_eq_iterate,
    ← Function.iterate_add_apply, Nat.add_comm]

theorem kept_keep_keep (e : Extreme) (m n : Nat) (vals : List Value) :
    kept ⟨.keep, e, n⟩ (kept ⟨.keep, e, m⟩ vals) = kept ⟨.keep, e, min m n⟩ vals := by
  have hlength := length_kept ⟨.keep, e, m⟩ vals
  have hdropped : vals.length - m + (min m vals.length - n) = vals.length - min m n := by omega
  rw [kept_keep_eq_reverse e n, hlength, kept_keep_eq_reverse e m, List.reverse_reverse,
    kept_drop_drop, kept_keep_eq_reverse]
  simp only [remaining, hdropped]

theorem kept_drop_comm (e : Extreme) (m n : Nat) (vals : List Value) :
    kept ⟨.drop, e.opposite, n⟩ (kept ⟨.drop, e, m⟩ vals) =
      kept ⟨.drop, e, m⟩ (kept ⟨.drop, e.opposite, n⟩ vals) := by
  simp only [kept_drop_eq_iterate]
  exact (e.commute_withoutForemost.iterate_iterate m n vals).symm

/-- What is left of some values after one selection and another. -/
def keptByAll (chain : List Selection) (vals : List Value) : List Value :=
  chain.foldl (fun vals s => s.kept vals) vals

end Selection

namespace Tree

/-- A tree with one selection over another. -/
def selected (t : Tree) (chain : List Selection) : Tree :=
  chain.foldl (fun t s => modified t (.select s)) t

theorem view_parts_select (inner : Tree) (selection : Selection) (feed : Feed σ)
    (listener : Listener τ) (s : σ) (u : τ) :
    ((modified inner (.select selection)).parts.run feed listener s u).view (List.map Roll.value) =
      (inner.parts.run feed listener s u).view fun rolls =>
        selection.kept (rolls.map Roll.value) := by
  have hparts : (modified inner (.select selection)).parts =
      (Play.select (modified inner (.select selection)) selection inner.parts).map Parted.parts :=
    rfl
  rw [hparts, Play.view_run_map, Play.select, Play.run_bind]
  refine Outcome.view_bind fun rolls _ => ?_
  simp only [Outcome.view, Play.run, Option.map_some, Selection.kept, Selection.marked_map]

/-- Over any tree, selections work on the values of its parts. -/
theorem view_parts_selected (t : Tree) (chain : List Selection) (feed : Feed σ)
    (listener : Listener τ) (s : σ) (u : τ) :
    ((t.selected chain).parts.run feed listener s u).view (List.map Roll.value) =
      (t.parts.run feed listener s u).view fun rolls =>
        Selection.keptByAll chain (rolls.map Roll.value) := by
  induction chain generalizing t with
  | nil => rfl
  | cons selection chain ih =>
    have hfirst := view_parts_select t selection feed listener s u
    exact (ih (modified t (.select selection))).trans
      (Outcome.view_congr hfirst (Selection.keptByAll chain))

theorem view_selected (t : Tree) (chain : List Selection) (feed : Feed σ) (listener : Listener τ)
    (s : σ) (u : τ) : ((t.selected chain).evaluate.run feed listener s u).view Roll.value =
      (t.parts.run feed listener s u).view fun rolls =>
        Value.total (Selection.keptByAll chain (rolls.map Roll.value)) :=
  ((t.selected chain).view_evaluate feed listener s u).trans
    (Outcome.view_congr (t.view_parts_selected chain feed listener s u) Value.total)

end Tree

namespace Selection

/-- Two chains of selections that leave the same of any values. Over any tree, whether or not it has
as many parts as they count, they come to the same value from the same numbers and leave the feed in
the same state. -/
structure Alike (chain chain' : List Selection) : Prop where
  kept_eq : ∀ vals, keptByAll chain vals = keptByAll chain' vals
  run_eq : ∀ {σ τ : Type} (inner : Tree) (feed : Feed σ) (listener : Listener τ) (s : σ) (u : τ),
    ((inner.selected chain).evaluate.run feed listener s u).view Roll.value =
      ((inner.selected chain').evaluate.run feed listener s u).view Roll.value

theorem alike_of_kept_eq {chain chain' : List Selection}
    (h : ∀ vals, keptByAll chain vals = keptByAll chain' vals) : Alike chain chain' := by
  refine ⟨h, fun inner feed listener s u => ?_⟩
  rw [inner.view_selected, inner.view_selected]
  simp only [h]

/-- Selections at one end become one: keeping twice keeps the lower count, dropping twice drops the
sum of both. Dropping at one end and at the other end can be done in either order. -/
theorem alike_chains (e : Extreme) (m n : Nat) :
    Alike [⟨.keep, e, m⟩, ⟨.keep, e, n⟩] [⟨.keep, e, min m n⟩] ∧
      Alike [⟨.drop, e, m⟩, ⟨.drop, e, n⟩] [⟨.drop, e, m + n⟩] ∧
      Alike [⟨.drop, e, m⟩, ⟨.drop, e.opposite, n⟩] [⟨.drop, e.opposite, n⟩, ⟨.drop, e, m⟩] :=
  ⟨alike_of_kept_eq (kept_keep_keep e m n), alike_of_kept_eq (kept_drop_drop e m n),
    alike_of_kept_eq (kept_drop_comm e m n)⟩

end Selection

end DiceExpr
