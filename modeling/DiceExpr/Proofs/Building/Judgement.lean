import DiceExpr.Proofs.Building.Demands
import DiceExpr.Proofs.Building.WellFormed
import DiceExpr.Proofs.Nesting.Depth
import Mathlib

namespace DiceExpr

open Grammar

namespace Limits

open DiceExpr.Tree

variable {limits : Limits}

/-- A tree that has just the parts that were counted, as it is and after an explosion. -/
structure Stocked (s : Stock) (y : Tree) : Prop where
  count : y.partCount = s.count
  exploded : ∀ condition limit,
    (modified y (.explode condition limit)).partCount = if s.bare then s.count else 1
  single : ∀ only, y = pool [only] → only.isDie
  filled : y ≠ pool []

theorem Stocked.collapse {s : Stock} {y : Tree} (h : Stocked s y) : Stocked s y.collapse := by
  match y, h with
  | die d, h => exact h
  | pool [], h => exact absurd rfl h.filled
  | pool (_ :: _ :: _), h => exact h
  | modified _ _, h => exact h
  | pool [only], h =>
    have hdie := h.single only rfl
    cases only with
    | pool children => cases hdie
    | modified inner m => cases hdie
    | die d => exact ⟨h.count, h.exploded, nofun, nofun⟩

theorem stocked_replicate (d : Die) {n : Nat} (hn : 0 < n) :
    Stocked ⟨n, true⟩ (Tree.replicate n (die d)) := by
  rw [replicate_die]
  refine ⟨List.length_replicate, fun _ _ => List.length_replicate, ?_, ?_⟩
  · intro only heq
    have hmem : only ∈ List.replicate n (die d) := by
      rw [pool.inj heq]
      exact List.mem_singleton_self only
    rw [(List.mem_replicate.mp hmem).2]
    rfl
  · intro heq
    have hlength := congrArg List.length (pool.inj heq)
    rw [List.length_replicate] at hlength
    exact absurd hlength (Nat.ne_of_gt hn)

theorem judges_die {type : DieToken} {w : Text} (h : DieType w type) :
    limits.Judges type.demands (fun _ => True) type.die? := by
  cases h with
  | sides _ => exact judges_check Int.not_le.symm (fun _ => rfl) fun _ => trivial
  | fudge => exact judges_ok trivial
  | percentile => exact judges_ok trivial
  | @custom _ faces h =>
    have hok : (DieToken.custom faces).die? = .ok (.custom faces) := by
      simp [DieToken.die?, Die.custom?, h.least_lt.1]
    rw [hok]
    exact judges_ok trivial

theorem judges_quantity (written : Option Value) :
    limits.Judges [.quantity (written.getD 1)] (fun n => n = Term.amount written ∧ 0 < n)
      (limits.quantity? written) := by
  have hone : (1 : Value).toInt = 1 := rfl
  simp only [quantity?]
  by_cases hfew : written.getD 1 < 1
  · have hunmet : ¬(Demand.quantity (written.getD 1)).Met limits :=
      fun h => Int.not_le.mpr hfew h.1
    have hfault : (Demand.quantity (written.getD 1)).fault limits =
        .illegal .quantity (written.getD 1) := if_pos hfew
    rw [if_pos hfew, ← hfault]
    exact judges_error hunmet
  · have hpos : (1 : Value) ≤ written.getD 1 := Int.not_lt.mp hfew
    have hamount := Value.le_def.mp hpos
    rw [if_neg hfew]
    refine judges_check ?_ (fun _ => (if_neg hfew).symm) fun _ => ⟨rfl, by omega⟩
    change _ ↔ ¬(_ ∧ _)
    rw [and_iff_right hpos, Nat.not_le]

/-- What is left after a modifier, where nothing but its own check may fail. -/
theorem judges_modifier {y : Tree} {token : ModifierToken} {m : Modifier} {s : Stock}
    {demands : List Demand} (hm : limits.modifier? token = .ok m)
    (hcheck : limits.Judges demands (fun _ => Stocked s (modified y m)) (y.check m)) :
    limits.Judges demands (Stocked s) (limits.modifyAll? y [token]) := by
  have hall : limits.modifyAll? y [token] = (y.check m >>= fun _ => pure (modified y m)) := by
    simp only [modifyAll?, hm, modify?, bind_assoc]
    rfl
  rw [hall]
  exact hcheck.map fun _ h => h

theorem stocked_calculate (y : Tree) (op : Operator) (n : Value) :
    Stocked ⟨1, false⟩ (modified y (.calculate op n)) :=
  ⟨rfl, fun _ _ => rfl, nofun, nofun⟩

theorem stocked_select (y : Tree) (selection : Selection) :
    Stocked ⟨selection.remaining y.partCount, false⟩ (modified y (.select selection)) := by
  refine ⟨?_, fun _ _ => rfl, nofun, nofun⟩
  cases y <;> rfl

theorem Stocked.explode {s : Stock} {y : Tree} (h : Stocked s y) (condition : Condition)
    (limit : Nat) :
    Stocked ⟨if s.bare then s.count else 1, false⟩ (modified y (.explode condition limit)) :=
  ⟨h.exploded condition limit, fun _ _ => rfl, nofun, nofun⟩

/-- A selection that is not too large keeps all that it says. -/
theorem judges_select {s : Stock} {y : Tree} (h : Stocked s y) (selection : Selection) :
    limits.Judges [.selected selection.count s.count]
      (fun _ => Stocked ⟨match selection.choice with
        | .keep => selection.count
        | .drop => s.count - selection.count, false⟩ (modified y (.select selection)))
      (y.check (.select selection)) := by
  have hstocked := stocked_select y selection
  rw [check, ← h.count]
  refine judges_check Nat.not_le.symm (fun _ => rfl) fun hfew => ?_
  obtain ⟨choice, extreme, count⟩ := selection
  cases choice with
  | keep =>
    have hmin : min count y.partCount = count := Nat.min_eq_left (Nat.not_lt.mp hfew)
    rwa [Selection.remaining, hmin] at hstocked
  | drop => exact hstocked

/-- A modifier is checked against what is there before it, and leaves what is counted. -/
theorem judges_modify {s : Stock} {y : Tree} (h : Stocked s y) {w : Text} {token : ModifierToken}
    (hw : Modifies w token) :
    limits.Judges (s.demands token) (Stocked (s.after token))
      (limits.modifyAll? y [token]) := by
  cases hw with
  | @calculate op _ n hop hn =>
    simp only [List.mem_cons, List.not_mem_nil, or_false] at hop
    rcases hop with rfl | rfl | rfl | rfl
    · exact judges_modifier (m := .calculate .add n) rfl (judges_ok (stocked_calculate y .add n))
    · exact judges_modifier (m := .calculate .sub n) rfl (judges_ok (stocked_calculate y .sub n))
    · exact judges_modifier (m := .calculate .mul n) rfl (judges_ok (stocked_calculate y .mul n))
    · refine judges_modifier (m := .calculate .div n) rfl ?_
      refine judges_check not_not.symm ?_ fun _ => stocked_calculate y .div n
      intro hzero
      rw [hzero]
      rfl
  | @select choice extreme _ n hchoice hextreme hn =>
    have hm : limits.modifier? ⟨.select, [choice, extreme], n⟩ =
        (Selection.ofSymbol? [choice, extreme] n.toInt.toNat >>= fun s => pure (.select s)) :=
      if_neg (Int.not_lt.mpr hn.nonneg)
    simp only [List.mem_cons, List.not_mem_nil, or_false] at hchoice hextreme
    rcases hchoice with rfl | rfl <;> rcases hextreme with rfl | rfl <;>
      exact judges_modifier hm (judges_select h _)
  | @explode c _ n hn =>
    have hm : limits.modifier? ⟨.explode, c.symbol, n⟩ =
        .ok (.explode ⟨c, n⟩ limits.mostRerolls) := by
      simp [modifier?]
    exact judges_modifier hm (judges_ok (h.explode _ _))
  | @explodeEqual _ n hn => exact judges_modifier rfl (judges_ok (h.explode _ _))

/-- Whatever a term is built into is judged by what the term demands. -/
def Judged (limits : Limits) (s : Term) : Prop :=
  limits.Judges s.demands (Stocked s.stock) (limits.open? s)

theorem Judged.term {s : Term} (h : limits.Judged s) :
    limits.Judges s.demands (Stocked s.stock) (limits.term? s) := by
  rw [term?_eq_bind]
  exact h.map fun _ hy => hy.collapse

theorem judges_terms {ss : List Term} (h : ∀ s ∈ ss, limits.Judged s) :
    limits.Judges (Term.demandsList ss) (List.Forall₂ (fun s t => Stocked s.stock t) ss)
      (limits.terms? ss) := by
  induction ss with
  | nil => exact judges_ok .nil
  | cons s ss ih =>
    obtain ⟨hs, hss⟩ := List.forall_mem_cons.mp h
    exact hs.term.bind fun tree htree => (ih hss).map fun trees htrees => .cons htree htrees

/-- Trees that are none of them an empty pool make up a pool of so many, or the only one is left. -/
theorem stocked_ofList {ss : List Term} (hne : ss ≠ []) {trees : List Tree}
    (h : List.Forall₂ (fun s t => Stocked s.stock t) ss trees) :
    Stocked (Term.stockOf ss) (Tree.ofList trees).collapse := by
  have hfilled : ∀ t ∈ trees, t ≠ pool [] := by
    clear hne
    induction h with
    | nil => exact List.forall_mem_nil _
    | cons hst _ ih => exact List.forall_mem_cons.mpr ⟨hst.filled, ih⟩
  rw [ofList_eq_pool hfilled]
  match h with
  | .nil => exact absurd rfl hne
  | .cons hst .nil => exact hst
  | .cons _ (.cons _ hrest) =>
    have hlength := hrest.length_eq
    refine ⟨?_, ?_, by simp [collapse], by simp [collapse]⟩
    · simp [collapse, partCount, Term.stockOf, hlength]
    · simp [collapse, partCount, Term.stockOf, hlength]

theorem judged_dice (quantity : Option Value) {type : DieToken} {w : Text} (h : DieType w type) :
    limits.Judged (.dice quantity type []) := by
  refine (judges_die h).bind fun d _ => (judges_quantity quantity).map fun n hn => ?_
  obtain ⟨rfl, hpos⟩ := hn
  exact stocked_replicate d hpos

theorem derives_judged {p : Phrase} {w : Text} (h : Derives p w) :
    match p with
    | .operand s => limits.Judged s
    | .sum ss => ∀ s ∈ ss, limits.Judged s := by
  induction h with
  | die h => exact judged_dice none h
  | dice _ h => exact judged_dice _ h
  | @group _ inner h ih =>
    have hgroup := (judges_terms ih).map fun _ htrees => stocked_ofList (h.ne_nil inner rfl) htrees
    simp only [Judged, Term.demands, Term.stock, Stock.demandsAll, List.append_nil]
    exact hgroup
  | single _ ih => exact List.forall_mem_singleton.mpr ih
  | join _ _ ihs ih => exact List.forall_mem_append.mpr ⟨ihs, List.forall_mem_singleton.mpr ih⟩
  | @modify _ _ ss s token _ h ihs =>
    obtain ⟨hss, hs⟩ := List.forall_mem_append.mp ihs
    refine List.forall_mem_append.mpr ⟨hss, List.forall_mem_singleton.mpr ?_⟩
    unfold Judged
    rw [open?_attach, Term.demands_attach, Term.stock_attach]
    exact (List.forall_mem_singleton.mp hs).bind fun y hy => judges_modify hy h

end Limits

namespace Tree

theorem judges_ofText? (limits : Limits) {text : Text} {terms : List Term}
    (h : Term.ofText? text = .ok terms) :
    limits.Judges (Term.demandsOf terms) (fun _ => True) (ofText? limits text) := by
  have hdepth : limits.Judges [.depth (Term.depths terms)] (fun _ => True)
      (limits.checkDepth (Term.depths terms)) :=
    Limits.judges_check Nat.not_le.symm (fun _ => rfl) fun _ => trivial
  have hterms : ∀ s ∈ terms, limits.Judged s := by
    by_cases hblank : text.normal = []
    · rw [Term.ofText?_of_blank hblank] at h
      rw [← Except.ok.inj h]
      exact List.forall_mem_nil _
    · exact Limits.derives_judged ((Term.read_eq_ok hblank).mp h)
  have hall := hdepth.bind fun _ _ =>
    (Limits.judges_terms hterms).map (Q := fun _ => True) (f := fun trees =>
      (Tree.ofList trees).collapse) fun _ _ => trivial
  rw [ofText?_checked_once, h, ← Term.depths_of_ofText? h]
  exact hall

/-- Whether a text that can be read stands for a tree, and which fault is found if it does not, is
decided by what its record demands, the first demand first. -/
theorem ofText?_iff_demands_met (limits : Limits) {text : Text} {terms : List Term}
    (h : Term.ofText? text = .ok terms) :
    ((∃ t, ofText? limits text = .ok t) ↔ ∀ d ∈ Term.demandsOf terms, d.Met limits) ∧
      ∀ fault, ofText? limits text = .error fault ↔
        ∃ before d after, Term.demandsOf terms = before ++ d :: after ∧
          (∀ e ∈ before, e.Met limits) ∧ ¬d.Met limits ∧ fault = d.fault limits := by
  have hjudges := judges_ofText? limits h
  exact ⟨hjudges.exists_ok_iff, hjudges.eq_error_iff⟩

/-- The first explosion keeps the three dice apart, the second one sums them up. There are not two
parts to keep then, and the division by zero behind is not looked at. -/
theorem ofText?_of_repeated_explosion :
    let limits : Limits := {}
    let text : Text := "(3d6)!6!6 kl2 / 0".toList
    let terms : List Term := [.group [.dice (some 3) (.sides 6) []]
      [⟨.explode, ['='], 6⟩, ⟨.explode, ['='], 6⟩, ⟨.select, ['K', 'L'], 2⟩,
        ⟨.calculate, ['/'], 0⟩]]
    Term.ofText? text = .ok terms ∧
      Term.demandsOf terms =
        [.depth 1, .sides 6, .quantity 3, .selected 2 1, .divisor 0] ∧
      (¬∃ t, ofText? limits text = .ok t) ∧ ofText? limits text = .error (.overLimit 2 1) := by
  intro limits text terms
  have hread : Term.ofText? text = .ok terms := by
    unfold text terms
    cbv
  have hdemands : Term.demandsOf terms =
      [.depth 1, .sides 6, .quantity 3, .selected 2 1, .divisor 0] := by rfl
  obtain ⟨hok, herror⟩ := ofText?_iff_demands_met limits hread
  refine ⟨hread, hdemands, ?_, (herror _).mpr ?_⟩
  · rw [hok, hdemands]
    decide
  · exact ⟨[.depth 1, .sides 6, .quantity 3], .selected 2 1, [.divisor 0], hdemands, by decide,
      by decide, rfl⟩

end Tree

end DiceExpr
