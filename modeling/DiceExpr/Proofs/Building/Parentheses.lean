import DiceExpr.Proofs.Building.WellFormed
import DiceExpr.Proofs.Nesting.Depth
import DiceExpr.Proofs.Notation.RoundTrip

namespace DiceExpr

namespace Term

/-- The same dice or the same group, with other modifiers. -/
def withModifiers (modifiers : List ModifierToken) : Term → Term
  | dice quantity type _ => dice quantity type modifiers
  | group inner _ => group inner modifiers

/-- Somewhere in a record a term with some of its modifiers is put in parentheses. The rest of its
modifiers then belong to the group. -/
inductive Encloses : List Term → List Term → Prop
  | here (before after : List Term) (s : Term) {first : List ModifierToken} (hne : first ≠ [])
    (rest : List ModifierToken) :
    Encloses (before ++ s.withModifiers (first ++ rest) :: after)
      (before ++ group [s.withModifiers first] rest :: after)
  | within (before after : List Term) {inner inner' : List Term} (h : Encloses inner inner')
    (modifiers : List ModifierToken) :
    Encloses (before ++ group inner modifiers :: after) (before ++ group inner' modifiers :: after)

theorem depth_withModifiers (s : Term) (modifiers modifiers' : List ModifierToken) :
    (s.withModifiers modifiers).depth = (s.withModifiers modifiers').depth := by
  cases s <;> simp only [withModifiers, depth]

/-- Of the two records the one with the parentheses is the deeper one. -/
theorem Encloses.depths_le {terms terms' : List Term} (h : Encloses terms terms') :
    depths terms ≤ depths terms' := by
  induction h with
  | @here before after s first hne rest =>
    have hdepth := s.depth_withModifiers (first ++ rest) first
    simp only [depths_append, depths, depth, hdepth]
    omega
  | within before after h modifiers ih =>
    simp only [depths_append, depths, depth]
    omega

end Term

namespace Tree

/-- A pool that is made of one tree only is that tree, even if it is an empty pool. -/
theorem collapse_ofList_singleton (t : Tree) : (ofList [t]).collapse = t := by
  by_cases hempty : t = pool []
  · rw [hempty]
    rfl
  · rw [ofList_eq_pool (List.forall_mem_singleton.mpr hempty)]
    rfl

theorem collapse_eq_self {t : Tree} (h : ∀ only, t ≠ pool [only]) : t.collapse = t := by
  match t with
  | die _ => rfl
  | pool [] => rfl
  | pool [only] => exact absurd rfl (h only)
  | pool (_ :: _ :: _) => rfl
  | modified _ _ => rfl

end Tree

namespace Limits

open DiceExpr.Tree

variable {limits : Limits}

theorem bind_congr_of_ok {x : Except Fault α} {f g : α → Except Fault β}
    (h : ∀ a, x = .ok a → f a = g a) : x >>= f = x >>= g := by
  cases x with
  | error fault => rfl
  | ok a => exact h a rfl

theorem modifyAll?_append (base : Tree) (first rest : List ModifierToken) :
    limits.modifyAll? base (first ++ rest) =
      (limits.modifyAll? base first >>= fun t => limits.modifyAll? t rest) := by
  induction first generalizing base with
  | nil => rfl
  | cons token first ih => simp only [List.cons_append, modifyAll?, ih, bind_assoc]

/-- What some modifiers leave is no pool. -/
theorem collapse_of_modifyAll? {base y : Tree} {tokens : List ModifierToken} (hne : tokens ≠ [])
    (h : limits.modifyAll? base tokens = .ok y) : y.collapse = y := by
  cases tokens with
  | nil => exact absurd rfl hne
  | cons token tokens =>
    simp only [modifyAll?, bind_eq_ok, modify?_eq_ok] at h
    obtain ⟨m, -, _, ⟨-, rfl⟩, hrest⟩ := h
    exact modifyAll?_induction (P := fun y => y.collapse = y) rfl (fun _ _ _ _ => rfl) hrest

theorem modifyAll?_collapse {tokens : List ModifierToken} (hne : tokens ≠ []) (base : Tree) :
    (limits.modifyAll? base tokens >>= fun y => pure y.collapse) =
      limits.modifyAll? base tokens := by
  refine (bind_congr_of_ok fun y hy => ?_).trans (bind_pure _)
  rw [collapse_of_modifyAll? hne hy]

/-- What the modifiers of a term are applied to. -/
def source? (limits : Limits) : Term → Except Fault Tree
  | .dice quantity type _ => do
    let die ← type.die?
    let n ← limits.quantity? quantity
    return .replicate n (.die die)
  | .group inner _ => limits.sum? inner

theorem open?_withModifiers (s : Term) (modifiers : List ModifierToken) :
    limits.open? (s.withModifiers modifiers) =
      (limits.source? s >>= fun base => limits.modifyAll? base modifiers) := by
  cases s <;> simp only [Term.withModifiers, open?, source?, sum?, bind_assoc, pure_bind]

/-- A sum of one term is what that term is. -/
theorem sum?_singleton (s : Term) : limits.sum? [s] = limits.term? s := by
  have hterms : limits.terms? [s] = (limits.term? s >>= fun t => pure [t]) := rfl
  simp only [sum?, hterms, bind_assoc, pure_bind, collapse_ofList_singleton, bind_pure]

theorem term?_group (inner : List Term) (modifiers : List ModifierToken) :
    limits.term? (.group inner modifiers) = (limits.sum? inner >>= fun base =>
      limits.modifyAll? base modifiers >>= fun y => pure y.collapse) := by
  simp only [term?, sum?, bind_assoc, pure_bind]

/-- A group without modifiers is what stands in it. -/
theorem term?_group_nil (inner : List Term) :
    limits.term? (.group inner []) = limits.sum? inner := by
  have hcollapse (trees : List Tree) (h : limits.terms? inner = .ok trees) :
      (Tree.ofList trees).collapse.collapse = (Tree.ofList trees).collapse :=
    collapse_eq_self (finished_of_terms? (fun s _ => assembles s) h).1.single
  rw [term?_group, sum?, bind_assoc]
  refine bind_congr_of_ok fun trees h => ?_
  exact congrArg Except.ok (hcollapse trees h)

/-- A term may be put in parentheses together with its first modifiers, but not without any. -/
theorem term?_enclosed (s : Term) {first : List ModifierToken} (hne : first ≠ [])
    (rest : List ModifierToken) : limits.term? (.group [s.withModifiers first] rest) =
      limits.term? (s.withModifiers (first ++ rest)) := by
  have hterm : limits.term? (s.withModifiers first) = limits.open? (s.withModifiers first) := by
    rw [term?_eq_bind, open?_withModifiers, bind_assoc]
    simp only [modifyAll?_collapse hne]
  rw [term?_group, sum?_singleton, hterm, term?_eq_bind, open?_withModifiers,
    open?_withModifiers]
  simp only [modifyAll?_append, bind_assoc]

theorem terms?_congr {s s' : Term} (h : limits.term? s = limits.term? s')
    (before after : List Term) :
    limits.terms? (before ++ s :: after) = limits.terms? (before ++ s' :: after) := by
  induction before with
  | nil => simp only [List.nil_append, terms?, h]
  | cons t before ih => simp only [List.cons_append, terms?, ih]

theorem terms?_of_encloses {terms terms' : List Term} (h : Term.Encloses terms terms') :
    limits.terms? terms = limits.terms? terms' := by
  induction h with
  | here before after s hne rest => exact terms?_congr (term?_enclosed s hne rest).symm ..
  | within before after _ modifiers ih =>
    refine terms?_congr ?_ ..
    rw [term?_group, term?_group, sum?, sum?, ih]

end Limits

namespace Term

/-- A text in parentheses is read as a group of what the text is read as. -/
theorem ofText?_parenthesised {text : Text} (hne : text.normal ≠ []) {terms : List Term}
    (h : ofText? text = .ok terms) : ofText? text.parenthesised = .ok [group terms []] := by
  have hnormal : text.parenthesised.normal = '(' :: text.normal ++ [')'] := by
    have hopen : Text.normal ['('] = ['('] := by decide
    have hclose : Text.normal [')'] = [')'] := by decide
    have hsplit : text.parenthesised = ['('] ++ text ++ [')'] := rfl
    rw [hsplit, Text.normal_append, Text.normal_append, hopen, hclose]
    rfl
  have hderives := (read_eq_ok hne).mp h
  have hgroup : Grammar.Derives (.sum [group terms []]) ('(' :: text.normal ++ [')']) :=
    .single (.group hderives)
  rw [ofText?, hnormal]
  exact (read_eq_ok (List.cons_ne_nil _ _)).mpr hgroup

end Term

namespace Tree

theorem checkDepth_of_le {limits : Limits} {depth : Nat} (h : depth ≤ limits.deepestGroup)
    (x : Except Fault α) : (limits.checkDepth depth >>= fun _ => x) = x := by
  rw [checkDepth_eq_ok.mpr h]
  rfl

/-- Parentheses around a whole text do not matter, nor do those around a term with its first
modifiers, wherever it stands in a record, as long as the groups are not nested too deep. -/
theorem redundant_parentheses (limits : Limits) :
    (∀ text terms, text.normal ≠ [] → Term.ofText? text = .ok terms →
      text.parenDepth + 1 ≤ limits.deepestGroup →
      ofText? limits text.parenthesised = ofText? limits text) ∧
    ∀ terms terms', Term.Encloses terms terms' → Term.depths terms' ≤ limits.deepestGroup →
      ofTerms? limits terms' = ofTerms? limits terms := by
  constructor
  · intro text terms hne hterms hdepth
    have hgroup := Term.ofText?_parenthesised hne hterms
    have hdeeper : text.parenthesised.parenDepth = text.parenDepth + 1 := by
      rw [← Term.depths_of_ofText? hgroup, ← Term.depths_of_ofText? hterms]
      exact Nat.max_zero _
    rw [ofText?_checked_once, ofText?_checked_once, hgroup, hterms, hdeeper,
      checkDepth_of_le hdepth, checkDepth_of_le (Nat.le_of_succ_le hdepth)]
    exact (Limits.sum?_singleton _).trans (Limits.term?_group_nil terms)
  · intro terms terms' h hdepth
    rw [ofTerms?, ofTerms?, checkDepth_of_le hdepth, checkDepth_of_le (h.depths_le.trans hdepth),
      Limits.sum?, Limits.sum?, Limits.terms?_of_encloses h]

/-- More parts are asked for than the parentheses leave, with and without another pair around all.
In the record the two dice that are kept come into parentheses of their own within the group. -/
theorem redundant_parentheses_in_group :
    let limits : Limits := { deepestGroup := 2 }
    let text : Text := "d6 + (2d8 - 1) kh2".toList
    let terms : List Term := [.dice none (.sides 6) [],
      .group [.dice (some 2) (.sides 8) [⟨.calculate, ['-'], 1⟩]] [⟨.select, ['K', 'H'], 2⟩]]
    let keep : ModifierToken := ⟨.select, ['K', 'H'], 2⟩
    let double : ModifierToken := ⟨.calculate, ['*'], 2⟩
    let record : List Term :=
      [.group [.dice none .fudge [], .dice (some 3) (.sides 6) [keep, double]] [keep]]
    let record' : List Term :=
      [.group [.dice none .fudge [], .group [.dice (some 3) (.sides 6) [keep]] [double]] [keep]]
    text.normal ≠ [] ∧ Term.ofText? text = .ok terms ∧
      text.parenDepth + 1 ≤ limits.deepestGroup ∧
      ofText? limits text.parenthesised = ofText? limits text ∧
      Term.Encloses record record' ∧ Term.depths record' ≤ limits.deepestGroup ∧
      ofTerms? limits record' = ofTerms? limits record := by
  intro limits text terms keep double record record'
  have hne : text.normal ≠ [] := by decide +kernel
  have hinner : Grammar.Derives (.sum ([] ++ [.dice (some 2) (.sides 8) []])) "2D8".toList :=
    .single (.dice (.digit '2' rfl (by decide)) (.sides (.digit '8' rfl (by decide))))
  have hless : Grammar.Derives (.sum [.dice (some 2) (.sides 8) [⟨.calculate, ['-'], 1⟩]])
      "2D8-1".toList := hinner.modify (.calculate (by decide) (.digit '1' rfl (by decide)))
  have hfirst : Grammar.Derives (.sum [.dice none (.sides 6) []]) "D6".toList :=
    .single (.die (.sides (.digit '6' rfl (by decide))))
  have hsum := hfirst.join (.group hless)
  have hderives : Grammar.Derives (.sum terms) "D6+(2D8-1)KH2".toList :=
    hsum.modify (.select (by decide) (by decide) (.digit '2' rfl (by decide)))
  have hnormal : text.normal = "D6+(2D8-1)KH2".toList := by decide
  have hterms : Term.ofText? text = .ok terms := by
    rw [← hnormal] at hderives
    exact (Term.read_eq_ok hne).mpr hderives
  have hdepth : text.parenDepth + 1 ≤ limits.deepestGroup := by decide
  have hencloses : Term.Encloses record record' :=
    .within [] [] (.here [.dice none .fudge []] [] (.dice (some 3) (.sides 6) [])
      (List.cons_ne_nil keep []) [double]) [keep]
  have hdepth' : Term.depths record' ≤ limits.deepestGroup := by decide
  obtain ⟨htext, hrecord⟩ := redundant_parentheses limits
  exact ⟨hne, hterms, hdepth, htext text terms hne hterms hdepth, hencloses, hdepth',
    hrecord record record' hencloses hdepth'⟩

end Tree

end DiceExpr
