import DiceExpr.Proofs.Building.Vocabulary
import DiceExpr.Proofs.Notation.RoundTrip

namespace DiceExpr

open Grammar

/-- Of the modifiers with known symbols, only an addition is written with a `+`. -/
theorem ModifierToken.Plain.kind_of_plus {m : ModifierToken} (h : m.Plain)
    (hplus : m.symbol = Operator.add.symbol) : m.kind = .calculate := by
  obtain ⟨kind, symbol, value⟩ := m
  cases kind with
  | calculate => rfl
  | select =>
    obtain ⟨-, selection, hsymbol⟩ := h
    have hlength : selection.symbol.length = 2 := by
      obtain ⟨choice, extreme, count⟩ := selection
      cases choice <;> cases extreme <;> rfl
    rw [hsymbol.trans hplus] at hlength
    cases hlength
  | explode =>
    obtain ⟨comparator, hsymbol⟩ := h
    have hne : comparator.symbol ≠ Operator.add.symbol := by
      cases comparator <;> decide
    exact absurd (hsymbol.trans hplus) hne

namespace Term

/-- A `+` stands outside of all groups: between two terms, or before a number. -/
def HasPlus (terms : List Term) : Prop :=
  2 ≤ terms.length ∨ ∃ t ∈ terms, ∃ n, ⟨.calculate, Operator.add.symbol, n⟩ ∈ t.modifiers

/-- The scan of a text finds a `+` just if there is one in the terms that are read from it. -/
theorem hasSum_iff_hasPlus {terms : List Term} {w : Text} (h : Derives (.sum terms) w) :
    w.hasSum = true ↔ HasPlus terms := by
  have hplain : ∀ t ∈ terms, t.Plain := plain_of_derives h
  rw [Text.hasSum_of_derives h]
  simp only [Phrase.hasSum, Bool.or_eq_true, decide_eq_true_eq, List.any_eq_true]
  refine or_congr_right (exists_congr fun t => and_congr_right fun ht => ?_)
  constructor
  · intro hwritten
    obtain ⟨m, hm, hplus⟩ := hwritten
    have hknown : m.Plain := (hplain t ht).tokens m (mem_tokens_of_mem_modifiers hm)
    have hkind := hknown.kind_of_plus hplus
    obtain ⟨kind, symbol, n⟩ := m
    obtain rfl : kind = .calculate := hkind
    obtain rfl : symbol = Operator.add.symbol := hplus
    exact ⟨n, hm⟩
  · intro hadded
    obtain ⟨n, hm⟩ := hadded
    exact ⟨_, hm, rfl⟩

/-- No term is the only one in a group and that group itself. -/
theorem ne_group_singleton (t : Term) (modifiers : List ModifierToken) :
    t ≠ .group [t] modifiers := by
  intro h
  have hdepth := congrArg depth h
  simp only [depth, depths] at hdepth
  omega

end Term

namespace Tree

/-- A modifier that is written after a tree applies to all of it. One term is read, with the
modifier behind all others. Without it, the term is a group of what is read of the inner tree alone
if a `+` stands in that, and else it is the same as that. -/
theorem modifier_applies_to_whole {inner : Tree} {m : Modifier}
    (h : ∀ n ∈ (modified inner m).nodes, n.Written) :
    ∃ terms t, Term.ofText? inner.text = .ok terms ∧
      Term.ofText? (modified inner m).text = .ok [t.attach m.token] ∧
      (t = .group terms [] ↔ Term.HasPlus terms) ∧ (terms = [t] ↔ ¬Term.HasPlus terms) := by
  have hinner := (forall_nodes_modified.mp h).2
  have hderives := derives_terms hinner
  have hread : Term.ofText? inner.text = .ok inner.terms := (terms_of_text hinner).mpr rfl
  have hmodified : Term.ofText? (modified inner m).text =
      .ok (Term.modifySum inner.text.hasSum m.token inner.terms) := by
    rw [terms_of_text h, terms]
  have hplus := Term.hasSum_iff_hasPlus hderives
  obtain ⟨hsum, hgroup⟩ | ⟨hsum, t, hsingle, hattach⟩ := Term.modifySum_cases hderives m.token
  · -- the parentheses make a group of all terms
    rw [hgroup] at hmodified
    have hhas := hplus.mp hsum
    have hother : inner.terms ≠ [.group inner.terms []] := fun heq =>
      Term.ne_group_singleton _ [] (congrArg (Term.group · []) heq)
    exact ⟨inner.terms, .group inner.terms [], hread, hmodified, iff_of_true rfl hhas,
      iff_of_false hother (not_not.mpr hhas)⟩
  · -- there is one term, which takes one more modifier
    rw [hattach] at hmodified
    have hnone : ¬Term.HasPlus inner.terms := by
      rw [← hplus, hsum]
      exact Bool.false_ne_true
    have hother : t ≠ .group inner.terms [] := by
      rw [hsingle]
      exact Term.ne_group_singleton t []
    exact ⟨inner.terms, t, hread, hmodified, iff_of_false hother hnone, iff_of_true hsingle hnone⟩

/-- The `+` between the dice lies in a group, but the one before the number does not. -/
theorem modifier_applies_to_whole_of_added_number :
    let d6 := die (.sided 6)
    let kept := modified (pool [pool [d6, d6], die .fudge]) (.select ⟨.keep, .high, 1⟩)
    let inner := modified kept (.calculate .add 3)
    let m := Modifier.explode ⟨.gte, -2⟩ 100
    (modified inner m).text = "((2D6+DF)KH1+3)!>=-2".toList ∧
      (∀ n ∈ (modified inner m).nodes, n.Written) ∧
      ∃ terms t, Term.ofText? inner.text = .ok terms ∧
        Term.ofText? (modified inner m).text = .ok [t.attach m.token] ∧
        (t = .group terms [] ↔ Term.HasPlus terms) ∧ (terms = [t] ↔ ¬Term.HasPlus terms) := by
  intro d6 kept inner m
  have htext : (modified inner m).text = "((2D6+DF)KH1+3)!>=-2".toList := by decide +kernel
  have hwritten : ∀ n ∈ (modified inner m).nodes, n.Written := by decide
  exact ⟨htext, hwritten, modifier_applies_to_whole hwritten⟩

end Tree

end DiceExpr
