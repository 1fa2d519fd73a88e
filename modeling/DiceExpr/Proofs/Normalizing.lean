import DiceExpr.Tree.Build
import Mathlib.Data.List.Basic

namespace DiceExpr.Text

private theorem toUpper_ne_paren {c : Char} (hascii : c.toNat < 128) (hc : c ≠ '(' ∧ c ≠ ')') :
    c.toUpper ≠ '(' ∧ c.toUpper ≠ ')' := by
  have hall : ∀ n < 128, Char.ofNat n ≠ '(' ∧ Char.ofNat n ≠ ')' →
      (Char.ofNat n).toUpper ≠ '(' ∧ (Char.ofNat n).toUpper ≠ ')' := by decide +kernel
  have h := hall c.toNat hascii
  rw [Char.ofNat_toNat] at h
  exact h hc

private theorem ofNat_ne_paren {n : Nat} (hn : 0x29 < n) :
    Char.ofNat n ≠ '(' ∧ Char.ofNat n ≠ ')' := by
  have hval : (Char.ofNat n).toNat = n ∨ (Char.ofNat n).toNat = 0 := by
    by_cases hvalid : n.isValidChar
    · rw [Char.ofNat, dif_pos hvalid]
      exact .inl rfl
    · rw [Char.ofNat, dif_neg hvalid]
      exact .inr rfl
  constructor
  · intro h
    rw [h] at hval
    change 0x28 = n ∨ 0x28 = 0 at hval
    omega
  · intro h
    rw [h] at hval
    change 0x29 = n ∨ 0x29 = 0 at hval
    omega

/-- No character is mapped to a parenthesis but the parenthesis itself. -/
theorem upper_ne_paren {c : Char} (hc : c ≠ '(' ∧ c ≠ ')') :
    ∀ d ∈ upper c, d ≠ '(' ∧ d ≠ ')' := by
  unfold upper
  split
  · next hascii =>
    simp only [List.mem_singleton, forall_eq]
    exact toUpper_ne_paren hascii hc
  · split
    · next run hrun =>
      have hruns : caseRuns.all fun run =>
          0x29 < run.image && run.tail.all fun d => d != '(' && d != ')' := by decide +kernel
      have hchecked := List.all_eq_true.mp hruns run (List.mem_of_find?_eq_some hrun)
      simp only [Bool.and_eq_true, decide_eq_true_eq, List.all_eq_true, bne_iff_ne] at hchecked
      obtain ⟨himage, htail⟩ := hchecked
      exact List.forall_mem_cons.mpr ⟨ofNat_ne_paren (by omega), htail⟩
    · simpa using hc

/-- The parentheses of a text. -/
def parens (text : Text) : Text := text.filter fun c => c = '(' || c = ')'

theorem parens_append (v w : Text) : parens (v ++ w) = parens v ++ parens w := List.filter_append ..

/-- Nothing but the parentheses counts for how deep they are nested. -/
theorem deepest_parens (k : Nat) (text : Text) : deepest k text.parens = deepest k text := by
  induction text generalizing k with
  | nil => rfl
  | cons c rest ih =>
    have happend : parens (c :: rest) = parens [c] ++ parens rest := parens_append [c] rest
    by_cases hopen : c = '('
    · have hopened : parens ['('] = ['('] := by decide
      rw [happend, hopen, hopened, List.singleton_append, deepest, if_pos rfl, ih, deepest,
        if_pos rfl]
    · by_cases hclose : c = ')'
      · have hclosed : parens [')'] = [')'] := by decide
        have hscan (w : Text) : deepest k (')' :: w) = max k (deepest (k - 1) w) := rfl
        rw [happend, hclose, hclosed, List.singleton_append, hscan, ih, hscan]
      · have hnone : parens [c] = [] := by simp [parens, hopen, hclose]
        rw [happend, hnone, List.nil_append, ih, deepest, if_neg hopen, if_neg hclose]

theorem parens_normal_singleton (c : Char) : parens (normal [c]) = parens [c] := by
  by_cases hopen : c = '('
  · rw [hopen]
    decide
  · by_cases hclose : c = ')'
    · rw [hclose]
      decide
    · have hplain : ∀ d ∈ normal [c], d ≠ '(' ∧ d ≠ ')' := by
        intro d hd
        obtain ⟨e, he, hd⟩ := List.mem_flatMap.mp hd
        rw [List.mem_singleton.mp (List.mem_filter.mp he).1] at hd
        exact upper_ne_paren ⟨hopen, hclose⟩ d hd
      have hnone : parens [c] = [] := by simp [parens, hopen, hclose]
      rw [hnone, parens, List.filter_eq_nil_iff]
      intro d hd
      simpa using hplain d hd

/-- The normal form has just the parentheses of the text, in their order. -/
theorem parens_normal (text : Text) : parens text.normal = parens text := by
  induction text with
  | nil => rfl
  | cons c rest ih =>
    have happend : normal (c :: rest) = normal [c] ++ normal rest := normal_append [c] rest
    rw [happend, parens_append, parens_normal_singleton, ih, ← parens_append]
    rfl

theorem parenDepth_normal (text : Text) : text.normal.parenDepth = text.parenDepth := by
  rw [parenDepth, ← deepest_parens, parens_normal, deepest_parens, parenDepth]

end DiceExpr.Text

namespace DiceExpr.Tree

/-- The depth may as well be checked in the normal form. -/
theorem ofText?_eq_bind (limits : Limits) (text : Text) : ofText? limits text =
    (limits.checkDepth text.normal.parenDepth >>= fun _ =>
      Term.read text.normal >>= ofTerms? limits) := by
  rw [Text.parenDepth_normal]
  rfl

/-- All that a text is built into depends on its normal form, although the depth is checked in the
text as it is: parentheses are neither added nor removed nor moved in the normal form, so they are
nested as deep as before. -/
theorem ofText?_determined_by_normal :
    (∀ text : Text, text.normal.parens = text.parens ∧
      text.normal.parenDepth = text.parenDepth) ∧
    ∀ (limits : Limits) (text text' : Text), text.normal = text'.normal →
      ofText? limits text = ofText? limits text' := by
  refine ⟨fun text => ⟨text.parens_normal, text.parenDepth_normal⟩, ?_⟩
  intro limits text text' h
  rw [ofText?_eq_bind, ofText?_eq_bind, h]

/-- A ligature is two characters in upper case, and there are more white spaces than the blank. Both
texts are blamed for the same rest, or else for the same depth. -/
theorem ofText?_determined_by_normal_of_ligature :
    let text : Text := "((d6)) \uFB01".toList
    let text' : Text := "( \u00A0(D6\u2003)) fI".toList
    let narrow : Limits := { deepestGroup := 1 }
    text ≠ text' ∧ text.normal = text'.normal ∧ ofText? {} text = ofText? {} text' ∧
      ofText? {} text = .error (.unreadable "FI".toList) ∧
      ofText? narrow text = ofText? narrow text' ∧
      ofText? narrow text = .error (.overLimit 2 1) := by
  intro text text' narrow
  have hnormal : text.normal = text'.normal := by decide +kernel
  have hrest : ofText? {} text = .error (.unreadable "FI".toList) := by decide +kernel
  have hdepth : ofText? narrow text = .error (.overLimit 2 1) := by decide +kernel
  obtain ⟨-, hsame⟩ := ofText?_determined_by_normal
  exact ⟨by decide, hnormal, hsame {} text text' hnormal, hrest,
    hsame narrow text text' hnormal, hdepth⟩

end DiceExpr.Tree
