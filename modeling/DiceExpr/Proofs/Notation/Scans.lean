import DiceExpr.Proofs.Grammar.Rules
import DiceExpr.Text.Normal
import DiceExpr.Tree.Text

namespace DiceExpr

namespace Grammar

/-- The marks of the grammar that no scan stops at. -/
def marks : List Char :=
  ['-', ',', 'F', '%', '[', ']', 'D', '*', '/', 'K', 'H', 'L', '!', '>', '<', '=']

/-- A digit or a mark. -/
def Inked (c : Char) : Prop := c.isDigit ∨ c ∈ marks

theorem Inked.ne {c : Char} (h : Inked c) : c ≠ '(' ∧ c ≠ ')' ∧ c ≠ '+' := by
  have hmarks : ∀ d ∈ marks, d ≠ '(' ∧ d ≠ ')' ∧ d ≠ '+' := by simp [marks]
  obtain h | h := h
  · refine ⟨?_, ?_, ?_⟩ <;> intro heq <;> subst heq <;> revert h <;> decide
  · exact hmarks c h

theorem Number.isDigit {w : Text} {n : Value} (h : Number w n) : ∀ c ∈ w, c.isDigit := by
  cases h with
  | zero => simp
  | digits hc _ hds =>
    intro d hd
    rcases List.mem_cons.mp hd with rfl | hd
    · exact hc
    · exact hds d hd

theorem Number.inked {w : Text} {n : Value} (h : Number w n) : ∀ c ∈ w, Inked c :=
  fun c hc => .inl (h.isDigit c hc)

private theorem inked_cons {c : Char} {w : Text} (hc : c ∈ marks) (hw : ∀ d ∈ w, Inked d) :
    ∀ d ∈ c :: w, Inked d := by
  intro d hd
  rcases List.mem_cons.mp hd with rfl | hd
  · exact .inr hc
  · exact hw d hd

private theorem inked_append {v w : Text} (hv : ∀ d ∈ v, Inked d) (hw : ∀ d ∈ w, Inked d) :
    ∀ d ∈ v ++ w, Inked d := by
  intro d hd
  rcases List.mem_append.mp hd with hd | hd
  · exact hv d hd
  · exact hw d hd

theorem Signed.inked {w : Text} {n : Value} (h : Signed w n) : ∀ c ∈ w, Inked c := by
  cases h with
  | plain h => exact h.inked
  | negative h => exact inked_cons (by decide) h.inked

theorem Faces.inked {w : Text} {ns : List Value} (h : Faces w ns) : ∀ c ∈ w, Inked c := by
  induction h with
  | last h => exact h.inked
  | more h _ ih => exact inked_append h.inked (inked_cons (by decide) ih)

theorem DieType.inked {w : Text} {type : DieToken} (h : DieType w type) : ∀ c ∈ w, Inked c := by
  have hend : ∀ c ∈ [']'], Inked c := inked_cons (by decide) nofun
  cases h with
  | sides h => exact h.inked
  | fudge => exact inked_cons (by decide) nofun
  | percentile => exact inked_cons (by decide) nofun
  | custom h => exact inked_append (inked_cons (by decide) h.inked) hend

/-- Only the addition of a number begins with another character. -/
theorem Modifies.inked {w : Text} {m : ModifierToken} (h : Modifies w m) :
    (m.symbol = ['+'] ∧ ∃ v, w = '+' :: v ∧ ∀ c ∈ v, Inked c) ∨
      m.symbol ≠ ['+'] ∧ ∀ c ∈ w, Inked c := by
  cases h with
  | @calculate op w n hop h =>
    by_cases hplus : op = '+'
    · rw [hplus]
      exact .inl ⟨rfl, w, rfl, h.inked⟩
    · have hmark : op ∈ marks := by
        have hops : ∀ c ∈ ['+', '-', '*', '/'], c ≠ '+' → c ∈ marks := by simp [marks]
        exact hops op hop hplus
      exact .inr ⟨by simpa using hplus, inked_cons hmark h.inked⟩
  | @select choice extreme w n hchoice hextreme h =>
    have hchoices : ∀ c ∈ ['K', 'D'], c ∈ marks := by simp [marks]
    have hextremes : ∀ c ∈ ['H', 'L'], c ∈ marks := by simp [marks]
    refine .inr ⟨by simp, ?_⟩
    exact inked_cons (hchoices _ hchoice) (inked_cons (hextremes _ hextreme) h.inked)
  | explode c h =>
    have hsymbol : c.symbol ≠ ['+'] ∧ ∀ d ∈ c.symbol, d ∈ marks := by
      cases c <;> simp [Comparator.symbol, marks]
    refine .inr ⟨hsymbol.1, ?_⟩
    exact inked_append (inked_cons (by decide) fun d hd => .inr (hsymbol.2 d hd)) h.inked
  | explodeEqual h => exact .inr ⟨by simp, inked_cons (by decide) h.inked⟩

theorem Derives.ne_nil {p : Phrase} {w : Text} (h : Derives p w) :
    ∀ terms, p = .sum terms → terms ≠ [] := by
  cases h with
  | single _ => exact fun _ heq => by cases heq; exact List.cons_ne_nil _ _
  | join _ _ => exact fun _ heq => by cases heq; exact List.concat_ne_nil _ _
  | modify _ _ => exact fun _ heq => by cases heq; exact List.concat_ne_nil _ _
  | die _ => exact nofun
  | dice _ _ => exact nofun
  | group _ => exact nofun

theorem Derives.text_ne_nil {p : Phrase} {w : Text} (h : Derives p w) : w ≠ [] := by
  induction h with
  | die _ => exact List.cons_ne_nil _ _
  | dice _ _ => exact List.append_ne_nil_of_right_ne_nil _ (List.cons_ne_nil _ _)
  | group _ _ => exact List.cons_ne_nil _ _
  | single _ ih => exact ih
  | join _ _ _ _ => exact List.append_ne_nil_of_right_ne_nil _ (List.cons_ne_nil _ _)
  | modify _ _ ihs => exact List.append_ne_nil_of_left_ne_nil ihs _

theorem Derives.modifiers_eq_nil {t : Term} {w : Text} (h : Derives (.operand t) w) :
    t.modifiers = [] := by
  cases h <;> rfl

private theorem die_inked {w : Text} {type : DieToken} (h : DieType w type) :
    ∀ c ∈ 'D' :: w, Inked c := inked_cons (by decide) h.inked

private theorem dice_inked {q w : Text} {n : Value} {type : DieToken} (hq : Number q n)
    (h : DieType w type) : ∀ c ∈ q ++ 'D' :: w, Inked c := inked_append hq.inked (die_inked h)

/-- What is scanned for in the text of a phrase: is there a `+` outside of its groups, and how deep
are these nested. -/
def Phrase.hasSum : Phrase → Bool
  | operand _ => false
  | sum terms => decide (2 ≤ terms.length) || terms.any fun t => t.modifiers.any (·.symbol = ['+'])

def Phrase.depth : Phrase → Nat
  | operand t => t.depth
  | sum terms => Term.depths terms

end Grammar

namespace Term

theorem modifiers_attach (t : Term) (m : ModifierToken) :
    (t.attach m).modifiers = t.modifiers ++ [m] := by
  cases t <;> rfl

theorem depth_attach (t : Term) (m : ModifierToken) : (t.attach m).depth = t.depth := by
  cases t with
  | dice _ _ _ => rfl
  | group _ _ => simp only [attach, depth]

theorem depths_append (ts us : List Term) : depths (ts ++ us) = max (depths ts) (depths us) := by
  induction ts with
  | nil => simp [depths]
  | cons t ts ih => rw [List.cons_append, depths, depths, ih, Nat.max_assoc]

end Term

namespace Text

open Grammar

theorem hasSumAt_inked {w : Text} (h : ∀ c ∈ w, Inked c) (k : Nat) (rest : Text) :
    hasSumAt k (w ++ rest) = hasSumAt k rest := by
  induction w with
  | nil => rfl
  | cons c w ih =>
    obtain ⟨hopen, hclose, hplus⟩ := (h c List.mem_cons_self).ne
    rw [List.cons_append, hasSumAt, if_neg hopen, if_neg hclose, if_neg fun hc => hplus hc.1]
    exact ih fun d hd => h d (List.mem_cons_of_mem c hd)

theorem deepest_append_of_no_paren {w : Text} (h : ∀ c ∈ w, c ≠ '(' ∧ c ≠ ')') (k : Nat)
    (rest : Text) : deepest k (w ++ rest) = deepest k rest := by
  induction w with
  | nil => rfl
  | cons c w ih =>
    obtain ⟨hopen, hclose⟩ := h c List.mem_cons_self
    rw [List.cons_append, deepest, if_neg hopen, if_neg hclose]
    exact ih fun d hd => h d (List.mem_cons_of_mem c hd)

theorem deepest_inked {w : Text} (h : ∀ c ∈ w, Inked c) (k : Nat) (rest : Text) :
    deepest k (w ++ rest) = deepest k rest := by
  refine deepest_append_of_no_paren (fun c hc => ?_) k rest
  obtain ⟨hopen, hclose, -⟩ := (h c hc).ne
  exact ⟨hopen, hclose⟩

theorem hasSumAt_modifies {w : Text} {m : ModifierToken} (h : Modifies w m) (k : Nat)
    (rest : Text) :
    hasSumAt k (w ++ rest) = (decide (k = 0 ∧ m.symbol = ['+']) || hasSumAt k rest) := by
  obtain ⟨hsymbol, v, rfl, hv⟩ | ⟨hsymbol, hw⟩ := h.inked
  · have hrest := hasSumAt_inked hv k rest
    by_cases hk : k = 0
    · simp [hasSumAt, hk, hsymbol]
    · simp [hasSumAt, hk, hrest]
  · rw [hasSumAt_inked hw]
    simp [hsymbol]

theorem deepest_modifies {w : Text} {m : ModifierToken} (h : Modifies w m) (k : Nat) (rest : Text) :
    deepest k (w ++ rest) = deepest k rest := by
  obtain ⟨-, v, rfl, hv⟩ | ⟨-, hw⟩ := h.inked
  · simp only [List.cons_append, deepest, if_neg (by decide : '+' ≠ '('),
      if_neg (by decide : '+' ≠ ')')]
    exact deepest_inked hv k rest
  · exact deepest_inked hw k rest

/-- A scan passes over a derived text and its groups without going out of step. -/
theorem hasSumAt_derives {p : Phrase} {w : Text} (h : Derives p w) (k : Nat) (rest : Text) :
    hasSumAt k (w ++ rest) = (decide (k = 0) && p.hasSum || hasSumAt k rest) := by
  induction h generalizing k rest with
  | die h =>
    rw [hasSumAt_inked (die_inked h)]
    simp [Phrase.hasSum]
  | dice hq h =>
    rw [hasSumAt_inked (dice_inked hq h)]
    simp [Phrase.hasSum]
  | @group w _ _ ih =>
    have hinner := ih (k + 1) (')' :: rest)
    simp only [List.cons_append, List.append_assoc, List.nil_append, hasSumAt, if_true, hinner]
    simp [Phrase.hasSum]
  | single h ih =>
    rw [ih]
    simp [Phrase.hasSum, h.modifiers_eq_nil]
  | @join v w terms t hs h ihs ih =>
    have hlen := List.length_pos_iff.mpr (hs.ne_nil terms rfl)
    have hsum : (Phrase.sum (terms ++ [t])).hasSum = true := by
      simp only [Phrase.hasSum, List.length_append, List.length_singleton, Bool.or_eq_true,
        decide_eq_true_eq]
      left
      omega
    rw [List.append_assoc, ihs, hsum]
    by_cases hk : k = 0
    · simp [hk, hasSumAt]
    · simp [hk, hasSumAt, ih, Phrase.hasSum]
  | @modify v w terms t m hs h ihs =>
    rw [List.append_assoc, ihs, hasSumAt_modifies h]
    by_cases hk : k = 0
    · simp [hk, Phrase.hasSum, Term.modifiers_attach, Bool.or_assoc]
    · simp [hk]

theorem deepest_derives {p : Phrase} {w : Text} (h : Derives p w) (k : Nat) (rest : Text) :
    deepest k (w ++ rest) = max (k + p.depth) (deepest k rest) := by
  have hle := le_deepest k rest
  induction h generalizing k rest with
  | die h =>
    rw [deepest_inked (die_inked h)]
    simp only [Phrase.depth, Term.depth]
    omega
  | dice hq h =>
    rw [deepest_inked (dice_inked hq h)]
    simp only [Phrase.depth, Term.depth]
    omega
  | @group w inner _ ih =>
    have hopen : deepest k ('(' :: (w ++ ')' :: rest)) = deepest (k + 1) (w ++ ')' :: rest) := rfl
    have hclose : deepest (k + 1) (')' :: rest) = max (k + 1) (deepest k rest) := rfl
    have hinner := ih (k + 1) (')' :: rest) (le_deepest _ _)
    rw [List.append_assoc, List.cons_append, List.cons_append, List.nil_append, hopen, hinner,
      hclose]
    simp only [Phrase.depth, Term.depth]
    omega
  | single h ih =>
    rw [ih k rest hle]
    simp only [Phrase.depth, Term.depths]
    omega
  | @join v w terms t hs h ihs ih =>
    have hplus : deepest k ('+' :: (w ++ rest)) = deepest k (w ++ rest) := rfl
    rw [List.append_assoc, ihs k _ (le_deepest _ _), List.cons_append, hplus, ih k rest hle]
    simp only [Phrase.depth, Term.depths_append, Term.depths]
    omega
  | @modify v w terms t m hs h ihs =>
    rw [List.append_assoc, ihs k _ (le_deepest _ _), deepest_modifies h]
    simp only [Phrase.depth, Term.depths_append, Term.depths, Term.depth_attach]

theorem hasSum_of_derives {terms : List Term} {w : Text} (h : Derives (.sum terms) w) :
    w.hasSum = (Phrase.sum terms).hasSum := by
  have hscan := hasSumAt_derives h 0 []
  rw [List.append_nil] at hscan
  rw [hasSum, hscan]
  simp [hasSumAt]

theorem parenDepth_of_derives {terms : List Term} {w : Text} (h : Derives (.sum terms) w) :
    w.parenDepth = Term.depths terms := by
  have hscan := deepest_derives h 0 []
  rw [List.append_nil] at hscan
  rw [parenDepth, hscan]
  simp [Phrase.depth, deepest]

private theorem mem_digits {c : Char} (h : c.isDigit) : c ∈ "0123456789".toList := by
  rw [Char.isDigit_iff_toNat] at h
  obtain ⟨hlow, hhigh⟩ := h
  have hall : ∀ n < 10, Char.ofNat (48 + n) ∈ "0123456789".toList := by decide
  have hlow : 48 ≤ c.toNat := hlow
  have hhigh : c.toNat ≤ 57 := hhigh
  have hmem := hall (c.toNat - 48) (by omega)
  rw [Nat.add_sub_cancel' hlow, Char.ofNat_toNat] at hmem
  exact hmem

/-- The characters of the grammar are in normal form. -/
theorem normal_char {c : Char} (h : Inked c ∨ c ∈ ['(', ')', '+']) : normal [c] = [c] := by
  have hall : ("0123456789".toList ++ marks ++ ['(', ')', '+']).all fun d => normal [d] = [d] := by
    decide
  refine of_decide_eq_true (List.all_eq_true.mp hall c ?_)
  simp only [List.mem_append]
  obtain (h | h) | h := h
  · exact .inl (.inl (mem_digits h))
  · exact .inl (.inr h)
  · exact .inr h

theorem normal_inked {w : Text} (h : ∀ c ∈ w, Inked c) : w.normal = w := by
  induction w with
  | nil => rfl
  | cons c w ih =>
    have hc : normal [c] = [c] := normal_char (.inl (h c List.mem_cons_self))
    have hw := ih fun d hd => h d (List.mem_cons_of_mem c hd)
    have happend := normal_append [c] w
    rw [hc, hw] at happend
    exact happend

theorem normal_cons {c : Char} (hc : c ∈ ['(', ')', '+']) {w : Text} (hw : w.normal = w) :
    normal (c :: w) = c :: w := by
  have happend := normal_append [c] w
  rw [normal_char (.inr hc), hw] at happend
  exact happend

theorem normal_of_derives {p : Phrase} {w : Text} (h : Derives p w) : w.normal = w := by
  induction h with
  | die h => exact normal_inked (die_inked h)
  | dice hq h => exact normal_inked (dice_inked hq h)
  | group _ ih =>
    have hclose : normal [')'] = [')'] := normal_char (.inr (by decide))
    rw [normal_append, normal_cons (by decide) ih, hclose]
  | single _ ih => exact ih
  | join _ _ ihs ih => rw [normal_append, ihs, normal_cons (by decide) ih]
  | modify _ h ihs =>
    rw [normal_append, ihs]
    obtain ⟨-, v, rfl, hv⟩ | ⟨-, hw⟩ := h.inked
    · rw [normal_cons (by decide) (normal_inked hv)]
    · rw [normal_inked hw]

end Text

end DiceExpr
