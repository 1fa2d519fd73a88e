import DiceExpr.Proofs.Grammar.Soundness

namespace DiceExpr

namespace Grammar

theorem Number.exists_cons {w : Text} {n : Value} (h : Number w n) :
    ∃ c ds, w = c :: ds ∧ c.isDigit := by
  cases h with
  | zero => exact ⟨'0', [], rfl, rfl⟩
  | digits hc _ _ => exact ⟨_, _, rfl, hc⟩

theorem Signed.exists_cons {w : Text} {n : Value} (h : Signed w n) :
    ∃ c ds, w = c :: ds ∧ (c.isDigit ∨ c = '-') := by
  cases h with
  | plain h =>
    obtain ⟨c, ds, rfl, hc⟩ := h.exists_cons
    exact ⟨c, ds, rfl, .inl hc⟩
  | negative _ => exact ⟨'-', _, rfl, .inr rfl⟩

/-- A number ends where no digit follows. -/
def EndsNumber (rest : Text) : Prop := ∀ c, rest.head? = some c → ¬c.isDigit

/-- What may follow a term or a modifier. -/
inductive Resumes : Text → Prop
  | done : Resumes []
  | mark {c : Char} {rest : Text} (h : c ∈ [')', '+', '-', '*', '/', 'K', '!']) :
    Resumes (c :: rest)
  | drop {extreme : Char} {rest : Text} (h : extreme ∈ ['H', 'L']) :
    Resumes ('D' :: extreme :: rest)

theorem Resumes.endsNumber {rest : Text} (h : Resumes rest) : EndsNumber rest := by
  have hmarks : ∀ c ∈ [')', '+', '-', '*', '/', 'K', '!'], ¬c.isDigit := by simp
  intro d hd
  cases h with
  | done => cases hd
  | mark hc =>
    obtain rfl := Option.some.inj hd
    exact hmarks _ hc
  | drop _ =>
    obtain rfl := Option.some.inj hd
    decide

theorem endsNumber_cons {c : Char} {rest : Text} (h : ¬c.isDigit) : EndsNumber (c :: rest) := by
  intro d hd
  obtain rfl := Option.some.inj hd
  exact h

end Grammar

namespace Reader

open Grammar

variable {w rest : Text}

theorem number_complete {n : Value} (h : Number w n) (hrest : EndsNumber rest) :
    number.Reads (w ++ rest) n rest := by
  have hdigits : ∃ ds, digits.Reads (w ++ rest) ds rest ∧
      n = .clamp (Nat.ofDigitChars 10 ds 0) := by
    cases h with
    | zero => exact ⟨['0'], rfl, rfl⟩
    | @digits c ds hc hzero hds =>
      refine ⟨c :: ds, ?_, rfl⟩
      have hstop : rest.takeWhile Char.isDigit = [] ∧ rest.dropWhile Char.isDigit = rest := by
        cases rest with
        | nil => exact ⟨rfl, rfl⟩
        | cons d rest =>
          have hd := hrest d rfl
          rw [List.takeWhile_cons_of_neg hd, List.dropWhile_cons_of_neg hd]
          exact ⟨rfl, rfl⟩
      unfold Reads
      simp only [List.cons_append, digits, hzero, hc, if_true, if_false,
        List.takeWhile_append_of_pos hds, List.dropWhile_append_of_pos hds, hstop.1, hstop.2,
        List.append_nil]
  obtain ⟨ds, hds, rfl⟩ := hdigits
  unfold number
  simp only [reads_bind, reads_pure]
  exact ⟨ds, rest, hds, rfl, rfl⟩

theorem number_misses {text : Text} (h : EndsNumber text) : number.Misses text := by
  unfold number
  rw [misses_bind]
  left
  cases text with
  | nil => rfl
  | cons c text =>
    have hc := h c rfl
    have hzero : c ≠ '0' := by
      intro heq
      rw [heq] at hc
      exact hc rfl
    unfold Misses
    simp only [digits, hzero, hc, if_false, miss]
    rfl

theorem signed_complete {n : Value} (h : Signed w n) (hrest : EndsNumber rest) :
    signed.Reads (w ++ rest) n rest := by
  unfold signed
  simp only [reads_bind, reads_optional, reads_char, reads_pure]
  cases h with
  | plain h =>
    have hsign : (char '-').Misses (w ++ rest) := by
      obtain ⟨c, ds, rfl, hc⟩ := h.exists_cons
      rw [misses_char]
      intro heq
      obtain rfl := Option.some.inj heq
      revert hc
      decide
    exact ⟨none, w ++ rest, .inr ⟨hsign, rfl, rfl⟩, n, rest, number_complete h hrest, rfl, rfl⟩
  | @negative w n h =>
    exact ⟨some (), w ++ rest, .inl ⟨(), rfl, rfl⟩, n, rest, number_complete h hrest, rfl, rfl⟩

private theorem next_face_complete {n : Value} (h : Signed w n) (hrest : EndsNumber rest) :
    (do char ','; signed : Reader Value).Reads (',' :: w ++ rest) n rest := by
  simp only [reads_bind, reads_char]
  exact ⟨(), w ++ rest, rfl, signed_complete h hrest⟩

/-- The faces after the first one, up to the bracket. -/
private theorem next_faces_complete {ns : List Value} (h : Faces w ns) (rest : Text) :
    ∃ n others u v, ns = n :: others ∧ w = u ++ v ∧ Signed u n ∧ EndsNumber (v ++ ']' :: rest) ∧
      (do char ','; signed : Reader Value).Repeats (v ++ ']' :: rest) others (']' :: rest) := by
  induction h with
  | @last w n h =>
    refine ⟨n, [], w, [], rfl, (List.append_nil w).symm, h, endsNumber_cons (by decide), .stop ?_⟩
    rw [misses_bind, misses_char]
    exact .inl (by simp)
  | @more w ws n ns h _ ih =>
    obtain ⟨n', others, u, v, rfl, rfl, hu, hends, hrepeats⟩ := ih
    refine ⟨n, n' :: others, w, ',' :: (u ++ v), rfl, rfl, h, endsNumber_cons (by decide), ?_⟩
    have hread := next_face_complete hu hends
    rw [List.cons_append, ← List.append_assoc] at hread
    exact .more hread hrepeats

theorem faces_complete {ns : List Value} (h : Faces w ns) :
    faces.Reads ('[' :: w ++ [']'] ++ rest) ns rest := by
  obtain ⟨n, others, u, v, rfl, rfl, hu, hends, hrepeats⟩ := next_faces_complete h rest
  unfold faces
  simp only [reads_bind, reads_char, reads_pure, reads_many next_face_consumes]
  refine ⟨(), u ++ (v ++ ']' :: rest), ?_, n, _, signed_complete hu hends, others, _, hrepeats, (),
    rest, rfl, rfl, rfl⟩
  simp only [List.cons_append, List.append_assoc, List.nil_append]

theorem dieToken_complete {type : DieToken} (h : DieType w type) (hrest : EndsNumber rest) :
    dieToken.Reads (w ++ rest) type rest := by
  have hnumber {c : Char} {t : Text} (hc : ¬c.isDigit) : number.Misses (c :: t) :=
    number_misses (endsNumber_cons hc)
  unfold dieToken
  simp only [reads_orElse, reads_map, misses_map, reads_char, misses_char]
  cases h with
  | @sides w n h => exact .inl ⟨n, number_complete h hrest, rfl⟩
  | fudge => exact .inr ⟨hnumber (by decide), .inl ⟨(), rfl, rfl⟩⟩
  | percentile =>
    exact .inr ⟨hnumber (by decide), .inr ⟨by simp, .inl ⟨(), rfl, rfl⟩⟩⟩
  | @custom w ns h =>
    exact .inr ⟨hnumber (by decide), .inr ⟨by simp, .inr ⟨by simp, ns, faces_complete h, rfl⟩⟩⟩

/-- The letter of a selection that drops does not begin a type of dice. -/
theorem dieToken_misses {extreme : Char} (h : extreme ∈ ['H', 'L']) :
    dieToken.Misses (extreme :: rest) := by
  have hletters : ∀ c ∈ ['H', 'L'], ¬c.isDigit ∧ c ≠ 'F' ∧ c ≠ '%' ∧ c ≠ '[' := by simp
  obtain ⟨hdigit, hf, hp, hb⟩ := hletters extreme h
  unfold dieToken faces
  simp only [misses_orElse, misses_map, misses_bind, misses_char, List.head?_cons, ne_eq,
    Option.some.injEq]
  exact ⟨number_misses (endsNumber_cons hdigit), hf, hp, .inl hb⟩

theorem die_complete {type : DieToken} (h : DieType w type) (hrest : EndsNumber rest) :
    dice.Reads ('D' :: w ++ rest) (.dice none type []) rest := by
  have hmiss : number.Misses ('D' :: w ++ rest) := number_misses (endsNumber_cons (by decide))
  unfold dice
  simp only [reads_bind, reads_optional, reads_char, reads_pure]
  exact ⟨none, _, .inr ⟨hmiss, rfl, rfl⟩, (), w ++ rest, rfl, type, rest,
    dieToken_complete h hrest, rfl, rfl⟩

theorem dice_complete {q : Text} {n : Value} {type : DieToken} (hq : Number q n)
    (h : DieType w type) (hrest : EndsNumber rest) :
    dice.Reads (q ++ 'D' :: w ++ rest) (.dice (some n) type []) rest := by
  have hends : EndsNumber ('D' :: (w ++ rest)) := endsNumber_cons (by decide)
  have hread := number_complete hq hends
  unfold dice
  simp only [reads_bind, reads_optional, reads_char, reads_pure]
  refine ⟨some n, 'D' :: (w ++ rest), .inl ⟨n, ?_, rfl⟩, (), w ++ rest, rfl, type, rest,
    dieToken_complete h hrest, rfl, rfl⟩
  rw [List.append_assoc]
  exact hread

/-- A number that is added does not begin a term. -/
theorem operand_misses {n : Value} (h : Number w n) (hrest : Resumes rest)
    (inside : Reader (List Term)) : (operand inside).Misses (w ++ rest) := by
  have hgroup : (w ++ rest).head? ≠ some '(' := by
    obtain ⟨c, ds, rfl, hc⟩ := h.exists_cons
    intro heq
    obtain rfl := Option.some.inj heq
    revert hc
    decide
  have htype : (do char 'D'; dieToken : Reader DieToken).Misses rest := by
    simp only [misses_bind, reads_char, misses_char]
    cases hrest with
    | done => exact .inl nofun
    | mark hc =>
      left
      intro heq
      obtain rfl := Option.some.inj heq
      revert hc
      decide
    | drop hextreme => exact .inr ⟨(), _, rfl, dieToken_misses hextreme⟩
  unfold operand group dice
  simp only [misses_orElse, misses_bind, misses_char, misses_pure, reads_optional, and_false,
    exists_false, or_false] at htype ⊢
  refine ⟨.inr ⟨some n, rest, .inl ⟨n, number_complete h hrest.endsNumber, rfl⟩, htype⟩, ?_⟩
  exact .inl hgroup

theorem calculation_complete {op : Char} (hop : op ∈ ['+', '-', '*', '/']) {n : Value}
    (h : Number w n) (hrest : EndsNumber rest) :
    calculation.Reads (op :: w ++ rest) ⟨.calculate, [op], n⟩ rest := by
  unfold calculation
  simp only [reads_bind, reads_oneOf, reads_pure]
  exact ⟨op, w ++ rest, ⟨hop, rfl⟩, n, rest, number_complete h hrest, rfl, rfl⟩

theorem calculation_misses {c : Char} (h : c ∉ ['+', '-', '*', '/']) :
    calculation.Misses (c :: rest) := by
  unfold calculation
  rw [misses_bind, misses_oneOf]
  left
  intro op hop heq
  obtain rfl := Option.some.inj heq
  exact h hop

theorem selection_misses {c : Char} (h : c ∉ ['K', 'D']) : selection.Misses (c :: rest) := by
  unfold selection
  rw [misses_bind, misses_oneOf]
  left
  intro choice hchoice heq
  obtain rfl := Option.some.inj heq
  exact h hchoice

theorem selection_complete {choice extreme : Char} (hchoice : choice ∈ ['K', 'D'])
    (hextreme : extreme ∈ ['H', 'L']) {n : Value} (h : Number w n) (hrest : EndsNumber rest) :
    selection.Reads (choice :: extreme :: w ++ rest) ⟨.select, [choice, extreme], n⟩ rest := by
  unfold selection
  simp only [reads_bind, reads_oneOf, reads_pure]
  exact ⟨choice, extreme :: w ++ rest, ⟨hchoice, rfl⟩, extreme, w ++ rest, ⟨hextreme, rfl⟩, n, rest,
    number_complete h hrest, rfl, rfl⟩

private theorem comparator_complete (c : Comparator) {text : Text}
    (h : text.head? ≠ some '=') : comparator.Reads (c.symbol ++ text) c text := by
  have hnext (t : Text) : text ≠ '=' :: t := by
    intro heq
    rw [heq] at h
    exact h rfl
  unfold comparator
  simp only [List.foldr_cons, List.foldr_nil, reads_orElse, reads_map, misses_map, reads_word,
    misses_word]
  cases c with
  | gte => exact .inl ⟨(), rfl, rfl⟩
  | lte => exact .inr ⟨by simp [Comparator.symbol], .inl ⟨(), rfl, rfl⟩⟩
  | gt =>
    exact .inr ⟨by simpa [Comparator.symbol] using hnext, .inr ⟨by simp [Comparator.symbol],
      .inl ⟨(), rfl, rfl⟩⟩⟩
  | lt =>
    exact .inr ⟨by simp [Comparator.symbol], .inr ⟨by simpa [Comparator.symbol] using hnext,
      .inr ⟨by simp [Comparator.symbol], .inl ⟨(), rfl, rfl⟩⟩⟩⟩
  | eq =>
    exact .inr ⟨by simp [Comparator.symbol], .inr ⟨by simp [Comparator.symbol],
      .inr ⟨by simp [Comparator.symbol], .inr ⟨by simp [Comparator.symbol],
        .inl ⟨(), rfl, rfl⟩⟩⟩⟩⟩

private theorem comparator_misses {n : Value} (h : Signed w n) (rest : Text) :
    comparator.Misses (w ++ rest) ∧ (w ++ rest).head? ≠ some '=' := by
  obtain ⟨c, ds, rfl, hc⟩ := h.exists_cons
  have hne : c ≠ '>' ∧ c ≠ '<' ∧ c ≠ '=' := by
    refine ⟨?_, ?_, ?_⟩ <;> intro heq <;> subst heq <;> revert hc <;> decide
  unfold comparator
  simp only [List.foldr_cons, List.foldr_nil, misses_orElse, misses_map, misses_word]
  simp [Comparator.symbol, hne, fail, Misses]

theorem explosion_complete {c? : Option Comparator} {v : Text} {n : Value}
    (hc : (∃ c, c? = some c ∧ v = c.symbol) ∨ c? = none ∧ v = []) (h : Signed w n)
    (hrest : EndsNumber rest) :
    explosion.Reads ('!' :: v ++ w ++ rest) ⟨.explode, (c?.getD .eq).symbol, n⟩ rest := by
  obtain ⟨hmiss, hnext⟩ := comparator_misses h rest
  have hread := signed_complete h hrest
  unfold explosion
  simp only [reads_bind, reads_char, reads_optional, reads_pure]
  obtain ⟨c, rfl, rfl⟩ | ⟨rfl, rfl⟩ := hc
  · refine ⟨(), c.symbol ++ (w ++ rest), ?_, some c, w ++ rest,
      .inl ⟨c, comparator_complete c hnext, rfl⟩, n, rest, hread, rfl, rfl⟩
    simp only [List.cons_append, List.append_assoc]
  · exact ⟨(), w ++ rest, rfl, none, w ++ rest, .inr ⟨hmiss, rfl, rfl⟩, n, rest, hread, rfl, rfl⟩

theorem modifierToken_complete {m : ModifierToken} (h : Modifies w m) (hrest : EndsNumber rest) :
    modifierToken.Reads (w ++ rest) m rest := by
  unfold modifierToken
  rw [reads_orElse, reads_orElse]
  cases h with
  | calculate hop h => exact .inl (calculation_complete hop h hrest)
  | @select choice extreme w n hchoice hextreme h =>
    refine .inr ⟨?_, .inl (selection_complete hchoice hextreme h hrest)⟩
    have hletters : ∀ c ∈ ['K', 'D'], c ∉ ['+', '-', '*', '/'] := by simp
    exact calculation_misses (hletters choice hchoice)
  | explode c h =>
    have hread := explosion_complete (.inl ⟨c, rfl, rfl⟩) h hrest
    exact .inr ⟨calculation_misses (by decide), .inr ⟨selection_misses (by decide), hread⟩⟩
  | explodeEqual h =>
    have hread := explosion_complete (.inr ⟨rfl, rfl⟩) h hrest
    exact .inr ⟨calculation_misses (by decide), .inr ⟨selection_misses (by decide), hread⟩⟩

end Reader

end DiceExpr
