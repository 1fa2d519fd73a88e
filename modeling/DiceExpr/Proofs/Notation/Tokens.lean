import DiceExpr.Modifier.Basic
import DiceExpr.Die
import DiceExpr.Proofs.Grammar.Rules

namespace DiceExpr

open Grammar

namespace Text

/-- The digits of a positive number do not begin with a zero. -/
theorem ofNat_cons {n : Nat} (hn : 0 < n) : ∃ c ds, ofNat n = c :: ds ∧ c ≠ '0' := by
  unfold ofNat
  induction n using Nat.strongRecOn with
  | ind n ih =>
    by_cases hlt : n < 10
    · have hdigit : ∀ m < 10, 0 < m → Nat.digitChar m ≠ '0' := by decide
      exact ⟨_, [], Nat.toDigits_of_lt_base hlt, hdigit n hlt hn⟩
    · obtain ⟨c, ds, hds, hc⟩ := ih (n / 10) (by omega) (by omega)
      refine ⟨c, ds ++ [Nat.digitChar (n % 10)], ?_, hc⟩
      rw [Nat.toDigits_of_base_le (by decide) (by omega), hds, List.cons_append]

theorem number_ofNat (n : Nat) : Number (ofNat n) (.clamp n) := by
  by_cases hn : n = 0
  · rw [hn]
    exact .zero
  · obtain ⟨c, ds, hds, hc⟩ := ofNat_cons (Nat.pos_of_ne_zero hn)
    have hdigit (d : Char) (hd : d ∈ c :: ds) : d.isDigit := by
      rw [← hds] at hd
      exact Nat.isDigit_of_mem_toDigits (by decide) (by decide) hd
    have hval : Nat.ofDigitChars 10 (c :: ds) 0 = n := by
      rw [← hds]
      exact Nat.ofDigitChars_ten_toDigits
    have hnumber : Number (c :: ds) (.clamp (Nat.ofDigitChars 10 (c :: ds) 0)) :=
      .digits (hdigit c List.mem_cons_self) hc fun d hd => hdigit d (List.mem_cons_of_mem c hd)
    rw [hval] at hnumber
    rw [hds]
    exact hnumber

end Text

namespace Value

theorem number_text {v : Value} (h : 0 ≤ v) : Number v.text v := by
  have hv : 0 ≤ v.toInt := h
  obtain ⟨n, hn⟩ := Int.eq_ofNat_of_zero_le hv
  have htext : v.text = Text.ofNat n := by
    unfold text
    rw [hn]
    rfl
  have hclamp : Value.clamp n = v := by
    rw [← hn]
    exact clamp_toInt v
  rw [htext, ← hclamp]
  exact Text.number_ofNat n

theorem signed_text {v : Value} (h : least < v) : Signed v.text v := by
  by_cases hv : 0 ≤ v
  · exact .plain (number_text hv)
  · have hlow : least.toInt < v.toInt := h
    have hneg : v.toInt < 0 := Int.not_le.mp hv
    rw [show least.toInt = -9223372036854775808 from rfl] at hlow
    obtain ⟨n, hn⟩ := Int.eq_negSucc_of_lt_zero hneg
    have htext : v.text = '-' :: Text.ofNat (n + 1) := by
      unfold text
      rw [hn]
      rfl
    have hclamp : -Value.clamp ((n + 1 : Nat) : Int) = v := by
      apply Value.ext
      change (clamp _).toInt = _
      simp only [toInt_clamp]
      omega
    rw [htext, ← hclamp]
    exact .negative (Text.number_ofNat (n + 1))

end Value

namespace Die

/-- How the die is written. -/
def token : Die → DieToken
  | sided sides => .sides sides
  | percentile => .percentile
  | fudge => .fudge
  | custom faces => .custom faces

/-- The numbers of the die can be written. -/
def Writable : Die → Prop
  | sided sides => 0 ≤ sides
  | percentile => True
  | fudge => True
  | custom faces => faces ≠ [] ∧ ∀ v ∈ faces, Value.least < v

instance : (d : Die) → Decidable d.Writable
  | sided sides => inferInstanceAs (Decidable (0 ≤ sides))
  | percentile => isTrue trivial
  | fudge => isTrue trivial
  | custom faces => inferInstanceAs (Decidable (faces ≠ [] ∧ ∀ v ∈ faces, Value.least < v))

theorem faces_joined {faces : List Value} (hne : faces ≠ []) (h : ∀ v ∈ faces, Value.least < v) :
    Faces (Text.joined [','] (faces.map Value.text)) faces := by
  induction faces with
  | nil => exact absurd rfl hne
  | cons v faces ih =>
    have hv := Value.signed_text (h v List.mem_cons_self)
    cases faces with
    | nil =>
      rw [List.map_cons, List.map_nil, Text.joined_singleton]
      exact .last hv
    | cons w faces =>
      have hrest := ih (List.cons_ne_nil w faces) fun u hu => h u (List.mem_cons_of_mem v hu)
      have htext : Text.joined [','] ((v :: w :: faces).map Value.text) =
          v.text ++ ',' :: Text.joined [','] ((w :: faces).map Value.text) := by
        rw [List.map_cons, List.map_cons, Text.joined_cons_cons, List.append_assoc]
        rfl
      rw [htext]
      exact .more hv hrest

theorem text_eq {d : Die} (h : d.Writable) : ∃ w, d.text = 'D' :: w ∧ DieType w d.token := by
  cases d with
  | sided sides => exact ⟨sides.text, rfl, .sides (Value.number_text h)⟩
  | percentile => exact ⟨['%'], rfl, .percentile⟩
  | fudge => exact ⟨['F'], rfl, .fudge⟩
  | custom faces => exact ⟨_, rfl, .custom (faces_joined h.1 h.2)⟩

end Die

namespace Modifier

/-- How the modifier is written. The limit of an explosion is not. -/
def token : Modifier → ModifierToken
  | calculate op operand => ⟨.calculate, op.symbol, operand⟩
  | select selection => ⟨.select, selection.symbol, .clamp selection.count⟩
  | explode condition _ => ⟨.explode, condition.comparator.symbol, condition.expected⟩

/-- The numbers of the modifier can be written. -/
def Writable : Modifier → Prop
  | calculate _ operand => 0 ≤ operand
  | select selection => selection.count ≤ 9223372036854775807
  | explode condition _ => Value.least < condition.expected

instance : (m : Modifier) → Decidable m.Writable
  | calculate _ operand => inferInstanceAs (Decidable (0 ≤ operand))
  | select selection => inferInstanceAs (Decidable (selection.count ≤ 9223372036854775807))
  | explode condition _ => inferInstanceAs (Decidable (Value.least < condition.expected))

theorem modifies_text {m : Modifier} (h : m.Writable) : Modifies m.text m.token := by
  cases m with
  | calculate op operand =>
    have hoperand := Value.number_text h
    cases op <;> exact .calculate (by decide) hoperand
  | select selection =>
    have hcount := Text.number_ofNat selection.count
    obtain ⟨choice, extreme, count⟩ := selection
    cases choice <;> cases extreme <;> exact .select (by decide) (by decide) hcount
  | explode condition limit =>
    have hexpected := Value.signed_text h
    obtain ⟨comparator, expected⟩ := condition
    cases comparator with
    | eq => exact .explodeEqual hexpected
    | gt => exact .explode .gt hexpected
    | gte => exact .explode .gte hexpected
    | lt => exact .explode .lt hexpected
    | lte => exact .explode .lte hexpected

end Modifier

end DiceExpr
