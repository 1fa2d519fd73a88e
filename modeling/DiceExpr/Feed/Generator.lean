import DiceExpr.Ends

namespace DiceExpr

/-- A pseudorandom generator of 64-bit words. -/
structure Generator where
  state : UInt64
  deriving DecidableEq

namespace Generator

/-- The state moves by a fixed odd step. Its product with a scrambled copy of itself is 128 bits
wide, and the word is made of both halves. -/
def word (g : Generator) : Nat × Generator :=
  let state := g.state + 0x2d358dccaa6c78a5
  let product := state.toNat * (state ^^^ 0x8bb84b93962eacc9).toNat
  ((product % UInt64.size) ^^^ (product / UInt64.size), ⟨state⟩)

theorem word_lt (g : Generator) : g.word.1 < UInt64.size := by
  have hlow := Nat.mod_lt ((g.state + 0x2d358dccaa6c78a5).toNat *
    ((g.state + 0x2d358dccaa6c78a5) ^^^ 0x8bb84b93962eacc9).toNat) (by decide : 0 < UInt64.size)
  have hhigh : (g.state + 0x2d358dccaa6c78a5).toNat *
      ((g.state + 0x2d358dccaa6c78a5) ^^^ 0x8bb84b93962eacc9).toNat / UInt64.size <
        UInt64.size := by
    apply Nat.div_lt_of_lt_mul
    exact Nat.mul_lt_mul'' (UInt64.toNat_lt _) (UInt64.toNat_lt _)
  exact Nat.xor_lt_two_pow (n := 64) hlow hhigh

/-- The high half of a word's product with `n`. Words are passed over while the low half is less
than `least`. -/
def scaled (n least : Nat) : Nat → Generator → Option (Nat × Generator)
  | 0, _ => none
  | tries + 1, g =>
    if g.word.1 * n % UInt64.size < least then scaled n least tries g.word.2
    else some (g.word.1 * n / UInt64.size, g.word.2)

theorem scaled_lt {n least tries k : Nat} {g g' : Generator} (hn : 0 < n)
    (h : scaled n least tries g = some (k, g')) : k < n := by
  induction tries generalizing g with
  | zero => simp [scaled] at h
  | succ tries ih =>
    simp only [scaled] at h
    split at h
    · exact ih h
    · simp only [Option.some.injEq, Prod.mk.injEq] at h
      obtain ⟨rfl, -⟩ := h
      apply Nat.div_lt_of_lt_mul
      exact Nat.mul_lt_mul_of_pos_right (word_lt g) hn

/-- One of the numbers below `n`, all equally likely. As many words as there are states are enough
to find a good one. -/
def below (n : Nat) (g : Generator) : Option (Nat × Generator) :=
  scaled n ((UInt64.size - n) % n) UInt64.size g

/-- A value of a range. Where there is no choice, no word is used. -/
def value (range : Ends Value) (g : Generator) : Option (Value × Generator) :=
  let size := range.high.toInt - range.low.toInt + 1
  if size ≤ 1 then some (range.low, g)
  else if size = UInt64.size then some (.clamp ((g.word.1 : Int).bmod UInt64.size), g.word.2)
  else (below size.toNat g).map fun (k, g) => (.clamp (range.low.toInt + k), g)

theorem value_within {range : Ends Value} (hrange : range.low ≤ range.high) {g g' : Generator}
    {v : Value} (h : g.value range = some (v, g')) : range.low ≤ v ∧ v ≤ range.high := by
  simp only [value] at h
  rw [Value.le_def] at hrange
  rw [Value.le_def, Value.le_def]
  have hlow := range.low.least_le
  have hhigh := range.high.le_greatest
  split at h
  · simp only [Option.some.injEq, Prod.mk.injEq] at h
    obtain ⟨rfl, -⟩ := h
    exact ⟨Int.le_refl _, hrange⟩
  · split at h
    · -- the range is that of all values
      next hsize =>
        have hleast := v.least_le
        have hgreatest := v.le_greatest
        simp only [UInt64.size] at hsize
        omega
    · rw [Option.map_eq_some_iff] at h
      obtain ⟨⟨k, _⟩, hk, heq⟩ := h
      simp only [Prod.mk.injEq] at heq
      obtain ⟨rfl, -⟩ := heq
      have hlt := scaled_lt (by omega) hk
      rw [Value.toInt_clamp_of_mem (by omega) (by omega)]
      omega

end Generator

end DiceExpr
