import DiceExpr.Text.Uppercase

namespace DiceExpr.Text

/-- The first and last codes of Unicode's `White_Space` characters. -/
def whiteSpaceRanges : List (Nat × Nat) :=
  [(0x09, 0x0D), (0x20, 0x20), (0x85, 0x85), (0xA0, 0xA0), (0x1680, 0x1680), (0x2000, 0x200A),
    (0x2028, 0x2029), (0x202F, 0x202F), (0x205F, 0x205F), (0x3000, 0x3000)]

def isWhiteSpace (c : Char) : Bool :=
  whiteSpaceRanges.any fun (first, last) => decide (first ≤ c.toNat) && decide (c.toNat ≤ last)

/-- The form in which text is read: without white space, each character in upper case. -/
def normal (text : Text) : Text := (text.filter fun c => !isWhiteSpace c).flatMap upper

theorem normal_append (a b : Text) : normal (a ++ b) = normal a ++ normal b := by
  simp [normal]

/-- The most parentheses open at once, when `isOpen` of them are open before the text. A closing one
without a partner counts for nothing. -/
def deepest (isOpen : Nat) : Text → Nat
  | [] => isOpen
  | c :: rest =>
    if c = '(' then deepest (isOpen + 1) rest
    else if c = ')' then max isOpen (deepest (isOpen - 1) rest)
    else deepest isOpen rest

theorem le_deepest (isOpen : Nat) (text : Text) : isOpen ≤ deepest isOpen text := by
  induction text generalizing isOpen with
  | nil => exact Nat.le_refl _
  | cons c rest ih =>
    simp only [deepest]
    split
    · exact Nat.le_trans (Nat.le_succ _) (ih _)
    · split
      · exact Nat.le_max_left ..
      · exact ih _

def parenDepth (text : Text) : Nat := deepest 0 text

end DiceExpr.Text
