import DiceExpr.Value

namespace DiceExpr

/-- Text is a list of characters, so that it can be read from the front. -/
abbrev Text := List Char

namespace Text

/-- The texts one after another, with a separator between each two. -/
def joined (separator : Text) (texts : List Text) : Text := separator.intercalate texts

@[simp] theorem joined_singleton (separator text : Text) : joined separator [text] = text :=
  List.intercalate_singleton

theorem joined_cons_cons (separator text next : Text) (rest : List Text) :
    joined separator (text :: next :: rest) =
      text ++ separator ++ joined separator (next :: rest) :=
  List.intercalate_cons_cons

def parenthesised (text : Text) : Text := '(' :: text ++ [')']

/-- The decimal digits of a number, without leading zeros. -/
def ofNat (n : Nat) : Text := Nat.toDigits 10 n

def ofInt : Int → Text
  | .ofNat n => ofNat n
  | .negSucc n => '-' :: ofNat (n + 1)

end Text

def Value.text (a : Value) : Text := Text.ofInt a.toInt

end DiceExpr
