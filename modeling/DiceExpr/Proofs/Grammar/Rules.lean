import DiceExpr.Modifier.Condition
import DiceExpr.Term.Basic

namespace DiceExpr.Grammar

/-- A number is a zero, or it does not begin with one. Beyond the greatest value it stands for that.
-/
inductive Number : Text → Value → Prop
  | zero : Number ['0'] 0
  | digits {c : Char} {ds : Text} (hc : c.isDigit) (hzero : c ≠ '0') (hds : ∀ d ∈ ds, d.isDigit) :
    Number (c :: ds) (.clamp (Nat.ofDigitChars 10 (c :: ds) 0))

theorem Number.digit (c : Char) (hc : c.isDigit) (hzero : c ≠ '0') :
    Number [c] (.clamp (Nat.ofDigitChars 10 [c] 0)) := .digits hc hzero nofun

inductive Signed : Text → Value → Prop
  | plain {w : Text} {n : Value} (h : Number w n) : Signed w n
  | negative {w : Text} {n : Value} (h : Number w n) : Signed ('-' :: w) (-n)

inductive Faces : Text → List Value → Prop
  | last {w : Text} {n : Value} (h : Signed w n) : Faces w [n]
  | more {w ws : Text} {n : Value} {ns : List Value} (h : Signed w n) (hs : Faces ws ns) :
    Faces (w ++ ',' :: ws) (n :: ns)

inductive DieType : Text → DieToken → Prop
  | sides {w : Text} {n : Value} (h : Number w n) : DieType w (.sides n)
  | fudge : DieType ['F'] .fudge
  | percentile : DieType ['%'] .percentile
  | custom {w : Text} {ns : List Value} (h : Faces w ns) : DieType ('[' :: w ++ [']']) (.custom ns)

inductive Modifies : Text → ModifierToken → Prop
  | calculate {op : Char} {w : Text} {n : Value} (hop : op ∈ ['+', '-', '*', '/'])
    (h : Number w n) : Modifies (op :: w) ⟨.calculate, [op], n⟩
  | select {choice extreme : Char} {w : Text} {n : Value} (hchoice : choice ∈ ['K', 'D'])
    (hextreme : extreme ∈ ['H', 'L']) (h : Number w n) :
    Modifies (choice :: extreme :: w) ⟨.select, [choice, extreme], n⟩
  | explode (c : Comparator) {w : Text} {n : Value} (h : Signed w n) :
    Modifies ('!' :: c.symbol ++ w) ⟨.explode, c.symbol, n⟩
  | explodeEqual {w : Text} {n : Value} (h : Signed w n) :
    Modifies ('!' :: w) ⟨.explode, ['='], n⟩

/-- What the recursive rules are about. -/
inductive Phrase where
  | operand (t : Term)
  | sum (terms : List Term)

/-- The texts from which a phrase can be derived. A modifier belongs to the last term of its sum. -/
inductive Derives : Phrase → Text → Prop
  | die {w : Text} {type : DieToken} (h : DieType w type) :
    Derives (.operand (.dice none type [])) ('D' :: w)
  | dice {q w : Text} {n : Value} {type : DieToken} (hq : Number q n) (h : DieType w type) :
    Derives (.operand (.dice (some n) type [])) (q ++ 'D' :: w)
  | group {w : Text} {inner : List Term} (h : Derives (.sum inner) w) :
    Derives (.operand (.group inner [])) ('(' :: w ++ [')'])
  | single {w : Text} {t : Term} (h : Derives (.operand t) w) : Derives (.sum [t]) w
  | join {v w : Text} {terms : List Term} {t : Term} (hs : Derives (.sum terms) v)
    (h : Derives (.operand t) w) : Derives (.sum (terms ++ [t])) (v ++ '+' :: w)
  | modify {v w : Text} {terms : List Term} {t : Term} {m : ModifierToken}
    (hs : Derives (.sum (terms ++ [t])) v) (h : Modifies w m) :
    Derives (.sum (terms ++ [t.attach m])) (v ++ w)

end DiceExpr.Grammar
