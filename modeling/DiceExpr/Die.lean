import DiceExpr.Ends
import DiceExpr.Fault

namespace DiceExpr

inductive Die where
  /-- Numbered from 1 to its number of sides. -/
  | sided (sides : Value)
  | percentile
  | fudge
  | custom (faces : List Value)
  deriving DecidableEq

namespace Die

instance : Inhabited Die := ⟨sided 6⟩

/-- There is no die with fewer than two sides. -/
def sided? (sides : Value) : Except Fault Die :=
  if sides < 2 then .error (.tooFewSides sides) else .ok (sided sides)

def custom? (faces : List Value) : Except Fault Die :=
  if faces.isEmpty then .error (.illegal .faces 0) else .ok (custom faces)

/-- The lowest and the highest value of the die. -/
def ends : Die → Ends Value
  | sided sides => ⟨1, max sides 1⟩
  | percentile => ⟨1, 100⟩
  | fudge => ⟨-1, 1⟩
  | custom faces => ⟨faces.min?.getD 0, faces.max?.getD 0⟩

/-- The range a number is drawn from: its values, but for a custom die the positions of its faces.
-/
def drawn : Die → Ends Value
  | custom faces => ⟨0, .clamp (faces.length - 1 : Nat)⟩
  | die => die.ends

/-- The value shown for the number drawn. Where a custom die has no face it shows zero. -/
def shown : Die → Value → Value
  | custom faces, v => if 0 ≤ v then (faces[v.toInt.toNat]?).getD 0 else 0
  | _, v => v

def text : Die → Text
  | sided sides => 'D' :: sides.text
  | percentile => ['D', '%']
  | fudge => ['D', 'F']
  | custom faces => 'D' :: '[' :: Text.joined [','] (faces.map Value.text) ++ [']']

def kind : Die → String
  | sided _ => "SidedDie"
  | percentile => "PercentileDie"
  | fudge => "FudgeDie"
  | custom _ => "CustomDie"

end Die

end DiceExpr
