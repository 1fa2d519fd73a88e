import DiceExpr.Roll
import DiceExpr.Tree.Basic

namespace DiceExpr

/-- What there is to tell of the evaluation of a node beside its roll. -/
inductive Details where
  | plain
  | selected (kept dropped : Nat)
  | exploded (rolls : Nat)
  deriving DecidableEq

/-- The evaluation of one node. -/
structure Step where
  node : Tree
  roll : Roll
  details : Details
  deriving DecidableEq

/-- A course of play: numbers are drawn one at a time, steps are noted on the way, and how it goes
on depends on the numbers. -/
inductive Play (α : Type) where
  | done (result : α)
  | draw (range : Ends Value) (next : Value → Play α)
  | note (step : Step) (next : Play α)

namespace Play

def bind (p : Play α) (f : α → Play β) : Play β :=
  match p with
  | done a => f a
  | draw range next => draw range fun v => (next v).bind f
  | note step next => note step (next.bind f)

def map (f : α → β) (p : Play α) : Play β := p.bind fun a => done (f a)

theorem bind_assoc (p : Play α) (f : α → Play β) (g : β → Play γ) :
    (p.bind f).bind g = p.bind fun a => (f a).bind g := by
  induction p with
  | done a => rfl
  | draw range next ih => simp only [bind]; congr 1; funext v; exact ih v
  | note step next ih => simp only [bind, ih]

@[simp] theorem bind_done (p : Play α) : p.bind done = p := by
  induction p with
  | done a => rfl
  | draw range next ih => simp only [bind]; congr 1; funext v; exact ih v
  | note step next ih => simp only [bind, ih]

/-- Several plays one after another, and then what follows from their results. -/
def eachThen (plays : List (Play α)) (follow : List α → Play β) : Play β :=
  match plays with
  | [] => follow []
  | p :: rest => p.bind fun a => eachThen rest fun as => follow (a :: as)

def each (plays : List (Play α)) : Play (List α) := eachThen plays done

theorem eachThen_bind (plays : List (Play α)) (f : List α → Play β) (g : β → Play γ) :
    (eachThen plays f).bind g = eachThen plays fun as => (f as).bind g := by
  induction plays generalizing f with
  | nil => rfl
  | cons p rest ih =>
    simp only [eachThen, bind_assoc]
    congr 1
    funext a
    exact ih _

theorem each_bind (plays : List (Play α)) (f : List α → Play β) :
    (each plays).bind f = eachThen plays f := eachThen_bind plays done f

/-- A roll that is repeated as long as its result passes, at most `limit` times, and then what
follows from all the results. -/
def chainThen (target : Play Roll) (condition : Condition) :
    Nat → (List Roll → Play β) → Play β
  | 0, follow => target.bind fun r => follow [r]
  | more + 1, follow =>
    target.bind fun r =>
      if condition.check r.value then
        chainThen target condition more fun rest => follow (r :: rest)
      else follow [r]

def chain (target : Play Roll) (condition : Condition) (limit : Nat) : Play (List Roll) :=
  chainThen target condition limit done

theorem chainThen_bind (target : Play Roll) (condition : Condition) (limit : Nat)
    (f : List Roll → Play α) (g : α → Play β) :
    (chainThen target condition limit f).bind g =
      chainThen target condition limit fun rs => (f rs).bind g := by
  induction limit generalizing f with
  | zero => simp only [chainThen, bind_assoc]
  | succ more ih =>
    simp only [chainThen, bind_assoc]
    congr 1
    funext r
    split
    · exact ih _
    · rfl

end Play

end DiceExpr
