import DiceExpr.Play

namespace DiceExpr

/-- The roll of a node, and the parts it is made of. -/
structure Parted where
  roll : Roll
  parts : List Roll
  deriving DecidableEq

namespace Play

def finish (node : Tree) (roll : Roll) : Play Roll := note ⟨node, roll, .plain⟩ (done roll)

/-- Sums the parts that a selection keeps. -/
def select (node : Tree) (selection : Selection) (parts : Play (List Roll)) : Play Parted :=
  parts.bind fun rolls =>
    let mask := selection.mask (rolls.map Roll.value)
    let kept := Selection.marked mask rolls
    let roll := ⟨Value.total (kept.map Roll.value), Roll.maskedTrace mask rolls⟩
    note ⟨node, roll, .selected kept.length (rolls.length - kept.length)⟩ (done ⟨roll, kept⟩)

/-- Sums the chains of some targets. -/
def explode (node : Tree) (condition : Condition) (limit : Nat) (targets : List (Play Roll)) :
    Play Parted :=
  eachThen (targets.map (chain · condition limit)) fun chains =>
    let rolls := chains.map Roll.added
    let roll := Roll.sum rolls
    note ⟨node, roll, .exploded chains.flatten.length⟩ (done ⟨roll, rolls⟩)

end Play

def Die.play (d : Die) : Play Value := .draw d.drawn fun v => .done (d.shown v)

namespace Tree

mutual

/-- The evaluation of a tree. Its inner trees come before the node itself. -/
def evaluate : Tree → Play Roll
  | t@(die d) => d.play.bind fun v => .finish t (.ofValue v)
  | t@(pool children) => .eachThen (evaluations children) fun rolls => .finish t (.sum rolls)
  | t@(modified inner (.calculate op operand)) =>
    inner.evaluate.bind fun r => .finish t (r.calculate op operand)
  | t@(modified inner (.select selection)) => (Play.select t selection inner.parts).map Parted.roll
  | t@(modified (pool children) (.explode condition limit)) =>
    (Play.explode t condition limit (evaluations children)).map Parted.roll
  | t@(modified inner (.explode condition limit)) =>
    (Play.explode t condition limit [inner.evaluate]).map Parted.roll

/-- The evaluation of the parts of a tree. A pool that is taken apart is no step of its own. -/
def parts : Tree → Play (List Roll)
  | t@(die d) => d.play.bind fun v => (Play.finish t (.ofValue v)).map ([·])
  | pool children => .each (evaluations children)
  | t@(modified inner (.calculate op operand)) =>
    inner.evaluate.bind fun r => (Play.finish t (r.calculate op operand)).map ([·])
  | t@(modified inner (.select selection)) => (Play.select t selection inner.parts).map Parted.parts
  | t@(modified (pool children) (.explode condition limit)) =>
    (Play.explode t condition limit (evaluations children)).map Parted.parts
  | t@(modified inner (.explode condition limit)) =>
    (Play.explode t condition limit [inner.evaluate]).map ([·.roll])

def evaluations : List Tree → List (Play Roll)
  | [] => []
  | t :: rest => t.evaluate :: evaluations rest

end

theorem evaluations_eq_map (ts : List Tree) : evaluations ts = ts.map evaluate := by
  induction ts with
  | nil => rfl
  | cons t rest ih => rw [evaluations, ih, List.map_cons]

theorem evaluate_pool (children : List Tree) : (pool children).evaluate =
    .eachThen (children.map evaluate) fun rolls => .finish (pool children) (.sum rolls) := by
  rw [evaluate, evaluations_eq_map]

theorem parts_pool (children : List Tree) :
    (pool children).parts = .each (children.map evaluate) := by
  rw [parts, evaluations_eq_map]

end Tree

end DiceExpr
