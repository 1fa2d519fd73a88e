import DiceExpr.Main
import DiceExpr.Proofs.Agreement.Explosions
import DiceExpr.Proofs.Agreement.Likeness
import DiceExpr.Proofs.Agreement.SingleDice
import DiceExpr.Proofs.Bounds.Attainment
import DiceExpr.Proofs.Bounds.Enclosure
import DiceExpr.Proofs.Bounds.Order
import DiceExpr.Proofs.Building.Concurrence
import DiceExpr.Proofs.Building.Judgement
import DiceExpr.Proofs.Building.Limiting
import DiceExpr.Proofs.Building.Parentheses
import DiceExpr.Proofs.Building.Vocabulary
import DiceExpr.Proofs.Grammar.Recognition
import DiceExpr.Proofs.Misses.Border
import DiceExpr.Proofs.Nesting.Depth
import DiceExpr.Proofs.Notation.Canonical
import DiceExpr.Proofs.Notation.Conservation
import DiceExpr.Proofs.Notation.RoundTrip
import DiceExpr.Proofs.Notation.Scope
import DiceExpr.Proofs.Runs.Audit
import DiceExpr.Proofs.Runs.Drawing
import DiceExpr.Proofs.Runs.Muting
import DiceExpr.Proofs.Runs.Parts
import DiceExpr.Proofs.Runs.Rerolls
import DiceExpr.Proofs.Selections.Laws
import DiceExpr.Proofs.Selections.Sorting
import DiceExpr.Proofs.Traces.Faithful
