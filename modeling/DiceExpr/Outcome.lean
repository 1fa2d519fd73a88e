import DiceExpr.Entry
import DiceExpr.Feed

namespace DiceExpr

/-- A listener with a state of type `τ`. It hears of the steps that are made while it listens, and
gives nothing back. -/
structure Listener (τ : Type) where
  listens : τ → Bool
  hear : τ → Entry → τ

namespace Listener

def tell (listener : Listener τ) (state : τ) (step : Step) : τ :=
  if listener.listens state then listener.hear state step.entry else state

def silent : Listener Unit := ⟨fun _ => false, fun _ _ => ()⟩

/-- Keeps all entries in their order. -/
def recorder : Listener (Array Entry) := ⟨fun _ => true, Array.push⟩

/-- Keeps all entries in their order, if there is to be a log at all. -/
def log (verbose : Bool) : Listener (Array Entry) := ⟨fun _ => verbose, Array.push⟩

end Listener

/-- How a play ends: without a result if its feed runs dry. What was drawn and told stays so. -/
structure Outcome (σ τ α : Type) where
  result : Option α
  feed : σ
  listener : τ

def Play.run (feed : Feed σ) (listener : Listener τ) : Play α → σ → τ → Outcome σ τ α
  | done a, s, t => ⟨some a, s, t⟩
  | draw range next, s, t =>
    match feed.next range s with
    | some (v, s') => (next v).run feed listener s' t
    | none => ⟨none, s, t⟩
  | note step next, s, t => next.run feed listener s (listener.tell t step)

end DiceExpr
