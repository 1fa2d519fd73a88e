import DiceExpr.Proofs.Contents
import DiceExpr.Tree.Build
import Mathlib.Data.List.Basic

namespace DiceExpr

/-- What a record asks for, and a tree can be built only within bounds. -/
inductive Demand where
  /-- Groups nested so deep. -/
  | depth (n : Nat)
  | sides (n : Value)
  | quantity (n : Value)
  | divisor (n : Value)
  /-- So many parts selected of those there are. -/
  | selected (n available : Nat)
  deriving DecidableEq

namespace Demand

def Met (limits : Limits) : Demand → Prop
  | depth n => n ≤ limits.deepestGroup
  | sides n => 2 ≤ n
  | quantity n => 1 ≤ n ∧ n.toInt.toNat ≤ limits.mostDice
  | divisor n => n ≠ 0
  | selected n available => n ≤ available

instance (limits : Limits) : DecidablePred (Met limits)
  | depth n => inferInstanceAs (Decidable (n ≤ limits.deepestGroup))
  | sides n => inferInstanceAs (Decidable (2 ≤ n))
  | quantity n => inferInstanceAs (Decidable (1 ≤ n ∧ n.toInt.toNat ≤ limits.mostDice))
  | divisor n => inferInstanceAs (Decidable (n ≠ 0))
  | selected n available => inferInstanceAs (Decidable (n ≤ available))

/-- What is said of a demand that is not met. -/
def fault (limits : Limits) : Demand → Fault
  | depth n => .overLimit n limits.deepestGroup
  | sides n => .tooFewSides n
  | quantity n =>
    if n < 1 then .illegal .quantity n else .overLimit n.toInt.toNat limits.mostDice
  | divisor n => .illegal .divisor n
  | selected n available => .overLimit n available

/-- The first of some demands that is not met. -/
def firstUnmet? (limits : Limits) (demands : List Demand) : Option Demand :=
  demands.find? fun d => ¬d.Met limits

variable {limits : Limits} {demands : List Demand}

theorem firstUnmet?_append (before after : List Demand) :
    firstUnmet? limits (before ++ after) =
      (firstUnmet? limits before).or (firstUnmet? limits after) :=
  List.find?_append

theorem firstUnmet?_eq_none : firstUnmet? limits demands = none ↔ ∀ d ∈ demands, d.Met limits := by
  simp [firstUnmet?]

theorem firstUnmet?_eq_some {d : Demand} :
    firstUnmet? limits demands = some d ↔ ¬d.Met limits ∧
      ∃ before after, demands = before ++ d :: after ∧ ∀ e ∈ before, e.Met limits := by
  simp [firstUnmet?, List.find?_eq_some_iff_append]

end Demand

/-- How many parts there are to select from, and whether no modifier has been applied yet. -/
structure Stock where
  count : Nat
  bare : Bool
  deriving DecidableEq

namespace Stock

/-- What is left after a modifier. -/
def after (s : Stock) : ModifierToken → Stock
  | ⟨.calculate, _, _⟩ => ⟨1, false⟩
  | ⟨.select, ['K', _], n⟩ => ⟨n.toInt.toNat, false⟩
  | ⟨.select, _, n⟩ => ⟨s.count - n.toInt.toNat, false⟩
  | ⟨.explode, _, _⟩ => ⟨if s.bare then s.count else 1, false⟩

/-- What a modifier demands. -/
def demands (s : Stock) : ModifierToken → List Demand
  | ⟨.calculate, ['/'], n⟩ => [.divisor n]
  | ⟨.select, _, n⟩ => [.selected n.toInt.toNat s.count]
  | _ => []

/-- What some modifiers demand that are applied one after another. -/
def demandsAll (s : Stock) : List ModifierToken → List Demand
  | [] => []
  | token :: rest => s.demands token ++ (s.after token).demandsAll rest

theorem demandsAll_concat (s : Stock) (tokens : List ModifierToken) (token : ModifierToken) :
    s.demandsAll (tokens ++ [token]) =
      s.demandsAll tokens ++ (tokens.foldl after s).demands token := by
  induction tokens generalizing s with
  | nil => simp [demandsAll]
  | cons t tokens ih =>
    rw [List.cons_append, demandsAll, demandsAll, ih, List.foldl_cons, List.append_assoc]

end Stock

def DieToken.demands : DieToken → List Demand
  | sides n => [.sides n]
  | _ => []

namespace Term

mutual

def stock : Term → Stock
  | dice quantity _ modifiers => modifiers.foldl Stock.after ⟨amount quantity, true⟩
  | group inner modifiers => modifiers.foldl Stock.after (stockOf inner)

/-- One term in parentheses leaves what it leaves without them. -/
def stockOf : List Term → Stock
  | [] => ⟨0, true⟩
  | [t] => t.stock
  | t :: u :: rest => ⟨(t :: u :: rest).length, true⟩

end

mutual

/-- What a term demands: first what stands in its parentheses, or the die and then how many of it
there are, and then its modifiers. -/
def demands : Term → List Demand
  | dice quantity type modifiers =>
    type.demands ++ .quantity (quantity.getD 1) ::
      Stock.demandsAll ⟨amount quantity, true⟩ modifiers
  | group inner modifiers => demandsList inner ++ (stockOf inner).demandsAll modifiers

def demandsList : List Term → List Demand
  | [] => []
  | t :: rest => t.demands ++ demandsList rest

end

/-- What a record demands of all: first that its groups are not nested too deep. -/
def demandsOf (terms : List Term) : List Demand := .depth (depths terms) :: demandsList terms

theorem stock_attach (t : Term) (m : ModifierToken) : (t.attach m).stock = t.stock.after m := by
  cases t <;> simp [attach, stock]

theorem demands_attach (t : Term) (m : ModifierToken) :
    (t.attach m).demands = t.demands ++ t.stock.demands m := by
  cases t <;> simp [attach, stock, demands, Stock.demandsAll_concat]

end Term

namespace Limits

variable {limits : Limits}

/-- A computation meets some demands one after another, and fails at the first that is not met. -/
def Judges (limits : Limits) (demands : List Demand) (P : α → Prop) (x : Except Fault α) : Prop :=
  match x with
  | .ok a => Demand.firstUnmet? limits demands = none ∧ P a
  | .error fault => ∃ d, Demand.firstUnmet? limits demands = some d ∧ d.fault limits = fault

variable {P : α → Prop} {Q : β → Prop} {x : Except Fault α} {demands more : List Demand}

theorem Judges.bind {f : α → Except Fault β} (h : limits.Judges demands P x)
    (hf : ∀ a, P a → limits.Judges more Q (f a)) :
    limits.Judges (demands ++ more) Q (x >>= f) := by
  cases x with
  | error fault =>
    obtain ⟨d, hd, hfault⟩ := h
    refine ⟨d, ?_, hfault⟩
    rw [Demand.firstUnmet?_append, hd, Option.some_or]
  | ok a =>
    obtain ⟨hmet, ha⟩ := h
    have happend : Demand.firstUnmet? limits (demands ++ more) =
        Demand.firstUnmet? limits more := by
      rw [Demand.firstUnmet?_append, hmet, Option.none_or]
    have hnext := hf a ha
    change limits.Judges (demands ++ more) Q (f a)
    unfold Judges at hnext ⊢
    rwa [happend]

theorem judges_ok {a : α} (h : P a) : limits.Judges [] P (.ok a) := ⟨rfl, h⟩

/-- What is done with a result that is there does not fail any more. -/
theorem Judges.map {f : α → β} (h : limits.Judges demands P x) (hf : ∀ a, P a → Q (f a)) :
    limits.Judges demands Q (x >>= fun a => pure (f a)) := by
  have hpure (a : α) (ha : P a) : limits.Judges [] Q (.ok (f a)) := judges_ok (hf a ha)
  have hbind := h.bind hpure
  rwa [List.append_nil] at hbind

theorem judges_error {d : Demand} (h : ¬d.Met limits) :
    limits.Judges [d] P (.error (d.fault limits)) :=
  ⟨d, by simp [Demand.firstUnmet?, h], rfl⟩

/-- A demand is checked by asking for the contrary. -/
theorem judges_check {d : Demand} {c : Prop} [Decidable c] {fault : Fault} {a : α}
    (hc : c ↔ ¬d.Met limits) (hfault : c → fault = d.fault limits) (h : ¬c → P a) :
    limits.Judges [d] P (if c then .error fault else .ok a) := by
  by_cases hd : c
  · rw [if_pos hd, hfault hd]
    exact judges_error (hc.mp hd)
  · rw [if_neg hd]
    exact ⟨by simpa [Demand.firstUnmet?] using not_not.mp fun h => hd (hc.mpr h), h hd⟩

/-- The demands decide about the result, whatever it is. -/
theorem Judges.exists_ok_iff (h : limits.Judges demands P x) :
    (∃ a, x = .ok a) ↔ ∀ d ∈ demands, d.Met limits := by
  rw [← Demand.firstUnmet?_eq_none]
  cases x with
  | error fault =>
    obtain ⟨d, hd, -⟩ := h
    simp [hd]
  | ok a => simp [h.1]

theorem Judges.eq_error_iff (h : limits.Judges demands P x) (fault : Fault) :
    x = .error fault ↔ ∃ before d after, demands = before ++ d :: after ∧
      (∀ e ∈ before, e.Met limits) ∧ ¬d.Met limits ∧ fault = d.fault limits := by
  have hfirst : x = .error fault ↔
      ∃ d, Demand.firstUnmet? limits demands = some d ∧ d.fault limits = fault := by
    cases x with
    | error found =>
      obtain ⟨d, hd, rfl⟩ := h
      simp [hd]
    | ok a => simp [h.1]
  rw [hfirst]
  simp only [Demand.firstUnmet?_eq_some]
  constructor
  · intro h
    obtain ⟨d, ⟨hd, before, after, heq, hbefore⟩, hfault⟩ := h
    exact ⟨before, d, after, heq, hbefore, hd, hfault.symm⟩
  · intro h
    obtain ⟨before, d, after, heq, hbefore, hd, hfault⟩ := h
    exact ⟨d, ⟨hd, before, after, heq, hbefore⟩, hfault.symm⟩

end Limits

end DiceExpr
