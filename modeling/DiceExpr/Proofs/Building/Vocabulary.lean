import DiceExpr.Proofs.Building.Parentheses
import DiceExpr.Proofs.Nesting.Depth
import Mathlib

namespace DiceExpr

open Grammar

/-! Plain records -/

/-- No negative number of sides, and no die without faces. -/
def DieToken.Plain : DieToken → Prop
  | sides n => 0 ≤ n
  | custom faces => faces ≠ []
  | _ => True

/-- The symbol is known, and no number is negative but a threshold. -/
def ModifierToken.Plain (m : ModifierToken) : Prop :=
  match m.kind with
  | .calculate => 0 ≤ m.value ∧ ∃ op : Operator, op.symbol = m.symbol
  | .select => 0 ≤ m.value ∧ ∃ s : Selection, s.symbol = m.symbol
  | .explode => ∃ c : Comparator, c.symbol = m.symbol

/-- All dice and modifiers of a term are plain, also in its groups. -/
structure Term.Plain (s : Term) : Prop where
  counts : ∀ p ∈ s.counts, (∀ n, p.1 = some n → 0 ≤ n) ∧ p.2.Plain
  tokens : ∀ m ∈ s.tokens, m.Plain

theorem Term.plain_group {inner : List Term} {modifiers : List ModifierToken} :
    (group inner modifiers).Plain ↔ (∀ s ∈ inner, s.Plain) ∧ ∀ m ∈ modifiers, m.Plain := by
  have hcounts : (group inner modifiers).counts = inner.flatMap counts := by
    rw [counts, countsList_eq_flatMap]
  have htokens : (group inner modifiers).tokens = inner.flatMap tokens ++ modifiers := by
    rw [tokens, tokensList_eq_flatMap]
  constructor
  · intro h
    obtain ⟨hdice, hmodifiers⟩ := h
    rw [hcounts] at hdice
    rw [htokens, List.forall_mem_append] at hmodifiers
    refine ⟨fun s hs => ⟨fun p hp => ?_, fun m hm => ?_⟩, hmodifiers.2⟩
    · exact hdice p (List.mem_flatMap_of_mem hs hp)
    · exact hmodifiers.1 m (List.mem_flatMap_of_mem hs hm)
  · intro h
    obtain ⟨hinner, hmodifiers⟩ := h
    constructor
    · intro p hp
      rw [hcounts] at hp
      obtain ⟨s, hs, hp⟩ := List.mem_flatMap.mp hp
      exact (hinner s hs).counts p hp
    · rw [htokens, List.forall_mem_append]
      refine ⟨fun m hm => ?_, hmodifiers⟩
      obtain ⟨s, hs, hm⟩ := List.mem_flatMap.mp hm
      exact (hinner s hs).tokens m hm

theorem plain_of_dieType {w : Text} {type : DieToken} (h : DieType w type) : type.Plain := by
  cases h with
  | sides hn => exact hn.nonneg
  | fudge => trivial
  | percentile => trivial
  | custom hns => exact hns.least_lt.1

theorem plain_of_modifies {w : Text} {m : ModifierToken} (h : Modifies w m) : m.Plain := by
  cases h with
  | calculate hop hn =>
    refine ⟨hn.nonneg, ?_⟩
    simp only [List.mem_cons, List.not_mem_nil, or_false] at hop
    rcases hop with rfl | rfl | rfl | rfl
    · exact ⟨.add, rfl⟩
    · exact ⟨.sub, rfl⟩
    · exact ⟨.mul, rfl⟩
    · exact ⟨.div, rfl⟩
  | select hchoice hextreme hn =>
    refine ⟨hn.nonneg, ?_⟩
    rcases List.mem_pair.mp hchoice with rfl | rfl <;>
      rcases List.mem_pair.mp hextreme with rfl | rfl
    · exact ⟨⟨.keep, .high, 0⟩, rfl⟩
    · exact ⟨⟨.keep, .low, 0⟩, rfl⟩
    · exact ⟨⟨.drop, .high, 0⟩, rfl⟩
    · exact ⟨⟨.drop, .low, 0⟩, rfl⟩
  | explode c _ => exact ⟨c, rfl⟩
  | explodeEqual _ => exact ⟨.eq, rfl⟩

theorem plain_dice {quantity : Option Value} {w : Text} {type : DieToken}
    (hq : ∀ n, quantity = some n → 0 ≤ n) (h : DieType w type) :
    (Term.dice quantity type []).Plain :=
  ⟨List.forall_mem_singleton.mpr ⟨hq, plain_of_dieType h⟩, List.forall_mem_nil _⟩

/-- Nothing that can be derived in the grammar is unknown to the tables. -/
theorem plain_of_derives {p : Phrase} {w : Text} (h : Derives p w) :
    match p with
    | .operand s => s.Plain
    | .sum ss => ∀ s ∈ ss, s.Plain := by
  induction h with
  | die h =>
    refine plain_dice (fun n hn => ?_) h
    cases hn
  | dice hq h =>
    refine plain_dice (fun n hn => ?_) h
    rw [← Option.some.inj hn]
    exact hq.nonneg
  | group _ ih => exact Term.plain_group.mpr ⟨ih, List.forall_mem_nil _⟩
  | single _ ih => exact List.forall_mem_singleton.mpr ih
  | join _ _ ihs ih => exact List.forall_mem_append.mpr ⟨ihs, List.forall_mem_singleton.mpr ih⟩
  | modify _ h ihs =>
    obtain ⟨hss, hs⟩ := List.forall_mem_append.mp ihs
    have hs := List.forall_mem_singleton.mp hs
    refine List.forall_mem_append.mpr ⟨hss, List.forall_mem_singleton.mpr ⟨?_, ?_⟩⟩
    · rw [Term.counts_attach]
      exact hs.counts
    · rw [Term.tokens_attach]
      exact List.forall_mem_append.mpr
        ⟨hs.tokens, List.forall_mem_singleton.mpr (plain_of_modifies h)⟩

theorem Term.plain_of_ofText? {text : Text} {terms : List Term} (h : ofText? text = .ok terms) :
    ∀ s ∈ terms, s.Plain := by
  by_cases hblank : text.normal = []
  · rw [ofText?_of_blank hblank] at h
    rw [← Except.ok.inj h]
    exact List.forall_mem_nil _
  · exact plain_of_derives ((read_eq_ok hblank).mp h)

/-! Faults of plain records -/

/-- The faults that a plain record can have, or a text that cannot be read. -/
def Fault.Plain : Fault → Prop
  | unreadable _ => True
  | tooFewSides n => n = 0 ∨ n = 1
  | illegal purpose n => (purpose = .quantity ∨ purpose = .divisor) ∧ n = 0
  | overLimit count limit => limit < count
  | unknownSymbol _ => False

/-- Whatever fault a computation finds is plain. -/
def FaultsPlainly (x : Except Fault α) : Prop := ∀ fault, x = .error fault → fault.Plain

namespace FaultsPlainly

theorem ok (a : α) : FaultsPlainly (.ok a) := by
  intro fault h
  cases h

theorem error {fault : Fault} (h : fault.Plain) : FaultsPlainly (.error fault : Except Fault α) := by
  intro found heq
  rwa [← Except.error.inj heq]

theorem bind {x : Except Fault α} {f : α → Except Fault β} (hx : FaultsPlainly x)
    (hf : ∀ a, x = .ok a → FaultsPlainly (f a)) : FaultsPlainly (x >>= f) := by
  cases x with
  | error fault => exact error (hx fault rfl)
  | ok a => exact hf a rfl

theorem map {x : Except Fault α} (hx : FaultsPlainly x) (f : α → β) :
    FaultsPlainly (x >>= fun a => pure (f a)) := hx.bind fun a _ => ok (f a)

end FaultsPlainly

theorem Value.eq_zero_of_lt_one {n : Value} (hn : 0 ≤ n) (h : n < 1) : n = 0 := by
  have hn : (0 : Int) ≤ n.toInt := hn
  have h : n.toInt < (1 : Int) := h
  exact Value.ext (show n.toInt = 0 by omega)

theorem Value.eq_zero_or_one_of_lt_two {n : Value} (hn : 0 ≤ n) (h : n < 2) : n = 0 ∨ n = 1 := by
  have h : n.toInt < (2 : Int) := h
  rcases Decidable.em (n < 1) with hone | hone
  · exact .inl (eq_zero_of_lt_one hn hone)
  · have hone : ¬n.toInt < (1 : Int) := hone
    exact .inr (Value.ext (show n.toInt = 1 by omega))

namespace Limits

open DiceExpr.Tree

variable {limits : Limits}

theorem faultsPlainly_die {type : DieToken} (h : type.Plain) : FaultsPlainly type.die? := by
  cases type with
  | sides n =>
    simp only [DieToken.die?, Die.sided?]
    split
    · next hfew => exact .error (Value.eq_zero_or_one_of_lt_two h hfew)
    · exact .ok _
  | fudge => exact .ok _
  | percentile => exact .ok _
  | custom faces =>
    have hfaces : faces ≠ [] := h
    simp only [DieToken.die?, Die.custom?, List.isEmpty_iff, if_neg hfaces]
    exact .ok _

theorem faultsPlainly_quantity {written : Option Value} (h : ∀ n, written = some n → 0 ≤ n) :
    FaultsPlainly (limits.quantity? written) := by
  have hnonneg : 0 ≤ written.getD 1 := by
    cases written with
    | none => decide
    | some n => exact h n rfl
  simp only [quantity?]
  split
  · next hfew => exact .error ⟨.inl rfl, Value.eq_zero_of_lt_one hnonneg hfew⟩
  · split
    · next hmost => exact .error hmost
    · exact .ok _

/-- Every plain modifier stands in the tables. -/
theorem exists_modifier (limits : Limits) {m : ModifierToken} (h : m.Plain) :
    ∃ modifier, limits.modifier? m = .ok modifier := by
  obtain ⟨kind, symbol, value⟩ := m
  cases kind with
  | calculate =>
    obtain ⟨-, op, rfl⟩ := h
    exact ⟨.calculate op value, by simp [modifier?]⟩
  | select =>
    obtain ⟨hnonneg, s, rfl⟩ := h
    have hknown : Selection.ofSymbol? s.symbol value.toInt.toNat =
        .ok { s with count := value.toInt.toNat } :=
      Selection.ofSymbol?_symbol { s with count := value.toInt.toNat }
    have hnonneg : ¬value < 0 := Int.not_lt.mpr hnonneg
    exact ⟨.select { s with count := value.toInt.toNat }, by simp [modifier?, hnonneg, hknown]⟩
  | explode =>
    obtain ⟨c, rfl⟩ := h
    exact ⟨.explode ⟨c, value⟩ limits.mostRerolls, by simp [modifier?]⟩

theorem faultsPlainly_modify (t : Tree) (m : Modifier) : FaultsPlainly (t.modify? m) := by
  refine .map ?_ fun _ => modified t m
  unfold check
  split
  · split
    · exact .error ⟨.inr rfl, rfl⟩
    · exact .ok ()
  · split
    · next hfew => exact .error hfew
    · exact .ok ()
  · exact .ok ()

theorem faultsPlainly_modifyAll {tokens : List ModifierToken} (h : ∀ m ∈ tokens, m.Plain)
    (t : Tree) : FaultsPlainly (limits.modifyAll? t tokens) := by
  induction tokens generalizing t with
  | nil => exact .ok t
  | cons token rest ih =>
    obtain ⟨htoken, hrest⟩ := List.forall_mem_cons.mp h
    obtain ⟨modifier, hmodifier⟩ := exists_modifier limits htoken
    rw [modifyAll?, hmodifier]
    exact (faultsPlainly_modify t modifier).bind fun y _ => ih hrest y

theorem faultsPlainly_terms {ss : List Term} (h : ∀ s ∈ ss, FaultsPlainly (limits.term? s)) :
    FaultsPlainly (limits.terms? ss) := by
  induction ss with
  | nil => exact .ok []
  | cons s ss ih =>
    obtain ⟨hs, hss⟩ := List.forall_mem_cons.mp h
    exact hs.bind fun t _ => (ih hss).map fun ts => t :: ts

theorem faultsPlainly_sum {ss : List Term} (h : ∀ s ∈ ss, FaultsPlainly (limits.term? s)) :
    FaultsPlainly (limits.sum? ss) :=
  (faultsPlainly_terms h).map fun trees => (Tree.ofList trees).collapse

theorem faultsPlainly_term {s : Term} (h : s.Plain) : FaultsPlainly (limits.term? s) := by
  induction s using Term.induction with
  | dice quantity type modifiers =>
    obtain ⟨hquantity, htype⟩ := h.counts (quantity, type) (List.mem_singleton_self _)
    refine (faultsPlainly_die htype).bind fun d _ => ?_
    refine (faultsPlainly_quantity hquantity).bind fun n _ => ?_
    exact (faultsPlainly_modifyAll h.tokens _).map collapse
  | group inner modifiers ih =>
    obtain ⟨hinner, hmodifiers⟩ := Term.plain_group.mp h
    rw [term?_group]
    refine (faultsPlainly_sum fun s hs => ih s hs (hinner s hs)).bind fun base _ => ?_
    exact (faultsPlainly_modifyAll hmodifiers base).map collapse

theorem faultsPlainly_checkDepth (depth : Nat) : FaultsPlainly (limits.checkDepth depth) := by
  unfold checkDepth
  split
  · next hdeep => exact .error hdeep
  · exact .ok ()

theorem faultsPlainly_sum_of_plain {ss : List Term} (h : ∀ s ∈ ss, s.Plain) :
    FaultsPlainly (limits.sum? ss) := faultsPlainly_sum fun s hs => faultsPlainly_term (h s hs)

end Limits

theorem Term.faultsPlainly_read (text : Text) : FaultsPlainly (read text) := by
  unfold read
  split
  · exact .ok []
  · split
    · exact .ok _
    · exact .error trivial

/-! Faults of other records -/

namespace Limits

open DiceExpr.Tree

variable {limits : Limits}

theorem ofTerms?_of_dice_fault {quantity : Option Value} {type : DieToken}
    {modifiers : List ModifierToken} {fault : Fault}
    (h : limits.term? (.dice quantity type modifiers) = .error fault) :
    ofTerms? limits [.dice quantity type modifiers] = .error fault := by
  have hdepth : limits.checkDepth (Term.depths [.dice quantity type modifiers]) = .ok () :=
    if_neg (Nat.not_lt_zero _)
  rw [ofTerms?, hdepth]
  change limits.sum? _ = _
  rw [sum?, terms?, h]
  rfl

theorem ofTerms?_of_modifier_fault (hmost : 0 < limits.mostDice) {m : ModifierToken} {fault : Fault}
    (h : limits.modifier? m = .error fault) :
    ofTerms? limits [.dice none .fudge [m]] = .error fault := by
  have hquantity : limits.quantity? none = .ok 1 := if_neg (Nat.not_lt.mpr hmost)
  refine ofTerms?_of_dice_fault ?_
  rw [term?, hquantity]
  change (limits.modifyAll? _ [m] >>= fun t => pure t.collapse) = _
  rw [modifyAll?, h]
  rfl

end Limits

/-- Faults about negative numbers and unknown symbols, and about a die without faces. -/
def Fault.Foreign : Fault → Prop
  | tooFewSides n => n < 0
  | illegal .quantity n => n < 0
  | illegal .selected n => n < 0
  | illegal .faces n => n = 0
  | unknownSymbol symbol => ∀ op : Operator, op.symbol ≠ symbol
  | _ => False

/-- No text has a foreign fault. -/
theorem Fault.Foreign.not_plain {fault : Fault} (h : fault.Foreign) : ¬fault.Plain := by
  intro hplain
  cases fault with
  | unreadable _ => exact h
  | tooFewSides n =>
    have hneg : n < 0 := h
    rcases hplain with rfl | rfl <;> exact absurd hneg (by decide)
  | illegal purpose n =>
    obtain ⟨hpurpose, rfl⟩ := hplain
    rcases hpurpose with rfl | rfl
    · have hneg : (0 : Value) < 0 := h
      exact absurd hneg (by decide)
    · exact h
  | overLimit _ _ => exact h
  | unknownSymbol _ => exact hplain

namespace Limits

variable {limits : Limits}

theorem exists_record_of_foreign (hmost : 0 < limits.mostDice) {fault : Fault} (h : fault.Foreign) :
    ∃ terms, Tree.ofTerms? limits terms = .error fault := by
  cases fault with
  | unreadable _ => exact h.elim
  | tooFewSides n =>
    have hneg : n < 0 := h
    have hfew : n < 2 := Int.lt_trans hneg (by decide)
    have hdie : (DieToken.sides n).die? = .error (.tooFewSides n) := if_pos hfew
    exact ⟨[.dice none (.sides n) []], ofTerms?_of_dice_fault (by rw [term?, hdie]; rfl)⟩
  | illegal purpose n =>
    cases purpose with
    | quantity =>
      have hneg : n < 0 := h
      have hfew : n < 1 := Int.lt_trans hneg (by decide)
      have hquantity : limits.quantity? (some n) = .error (.illegal .quantity n) := if_pos hfew
      exact ⟨[.dice (some n) .fudge []], ofTerms?_of_dice_fault (by rw [term?, hquantity]; rfl)⟩
    | divisor => exact h.elim
    | selected =>
      have hneg : n < 0 := h
      exact ⟨_, ofTerms?_of_modifier_fault (m := ⟨.select, ['K', 'H'], n⟩) hmost (if_pos hneg)⟩
    | faces =>
      have hzero : n = 0 := h
      rw [hzero]
      exact ⟨[.dice none (.custom []) []], ofTerms?_of_dice_fault rfl⟩
  | overLimit _ _ => exact h.elim
  | unknownSymbol symbol =>
    have hunknown : ∀ op : Operator, op.symbol ≠ symbol := h
    have hnone : Operator.all.find? (·.symbol = symbol) = none := by
      simpa [List.find?_eq_none] using fun op _ => hunknown op
    have hop : Operator.ofSymbol? symbol = .error (.unknownSymbol symbol) := by
      rw [Operator.ofSymbol?, hnone]
    refine ⟨_, ofTerms?_of_modifier_fault (m := ⟨.calculate, symbol, 0⟩) hmost ?_⟩
    rw [modifier?, hop]
    rfl

end Limits

namespace Tree

/-- The grammar and the tables speak of the same things. In what is read from a text all symbols are
known, and no number is negative where it may not be. So whatever fault is found in building a tree
from a text, it is no fault about such things: these are found only in records of other origin. -/
theorem faults_of_text (limits : Limits) (text : Text) :
    (∀ fault, ofText? limits text = .error fault → fault.Plain) ∧
    (∀ terms, Term.ofText? text = .ok terms → ∀ s ∈ terms, s.Plain) ∧
    (0 < limits.mostDice → ∀ fault, fault.Foreign →
      ¬fault.Plain ∧ ∃ terms, ofTerms? limits terms = .error fault) := by
  refine ⟨?_, fun terms => Term.plain_of_ofText?, fun hmost fault hforeign => ?_⟩
  · change FaultsPlainly (ofText? limits text)
    rw [ofText?_checked_once]
    refine (Limits.faultsPlainly_checkDepth _).bind fun _ _ => ?_
    refine FaultsPlainly.bind ?_ fun terms hterms =>
      Limits.faultsPlainly_sum_of_plain (Term.plain_of_ofText? hterms)
    exact Term.faultsPlainly_read text.normal
  · exact ⟨hforeign.not_plain, Limits.exists_record_of_foreign hmost hforeign⟩

/-- The numbers are greater than any value, so that they are read as the greatest one. The die has
one side, which is found before the count and the selection are looked at. -/
theorem faults_of_text_of_greatest_numbers :
    let text : Text := "99999999999999999999d1kh99999999999999999999!<-1".toList
    let terms : List Term := [.dice (some .greatest) (.sides 1)
      [⟨.select, ['K', 'H'], .greatest⟩, ⟨.explode, ['<'], .clamp (-1)⟩]]
    ofText? {} text = .error (.tooFewSides 1) ∧ (Fault.tooFewSides 1).Plain ∧
      Term.ofText? text = .ok terms ∧ (∀ s ∈ terms, s.Plain) ∧
      (Fault.illegal .selected (.clamp (-1))).Foreign ∧
      ∃ record, ofTerms? {} record = .error (.illegal .selected (.clamp (-1))) := by
  intro text terms
  have hfault : ofText? {} text = .error (.tooFewSides 1) := by decide +kernel
  have hread : Term.ofText? text = .ok terms := by
    unfold text terms
    cbv
  have hforeign : (Fault.illegal .selected (.clamp (-1))).Foreign :=
    show Value.clamp (-1) < 0 by decide
  obtain ⟨hplain, hterms, hrecords⟩ := faults_of_text {} text
  exact ⟨hfault, hplain _ hfault, hread, hterms terms hread, hforeign,
    (hrecords (by decide) _ hforeign).2⟩

end Tree

end DiceExpr
