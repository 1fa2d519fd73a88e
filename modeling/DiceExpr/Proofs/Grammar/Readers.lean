import DiceExpr.Reader
import Mathlib.Tactic.SplitIfs

namespace DiceExpr.Reader

/-- The reader takes a front of the text for this result, and leaves the rest. -/
def Reads (p : Reader α) (text : Text) (a : α) (rest : Text) : Prop :=
  (p text).result = some (a, rest)

/-- The text does not fit. -/
def Misses (p : Reader α) (text : Text) : Prop := (p text).result = none

variable {p q : Reader α} {text rest : Text} {a : α} {b : β}

theorem Reads.not_misses (h : p.Reads text a rest) : ¬p.Misses text := by
  intro hmiss
  have heq := h.symm.trans hmiss
  cases heq

theorem misses_or_reads (p : Reader α) (text : Text) :
    p.Misses text ∨ ∃ a rest, p.Reads text a rest := by
  cases h : (p text).result with
  | none => exact .inl h
  | some result => exact .inr ⟨result.1, result.2, h⟩

@[simp] theorem reads_pure {a' : α} :
    (pure a' : Reader α).Reads text a rest ↔ a = a' ∧ rest = text := by
  change some (a', text) = some (a, rest) ↔ _
  rw [Option.some.injEq, Prod.mk.injEq]
  exact ⟨fun h => ⟨h.1.symm, h.2.symm⟩, fun h => ⟨h.1.symm, h.2.symm⟩⟩

@[simp] theorem misses_pure : ¬(pure a : Reader α).Misses text := nofun

private theorem result_bind (p : Reader α) (f : α → Reader β) (text : Text) :
    ((p >>= f) text).result = (p text).result.bind fun result => (f result.1 result.2).result := by
  change (p.bind f text).result = _
  unfold Reader.bind
  split
  · next h => rw [h, Reply.result_after, Option.bind_some]
  · next h => rw [h, Option.bind_none]

theorem reads_bind {f : α → Reader β} :
    (p >>= f).Reads text b rest ↔ ∃ a mid, p.Reads text a mid ∧ (f a).Reads mid b rest := by
  unfold Reads
  rw [result_bind, Option.bind_eq_some_iff]
  constructor
  · intro h
    obtain ⟨result, hp, hf⟩ := h
    exact ⟨result.1, result.2, hp, hf⟩
  · intro h
    obtain ⟨a, mid, hp, hf⟩ := h
    exact ⟨(a, mid), hp, hf⟩

theorem misses_bind {f : α → Reader β} :
    (p >>= f).Misses text ↔
      p.Misses text ∨ ∃ a mid, p.Reads text a mid ∧ (f a).Misses mid := by
  unfold Misses Reads
  rw [result_bind, Option.bind_eq_none_iff]
  cases hp : (p text).result with
  | none => simp
  | some result =>
    constructor
    · intro h
      exact .inr ⟨result.1, result.2, rfl, h result rfl⟩
    · intro h result' hresult
      obtain hnone | ⟨a, mid, hsome, hmiss⟩ := h
      · cases hnone
      · obtain rfl : result' = (a, mid) := Option.some.inj (hresult.symm.trans hsome)
        exact hmiss

theorem reads_map {f : α → β} :
    (f <$> p).Reads text b rest ↔ ∃ a, p.Reads text a rest ∧ b = f a := by
  change (p >>= fun a => pure (f a)).Reads text b rest ↔ _
  simp only [reads_bind, reads_pure]
  constructor
  · intro h
    obtain ⟨a, mid, hp, rfl, rfl⟩ := h
    exact ⟨a, hp, rfl⟩
  · intro h
    obtain ⟨a, hp, rfl⟩ := h
    exact ⟨a, rest, hp, rfl, rfl⟩

theorem misses_map {f : α → β} : (f <$> p).Misses text ↔ p.Misses text := by
  change (p >>= fun a => pure (f a)).Misses text ↔ _
  simp only [misses_bind, misses_pure, and_false, exists_false, or_false]

private theorem result_orElse (p q : Reader α) (text : Text) :
    ((p <|> q) text).result = (p text).result.or (q text).result := by
  change ((p.orElse q) text).result = _
  unfold Reader.orElse
  split
  · next h => rw [h, Option.some_or]
  · next h => rw [h, Option.none_or, Reply.result_after]

theorem reads_orElse :
    (p <|> q).Reads text a rest ↔ p.Reads text a rest ∨ p.Misses text ∧ q.Reads text a rest := by
  unfold Reads
  rw [result_orElse, Option.or_eq_some_iff]
  exact Iff.rfl

theorem misses_orElse : (p <|> q).Misses text ↔ p.Misses text ∧ q.Misses text := by
  unfold Misses
  rw [result_orElse, Option.or_eq_none_iff]

theorem reads_optional {a? : Option α} :
    (optional p).Reads text a? rest ↔
      (∃ a, p.Reads text a rest ∧ a? = some a) ∨ p.Misses text ∧ a? = none ∧ rest = text := by
  unfold optional
  rw [reads_orElse, reads_map, misses_map]
  exact or_congr_right (and_congr_right fun _ => reads_pure)

theorem reads_char {c : Char} {u : Unit} : (char c).Reads text u rest ↔ text = c :: rest := by
  unfold Reads
  cases text with
  | nil => simp [char, miss]
  | cons d text =>
    simp only [char, List.cons.injEq]
    split_ifs with h
    · simp [h]
    · simp [miss, h]

theorem misses_char {c : Char} : (char c).Misses text ↔ text.head? ≠ some c := by
  unfold Misses
  cases text with
  | nil => simp [char, miss]
  | cons d text =>
    simp only [char, List.head?_cons, ne_eq, Option.some.injEq]
    split_ifs with h
    · simp [h]
    · simp [miss, h]

theorem reads_oneOf {cs : List Char} {c : Char} :
    (oneOf cs).Reads text c rest ↔ c ∈ cs ∧ text = c :: rest := by
  unfold Reads
  cases text with
  | nil => simp [oneOf, miss]
  | cons d text =>
    simp only [oneOf, List.cons.injEq]
    split_ifs with h
    · simp only [Option.some.injEq, Prod.mk.injEq]
      constructor
      · intro heq
        obtain ⟨rfl, rfl⟩ := heq
        exact ⟨h, rfl, rfl⟩
      · intro heq
        exact heq.2
    · simp only [miss, reduceCtorEq, false_iff, not_and]
      intro hc heq
      exact absurd hc (heq ▸ h)

theorem misses_oneOf {cs : List Char} :
    (oneOf cs).Misses text ↔ ∀ c ∈ cs, text.head? ≠ some c := by
  unfold Misses
  cases text with
  | nil => simp [oneOf, miss]
  | cons d text =>
    simp only [oneOf, List.head?_cons, ne_eq, Option.some.injEq]
    split_ifs with h
    · simp only [false_iff]
      intro hall
      exact hall d h rfl
    · simp only [miss, true_iff]
      intro c hc heq
      exact h (heq ▸ hc)

theorem reads_word {w : Text} {u : Unit} : (word w).Reads text u rest ↔ text = w ++ rest := by
  induction w generalizing text with
  | nil =>
    change (pure () : Reader Unit).Reads text u rest ↔ _
    rw [reads_pure]
    exact ⟨fun h => h.2.symm, fun h => ⟨rfl, h.symm⟩⟩
  | cons c w ih =>
    simp only [word, reads_bind, reads_char, ih, List.cons_append]
    constructor
    · intro h
      obtain ⟨_, mid, rfl, rfl⟩ := h
      rfl
    · intro h
      exact ⟨(), w ++ rest, h, rfl⟩

theorem misses_word {w : Text} : (word w).Misses text ↔ ∀ rest, text ≠ w ++ rest := by
  constructor
  · intro h rest heq
    exact (reads_word (u := ()).mpr heq).not_misses h
  · intro h
    refine (misses_or_reads (word w) text).resolve_right ?_
    intro hreads
    obtain ⟨_, rest, hreads⟩ := hreads
    exact h rest (reads_word.mp hreads)

@[simp] theorem reads_nested : (nested p).Reads text a rest ↔ p.Reads text a rest := by
  change (p text).nested.result = _ ↔ _
  rw [Reply.result_nested]
  rfl

theorem reads_whole : (whole p).Reads text a rest ↔ p.Reads text a [] ∧ rest = [] := by
  have hending {mid : Text} {u : Unit} {rest : Text} :
      ending.Reads mid u rest ↔ mid = [] ∧ rest = [] := by
    unfold Reads
    cases mid with
    | nil => simp [ending, eq_comm]
    | cons c mid => simp [ending, miss]
  unfold whole
  simp only [reads_bind, hending, reads_pure]
  constructor
  · intro h
    obtain ⟨a, mid, hp, _, _, ⟨rfl, rfl⟩, rfl, rfl⟩ := h
    exact ⟨hp, rfl⟩
  · intro h
    obtain ⟨hp, rfl⟩ := h
    exact ⟨a, [], hp, (), [], ⟨rfl, rfl⟩, rfl, rfl⟩

/-- The reader takes results from the front of the text until it does not fit any more. -/
inductive Repeats (p : Reader α) : Text → List α → Text → Prop
  | stop {text : Text} (h : p.Misses text) : Repeats p text [] text
  | more {text mid rest : Text} {a : α} {as : List α} (h : p.Reads text a mid)
    (hs : Repeats p mid as rest) : Repeats p text (a :: as) rest

/-- What the reader takes is never empty. -/
def Consumes (p : Reader α) : Prop :=
  ∀ text a rest, p.Reads text a rest → rest.length < text.length

private theorem not_misses_atMost {n : Nat} : ¬(atMost p n).Misses text := by
  cases n with
  | zero => exact misses_pure
  | succ n =>
    unfold atMost
    rw [misses_orElse]
    intro h
    exact misses_pure h.2

private theorem reads_atMost {n : Nat} {as : List α} (hp : p.Consumes) (hn : text.length < n) :
    (atMost p n).Reads text as rest ↔ p.Repeats text as rest := by
  induction n generalizing text as with
  | zero => omega
  | succ n ih =>
    unfold atMost
    rw [reads_orElse]
    change _ ∨ _ ∧ (pure [] : Reader (List α)).Reads text as rest ↔ _
    simp only [reads_bind, reads_pure, misses_bind, misses_pure, not_misses_atMost, and_false,
      exists_false, or_false]
    constructor
    · intro h
      obtain ⟨a, mid, ha, as, _, has, rfl, rfl⟩ | ⟨hmiss, rfl, rfl⟩ := h
      · have hmid := hp text a mid ha
        exact .more ha ((ih (by omega)).mp has)
      · exact .stop hmiss
    · intro h
      cases h with
      | stop hmiss => exact .inr ⟨hmiss, rfl, rfl⟩
      | more ha has =>
        have hmid := hp text _ _ ha
        exact .inl ⟨_, _, ha, _, _, (ih (by omega)).mpr has, rfl, rfl⟩

theorem reads_many {as : List α} (hp : p.Consumes) :
    (many p).Reads text as rest ↔ p.Repeats text as rest :=
  reads_atMost hp (Nat.lt_succ_self _)

end DiceExpr.Reader
