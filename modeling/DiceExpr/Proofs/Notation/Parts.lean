import DiceExpr.Tree.Text
import Mathlib.Data.List.Forall2

namespace DiceExpr

/-- A child of a pool as it stands in the text of the pool, where dice are counted. -/
structure Part (α : Type) where
  text : Text
  isDie : Bool
  counted : Nat → α

namespace Part

def insert (p : Part α) : List (Part α × Nat) → List (Part α × Nat)
  | [] => [(p, 1)]
  | (q, n) :: rest => if q.text = p.text then (q, n + 1) :: rest else (q, n) :: insert p rest

/-- The first part of each text, and how many parts there are of that text. -/
def tally (parts : List (Part α)) : List (Part α × Nat) :=
  parts.foldl (fun counts p => insert p counts) []

/-- The counts that a number of equal dice is written with. -/
def chunks (n : Nat) : List Nat :=
  List.replicate (n / Batch.mostDice) Batch.mostDice ++
    if n % Batch.mostDice = 0 then [] else [n % Batch.mostDice]

/-- Some parts of which there are `n`. -/
def stack (p : Part α) (n : Nat) : List α :=
  if p.isDie then (chunks n).map p.counted else List.replicate n (p.counted 1)

/-- The parts of a pool in the order of its text. -/
def arranged (parts : List (Part α)) : List α := (tally parts).flatMap fun (p, n) => p.stack n

theorem le_of_mem_chunks {n k : Nat} (h : k ∈ chunks n) : 0 < k ∧ k ≤ Batch.mostDice := by
  have hmost : Batch.mostDice = 1000 := rfl
  unfold chunks at h
  rcases List.mem_append.mp h with h | h
  · rw [(List.mem_replicate.mp h).2]
    omega
  · split at h
    · cases h
    · rw [List.mem_singleton.mp h]
      have := Nat.mod_lt n (by omega : 0 < Batch.mostDice)
      omega

/-- Two parts that are told apart in the same way, and stand for related things. -/
structure Alike (R : α → β → Prop) (p : Part α) (q : Part β) : Prop where
  text : p.text = q.text
  isDie : p.isDie = q.isDie
  counted : ∀ n, 0 < n → n ≤ Batch.mostDice → (p.isDie ∨ n = 1) → R (p.counted n) (q.counted n)

variable {R : α → β → Prop}

/-- Related parts, of which there are equally many. -/
private def Paired (R : α → β → Prop) (a : Part α × Nat) (b : Part β × Nat) : Prop :=
  Alike R a.1 b.1 ∧ a.2 = b.2

private theorem paired_insert {p : Part α} {q : Part β} (h : Alike R p q)
    {as : List (Part α × Nat)} {bs : List (Part β × Nat)} (hs : List.Forall₂ (Paired R) as bs) :
    List.Forall₂ (Paired R) (insert p as) (insert q bs) := by
  induction hs with
  | nil => exact .cons ⟨h, rfl⟩ .nil
  | @cons a b as bs hab hs ih =>
    obtain ⟨a, n⟩ := a
    obtain ⟨b, k⟩ := b
    obtain ⟨halike, rfl⟩ := hab
    have hiff : a.text = p.text ↔ b.text = q.text := by rw [halike.text, h.text]
    by_cases heq : a.text = p.text
    · rw [insert, insert, if_pos heq, if_pos (hiff.mp heq)]
      exact .cons ⟨halike, rfl⟩ hs
    · rw [insert, insert, if_neg heq, if_neg fun h => heq (hiff.mpr h)]
      exact .cons ⟨halike, rfl⟩ ih

private theorem paired_tally {ps : List (Part α)} {qs : List (Part β)}
    (h : List.Forall₂ (Alike R) ps qs) : List.Forall₂ (Paired R) (tally ps) (tally qs) := by
  have hfold : ∀ as bs, List.Forall₂ (Paired R) as bs →
      List.Forall₂ (Paired R) (ps.foldl (fun counts p => insert p counts) as)
        (qs.foldl (fun counts p => insert p counts) bs) := by
    induction h with
    | nil => exact fun as bs hs => hs
    | cons hpq _ ih => exact fun as bs hs => ih _ _ (paired_insert hpq hs)
  exact hfold [] [] .nil

private theorem forall₂_stack {p : Part α} {q : Part β} (h : Alike R p q) (n : Nat) :
    List.Forall₂ R (p.stack n) (q.stack n) := by
  have hdie := h.isDie
  unfold stack
  by_cases hp : p.isDie
  · rw [if_pos hp, if_pos (hdie ▸ hp)]
    rw [List.forall₂_map_left_iff, List.forall₂_map_right_iff, List.forall₂_same]
    intro k hk
    obtain ⟨hpos, hmost⟩ := le_of_mem_chunks hk
    exact h.counted k hpos hmost (.inl hp)
  · rw [if_neg hp, if_neg (hdie ▸ hp)]
    have hone := h.counted 1 (by decide) (by decide) (.inr rfl)
    induction n with
    | zero => exact .nil
    | succ n ih => exact .cons hone ih

/-- What is arranged depends only on the texts of the parts and on which of them are dice. -/
theorem forall₂_arranged {ps : List (Part α)} {qs : List (Part β)}
    (h : List.Forall₂ (Alike R) ps qs) : List.Forall₂ R (arranged ps) (arranged qs) := by
  refine List.rel_flatMap (paired_tally h) ?_
  intro a b hab
  obtain ⟨p, n⟩ := a
  obtain ⟨q, k⟩ := b
  obtain ⟨halike, rfl⟩ := hab
  exact forall₂_stack halike n

private theorem insert_pos (p : Part α) {counts : List (Part α × Nat)}
    (h : ∀ c ∈ counts, 0 < c.2) : ∀ c ∈ insert p counts, 0 < c.2 := by
  induction counts with
  | nil => simp [insert]
  | cons c counts ih =>
    obtain ⟨q, n⟩ := c
    have hn := h (q, n) List.mem_cons_self
    have hrest : ∀ c ∈ counts, 0 < c.2 := fun c hc => h c (List.mem_cons_of_mem (q, n) hc)
    unfold insert
    intro c hc
    split at hc
    · rcases List.mem_cons.mp hc with rfl | hc
      · exact Nat.succ_pos n
      · exact hrest c hc
    · rcases List.mem_cons.mp hc with rfl | hc
      · exact hn
      · exact ih hrest c hc

private theorem insert_ne_nil (p : Part α) (counts : List (Part α × Nat)) :
    insert p counts ≠ [] := by
  cases counts with
  | nil => exact List.cons_ne_nil _ _
  | cons c counts =>
    unfold insert
    split <;> exact List.cons_ne_nil _ _

private theorem tally_pos (parts : List (Part α)) :
    (∀ c ∈ tally parts, 0 < c.2) ∧ (parts ≠ [] → tally parts ≠ []) := by
  have hfold : ∀ counts : List (Part α × Nat), (∀ c ∈ counts, 0 < c.2) →
      (∀ c ∈ parts.foldl (fun counts p => insert p counts) counts, 0 < c.2) ∧
        (counts ≠ [] ∨ parts ≠ [] →
          parts.foldl (fun counts p => insert p counts) counts ≠ []) := by
    induction parts with
    | nil => exact fun counts h => ⟨h, fun hne => hne.resolve_right fun h => h rfl⟩
    | cons p parts ih =>
      intro counts h
      obtain ⟨hpos, hne⟩ := ih (insert p counts) (insert_pos p h)
      exact ⟨hpos, fun _ => hne (.inl (insert_ne_nil p counts))⟩
  obtain ⟨hpos, hne⟩ := hfold [] (by simp)
  exact ⟨hpos, fun h => hne (.inr h)⟩

theorem chunks_ne_nil {n : Nat} (hn : 0 < n) : chunks n ≠ [] := by
  unfold chunks
  intro h
  rw [List.append_eq_nil_iff, List.replicate_eq_nil_iff] at h
  have hmod := Nat.div_add_mod n Batch.mostDice
  by_cases hrest : n % Batch.mostDice = 0
  · rw [h.1, hrest] at hmod
    omega
  · rw [if_neg hrest] at h
    exact absurd h.2 (List.cons_ne_nil _ _)

theorem chunks_of_le {n : Nat} (hn : 0 < n) (hmost : n ≤ Batch.mostDice) : chunks n = [n] := by
  have hmostDice : Batch.mostDice = 1000 := rfl
  unfold chunks
  by_cases hall : n = Batch.mostDice
  · rw [hall]
    rfl
  · have hdiv : n / Batch.mostDice = 0 := Nat.div_eq_of_lt (by omega)
    have hmod : n % Batch.mostDice = n := Nat.mod_eq_of_lt (by omega)
    rw [hdiv, hmod, if_neg (by omega)]
    rfl

theorem stack_ne_nil (p : Part α) {n : Nat} (hn : 0 < n) : p.stack n ≠ [] := by
  unfold stack
  split
  · exact fun h => chunks_ne_nil hn (List.map_eq_nil_iff.mp h)
  · intro h
    rw [List.replicate_eq_nil_iff] at h
    omega

theorem arranged_ne_nil {parts : List (Part α)} (h : parts ≠ []) : arranged parts ≠ [] := by
  obtain ⟨hpos, hne⟩ := tally_pos parts
  obtain ⟨c, hc⟩ := List.exists_mem_of_ne_nil _ (hne h)
  intro hnil
  have hstack := List.flatMap_eq_nil_iff.mp hnil c hc
  exact stack_ne_nil c.1 (hpos c hc) hstack

private theorem foldl_insert (ps : List (Part α)) (q : Part α) (n : Nat)
    (counts : List (Part α × Nat)) :
    ps.foldl (fun counts p => insert p counts) ((q, n) :: counts) =
      (q, n + ps.countP (·.text = q.text)) ::
        (ps.filter (·.text ≠ q.text)).foldl (fun counts p => insert p counts) counts := by
  induction ps generalizing n counts with
  | nil => simp
  | cons p ps ih =>
    by_cases heq : p.text = q.text
    · have hinsert : insert p ((q, n) :: counts) = (q, n + 1) :: counts := by
        rw [insert, if_pos heq.symm]
      rw [List.foldl_cons, hinsert, ih, List.countP_cons_of_pos (by simpa using heq),
        List.filter_cons_of_neg (by simpa using heq), Nat.add_right_comm, Nat.add_assoc]
    · have hinsert : insert p ((q, n) :: counts) = (q, n) :: insert p counts := by
        rw [insert, if_neg (Ne.symm heq)]
      rw [List.foldl_cons, hinsert, ih, List.countP_cons_of_neg (by simpa using heq),
        List.filter_cons_of_pos (by simpa using heq), List.foldl_cons]

/-- The first part comes first, as often as there are parts of its text. -/
theorem arranged_cons (p : Part α) (ps : List (Part α)) :
    arranged (p :: ps) =
      p.stack (ps.countP (·.text = p.text) + 1) ++ arranged (ps.filter (·.text ≠ p.text)) := by
  have htally := foldl_insert ps p 1 []
  rw [Nat.add_comm] at htally
  rw [arranged, tally, List.foldl_cons, insert, htally, List.flatMap_cons]
  rfl

/-- Parts that are written alike at the beginning, and nowhere else. -/
theorem arranged_run (p : Part α) (k : Nat) {ps : List (Part α)} (h : ∀ q ∈ ps, q.text ≠ p.text) :
    arranged (List.replicate (k + 1) p ++ ps) = p.stack (k + 1) ++ arranged ps := by
  have hfilter : (List.replicate k p ++ ps).filter (·.text ≠ p.text) = ps := by simpa using h
  have hcount : (List.replicate k p ++ ps).countP (·.text = p.text) = k := by
    rw [List.countP_append, List.countP_replicate, if_pos (by simp)]
    simpa using h
  rw [List.replicate_succ, List.cons_append, arranged_cons, hfilter, hcount]

end Part

namespace Tree

/-- The text of a child, with the count before it. -/
def textPart (t : Tree) : Part Text := ⟨t.text, t.isDie, Batch.counted t.text⟩

/-- The batch of a text part that there are so many of. -/
private def Tallies (b : Batch) (a : Part Text × Nat) : Prop :=
  b = ⟨a.1.text, a.2, a.1.isDie⟩ ∧ a.1.counted = Batch.counted a.1.text

private theorem tallies_insert (t : Tree) {bs : List Batch} {as : List (Part Text × Nat)}
    (h : List.Forall₂ Tallies bs as) :
    List.Forall₂ Tallies (Batch.insert t.text t.isDie bs) (t.textPart.insert as) := by
  induction h with
  | nil => exact .cons ⟨rfl, rfl⟩ .nil
  | @cons b a bs as hba h ih =>
    obtain ⟨p, n⟩ := a
    obtain ⟨rfl, hcounted⟩ := hba
    by_cases heq : p.text = t.text
    · rw [Batch.insert, Part.insert, if_pos heq, if_pos (by exact heq)]
      exact .cons ⟨rfl, hcounted⟩ h
    · rw [Batch.insert, Part.insert, if_neg heq, if_neg (by exact heq)]
      exact .cons ⟨rfl, hcounted⟩ ih

private theorem tallies_ofList (children : List Tree) :
    List.Forall₂ Tallies (Batch.ofList (texts children)) (Part.tally (children.map textPart)) := by
  have hfold : ∀ bs as, List.Forall₂ Tallies bs as →
      List.Forall₂ Tallies
        ((texts children).foldl (fun batches c => Batch.insert c.1 c.2 batches) bs)
        ((children.map textPart).foldl (fun counts p => Part.insert p counts) as) := by
    induction children with
    | nil => exact fun bs as h => h
    | cons t children ih => exact fun bs as h => ih _ _ (tallies_insert t h)
  exact hfold [] [] .nil

theorem poolText_eq {children : List Tree} (hne : children ≠ []) :
    poolText (texts children) = Text.joined ['+'] (Part.arranged (children.map textPart)) := by
  have hbatches : List.Forall₂ Eq ((Batch.ofList (texts children)).flatMap Batch.texts)
      (Part.arranged (children.map textPart)) := by
    refine List.rel_flatMap (tallies_ofList children) ?_
    intro b a hba
    obtain ⟨p, n⟩ := a
    obtain ⟨rfl, hcounted⟩ := hba
    rw [List.forall₂_eq_eq_eq]
    change Batch.texts ⟨p.text, n, p.isDie⟩ = p.stack n
    unfold Batch.texts Part.stack
    by_cases hdie : p.isDie
    · rw [if_pos hdie, if_pos hdie, hcounted, Part.chunks, List.map_append, List.map_replicate]
      split <;> rfl
    · rw [if_neg hdie, if_neg hdie, hcounted]
      rfl
  rw [List.forall₂_eq_eq_eq] at hbatches
  have htexts : texts children ≠ [] := by
    rw [texts_eq_map]
    simpa using hne
  rw [poolText, if_neg (by simpa using htexts), hbatches]

end Tree

end DiceExpr
