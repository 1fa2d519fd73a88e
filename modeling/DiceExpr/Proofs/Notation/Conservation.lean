import DiceExpr.Proofs.Contents
import DiceExpr.Proofs.Notation.RoundTrip
import Mathlib.Algebra.BigOperators.Group.List.Basic
import Mathlib.Algebra.Group.Prod
import Mathlib.Algebra.GroupWithZero.Nat
import Mathlib.Algebra.Order.Group.Multiset

namespace DiceExpr

namespace Part

variable {M : Type*} [AddCommMonoid M]

theorem sum_chunks (n : Nat) : (chunks n).sum = n := by
  have hmod := Nat.div_add_mod n Batch.mostDice
  rw [Nat.mul_comm] at hmod
  unfold chunks
  by_cases hrest : n % Batch.mostDice = 0
  · simpa [hrest] using hmod
  · simpa [hrest] using hmod

/-- Those parts that have a text, and the others. -/
private theorem sum_by_text (g : Text → M) (w : Text) (ps : List (Part α)) :
    (ps.map fun p => g p.text).sum =
      ps.countP (·.text = w) • g w + ((ps.filter (·.text ≠ w)).map fun p => g p.text).sum := by
  induction ps with
  | nil => simp
  | cons p ps ih =>
    by_cases heq : p.text = w
    · simp only [List.map_cons, List.sum_cons, ih, heq, List.countP_cons_of_pos, decide_true,
        succ_nsmul', List.filter_cons, ne_eq, not_true_eq_false, decide_false, Bool.false_eq_true,
        if_false, add_assoc]
    · have hne : p.text ≠ w := heq
      simp only [List.map_cons, List.sum_cons, ih, List.countP_cons, List.filter_cons, hne, ne_eq,
        decide_false, Bool.false_eq_true, if_false, not_false_eq_true, decide_true, if_true]
      exact add_left_comm _ _ _

/-- What the parts stand for adds up, if it depends on their texts and grows with their counts. -/
theorem sum_arranged (f : α → M) (g : Text → M) {parts : List (Part α)}
    (h : ∀ p ∈ parts, ∀ n, 0 < n → n ≤ Batch.mostDice → (p.isDie ∨ n = 1) →
      f (p.counted n) = n • g p.text) :
    ((arranged parts).map f).sum = (parts.map fun p => g p.text).sum := by
  have hstack : ∀ p ∈ parts, ∀ n, ((p.stack n).map f).sum = n • g p.text := by
    intro p hp n
    unfold stack
    by_cases hdie : p.isDie
    · have hchunks : (chunks n).map (f ∘ p.counted) = (chunks n).map (· • g p.text) := by
        refine List.map_congr_left fun k hk => ?_
        obtain ⟨hpos, hmost⟩ := le_of_mem_chunks hk
        exact h p hp k hpos hmost (.inl hdie)
      have hsum (ks : List Nat) : (ks.map (· • g p.text)).sum = ks.sum • g p.text := by
        induction ks with
        | nil => simp
        | cons k ks ih => simp [ih, add_nsmul]
      rw [if_pos hdie, List.map_map, hchunks, hsum, sum_chunks]
    · have hone := h p hp 1 (by decide) (by decide) (.inr rfl)
      rw [if_neg hdie, List.map_replicate, List.sum_replicate, hone, one_nsmul]
  induction hlen : parts.length using Nat.strongRecOn generalizing parts with
  | ind len ih =>
    cases parts with
    | nil => rfl
    | cons p ps =>
      have hsub (q : Part α) (hq : q ∈ ps.filter (·.text ≠ p.text)) : q ∈ p :: ps :=
        List.mem_cons_of_mem p (List.mem_of_mem_filter hq)
      have hshorter := List.length_filter_le (fun q : Part α => q.text ≠ p.text) ps
      rw [List.length_cons] at hlen
      have hrest := ih (ps.filter (·.text ≠ p.text)).length (by omega) (fun q hq => h q (hsub q hq))
        (fun q hq => hstack q (hsub q hq)) rfl
      rw [arranged_cons, List.map_append, List.sum_append, hstack p List.mem_cons_self, hrest,
        List.map_cons, List.sum_cons, sum_by_text g p.text ps, succ_nsmul']
      exact add_assoc _ _ _

theorem forall_arranged {P : α → Prop} {parts : List (Part α)}
    (h : ∀ p ∈ parts, ∀ n, 0 < n → n ≤ Batch.mostDice → (p.isDie ∨ n = 1) → P (p.counted n)) :
    ∀ a ∈ arranged parts, P a := by
  have hparts : List.Forall₂ (Alike fun a _ => P a) parts parts :=
    List.forall₂_same.mpr fun p hp => ⟨rfl, rfl, h p hp⟩
  have hall := forall₂_arranged hparts
  rw [List.forall₂_same] at hall
  exact hall

end Part

namespace Term

/-- The dice and the modifiers of some terms, where a counted die is there as often as that. -/
def content (ts : List Term) : Multiset DieToken × Multiset ModifierToken :=
  ((countsList ts).flatMap fun p => List.replicate (amount p.1) p.2, tokensList ts)

theorem content_append (ts us : List Term) : content (ts ++ us) = content ts + content us := by
  simp [content, countsList_eq_flatMap, tokensList_eq_flatMap, ← Multiset.coe_add]

theorem content_flatten (sums : List (List Term)) :
    content sums.flatten = (sums.map content).sum := by
  induction sums with
  | nil => rfl
  | cons ts sums ih => rw [List.flatten_cons, content_append, ih, List.map_cons, List.sum_cons]

theorem content_modifySum (isSum : Bool) (m : ModifierToken) (ts : List Term) :
    content (modifySum isSum m ts) = content ts + (0, {m}) := by
  have hgroup : content [.group ts [m]] = content ts + (0, {m}) := by
    simp [content, countsList, counts, tokensList, tokens, ← Multiset.coe_add]
  unfold modifySum
  split
  · split
    · exact hgroup
    · simp [content, countsList, counts_attach, tokensList, tokens_attach, ← Multiset.coe_add]
  · exact hgroup

end Term

namespace Tree

/-- The dice and the modifiers of a tree as they are written. -/
def content (t : Tree) : Multiset DieToken × Multiset ModifierToken :=
  (t.leaves.map Die.token, t.modifiers.map Modifier.token)

theorem content_pool (children : List Tree) :
    (pool children).content = (children.map content).sum := by
  induction children with
  | nil => rfl
  | cons c children ih =>
    rw [List.map_cons, List.sum_cons, ← ih]
    simp [content, ← Multiset.coe_add]

theorem toInt_clamp_count {n : Nat} (hn : n ≤ Batch.mostDice) : (Value.clamp n).toInt = n := by
  have hmost : Batch.mostDice = 1000 := rfl
  exact Value.toInt_clamp_of_mem (by omega) (by omega)

theorem amount_written {n : Nat} (hn : n ≤ Batch.mostDice) :
    Term.amount (if n = 1 then none else some (.clamp n)) = n := by
  unfold Term.amount
  by_cases hone : n = 1
  · rw [if_pos hone, hone]
    rfl
  · rw [if_neg hone, Option.getD_some, toInt_clamp_count hn, Int.toNat_natCast]

theorem content_written (d : Die) {n : Nat} (hn : n ≤ Batch.mostDice) :
    Term.content (d.written n) = n • (die d).content := by
  have hdice : Term.countsList (d.written n) =
      [(if n = 1 then none else some (.clamp n), d.token)] := by
    simp [Die.written, Term.countsList, Term.counts]
  have htokens : Term.tokensList (d.written n) = [] := by
    simp [Die.written, Term.tokensList, Term.tokens]
  simp [Term.content, content, hdice, htokens, amount_written hn, Multiset.nsmul_singleton,
    Multiset.coe_replicate]

/-- What a text that can be read contains. -/
def contentOfText (w : Text) : Multiset DieToken × Multiset ModifierToken :=
  match Term.ofText? w with
  | .ok ts => Term.content ts
  | .error _ => 0

theorem contentOfText_text {t : Tree} (h : ∀ n ∈ t.nodes, n.Written) :
    contentOfText t.text = Term.content t.terms := by
  rw [contentOfText, (terms_of_text h).mpr rfl]

/-- The terms of a tree hold what the tree holds. -/
theorem content_terms {t : Tree} (h : ∀ n ∈ t.nodes, n.Written) :
    Term.content t.terms = t.content := by
  induction t using plainInduction with
  | die d =>
    have hone := content_written d (n := 1) (by decide)
    rw [one_nsmul] at hone
    exact hone
  | pool children ih =>
    have hchildren := (forall_nodes_pool.mp h).2
    have hcontent (c : Tree) (hc : c ∈ children) : contentOfText c.text = c.content := by
      rw [contentOfText_text (hchildren c hc), ih c hc (hchildren c hc)]
    -- children that are written alike are counted as one of them, so equal texts must hold the same
    have hsum : ((Part.arranged (termParts children)).map Term.content).sum =
        ((termParts children).map fun p => contentOfText p.text).sum :=
      Part.sum_arranged Term.content contentOfText ?_
    · rw [terms, Term.content_flatten, hsum, content_pool, termParts_eq_map, List.map_map]
      exact congrArg List.sum (List.map_congr_left hcontent)
    · rw [termParts_eq_map]
      intro p hp n hpos hmost hone
      obtain ⟨c, hc, rfl⟩ := List.mem_map.mp hp
      change Term.content ((c.termPart c.terms).counted n) = n • contentOfText c.text
      rw [hcontent c hc]
      cases c with
      | die d => exact content_written d hmost
      | pool cs =>
        rw [hone.resolve_left Bool.false_ne_true, one_nsmul]
        exact ih _ hc (hchildren _ hc)
      | modified inner m =>
        rw [hone.resolve_left Bool.false_ne_true, one_nsmul]
        exact ih _ hc (hchildren _ hc)
  | modified inner m ih =>
    rw [terms, Term.content_modifySum, ih (forall_nodes_modified.mp h).2]
    simp only [content, leaves_modified, modifiers_modified, List.map_cons, ← Multiset.cons_coe,
      ← Multiset.singleton_add, Prod.mk_add_mk, add_zero]
    rw [add_comm]

/-- A count that is written lies between two and a thousand. -/
def CountsFit (s : Term) : Prop := ∀ p ∈ s.counts, ∀ n ∈ p.1, 2 ≤ n ∧ n ≤ 1000

theorem countsFit_written (d : Die) {n : Nat} (hpos : 0 < n) (hmost : n ≤ Batch.mostDice) :
    ∀ s ∈ d.written n, CountsFit s := by
  have hmostDice : Batch.mostDice = 1000 := rfl
  intro s hs p hp v hv
  rw [List.mem_singleton.mp hs, Term.counts, List.mem_singleton] at hp
  rw [hp] at hv
  by_cases hone : n = 1
  · simp [hone] at hv
  · have htwo : (2 : Value).toInt = 2 := rfl
    have hthousand : (1000 : Value).toInt = 1000 := rfl
    rw [if_neg hone, Option.mem_def, Option.some.injEq] at hv
    rw [← hv, Value.le_def, Value.le_def, toInt_clamp_count hmost, htwo, hthousand]
    omega

theorem countsFit_modifySum {isSum : Bool} {m : ModifierToken} {ts : List Term}
    (h : ∀ s ∈ ts, CountsFit s) : ∀ s ∈ Term.modifySum isSum m ts, CountsFit s := by
  have hgroup : CountsFit (.group ts [m]) := by
    intro p hp
    rw [Term.counts, Term.countsList_eq_flatMap] at hp
    obtain ⟨s, hs, hp⟩ := List.mem_flatMap.mp hp
    exact h s hs p hp
  unfold Term.modifySum
  split
  · next t =>
    split
    · exact List.forall_mem_singleton.mpr hgroup
    · have hattach : CountsFit (t.attach m) := by
        unfold CountsFit
        rw [Term.counts_attach]
        exact h t (List.mem_singleton_self t)
      exact List.forall_mem_singleton.mpr hattach
  · exact List.forall_mem_singleton.mpr hgroup

theorem countsFit_terms (t : Tree) : ∀ s ∈ t.terms, CountsFit s := by
  induction t using plainInduction with
  | die d => exact countsFit_written d (by decide) (by decide)
  | pool children ih =>
    have hall : ∀ sum ∈ Part.arranged (termParts children), ∀ s ∈ sum, CountsFit s := by
      refine Part.forall_arranged ?_
      rw [termParts_eq_map]
      intro p hp n hpos hmost hone
      obtain ⟨c, hc, rfl⟩ := List.mem_map.mp hp
      cases c with
      | die d => exact countsFit_written d hpos hmost
      | pool cs => exact ih _ hc
      | modified inner m => exact ih _ hc
    rw [terms]
    intro s hs
    obtain ⟨sum, hsum, hs⟩ := List.mem_flatten.mp hs
    exact hall sum hsum s hs
  | modified inner m ih =>
    rw [terms]
    exact countsFit_modifySum ih

/-- The text of a tree can be read, and what is read has the dice and the modifiers of the tree. -/
theorem ofText?_text_keeps_content {t : Tree} (h : ∀ n ∈ t.nodes, n.Written) :
    ∃ terms, Term.ofText? t.text = .ok terms ∧ Term.content terms = t.content ∧
      ∀ p ∈ Term.countsList terms, ∀ n ∈ p.1, 2 ≤ n ∧ n ≤ 1000 := by
  refine ⟨t.terms, (terms_of_text h).mpr rfl, content_terms h, fun p hp => ?_⟩
  rw [Term.countsList_eq_flatMap] at hp
  obtain ⟨s, hs, hp⟩ := List.mem_flatMap.mp hp
  exact countsFit_terms t s hs p hp

/-- Where a pool of one die comes before a die that is written alike, neither of them is counted. -/
theorem ofText?_text_of_alike_children :
    let d6 := die (.sided 6)
    let t := modified (pool [pool [d6], d6, die (.sided 0), die (.sided 0)])
      (.select ⟨.keep, .high, 2⟩)
    t.text = "(D6+D6+2D0)KH2".toList ∧ (∀ n ∈ t.nodes, n.Written) ∧
      ∃ terms, Term.ofText? t.text = .ok terms ∧ Term.content terms = t.content ∧
        ∀ p ∈ Term.countsList terms, ∀ n ∈ p.1, 2 ≤ n ∧ n ≤ 1000 := by
  intro d6 t
  have htext : t.text = "(D6+D6+2D0)KH2".toList := by decide +kernel
  have hwritten : ∀ n ∈ t.nodes, n.Written := by decide
  exact ⟨htext, hwritten, ofText?_text_keeps_content hwritten⟩

end Tree

end DiceExpr
