import DiceExpr.Proofs.Building.Concurrence
import DiceExpr.Proofs.Building.Parentheses
import DiceExpr.Proofs.Nesting.Depth
import DiceExpr.Proofs.Notation.RoundTrip

namespace DiceExpr

/-- The same modifier, but an explosion with another limit. -/
def Modifier.withLimit (limit : Nat) : Modifier → Modifier
  | .explode condition _ => .explode condition limit
  | m => m

namespace Tree

mutual

/-- The same tree, but all its explosions with another limit. -/
def withLimit (limit : Nat) : Tree → Tree
  | die d => die d
  | pool children => pool (withLimitList limit children)
  | modified inner m => modified (inner.withLimit limit) (m.withLimit limit)

def withLimitList (limit : Nat) : List Tree → List Tree
  | [] => []
  | t :: rest => t.withLimit limit :: withLimitList limit rest

end

variable (limit : Nat)

theorem withLimitList_eq_map (ts : List Tree) :
    withLimitList limit ts = ts.map (withLimit limit) := by
  induction ts with
  | nil => rfl
  | cons t rest ih => rw [withLimitList, ih, List.map_cons]

theorem withLimit_pool (children : List Tree) :
    (pool children).withLimit limit = pool (children.map (withLimit limit)) := by
  rw [withLimit, withLimitList_eq_map]

theorem nodes_withLimit (t : Tree) :
    (t.withLimit limit).nodes = t.nodes.map (withLimit limit) := by
  induction t using plainInduction with
  | die d => rfl
  | pool children ih =>
    have hchildren : (children.map (withLimit limit)).flatMap nodes =
        children.flatMap fun c => c.nodes.map (withLimit limit) := by
      rw [List.flatMap_map]
      exact List.flatMap_congr ih
    rw [nodes, withLimit_pool, nodes, nodesList_eq_flatMap, nodesList_eq_flatMap, hchildren,
      List.map_cons, List.map_flatMap, withLimit_pool]
  | modified inner m ih => rw [nodes, withLimit, nodes, ih, List.map_cons, withLimit]

theorem partCount_withLimit (t : Tree) : (t.withLimit limit).partCount = t.partCount := by
  induction t using plainInduction with
  | die d => rfl
  | pool children _ => rw [withLimit_pool, partCount, List.length_map, partCount]
  | modified inner m ih =>
    cases m with
    | calculate op operand => rfl
    | select selection => exact congrArg selection.remaining ih
    | explode condition _ =>
      cases inner with
      | die d => rfl
      | pool children =>
        rw [withLimit, withLimit_pool]
        exact List.length_map _
      | modified inner m => rfl

theorem text_withLimit_modifier (m : Modifier) : (m.withLimit limit).text = m.text := by
  cases m with
  | calculate op operand => rfl
  | select selection => rfl
  | explode condition _ =>
    obtain ⟨comparator, expected⟩ := condition
    cases comparator <;> rfl

/-- The limit of an explosion is not written. -/
theorem text_withLimit (t : Tree) : (t.withLimit limit).text = t.text := by
  induction t using plainInduction with
  | die d => rfl
  | pool children ih =>
    have hdie (c : Tree) : (c.withLimit limit).isDie = c.isDie := by cases c <;> rfl
    have hchildren : texts (children.map (withLimit limit)) = texts children := by
      rw [texts_eq_map, texts_eq_map, List.map_map]
      refine List.map_congr_left fun c hc => ?_
      rw [Function.comp_apply, ih c hc, hdie]
    rw [withLimit_pool, text, hchildren, text]
  | modified inner m ih => rw [withLimit, text, ih, modifiedText, text_withLimit_modifier]; rfl

theorem check_withLimit (t : Tree) (m : Modifier) :
    (t.withLimit limit).check (m.withLimit limit) = t.check m := by
  rw [check_congr (t.partCount_withLimit limit)]
  cases m <;> rfl

theorem collapse_withLimit (t : Tree) :
    (t.withLimit limit).collapse = t.collapse.withLimit limit := by
  match t with
  | die _ => rfl
  | pool [] => rfl
  | pool [_] => rfl
  | pool (_ :: _ :: _) => rfl
  | modified _ _ => rfl

theorem isEmptyPool_withLimit (t : Tree) : (t.withLimit limit).isEmptyPool = t.isEmptyPool := by
  match t with
  | die _ => rfl
  | pool [] => rfl
  | pool (_ :: _) => rfl
  | modified _ _ => rfl

theorem ofList_withLimit (ts : List Tree) :
    ofList (ts.map (withLimit limit)) = (ofList ts).withLimit limit := by
  rw [ofList, ofList, withLimit_pool, List.filter_map]
  simp only [Function.comp_def, isEmptyPool_withLimit]

theorem replicate_withLimit (n : Nat) (d : Die) :
    (replicate n (die d)).withLimit limit = replicate n (die d) := by
  rw [Limits.replicate_die, withLimit_pool, List.map_replicate]
  rfl

end Tree

namespace Limits

open DiceExpr.Tree

/-! Wider limits -/

section Wider

variable {limits limits' : Limits}

/-- Only the limit of explosions stands in what is built. -/
theorem modifyAll?_congr (hlimit : limits.mostRerolls = limits'.mostRerolls) (base : Tree)
    (tokens : List ModifierToken) :
    limits.modifyAll? base tokens = limits'.modifyAll? base tokens := by
  have hmodifier (token : ModifierToken) : limits.modifier? token = limits'.modifier? token := by
    obtain ⟨kind, symbol, value⟩ := token
    cases kind <;> simp only [modifier?, hlimit]
  simp only [modifyAll?_eq_foldlM, hmodifier]

theorem quantity?_of_le (hdice : limits.mostDice ≤ limits'.mostDice) {written : Option Value}
    {n : Nat} (h : limits.quantity? written = .ok n) : limits'.quantity? written = .ok n := by
  simp only [quantity?] at h ⊢
  split at h
  · cases h
  · next hpos =>
    split at h
    · cases h
    · next hmost =>
      have hmost' : ¬limits'.mostDice < (written.getD 1).toInt.toNat := by omega
      rwa [if_neg hpos, if_neg hmost']

/-- What is built within some limits is built the same within wider ones. -/
def Keeps (limits limits' : Limits) (s : Term) : Prop :=
  ∀ t, limits.term? s = .ok t → limits'.term? s = .ok t

theorem terms?_of_keeps {ss : List Term} (h : ∀ s ∈ ss, limits.Keeps limits' s) {ts : List Tree}
    (hts : limits.terms? ss = .ok ts) : limits'.terms? ss = .ok ts := by
  rw [terms?_eq_ok] at hts ⊢
  induction hts with
  | nil => exact .nil
  | cons hst _ ih =>
    obtain ⟨hs, hss⟩ := List.forall_mem_cons.mp h
    exact .cons (hs _ hst) (ih hss)

theorem keeps (hlimit : limits.mostRerolls = limits'.mostRerolls)
    (hdice : limits.mostDice ≤ limits'.mostDice) (s : Term) : limits.Keeps limits' s := by
  induction s using Term.induction with
  | dice quantity type modifiers =>
    intro t h
    simp only [term?, bind_eq_ok] at h ⊢
    obtain ⟨d, hd, n, hn, h⟩ := h
    refine ⟨d, hd, n, quantity?_of_le hdice hn, ?_⟩
    rwa [← modifyAll?_congr hlimit]
  | group inner modifiers ih =>
    intro t h
    simp only [term?, bind_eq_ok] at h ⊢
    obtain ⟨trees, htrees, h⟩ := h
    refine ⟨trees, terms?_of_keeps ih htrees, ?_⟩
    rwa [← modifyAll?_congr hlimit]

end Wider

/-! Another limit of explosions -/

/-- The same limits, but for explosions. -/
def withRerolls (limits : Limits) (limit : Nat) : Limits := { limits with mostRerolls := limit }

variable (limits : Limits) (limit : Nat)

theorem concurs_modifier (token : ModifierToken) : Concurs (fun m m' => m' = m.withLimit limit)
    (limits.modifier? token) ((limits.withRerolls limit).modifier? token) := by
  obtain ⟨kind, symbol, value⟩ := token
  cases kind with
  | calculate => exact (Concurs.rfl _).map fun op op' h => by rw [h]; rfl
  | select =>
    simp only [modifier?]
    split
    · exact .fault _
    · exact (Concurs.rfl _).map fun s s' h => by rw [h]; rfl
  | explode => exact (Concurs.rfl _).map fun c c' h => by rw [h]; rfl

theorem concurs_modifyAll (base : Tree) (tokens : List ModifierToken) :
    Concurs (fun t t' => t' = t.withLimit limit) (limits.modifyAll? base tokens)
      ((limits.withRerolls limit).modifyAll? (base.withLimit limit) tokens) := by
  have hstep (t t' : Tree) (token : ModifierToken) (ht : t' = t.withLimit limit) :
      Concurs (fun t t' => t' = t.withLimit limit) (limits.modifier? token >>= t.modify?)
        ((limits.withRerolls limit).modifier? token >>= t'.modify?) := by
    refine (concurs_modifier limits limit token).bind fun m m' hm => ?_
    rw [ht, hm]
    exact concurs_modify (t.check_withLimit limit m).symm rfl
  rw [modifyAll?_eq_foldlM, modifyAll?_eq_foldlM]
  exact Concurs.foldlM hstep rfl tokens

/-- What is built with one limit of explosions is built with another one, but for that limit. -/
theorem concurs_sum {ss : List Term} (h : ∀ s ∈ ss, Concurs (fun t t' => t' = t.withLimit limit)
    (limits.term? s) ((limits.withRerolls limit).term? s)) :
    Concurs (fun t t' => t' = t.withLimit limit) (limits.sum? ss)
      ((limits.withRerolls limit).sum? ss) := by
  refine (concurs_terms h).map fun ts ts' hts => ?_
  have hmap : ts' = ts.map (withLimit limit) := by
    induction hts with
    | nil => rfl
    | cons ht _ ih => rw [ht, ih, List.map_cons]
  rw [hmap, ofList_withLimit, collapse_withLimit]

theorem concurs_term (s : Term) : Concurs (fun t t' => t' = t.withLimit limit) (limits.term? s)
    ((limits.withRerolls limit).term? s) := by
  have hcollapse (t t' : Tree) (h : t' = t.withLimit limit) :
      t'.collapse = t.collapse.withLimit limit := by rw [h, collapse_withLimit]
  induction s using Term.induction with
  | dice quantity type modifiers =>
    refine (Concurs.rfl type.die?).bind fun d d' hd => ?_
    refine (Concurs.rfl (limits.quantity? quantity)).bind fun n n' hn => ?_
    have hbase := replicate_withLimit limit n d
    have hmodified := concurs_modifyAll limits limit (Tree.replicate n (die d)) modifiers
    rw [hbase] at hmodified
    rw [← hd, ← hn]
    exact hmodified.map hcollapse
  | group inner modifiers ih =>
    rw [term?_group, term?_group]
    refine (concurs_sum limits limit ih).bind fun base base' hbase => ?_
    rw [hbase]
    exact (concurs_modifyAll limits limit base modifiers).map hcollapse

end Limits

namespace Tree

/-- Limits decide what is refused and not what is built. A tree that is built within some limits is
built within wider ones, too. The limit of explosions does not even decide what is refused: it is
written into the tree and makes no other difference, neither to its text nor to its parts. -/
theorem limits_only_refuse (text : Text) :
    (∀ limits limits' : Limits, limits.mostRerolls = limits'.mostRerolls →
      limits.mostDice ≤ limits'.mostDice → limits.deepestGroup ≤ limits'.deepestGroup →
      ∀ t, ofText? limits text = .ok t → ofText? limits' text = .ok t) ∧
    ∀ (limits : Limits) (limit : Nat),
      Concurs (fun t t' => t' = t.withLimit limit ∧ t'.text = t.text ∧
          t'.nodes.map partCount = t.nodes.map partCount)
        (ofText? limits text) (ofText? (limits.withRerolls limit) text) := by
  constructor
  · intro limits limits' hlimit hdice hgroup t h
    simp only [ofText?_checked_once, Limits.sum?, Limits.bind_eq_ok] at h ⊢
    obtain ⟨⟨⟩, hdepth, terms, hterms, trees, htrees, ht⟩ := h
    have hdepth' : limits'.checkDepth text.parenDepth = .ok () :=
      checkDepth_eq_ok.mpr ((checkDepth_eq_ok.mp hdepth).trans hgroup)
    have hkeeps (s : Term) (_ : s ∈ terms) : limits.Keeps limits' s := Limits.keeps hlimit hdice s
    exact ⟨(), hdepth', terms, hterms, trees, Limits.terms?_of_keeps hkeeps htrees, ht⟩
  · intro limits limit
    have hsum (terms : List Term) : Concurs (fun t t' => t' = t.withLimit limit)
        (limits.sum? terms) ((limits.withRerolls limit).sum? terms) :=
      Limits.concurs_sum limits limit fun s _ => Limits.concurs_term limits limit s
    have hbuilt : Concurs (fun t t' => t' = t.withLimit limit) (ofText? limits text)
        (ofText? (limits.withRerolls limit) text) := by
      rw [ofText?_checked_once, ofText?_checked_once]
      refine (Concurs.rfl (limits.checkDepth text.parenDepth)).bind fun _ _ _ => ?_
      refine (Concurs.rfl (Term.ofText? text)).bind fun terms terms' hterms => ?_
      rw [← hterms]
      exact hsum terms
    refine hbuilt.imp fun t t' ht => ?_
    have hcounts : (t.nodes.map (withLimit limit)).map partCount = t.nodes.map partCount := by
      rw [List.map_map]
      exact List.map_congr_left fun n _ => n.partCount_withLimit limit
    rw [ht, t.nodes_withLimit limit]
    exact ⟨rfl, t.text_withLimit limit, hcounts⟩

/-- The three dice are as many as the limits allow, and so is the one group. -/
theorem limits_only_refuse_of_exploding_group :
    let limits : Limits := { mostDice := 3, mostRerolls := 5, deepestGroup := 1 }
    let limits' : Limits := { mostDice := 10, mostRerolls := 5, deepestGroup := 4 }
    let text : Text := "(3d6!6 + d4) kh1 + 2".toList
    let t := modified (modified (pool [modified (replicate 3 (die (.sided 6)))
      (.explode ⟨.eq, 6⟩ 5), die (.sided 4)]) (.select ⟨.keep, .high, 1⟩)) (.calculate .add 2)
    limits.mostRerolls = limits'.mostRerolls ∧ limits.mostDice ≤ limits'.mostDice ∧
      limits.deepestGroup ≤ limits'.deepestGroup ∧ ofText? limits text = .ok t ∧
      ofText? limits' text = .ok t ∧
      ofText? (limits.withRerolls 9) text = .ok (t.withLimit 9) := by
  intro limits limits' text t
  have hbuilt : ofText? limits text = .ok t := by decide +kernel
  have hdice : limits.mostDice ≤ limits'.mostDice := by decide
  have hgroup : limits.deepestGroup ≤ limits'.deepestGroup := by decide
  obtain ⟨hwider, hrerolls⟩ := limits_only_refuse text
  have hconcurs := hrerolls limits 9
  rw [hbuilt] at hconcurs
  obtain ⟨t', hbuilt', rfl, -, -⟩ := hconcurs.of_ok
  exact ⟨rfl, hdice, hgroup, hbuilt, hwider limits limits' rfl hdice hgroup t hbuilt, hbuilt'⟩

end Tree

end DiceExpr
