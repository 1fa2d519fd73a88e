import DiceExpr.Proofs.Notation.Clusters
import DiceExpr.Proofs.Notation.RoundTrip

namespace DiceExpr

/-- The numbers of the die can be written, and it has faces enough. -/
def Die.Valid : Die → Prop
  | sided sides => 2 ≤ sides
  | percentile => True
  | fudge => True
  | custom faces => faces ≠ [] ∧ ∀ v ∈ faces, Value.least < v

instance : (d : Die) → Decidable d.Valid
  | .sided sides => inferInstanceAs (Decidable (2 ≤ sides))
  | .percentile => isTrue trivial
  | .fudge => isTrue trivial
  | .custom faces => inferInstanceAs (Decidable (faces ≠ [] ∧ ∀ v ∈ faces, Value.least < v))

/-- The number of the modifier can be written, and it explodes up to this limit. -/
def Modifier.Valid (mostRerolls : Nat) : Modifier → Prop
  | calculate _ operand => 0 ≤ operand
  | select selection => selection.count ≤ 9223372036854775807
  | explode condition limit => Value.least < condition.expected ∧ limit = mostRerolls

instance (mostRerolls : Nat) : (m : Modifier) → Decidable (m.Valid mostRerolls)
  | .calculate _ operand => inferInstanceAs (Decidable (0 ≤ operand))
  | .select selection => inferInstanceAs (Decidable (selection.count ≤ 9223372036854775807))
  | .explode condition limit =>
    inferInstanceAs (Decidable (Value.least < condition.expected ∧ limit = mostRerolls))

namespace Tree

variable {limits : Limits} {t u : Tree}

/-- Equal dice in a pool of their own. -/
def block (n : Nat) (d : Die) : Tree := pool (List.replicate n (die d))

/-- What may be mixed in a pool: one die, more dice that are equal, or a tree with a modifier. -/
inductive Summand : Tree → Prop
  | die (d : Die) : Summand (die d)
  | block (d : Die) {n : Nat} (hn : 2 ≤ n) (hmost : n ≤ 1000) : Summand (block n d)
  | modified (inner : Tree) (m : Modifier) : Summand (modified inner m)

/-- A tree in the form that texts are built into. -/
inductive Canonical : Tree → Prop
  | die (d : Die) : Canonical (die d)
  | block (d : Die) {n : Nat} (hn : 2 ≤ n) (hmost : n ≤ 1000) : Canonical (block n d)
  | mixed {children : List Tree} (hlen : 2 ≤ children.length)
    (hsummands : ∀ c ∈ children, c.Summand) (h : ∀ c ∈ children, Canonical c)
    (hdice : (children.filter isDie).Nodup) (htexts : Clustered (children.map text)) :
    Canonical (pool children)
  | modifiedDie (d : Die) {m : Modifier} {t : Tree} (hm : (block 1 d).modify? m = .ok t) :
    Canonical t
  | modified {inner t : Tree} {m : Modifier} (h : Canonical inner) (hdie : inner.isDie = false)
    (hm : inner.modify? m = .ok t) : Canonical t

theorem Canonical.nodes (h : Canonical t) : ∀ n ∈ t.nodes, n.Passes ∧ n ≠ pool [] := by
  have hblock (d : Die) {n : Nat} (hn : 1 ≤ n) :
      ∀ c ∈ (Tree.block n d).nodes, c.Passes ∧ c ≠ pool [] := by
    refine forall_nodes_pool.mpr ⟨⟨trivial, ?_⟩, ?_⟩
    · intro heq
      have hnil := (List.replicate_eq_nil_iff _).mp (pool.inj heq)
      omega
    · intro c hc
      rw [(List.mem_replicate.mp hc).2]
      simp [Tree.nodes, Passes]
  induction h with
  | die d => simp [Tree.nodes, Passes]
  | block d hn _ => exact hblock d (by omega)
  | @mixed children hlen _ _ _ _ ih =>
    refine forall_nodes_pool.mpr ⟨⟨trivial, ?_⟩, ih⟩
    intro heq
    rw [pool.inj heq] at hlen
    simp at hlen
  | modifiedDie d hm =>
    obtain ⟨hcheck, rfl⟩ := Limits.modify?_eq_ok.mp hm
    exact forall_nodes_modified.mpr ⟨⟨hcheck, by simp⟩, hblock d (by omega)⟩
  | modified _ _ hm ih =>
    obtain ⟨hcheck, rfl⟩ := Limits.modify?_eq_ok.mp hm
    exact forall_nodes_modified.mpr ⟨⟨hcheck, by simp⟩, ih⟩

/-- The tree is the only piece of itself, or the pool of its pieces. -/
def Stable (t : Tree) : Prop := t.pieces = [t] ∨ t = pool t.pieces ∧ 2 ≤ t.pieces.length

theorem under_of_length {ts : List Tree} (h : 2 ≤ ts.length) :
    under ts = pool ts ∧ (pool ts).collapse = pool ts := by
  match ts, h with
  | _ :: _ :: _, _ => exact ⟨rfl, rfl⟩

theorem Stable.under (h : t.Stable) : under t.pieces = t.opened := by
  obtain hone | ⟨hpool, hlen⟩ := h
  · rw [hone]
    rfl
  · rw [(under_of_length hlen).1, ← hpool]
    rw [hpool]
    rfl

theorem Stable.regrouped (h : t.Stable) : t.regrouped = t := by
  unfold Tree.regrouped
  obtain hone | ⟨hpool, hlen⟩ := h
  · rw [hone]
    rfl
  · rw [(under_of_length hlen).2, ← hpool]

/-- Trees in the form that texts are built into can be told apart by their texts. -/
theorem Stable.eq_of_text (hmost : Batch.mostDice ≤ limits.mostDice) (ht : t.Stable)
    (hu : u.Stable) (hformed : ∀ n ∈ t.nodes, n.Formed limits)
    (huformed : ∀ n ∈ u.nodes, n.Formed limits) (hpasses : ∀ n ∈ t.nodes, n.Passes)
    (htext : t.text = u.text) : t = u := by
  have hread : Term.ofText? t.text = .ok t.terms :=
    (terms_of_text fun n hn => (hformed n hn).written).mpr rfl
  have hterms : t.terms = u.terms := by
    rw [htext] at hread
    exact (terms_of_text fun n hn => (huformed n hn).written).mp hread
  have hsum : limits.sum? t.terms = .ok t := by
    rw [Limits.sum?_terms hmost hformed, ht.regrouped]
    exact ⟨rfl, hpasses⟩
  rw [hterms, Limits.sum?_terms hmost huformed, hu.regrouped] at hsum
  exact hsum.1

theorem pieces_block (d : Die) {n : Nat} (hn : 0 < n) (hmost : n ≤ Batch.mostDice) :
    (block n d).pieces = [(block n d).collapse] := by
  obtain ⟨k, rfl⟩ := Nat.exists_eq_succ_of_ne_zero (Nat.pos_iff_ne_zero.mp hn)
  have harranged := Part.arranged_run ((die d).piecePart [die d]) k (List.forall_mem_nil _)
  rw [List.append_nil] at harranged
  have hparts : pieceParts (List.replicate (k + 1) (die d)) =
      List.replicate (k + 1) ((die d).piecePart [die d]) := by
    rw [pieceParts_eq_map, List.map_replicate]
    rfl
  have hstack : ((die d).piecePart [die d]).stack (k + 1) =
      [[(replicate (k + 1) (die d)).collapse]] := by
    unfold Part.stack
    rw [Part.chunks_of_le hn hmost]
    rfl
  rw [block, pieces, hparts, harranged, hstack, Limits.replicate_die]
  rfl

theorem flatten_stack (hpieces : t.pieces = [t]) {k : Nat} (hdie : t.isDie → k = 0) :
    ((t.piecePart t.pieces).stack (k + 1)).flatten = List.replicate (k + 1) t := by
  rw [hpieces]
  cases t with
  | die d =>
    rw [hdie rfl]
    rfl
  | pool children => exact List.flatten_replicate_singleton
  | modified inner m => exact List.flatten_replicate_singleton

/-- Nothing is moved in a pool whose children are clustered. -/
theorem pieces_of_clustered {children : List Tree} (hpieces : ∀ c ∈ children, c.pieces = [c])
    (hinj : ∀ c ∈ children, ∀ c' ∈ children, c.text = c'.text → c = c')
    (hdice : (children.filter isDie).Nodup) (hclustered : Clustered children) :
    (pool children).pieces = children := by
  rw [pieces, pieceParts_eq_map]
  induction hlen : children.length using Nat.strongRecOn generalizing children with
  | ind len ih =>
    cases children with
    | nil => rfl
    | cons c children =>
      obtain ⟨k, rest, heq, hmem, hrest⟩ := hclustered.exists_run
      rw [heq] at hpieces hinj hdice hlen ⊢
      have hc : c ∈ List.replicate (k + 1) c ++ rest := by simp
      have hsub (r : Tree) (hr : r ∈ rest) : r ∈ List.replicate (k + 1) c ++ rest :=
        List.mem_append_right _ hr
      have htext : ∀ q ∈ rest.map fun r => r.piecePart r.pieces, q.text ≠ c.text := by
        intro q hq
        obtain ⟨r, hr, rfl⟩ := List.mem_map.mp hq
        intro htext
        rw [hinj r (hsub r hr) c hc htext] at hr
        exact hmem hr
      have hone : c.isDie → k = 0 := by
        intro hdie
        rw [List.filter_append, List.filter_replicate_of_pos hdie] at hdice
        have hle := List.nodup_replicate.mp (List.nodup_append.mp hdice).1
        omega
      have hih := ih rest.length (by simp at hlen; omega)
        (fun r hr => hpieces r (hsub r hr))
        (fun r hr r' hr' => hinj r (hsub r hr) r' (hsub r' hr'))
        (by rw [List.filter_append] at hdice; exact (List.nodup_append.mp hdice).2.1) hrest rfl
      rw [List.map_append, List.map_replicate, Part.arranged_run _ _ htext, List.flatten_append,
        flatten_stack (hpieces c hc) hone, hih]

theorem Canonical.stable (hmost : Batch.mostDice ≤ limits.mostDice) (h : t.Canonical)
    (hformed : ∀ n ∈ t.nodes, n.Formed limits) : t.Stable := by
  have hblock (d : Die) {n : Nat} (hn : 2 ≤ n) (hle : n ≤ 1000) :
      (Tree.block n d).pieces = [Tree.block n d] := by
    obtain ⟨k, rfl⟩ : ∃ k, n = k + 2 := ⟨n - 2, by omega⟩
    exact pieces_block d (by omega) hle
  induction h with
  | die d => exact .inl rfl
  | block d hn hle => exact .inl (hblock d hn hle)
  | @mixed children hlen hsummands hcanonical hdice htexts ih =>
    have hchildren := (forall_nodes_pool.mp hformed).2
    have hstable (c : Tree) (hc : c ∈ children) : c.Stable := ih c hc (hchildren c hc)
    have hpieces (c : Tree) (hc : c ∈ children) : c.pieces = [c] := by
      cases hsummands c hc with
      | die d => rfl
      | block d hn hle => exact hblock d hn hle
      | modified inner m => exact (hstable _ hc).resolve_right fun h => Tree.noConfusion h.1
    have hinj (c : Tree) (hc : c ∈ children) (c' : Tree) (hc' : c' ∈ children)
        (htext : c.text = c'.text) : c = c' := by
      have hpasses := fun n hn => ((hcanonical c hc).nodes n hn).1
      exact (hstable c hc).eq_of_text hmost (hstable c' hc') (hchildren c hc) (hchildren c' hc')
        hpasses htext
    have hall := pieces_of_clustered hpieces hinj hdice (htexts.of_map hinj)
    right
    rw [hall]
    exact ⟨rfl, hlen⟩
  | modifiedDie d hm =>
    obtain ⟨-, rfl⟩ := Limits.modify?_eq_ok.mp hm
    left
    rw [pieces, pieces_block d (by decide) (by decide)]
    rfl
  | @modified inner _ m _ hdie hm ih =>
    obtain ⟨-, rfl⟩ := Limits.modify?_eq_ok.mp hm
    have hunder := (ih (forall_nodes_modified.mp hformed).2).under
    have hopened : inner.opened = inner := by
      cases inner with
      | die d => cases hdie
      | pool children => rfl
      | modified inner m => rfl
    left
    rw [pieces, hunder, hopened]

/-- The die or the modifier of the node is valid. -/
def Valid (mostRerolls : Nat) : Tree → Prop
  | die d => d.Valid
  | pool _ => True
  | modified _ m => m.Valid mostRerolls

instance (mostRerolls : Nat) : (t : Tree) → Decidable (t.Valid mostRerolls)
  | die d => inferInstanceAs (Decidable d.Valid)
  | pool _ => isTrue trivial
  | modified _ m => inferInstanceAs (Decidable (m.Valid mostRerolls))

end Tree

theorem Die.die?_token {d : Die} (h : d.Valid) : d.token.die? = .ok d := by
  cases d with
  | sided sides =>
    have hsides : ¬sides < 2 := Int.not_lt.mpr h
    simp only [token, DieToken.die?, sided?, if_neg hsides]
  | percentile => rfl
  | fudge => rfl
  | custom faces =>
    have hfaces : faces.isEmpty = false := List.isEmpty_eq_false_iff.mpr h.1
    simp [token, DieToken.die?, custom?, hfaces]

theorem Die.Valid.writable {d : Die} (h : d.Valid) : d.Writable := by
  cases d with
  | sided sides =>
    have htwo : (2 : Int) ≤ sides.toInt := h
    change (0 : Int) ≤ sides.toInt
    omega
  | percentile => trivial
  | fudge => trivial
  | custom faces => exact h

theorem Modifier.Valid.writable {mostRerolls : Nat} {m : Modifier} (h : m.Valid mostRerolls) :
    m.Writable := by
  cases m with
  | calculate op operand => exact h
  | select selection => exact h
  | explode condition limit => exact h.1

theorem Limits.modifier?_token {limits : Limits} {m : Modifier} (h : m.Valid limits.mostRerolls) :
    limits.modifier? m.token = .ok m := by
  cases m with
  | calculate op operand =>
    simp only [Modifier.token, modifier?, Operator.ofSymbol?_symbol]
    rfl
  | select selection =>
    have hcount : (Value.clamp selection.count).toInt = selection.count :=
      Value.toInt_clamp_of_mem (by omega) (Int.ofNat_le.mpr h)
    have hnonneg : ¬Value.clamp selection.count < 0 := by
      rw [Value.lt_def, hcount]
      exact Int.not_lt.mpr (Int.natCast_nonneg _)
    simp only [Modifier.token, modifier?, if_neg hnonneg, hcount, Int.toNat_natCast,
      Selection.ofSymbol?_symbol]
    rfl
  | explode condition limit =>
    obtain ⟨-, rfl⟩ := h
    simp only [Modifier.token, modifier?, Comparator.ofSymbol?_symbol]
    rfl

namespace Tree

variable {limits : Limits} {t : Tree}

theorem Canonical.formed (h : t.Canonical) (hvalid : ∀ n ∈ t.nodes, n.Valid limits.mostRerolls) :
    ∀ n ∈ t.nodes, n.Formed limits := by
  intro n hn
  have hnode := hvalid n hn
  cases n with
  | die d => exact ⟨Die.Valid.writable hnode, Die.die?_token hnode⟩
  | pool children => exact fun hnil => (h.nodes _ hn).2 (congrArg pool hnil)
  | modified inner m => exact ⟨Modifier.Valid.writable hnode, Limits.modifier?_token hnode⟩

/-- The text of a canonical tree is built into that very tree. -/
theorem ofText?_text_of_canonical (h : t.Canonical)
    (hvalid : ∀ n ∈ t.nodes, n.Valid limits.mostRerolls) (hmost : 1000 ≤ limits.mostDice)
    (hdeep : t.text.parenDepth ≤ limits.deepestGroup) : ofText? limits t.text = .ok t := by
  have hformed := h.formed hvalid
  have hregrouped := (h.stable hmost hformed).regrouped
  rw [ofText?_text hmost hformed, hregrouped]
  exact ⟨hdeep, fun n hn => (h.nodes n hn).1, rfl⟩

/-- The highest two of a mixed pool, in which equal chains stand next to each other. -/
theorem ofText?_text_of_mixed_pool :
    let chain := modified (block 1 (.sided 8)) (.explode ⟨.gte, 7⟩ 100)
    let t := modified (pool [block 2 (.sided 6), chain, chain, die .fudge, die (.custom [-1, 2])])
      (.select ⟨.keep, .high, 2⟩)
    t.text = "(2D6+D8!>=7+D8!>=7+DF+D[-1,2])KH2".toList ∧ t.Canonical ∧
      (∀ n ∈ t.nodes, n.Valid 100) ∧ ofText? {} t.text = .ok t := by
  intro chain t
  have htext : t.text = "(2D6+D8!>=7+D8!>=7+DF+D[-1,2])KH2".toList := by decide +kernel
  have hchain : chain.Canonical := .modifiedDie (.sided 8) (m := .explode ⟨.gte, 7⟩ 100) rfl
  have hmixed : Canonical (pool [block 2 (.sided 6), chain, chain, die .fudge,
      die (.custom [-1, 2])]) := by
    refine .mixed (by decide) ?_ ?_ (by decide) (by decide +kernel)
    · simp only [List.forall_mem_cons]
      exact ⟨.block _ (by decide) (by decide), .modified _ _, .modified _ _, .die _, .die _, nofun⟩
    · simp only [List.forall_mem_cons]
      exact ⟨.block _ (by decide) (by decide), hchain, hchain, .die _, .die _, nofun⟩
  have hcanonical : t.Canonical := .modified hmixed rfl (m := .select ⟨.keep, .high, 2⟩) rfl
  have hvalid : ∀ n ∈ t.nodes, n.Valid 100 := by decide
  have hdeep : t.text.parenDepth ≤ 32 := by decide +kernel
  exact ⟨htext, hcanonical, hvalid, ofText?_text_of_canonical hcanonical hvalid (by decide) hdeep⟩

end Tree

end DiceExpr
