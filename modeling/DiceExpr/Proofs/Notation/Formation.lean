import DiceExpr.Proofs.Grammar.Recognition
import DiceExpr.Proofs.Notation.Regrouping

namespace DiceExpr

open Grammar

namespace Grammar

theorem Number.nonneg {w : Text} {n : Value} (h : Number w n) : 0 ≤ n := by
  cases h with
  | zero => exact Int.le_refl _
  | digits _ _ _ =>
    rw [Value.le_def, Value.toInt_clamp]
    change (0 : Int) ≤ _
    omega

theorem Signed.least_lt {w : Text} {n : Value} (h : Signed w n) : Value.least < n := by
  have hleast : Value.least.toInt = -9223372036854775808 := rfl
  rw [Value.lt_def, hleast]
  cases h with
  | plain h =>
    have hn : (0 : Int) ≤ n.toInt := h.nonneg
    omega
  | @negative _ n _ =>
    have hneg : (-n).toInt = max (-9223372036854775808) (min (-n.toInt) 9223372036854775807) := rfl
    have hle := n.le_greatest
    omega

theorem Faces.least_lt {w : Text} {ns : List Value} (h : Faces w ns) :
    ns ≠ [] ∧ ∀ n ∈ ns, Value.least < n := by
  induction h with
  | last h =>
    refine ⟨List.cons_ne_nil _ _, fun n hn => ?_⟩
    rw [List.mem_singleton.mp hn]
    exact h.least_lt
  | more h _ ih =>
    refine ⟨List.cons_ne_nil _ _, fun n hn => ?_⟩
    rcases List.mem_cons.mp hn with rfl | hn
    · exact h.least_lt
    · exact ih.2 n hn

end Grammar

namespace DieToken

theorem token_of_die? {type : DieToken} {d : Die} (h : type.die? = .ok d) : d.token = type := by
  cases type with
  | sides n =>
    simp only [die?, Die.sided?] at h
    split at h
    · cases h
    · cases h
      rfl
  | fudge =>
    cases h
    rfl
  | percentile =>
    cases h
    rfl
  | custom faces =>
    simp only [die?, Die.custom?] at h
    split at h
    · cases h
    · cases h
      rfl

theorem writable_of_die? {w : Text} {type : DieToken} (hw : DieType w type) {d : Die}
    (h : type.die? = .ok d) : d.Writable := by
  have htoken := token_of_die? h
  cases hw with
  | sides hn =>
    cases d <;> cases htoken
    exact hn.nonneg
  | fudge =>
    cases d <;> cases htoken
    trivial
  | percentile =>
    cases d <;> cases htoken
    trivial
  | custom hns =>
    cases d <;> cases htoken
    exact hns.least_lt

end DieToken

theorem Selection.eq_of_ofSymbol? {symbol : Text} {count : Nat} {s : Selection}
    (h : ofSymbol? symbol count = .ok s) : s.symbol = symbol ∧ s.count = count := by
  unfold ofSymbol? at h
  split at h
  · next hfound =>
    cases h
    have hmem := List.mem_of_find?_eq_some hfound
    refine ⟨by simpa using List.find?_some hfound, ?_⟩
    have hcounts : ∀ s ∈ all count, s.count = count := by simp [all]
    exact hcounts s hmem
  · cases h

theorem Comparator.symbol_of_ofSymbol? {symbol : Text} {c : Comparator}
    (h : ofSymbol? symbol = .ok c) : c.symbol = symbol := by
  unfold ofSymbol? at h
  split at h
  · next hfound =>
    cases h
    simpa using List.find?_some hfound
  · cases h

namespace Limits

open DiceExpr.Tree

variable {limits : Limits}

private theorem token_of_explosion? {w symbol : Text} {n : Value} (hn : Signed w n) {m : Modifier}
    (h : limits.modifier? ⟨.explode, symbol, n⟩ = .ok m) :
    m.token = ⟨.explode, symbol, n⟩ ∧ m.Writable := by
  simp only [modifier?, bind_eq_ok, pure, Except.pure, Except.ok.injEq] at h
  obtain ⟨c, hc, rfl⟩ := h
  rw [Modifier.token, Comparator.symbol_of_ofSymbol? hc]
  exact ⟨rfl, hn.least_lt⟩

theorem token_of_modifier? {w : Text} {token : ModifierToken} (hw : Modifies w token)
    {m : Modifier} (h : limits.modifier? token = .ok m) : m.token = token ∧ m.Writable := by
  cases hw with
  | @calculate op _ n _ hn =>
    simp only [modifier?, bind_eq_ok, pure, Except.pure, Except.ok.injEq] at h
    obtain ⟨op', hop, rfl⟩ := h
    rw [Modifier.token, Operator.symbol_of_ofSymbol? hop]
    exact ⟨rfl, hn.nonneg⟩
  | @select choice extreme _ n _ _ hn =>
    have hnonneg : ¬n < 0 := Int.not_lt.mpr hn.nonneg
    simp only [modifier?, if_neg hnonneg, bind_eq_ok, pure, Except.pure, Except.ok.injEq] at h
    obtain ⟨selection, hselection, rfl⟩ := h
    obtain ⟨hsymbol, hcount⟩ := Selection.eq_of_ofSymbol? hselection
    have hle := n.le_greatest
    have hn : (0 : Int) ≤ n.toInt := hn.nonneg
    have hclamp : Value.clamp n.toInt.toNat = n := by
      rw [Int.toNat_of_nonneg hn]
      exact Value.clamp_toInt n
    rw [Modifier.token, hsymbol, hcount, hclamp]
    refine ⟨rfl, ?_⟩
    change selection.count ≤ _
    omega
  | explode c hn => exact token_of_explosion? hn h
  | explodeEqual hn => exact token_of_explosion? hn h

theorem quantity?_pos {written : Option Value} {n : Nat} (h : limits.quantity? written = .ok n) :
    0 < n := by
  have hone : (1 : Value).toInt = 1 := rfl
  simp only [quantity?] at h
  split at h
  · cases h
  · next hlow =>
    rw [Value.lt_def, hone] at hlow
    split at h
    · cases h
    · rw [← Except.ok.inj h]
      omega

theorem formed_dice {type : DieToken} {d : Die} (hw : d.Writable) (hd : type.die? = .ok d) {n : Nat}
    (hn : 0 < n) : ∀ c ∈ (Tree.replicate n (die d)).nodes, c.Formed limits := by
  have hdie : (die d).Formed limits := by
    refine ⟨hw, ?_⟩
    rw [DieToken.token_of_die? hd]
    exact hd
  rw [replicate_die]
  refine forall_nodes_pool.mpr ⟨?_, ?_⟩
  · intro hnil
    rw [List.replicate_eq_nil_iff] at hnil
    omega
  · intro c hc n hn
    rw [(List.mem_replicate.mp hc).2] at hn
    rw [List.mem_singleton.mp hn]
    exact hdie

theorem formed_collapse {t : Tree} (h : ∀ n ∈ t.nodes, n.Formed limits) :
    ∀ n ∈ t.collapse.nodes, n.Formed limits := by
  match t with
  | pool [only] =>
    exact (forall_nodes_pool.mp h).2 only (List.mem_singleton_self only)
  | die _ => exact h
  | pool [] => exact h
  | pool (_ :: _ :: _) => exact h
  | modified _ _ => exact h

/-- Trees that are formed well make up a pool that is. -/
theorem formed_ofList {trees : List Tree} (hne : trees ≠ [])
    (h : ∀ t ∈ trees, ∀ n ∈ t.nodes, n.Formed limits) :
    ∀ n ∈ (Tree.ofList trees).nodes, n.Formed limits := by
  have hnonempty : ∀ t ∈ trees, t ≠ pool [] := by
    intro t ht hempty
    have hformed := h t ht t (mem_nodes_self t)
    rw [hempty] at hformed
    exact hformed rfl
  rw [ofList_eq_pool hnonempty]
  exact forall_nodes_pool.mpr ⟨hne, h⟩

/-- Whatever a term is built into, all its nodes are formed well. -/
def Forms (limits : Limits) (s : Term) : Prop :=
  ∀ y, limits.open? s = .ok y → ∀ n ∈ y.nodes, n.Formed limits

private theorem formed_terms {ss : List Term} (h : ∀ s ∈ ss, limits.Forms s) {trees : List Tree}
    (ht : List.Forall₂ (fun s t => limits.term? s = .ok t) ss trees) :
    ∀ t ∈ trees, ∀ n ∈ t.nodes, n.Formed limits := by
  induction ht with
  | nil => nofun
  | @cons s t ss trees hst _ ih =>
    obtain ⟨y, hy, rfl⟩ := term?_eq_ok.mp hst
    intro t ht
    rcases List.mem_cons.mp ht with rfl | ht
    · exact formed_collapse (h s List.mem_cons_self y hy)
    · exact ih (fun s' hs => h s' (List.mem_cons_of_mem s hs)) t ht

theorem formed_sum {ss : List Term} (hne : ss ≠ []) (h : ∀ s ∈ ss, limits.Forms s)
    {trees : List Tree} (ht : limits.terms? ss = .ok trees) :
    ∀ n ∈ (Tree.ofList trees).collapse.nodes, n.Formed limits := by
  rw [terms?_eq_ok] at ht
  have htrees : trees ≠ [] := by
    intro hnil
    rw [hnil] at ht
    cases ht
    exact hne rfl
  exact formed_collapse (formed_ofList htrees (formed_terms h ht))

theorem forms_dice (quantity : Option Value) {type : DieToken} {w : Text} (h : DieType w type) :
    limits.Forms (.dice quantity type []) := by
  intro y hy
  simp only [open?, bind_eq_ok, modifyAll?] at hy
  obtain ⟨d, hd, n, hn, hy⟩ := hy
  rw [← Except.ok.inj hy]
  exact formed_dice (DieToken.writable_of_die? h hd) hd (quantity?_pos hn)

theorem derives_forms {p : Phrase} {w : Text} (h : Derives p w) :
    match p with
    | .operand s => limits.Forms s
    | .sum ss => ∀ s ∈ ss, limits.Forms s := by
  induction h with
  | die h => exact forms_dice none h
  | dice _ h => exact forms_dice _ h
  | group h ih =>
    intro y hy
    simp only [open?, bind_eq_ok, modifyAll?] at hy
    obtain ⟨trees, htrees, hy⟩ := hy
    rw [← Except.ok.inj hy]
    exact formed_sum (h.ne_nil _ rfl) ih htrees
  | single _ ih =>
    intro s hs
    rw [List.mem_singleton.mp hs]
    exact ih
  | join _ _ ihs ih =>
    intro s hs
    rcases List.mem_append.mp hs with hs | hs
    · exact ihs s hs
    · rw [List.mem_singleton.mp hs]
      exact ih
  | @modify _ _ ss s token _ h ihs =>
    intro s' hs'
    rcases List.mem_append.mp hs' with hs' | hs'
    · exact ihs s' (List.mem_append.mpr (.inl hs'))
    rw [List.mem_singleton.mp hs']
    intro y hy
    rw [open?_attach] at hy
    simp only [modifyAll?, bind_eq_ok, modify?_eq_ok, Except.ok.injEq] at hy
    obtain ⟨base, hbase, m, hm, _, ⟨-, rfl⟩, rfl⟩ := hy
    obtain ⟨htoken, hwritable⟩ := token_of_modifier? h hm
    have hforms := ihs s (List.mem_append.mpr (.inr (List.mem_singleton_self s))) base hbase
    refine forall_nodes_modified.mpr ⟨⟨hwritable, ?_⟩, hforms⟩
    rw [htoken]
    exact hm

end Limits

namespace Tree

/-- Every node of a tree that is built from a text is formed well. -/
theorem formed_of_ofText? {limits : Limits} {text : Text} (hne : text.normal ≠ []) {t : Tree}
    (h : ofText? limits text = .ok t) : ∀ n ∈ t.nodes, n.Formed limits := by
  simp only [ofText?, ofTerms?, Limits.sum?, Limits.bind_eq_ok] at h
  obtain ⟨_, _, terms, hterms, _, _, trees, htrees, ht⟩ := h
  have hderives := (Term.read_eq_ok hne).mp hterms
  rw [← Except.ok.inj ht]
  exact Limits.formed_sum (hderives.ne_nil terms rfl) (Limits.derives_forms hderives) htrees

end Tree

end DiceExpr
