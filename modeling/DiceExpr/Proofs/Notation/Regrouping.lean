import DiceExpr.Proofs.Notation.Records
import DiceExpr.Tree.Build

namespace DiceExpr

namespace Tree

/-- A die has the form of a pool where a modifier is written after it. -/
def opened : Tree → Tree
  | die d => pool [die d]
  | t => t

/-- What a modifier that is written after some trees applies to. -/
def under : List Tree → Tree
  | [t] => t.opened
  | ts => pool ts

def piecePart (t : Tree) (own : List Tree) : Part (List Tree) :=
  ⟨t.text, t.isDie, match t with
    | die d => fun n => [(replicate n (die d)).collapse]
    | _ => fun _ => own⟩

mutual

/-- The trees that the text of a tree is a sum of. Equal dice of a pool come together in pools of
their own, at most so many in each as one count may say, and trees that are written alike come one
after another. A pool among them falls into its own pieces. -/
def pieces : Tree → List Tree
  | die d => [die d]
  | pool children => (Part.arranged (pieceParts children)).flatten
  | modified inner m => [modified (under inner.pieces) m]

def pieceParts : List Tree → List (Part (List Tree))
  | [] => []
  | t :: rest => t.piecePart t.pieces :: pieceParts rest

end

theorem pieceParts_eq_map (ts : List Tree) :
    pieceParts ts = ts.map fun t => t.piecePart t.pieces := by
  induction ts with
  | nil => rfl
  | cons t rest ih => rw [pieceParts, ih, List.map_cons]

/-- The tree that the text of a tree stands for. -/
def regrouped (t : Tree) : Tree := (pool t.pieces).collapse

/-- The modifier of the node fits the tree that it is applied to. -/
def Passes : Tree → Prop
  | modified inner m => inner.check m = .ok ()
  | _ => True

instance (n : Tree) : Decidable n.Passes :=
  match n with
  | die _ => isTrue trivial
  | pool _ => isTrue trivial
  | modified inner m => inferInstanceAs (Decidable (inner.check m = .ok ()))

/-- The node can be built with these limits from a record that says the same. -/
def Formed (limits : Limits) : Tree → Prop
  | die d => d.Writable ∧ d.token.die? = .ok d
  | pool children => children ≠ []
  | modified _ m => m.Writable ∧ limits.modifier? m.token = .ok m

theorem Formed.written {limits : Limits} {n : Tree} (h : n.Formed limits) : n.Written := by
  cases n with
  | die d => exact h.1
  | pool children => exact h
  | modified inner m => exact h.1

theorem isEmptyPool_iff {t : Tree} : t.isEmptyPool ↔ t = pool [] := by
  cases t with
  | die d => simp [isEmptyPool]
  | pool children => cases children <;> simp [isEmptyPool]
  | modified inner m => simp [isEmptyPool]

/-- Where there is no empty pool, none is left out. -/
theorem ofList_eq_pool {trees : List Tree} (h : ∀ t ∈ trees, t ≠ pool []) :
    ofList trees = pool trees := by
  have hkept : ∀ t ∈ trees, (!t.isEmptyPool) = true := by
    intro t ht
    simpa [← Bool.not_eq_true, isEmptyPool_iff] using h t ht
  rw [ofList, List.filter_eq_self.mpr hkept]

theorem passes_modified {base : Tree} {m : Modifier} :
    (∀ n ∈ (modified base m).nodes, n.Passes) ↔
      base.check m = .ok () ∧ ∀ n ∈ base.nodes, n.Passes :=
  forall_nodes_modified

theorem passes_pool {children : List Tree} :
    (∀ n ∈ (pool children).nodes, n.Passes) ↔ ∀ c ∈ children, ∀ n ∈ c.nodes, n.Passes := by
  rw [forall_nodes_pool]
  exact and_iff_right trivial

theorem passes_opened {t : Tree} :
    (∀ n ∈ t.opened.nodes, n.Passes) ↔ ∀ n ∈ t.nodes, n.Passes := by
  cases t with
  | die d => simp only [opened, passes_pool, List.forall_mem_singleton]
  | pool children => exact Iff.rfl
  | modified inner m => exact Iff.rfl

theorem passes_collapse {children : List Tree} :
    (∀ n ∈ (pool children).collapse.nodes, n.Passes) ↔ ∀ c ∈ children, ∀ n ∈ c.nodes, n.Passes := by
  match children with
  | [] => exact passes_pool
  | [c] => simp only [collapse, List.forall_mem_singleton]
  | _ :: _ :: _ => exact passes_pool

end Tree

namespace Limits

open DiceExpr.Tree

variable {limits : Limits}

/-- The tree of a term, where a pool may still consist of one child. -/
def open? (limits : Limits) : Term → Except Fault Tree
  | .dice quantity type modifiers => do
    let die ← type.die?
    let n ← limits.quantity? quantity
    limits.modifyAll? (.replicate n (.die die)) modifiers
  | .group inner modifiers => do
    let trees ← limits.terms? inner
    limits.modifyAll? (Tree.ofList trees).collapse modifiers

theorem bind_eq_ok {x : Except Fault α} {f : α → Except Fault β} {b : β} :
    (x >>= f) = .ok b ↔ ∃ a, x = .ok a ∧ f a = .ok b := by
  cases x with
  | error e => exact ⟨nofun, nofun⟩
  | ok a => simp [bind, Except.bind]

theorem term?_eq_bind (s : Term) :
    limits.term? s = (limits.open? s >>= fun y => pure y.collapse) := by
  cases s <;> simp only [term?, open?, bind_assoc]

theorem term?_eq_ok {s : Term} {t : Tree} :
    limits.term? s = .ok t ↔ ∃ y, limits.open? s = .ok y ∧ t = y.collapse := by
  rw [term?_eq_bind, bind_eq_ok]
  simp only [pure, Except.pure, Except.ok.injEq, eq_comm]

theorem terms?_eq_ok {ss : List Term} {ts : List Tree} :
    limits.terms? ss = .ok ts ↔ List.Forall₂ (fun s t => limits.term? s = .ok t) ss ts := by
  induction ss generalizing ts with
  | nil => simp [terms?, eq_comm]
  | cons s ss ih =>
    simp only [terms?, bind_eq_ok, ih, pure, Except.pure, Except.ok.injEq,
      List.forall₂_cons_left_iff]
    constructor
    · intro h
      obtain ⟨t, ht, ts, hts, rfl⟩ := h
      exact ⟨t, ts, ht, hts, rfl⟩
    · intro h
      obtain ⟨t, ts, ht, hts, rfl⟩ := h
      exact ⟨t, ht, ts, hts, rfl⟩

theorem modify?_eq_ok {inner t : Tree} {m : Modifier} :
    inner.modify? m = .ok t ↔ inner.check m = .ok () ∧ t = modified inner m := by
  simp only [modify?, bind_eq_ok, pure, Except.pure, Except.ok.injEq]
  constructor
  · intro h
    obtain ⟨_, h, rfl⟩ := h
    exact ⟨h, rfl⟩
  · intro h
    obtain ⟨h, rfl⟩ := h
    exact ⟨(), h, rfl⟩

theorem modifyAll?_concat (base : Tree) (tokens : List ModifierToken) (token : ModifierToken) :
    limits.modifyAll? base (tokens ++ [token]) =
      (limits.modifyAll? base tokens >>= fun t => limits.modifyAll? t [token]) := by
  induction tokens generalizing base with
  | nil => rfl
  | cons first tokens ih => simp only [List.cons_append, modifyAll?, ih, bind_assoc]

theorem open?_attach (s : Term) (token : ModifierToken) :
    limits.open? (s.attach token) =
      (limits.open? s >>= fun t => limits.modifyAll? t [token]) := by
  cases s with
  | dice quantity type modifiers =>
    simp only [Term.attach, open?, modifyAll?_concat, bind_assoc]
  | group inner modifiers =>
    simp only [Term.attach, open?, modifyAll?_concat, bind_assoc]

/-- A term is built into a tree just if every modifier fits where it is written. -/
structure Stands (limits : Limits) (s : Term) (x : Tree) : Prop where
  built : ∀ y, limits.open? s = .ok y ↔ y = x.opened ∧ ∀ n ∈ x.nodes, n.Passes
  collapsed : x.opened.collapse = x
  nonempty : x.isEmptyPool = false
  single : s.modifiers ≠ [] → x.opened = x

theorem Stands.term?_eq_ok {s : Term} {x t : Tree} (h : limits.Stands s x) :
    limits.term? s = .ok t ↔ t = x ∧ ∀ n ∈ x.nodes, n.Passes := by
  rw [Limits.term?_eq_ok]
  simp only [h.built]
  constructor
  · intro hbuilt
    obtain ⟨y, ⟨rfl, hpasses⟩, rfl⟩ := hbuilt
    exact ⟨h.collapsed, hpasses⟩
  · intro hbuilt
    obtain ⟨rfl, hpasses⟩ := hbuilt
    exact ⟨t.opened, ⟨rfl, hpasses⟩, h.collapsed.symm⟩

theorem terms?_eq_ok_of_stands {ss : List Term} {xs ts : List Tree}
    (h : List.Forall₂ limits.Stands ss xs) :
    limits.terms? ss = .ok ts ↔ ts = xs ∧ ∀ x ∈ xs, ∀ n ∈ x.nodes, n.Passes := by
  rw [terms?_eq_ok]
  induction h generalizing ts with
  | nil => simp
  | @cons s x ss xs hsx _ ih =>
    simp only [List.forall₂_cons_left_iff, hsx.term?_eq_ok, ih, List.forall_mem_cons]
    constructor
    · intro hbuilt
      obtain ⟨_, _, ⟨rfl, hx⟩, ⟨rfl, hxs⟩, rfl⟩ := hbuilt
      exact ⟨rfl, hx, hxs⟩
    · intro hbuilt
      obtain ⟨rfl, hx, hxs⟩ := hbuilt
      exact ⟨x, xs, ⟨rfl, hx⟩, ⟨rfl, hxs⟩, rfl⟩

theorem ofList_of_stands {ss : List Term} {xs : List Tree}
    (h : List.Forall₂ limits.Stands ss xs) : Tree.ofList xs = pool xs := by
  refine Tree.ofList_eq_pool ?_
  induction h with
  | nil => exact List.forall_mem_nil _
  | cons hsx _ ih =>
    refine List.forall_mem_cons.mpr ⟨fun hempty => ?_, ih⟩
    have hnonempty := hsx.nonempty
    rw [hempty] at hnonempty
    cases hnonempty

theorem modifyAll?_single {base t : Tree} {m : Modifier}
    (hm : limits.modifier? m.token = .ok m) :
    limits.modifyAll? base [m.token] = .ok t ↔ base.check m = .ok () ∧ t = modified base m := by
  simp only [modifyAll?, hm, bind_eq_ok, Except.ok.injEq, exists_eq_left', modify?_eq_ok]
  constructor
  · intro h
    obtain ⟨_, ⟨hcheck, rfl⟩, rfl⟩ := h
    exact ⟨hcheck, rfl⟩
  · intro h
    obtain ⟨hcheck, rfl⟩ := h
    exact ⟨_, ⟨hcheck, rfl⟩, rfl⟩

theorem quantity?_eq_ok {n : Nat} (hn : 0 < n) (hmost : n ≤ limits.mostDice)
    (hfits : n ≤ 9223372036854775807) :
    limits.quantity? (if n = 1 then none else some (.clamp n)) = .ok n := by
  have hvalue : ((if n = 1 then none else some (Value.clamp n)).getD 1).toInt = n := by
    by_cases hone : n = 1
    · rw [if_pos hone, hone]
      rfl
    · rw [if_neg hone]
      exact Value.toInt_clamp_of_mem (by omega) (by omega)
  unfold quantity?
  rw [if_neg, if_neg]
  · rw [hvalue]
    rfl
  · rw [hvalue, Int.toNat_natCast]
    omega
  · have hone : (1 : Value).toInt = 1 := rfl
    rw [Value.lt_def, hvalue, hone]
    omega

theorem replicate_die (n : Nat) (d : Die) :
    Tree.replicate n (die d) = pool (List.replicate n (die d)) := by
  unfold Tree.replicate Tree.ofList
  rw [List.filter_replicate_of_pos rfl]

private theorem opened_replicate (d : Die) {n : Nat} (hn : 0 < n) :
    (Tree.replicate n (die d)).collapse.opened = Tree.replicate n (die d) ∧
      (Tree.replicate n (die d)).collapse.isEmptyPool = false := by
  rw [replicate_die]
  match n, hn with
  | 1, _ => exact ⟨rfl, rfl⟩
  | k + 2, _ => exact ⟨rfl, rfl⟩

/-- The dice that one term counts. -/
theorem stands_written {d : Die} (hd : d.token.die? = .ok d) {n : Nat} (hn : 0 < n)
    (hmost : n ≤ limits.mostDice) (hfits : n ≤ 9223372036854775807) :
    List.Forall₂ limits.Stands (d.written n) [(Tree.replicate n (die d)).collapse] := by
  have hopened := opened_replicate d hn
  have hpasses : ∀ c ∈ (Tree.replicate n (die d)).collapse.nodes, c.Passes := by
    rw [replicate_die, passes_collapse]
    intro c hc
    rw [(List.mem_replicate.mp hc).2]
    intro c hc
    rw [List.mem_singleton.mp hc]
    trivial
  have hopen : limits.open? (.dice (if n = 1 then none else some (.clamp n)) d.token []) =
      .ok (Tree.replicate n (die d)) := by
    simp only [open?, hd, quantity?_eq_ok hn hmost hfits]
    rfl
  refine .cons ⟨fun y => ?_, by rw [hopened.1], hopened.2, fun h => absurd rfl h⟩ .nil
  rw [hopen, hopened.1, Except.ok.injEq]
  exact ⟨fun h => ⟨h.symm, hpasses⟩, fun h => h.1.symm⟩

theorem stands_group {ss : List Term} {xs : List Tree} (h : List.Forall₂ limits.Stands ss xs)
    {m : Modifier} (hm : limits.modifier? m.token = .ok m) :
    limits.Stands (.group ss [m.token]) (modified (pool xs).collapse m) := by
  refine ⟨fun y => ?_, rfl, rfl, fun _ => rfl⟩
  simp only [open?, bind_eq_ok, terms?_eq_ok_of_stands h, modifyAll?_single hm, passes_modified,
    passes_collapse]
  constructor
  · intro hbuilt
    obtain ⟨_, ⟨rfl, hpasses⟩, hcheck, rfl⟩ := hbuilt
    rw [ofList_of_stands h] at hcheck ⊢
    exact ⟨rfl, hcheck, hpasses⟩
  · intro hbuilt
    obtain ⟨rfl, hcheck, hpasses⟩ := hbuilt
    refine ⟨xs, ⟨rfl, hpasses⟩, ?_⟩
    rw [ofList_of_stands h]
    exact ⟨hcheck, rfl⟩

theorem stands_attach {s : Term} {x : Tree} (h : limits.Stands s x) {m : Modifier}
    (hm : limits.modifier? m.token = .ok m) :
    limits.Stands (s.attach m.token) (modified x.opened m) := by
  refine ⟨fun y => ?_, rfl, rfl, fun _ => rfl⟩
  simp only [open?_attach, bind_eq_ok, h.built, modifyAll?_single hm, passes_modified,
    passes_opened]
  constructor
  · intro hbuilt
    obtain ⟨_, ⟨rfl, hpasses⟩, hcheck, rfl⟩ := hbuilt
    exact ⟨rfl, hcheck, hpasses⟩
  · intro hbuilt
    obtain ⟨rfl, hcheck, hpasses⟩ := hbuilt
    exact ⟨x.opened, ⟨rfl, hpasses⟩, hcheck, rfl⟩

private theorem stands_modified {ss : List Term} {xs : List Tree} {w : Text}
    (h : List.Forall₂ limits.Stands ss xs) (hw : Grammar.Derives (.sum ss) w) {m : Modifier}
    (hm : limits.modifier? m.token = .ok m) :
    List.Forall₂ limits.Stands (Term.modifySum w.hasSum m.token ss) [modified (under xs) m] := by
  have hgroup := stands_group h hm
  cases h with
  | nil => exact absurd rfl (hw.ne_nil [] rfl)
  | @cons s x ss xs hsx hrest =>
    cases hrest with
    | nil =>
      by_cases hsum : w.hasSum
      · -- the `+` belongs to a modifier of the only term
        have hmodifiers : s.modifiers ≠ [] := by
          rw [Text.hasSum_of_derives hw] at hsum
          intro hnil
          simp [Grammar.Phrase.hasSum, hnil] at hsum
        rw [Term.modifySum, if_pos hsum, under, hsx.single hmodifiers]
        exact .cons hgroup .nil
      · rw [Term.modifySum, if_neg hsum]
        exact .cons (stands_attach hsx hm) .nil
    | cons _ _ => exact .cons hgroup .nil

private theorem alike_part (hmost : Batch.mostDice ≤ limits.mostDice) {t : Tree}
    (hnode : t.Formed limits) (h : List.Forall₂ limits.Stands t.terms t.pieces) :
    Part.Alike (List.Forall₂ limits.Stands) (t.termPart t.terms) (t.piecePart t.pieces) where
  text := rfl
  isDie := rfl
  counted n hn hle hone := by
    have hmostDice : Batch.mostDice = 1000 := rfl
    cases t with
    | die d => exact stands_written hnode.2 hn (Nat.le_trans hle hmost) (by omega)
    | pool children => exact h
    | modified inner m => exact h

/-- The record of the text of a tree is built into its pieces, if all modifiers fit there. -/
theorem pieces_stand {t : Tree} (hmost : Batch.mostDice ≤ limits.mostDice)
    (h : ∀ n ∈ t.nodes, n.Formed limits) : List.Forall₂ limits.Stands t.terms t.pieces := by
  induction t using plainInduction with
  | die d =>
    have hmostDice : Batch.mostDice = 1000 := rfl
    have hd : (die d).Formed limits := h _ (mem_nodes_self _)
    exact stands_written hd.2 (by decide) (by omega) (by decide)
  | pool children ih =>
    have hchildren := (forall_nodes_pool.mp h).2
    have hparts : List.Forall₂ (Part.Alike (List.Forall₂ limits.Stands)) (termParts children)
        (pieceParts children) := by
      rw [termParts_eq_map, pieceParts_eq_map, List.forall₂_map_left_iff,
        List.forall₂_map_right_iff, List.forall₂_same]
      intro c hc
      have hchild := hchildren c hc
      exact alike_part hmost (hchild c (mem_nodes_self c)) (ih c hc hchild)
    rw [terms, pieces]
    exact List.rel_flatten (Part.forall₂_arranged hparts)
  | modified inner m ih =>
    obtain ⟨hm, hinner⟩ := forall_nodes_modified.mp h
    rw [terms, pieces]
    exact stands_modified (ih hinner) (derives_terms fun n hn => (hinner n hn).written) hm.2

/-- What a tree is rebuilt into from its own record. -/
theorem sum?_terms {t t' : Tree} (hmost : Batch.mostDice ≤ limits.mostDice)
    (h : ∀ n ∈ t.nodes, n.Formed limits) :
    limits.sum? t.terms = .ok t' ↔ t' = t.regrouped ∧ ∀ n ∈ t.regrouped.nodes, n.Passes := by
  have hpieces := pieces_stand hmost h
  simp only [sum?, bind_eq_ok, terms?_eq_ok_of_stands hpieces, pure, Except.pure, Except.ok.injEq,
    regrouped, passes_collapse]
  constructor
  · intro hbuilt
    obtain ⟨_, ⟨rfl, hpasses⟩, rfl⟩ := hbuilt
    rw [ofList_of_stands hpieces]
    exact ⟨rfl, hpasses⟩
  · intro hbuilt
    obtain ⟨rfl, hpasses⟩ := hbuilt
    refine ⟨t.pieces, ⟨rfl, hpasses⟩, ?_⟩
    rw [ofList_of_stands hpieces]

end Limits

end DiceExpr
