import DiceExpr.Proofs.Agreement.Likeness
import DiceExpr.Proofs.Building.Concurrence
import DiceExpr.Proofs.Building.Parentheses

namespace DiceExpr

namespace Tree

/-- The one tree is a pool of a single die under some modifiers, the other one is the die itself
under the same modifiers. -/
inductive Unpacks (d : Die) : Tree → Tree → Prop
  | die : Unpacks d (pool [.die d]) (.die d)
  | modified {a b : Tree} (h : Unpacks d a b) (m : Modifier) :
    Unpacks d (.modified a m) (.modified b m)

theorem text_single_die (d : Die) : (pool [die d]).text = (die d).text := by
  have hbatch : Batch.ofList [(d.text, true)] = [⟨d.text, 1, true⟩] := rfl
  have htexts : Batch.texts ⟨d.text, 1, true⟩ = [d.text] := by
    simp [Batch.texts, Batch.counted, Batch.mostDice]
  simp [text, texts, isDie, poolText, hbatch, htexts]

theorem alike_single_die (d : Die) : (pool [die d]).Alike (die d) where
  bounds := by
    rw [bounds_pool]
    simp [Ends.ofList, Ends.map]
  partCount := rfl
  partBounds := rfl
  evaluate := by
    rw [muted_evaluate_pool]
    exact Play.each_singleton_sum (die d).evaluate.muted
  parts := by
    have hparts : (die d).parts = (die d).evaluate.map ([·]) := by
      rw [parts, evaluate, Play.map_bind]
    rw [muted_parts_pool, hparts, Play.muted_map]
    rfl

namespace Unpacks

variable {d : Die} {a b : Tree}

/-- A pool of one die and the die have the same one target. Above them an explosion takes the whole
tree on both sides. -/
theorem alike (h : Unpacks d a b) : a.Alike b := by
  induction h with
  | die => exact alike_single_die d
  | @modified a b h m ih =>
    cases m with
    | calculate op operand => exact ih.calculate op operand
    | select selection => exact ih.select selection
    | explode condition limit =>
      cases h with
      | die => exact Alike.explode rfl rfl
      | modified h m => exact ih.explode_modified condition limit

theorem text_eq (h : Unpacks d a b) : a.text = b.text := by
  induction h with
  | die => exact text_single_die d
  | modified _ m ih => rw [text, text, ih]

theorem ne (h : Unpacks d a b) : a ≠ b := by
  induction h with
  | die => exact nofun
  | modified _ m ih => exact fun heq => ih (modified.inj heq).1

theorem modify? (h : Unpacks d a b) (m : Modifier) :
    Concurs (Unpacks d) (a.modify? m) (b.modify? m) :=
  concurs_modify (check_congr h.alike.partCount m) (h.modified m)

end Unpacks

end Tree

namespace Limits

open DiceExpr.Tree

variable (limits : Limits)

/-- The trees of a die without and with parentheses. Without modifiers they are the same die. -/
theorem concurs_single_die (d : Die) (tokens : List ModifierToken) :
    Concurs (fun a b => (a = b ↔ tokens = []) ∧ a.text = b.text ∧ a.Agree b)
      (limits.modifyAll? (pool [die d]) tokens >>= fun y => pure y.collapse)
      (limits.modifyAll? (die d) tokens >>= fun y => pure y.collapse) := by
  by_cases hne : tokens = []
  · subst hne
    have hsame : (die d).Alike (die d) := ⟨rfl, rfl, rfl, rfl, rfl⟩
    exact .result ⟨iff_of_true rfl rfl, rfl, hsame.agree⟩
  · rw [modifyAll?_collapse hne, modifyAll?_collapse hne]
    have hunpacks : Concurs (Unpacks d) (limits.modifyAll? (pool [die d]) tokens)
        (limits.modifyAll? (die d) tokens) := by
      rw [modifyAll?_eq_foldlM, modifyAll?_eq_foldlM]
      refine Concurs.foldlM (fun a b token h => ?_) .die tokens
      refine (Concurs.rfl (limits.modifier? token)).bind fun m m' hm => ?_
      rw [← hm]
      exact h.modify? m
    exact hunpacks.imp fun a b h => ⟨iff_of_false h.ne hne, h.text_eq, h.alike.agree⟩

theorem concurs_parenthesised_die {quantity : Option Value} (hone : Term.amount quantity = 1)
    (type : DieToken) (tokens : List ModifierToken) :
    Concurs (fun a b => (a = b ↔ tokens = []) ∧ a.text = b.text ∧ a.Agree b)
      (limits.sum? [.dice quantity type tokens])
      (limits.sum? [.group [.dice quantity type []] tokens]) := by
  rw [sum?_singleton, sum?_singleton, term?_group, sum?_singleton, term?, term?]
  simp only [bind_assoc]
  refine (Concurs.rfl type.die?).bind fun d d' hd => ?_
  rw [← hd]
  cases hquantity : limits.quantity? quantity with
  | error fault => exact .fault fault
  | ok n =>
    obtain ⟨hn, -⟩ := quantity?_within hquantity
    obtain rfl : n = 1 := hn.trans hone
    exact limits.concurs_single_die d tokens

end Limits

namespace Grammar

/-- Modifiers are written one after another behind a term. -/
theorem Derives.withModifiers (s : Term) {first tokens : List ModifierToken} {w : Text}
    {ws : List Text} (h : Derives (.sum [s.withModifiers first]) w)
    (hws : List.Forall₂ Modifies ws tokens) :
    Derives (.sum [s.withModifiers (first ++ tokens)]) (w ++ ws.flatten) := by
  induction hws generalizing first w with
  | nil => simpa using h
  | @cons v token vs tokens hv _ ih =>
    have hattach : (s.withModifiers first).attach token = s.withModifiers (first ++ [token]) := by
      cases s <;> rfl
    have hterm : Derives (.sum ([] ++ [s.withModifiers first])) w := h
    have hfirst := hterm.modify hv
    rw [hattach] at hfirst
    simpa using ih hfirst

end Grammar

namespace Term

open Grammar

/-- The notations of a term with its modifiers, without and with parentheses around the term. -/
theorem ofText?_written {s : Term} {w : Text} (h : Derives (.operand (s.withModifiers [])) w)
    {ws : List Text} {tokens : List ModifierToken} (hws : List.Forall₂ Modifies ws tokens)
    {text text' : Text} (htext : text.normal = w ++ ws.flatten)
    (htext' : text'.normal = w.parenthesised ++ ws.flatten) :
    ofText? text = .ok [s.withModifiers tokens] ∧
      ofText? text' = .ok [group [s.withModifiers []] tokens] := by
  have hplain := Derives.withModifiers s (.single h) hws
  have hgroup : Derives (.sum [(group [s.withModifiers []] []).withModifiers []]) w.parenthesised :=
    .single (.group (.single h))
  have hgrouped := hgroup.withModifiers _ hws
  rw [List.nil_append, ← htext] at hplain
  rw [List.nil_append, ← htext'] at hgrouped
  exact ⟨(read_eq_ok hplain.text_ne_nil).mpr hplain, (read_eq_ok hgrouped.text_ne_nil).mpr hgrouped⟩

end Term

namespace Tree

/-- Under any modifiers a pool of one die behaves like the die, and both are written alike. These
are the trees that one die before modifiers stands for without and with parentheses around it: they
have different shapes, unless there are no modifiers. -/
theorem single_die_pool_agrees :
    (∀ (d : Die) (ms : List Modifier), Concurs (fun a b => a.text = b.text ∧ a.Agree b)
        (ms.foldlM modify? (pool [die d])) (ms.foldlM modify? (die d))) ∧
      ∀ (limits : Limits) (quantity : Option Value) (type : DieToken) (w : Text)
        (tokens : List ModifierToken) (ws : List Text) (text text' : Text),
        Term.amount quantity = 1 → 1 ≤ limits.deepestGroup →
        Grammar.Derives (.operand (.dice quantity type [])) w →
        List.Forall₂ Grammar.Modifies ws tokens → text.normal = w ++ ws.flatten →
        text'.normal = w.parenthesised ++ ws.flatten →
        Concurs (fun a b => (a = b ↔ tokens = []) ∧ a.text = b.text ∧ a.Agree b)
          (ofText? limits text) (ofText? limits text') := by
  constructor
  · intro d ms
    have hunpacks : Concurs (Unpacks d) (ms.foldlM modify? (pool [die d]))
        (ms.foldlM modify? (die d)) := Concurs.foldlM (fun _ _ m h => h.modify? m) .die ms
    exact hunpacks.imp fun a b h => ⟨h.text_eq, h.alike.agree⟩
  · intro limits quantity type w tokens ws text text' hone hdepth hdie hws htext htext'
    obtain ⟨hplain, hgrouped⟩ :=
      Term.ofText?_written (s := .dice quantity type []) hdie hws htext htext'
    have hflat : text.parenDepth = 0 := (Term.depths_of_ofText? hplain).symm
    have hdeep : text'.parenDepth = 1 := (Term.depths_of_ofText? hgrouped).symm
    rw [ofText?_checked_once, ofText?_checked_once, hplain, hgrouped, hflat, hdeep,
      checkDepth_of_le (Nat.zero_le _), checkDepth_of_le hdepth]
    exact limits.concurs_parenthesised_die hone type tokens

/-- An exploding die, of which the one part is kept before the sum. -/
theorem single_die_pool_agrees_of_exploding_die :
    let limits : Limits := { mostRerolls := 4 }
    let modifiers : List Modifier := [.explode ⟨.eq, 6⟩ 4, .select ⟨.keep, .high, 1⟩,
      .calculate .add 2]
    let a := modifiers.foldl modified (pool [die (.sided 6)])
    let b := modifiers.foldl modified (die (.sided 6))
    let tokens : List ModifierToken := [⟨.explode, ['='], 6⟩, ⟨.select, ['K', 'H'], 1⟩,
      ⟨.calculate, ['+'], 2⟩]
    let w : Text := "D6".toList
    let ws : List Text := ["!6".toList, "KH1".toList, "+2".toList]
    let text : Text := "d6 !6 kh1 + 2".toList
    let text' : Text := "(d6) !6 kh1 + 2".toList
    Term.amount none = 1 ∧ 1 ≤ limits.deepestGroup ∧
      Grammar.Derives (.operand (.dice none (.sides 6) [])) w ∧
      List.Forall₂ Grammar.Modifies ws tokens ∧ text.normal = w ++ ws.flatten ∧
      text'.normal = w.parenthesised ++ ws.flatten ∧
      modifiers.foldlM modify? (pool [die (.sided 6)]) = .ok a ∧
      modifiers.foldlM modify? (die (.sided 6)) = .ok b ∧ ofText? limits text = .ok a ∧
      ofText? limits text' = .ok b ∧ a ≠ b ∧ a.text = b.text ∧ a.Agree b := by
  intro limits modifiers a b tokens w ws text text'
  have hdie : Grammar.Derives (.operand (.dice none (.sides 6) [])) w :=
    .die (.sides (.digit '6' rfl (by decide)))
  have hws : List.Forall₂ Grammar.Modifies ws tokens :=
    .cons (.explodeEqual (.plain (.digit '6' rfl (by decide))))
      (.cons (.select (by decide) (by decide) (.digit '1' rfl (by decide)))
        (.cons (.calculate (by decide) (.digit '2' rfl (by decide))) .nil))
  have htext : text.normal = w ++ ws.flatten := by decide
  have htext' : text'.normal = w.parenthesised ++ ws.flatten := by decide
  have hpool : modifiers.foldlM modify? (pool [die (.sided 6)]) = .ok a := by decide
  have hbare : modifiers.foldlM modify? (die (.sided 6)) = .ok b := by decide
  have hbuilt : ofText? limits text = .ok a := by decide +kernel
  have hbuilt' : ofText? limits text' = .ok b := by decide +kernel
  obtain ⟨hmodified, hwritten⟩ := single_die_pool_agrees
  have hagree := hmodified (.sided 6) modifiers
  rw [hpool, hbare] at hagree
  have hshapes := hwritten limits none (.sides 6) w tokens ws text text' rfl (by decide) hdie hws
    htext htext'
  rw [hbuilt, hbuilt'] at hshapes
  cases hagree with
  | result hagree =>
    cases hshapes with
    | result hshapes =>
      exact ⟨rfl, by decide, hdie, hws, htext, htext', hpool, hbare, hbuilt, hbuilt',
        mt hshapes.1.mp (List.cons_ne_nil _ _), hagree⟩

end Tree

end DiceExpr
