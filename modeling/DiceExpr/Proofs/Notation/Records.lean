import DiceExpr.Proofs.Nodes
import DiceExpr.Proofs.Notation.Parts
import DiceExpr.Proofs.Notation.Scans
import DiceExpr.Proofs.Notation.Tokens

namespace DiceExpr

open Grammar

/-- Equal dice as they are written. -/
def Die.written (d : Die) (n : Nat) : List Term :=
  [.dice (if n = 1 then none else some (.clamp n)) d.token []]

/-- A modifier of a sum is added to its only term, if no `+` stands in that, or else to a group. -/
def Term.modifySum (isSum : Bool) (m : ModifierToken) : List Term → List Term
  | [t] => if isSum then [.group [t] [m]] else [t.attach m]
  | terms => [.group terms [m]]

/-- Terms whose text has a `+` outside of its groups take a modifier as a group of their own. Else
there is only one term. -/
theorem Term.modifySum_cases {ts : List Term} {w : Text} (h : Derives (.sum ts) w)
    (m : ModifierToken) :
    w.hasSum = true ∧ modifySum w.hasSum m ts = [.group ts [m]] ∨
      w.hasSum = false ∧ ∃ t, ts = [t] ∧ modifySum w.hasSum m ts = [t.attach m] := by
  match ts with
  | [] => exact absurd rfl (h.ne_nil [] rfl)
  | [t] =>
    cases w.hasSum with
    | true => exact .inl ⟨rfl, rfl⟩
    | false => exact .inr ⟨rfl, t, rfl, rfl⟩
  | _ :: _ :: _ =>
    -- two terms are joined by a `+`
    have hsum : w.hasSum = true := by
      rw [Text.hasSum_of_derives h]
      simp [Phrase.hasSum]
    exact .inl ⟨hsum, rfl⟩

namespace Tree

def termPart (t : Tree) (own : List Term) : Part (List Term) :=
  ⟨t.text, t.isDie, match t with
    | die d => d.written
    | _ => fun _ => own⟩

mutual

/-- The terms that the text of a tree is made of. -/
def terms : Tree → List Term
  | die d => d.written 1
  | pool children => (Part.arranged (termParts children)).flatten
  | modified inner m => Term.modifySum inner.text.hasSum m.token inner.terms

def termParts : List Tree → List (Part (List Term))
  | [] => []
  | t :: rest => t.termPart t.terms :: termParts rest

end

theorem termParts_eq_map (ts : List Tree) : termParts ts = ts.map fun t => t.termPart t.terms := by
  induction ts with
  | nil => rfl
  | cons t rest ih => rw [termParts, ih, List.map_cons]

/-- The grammar has a way to write what the node holds. -/
def Written : Tree → Prop
  | die d => d.Writable
  | pool children => children ≠ []
  | modified _ m => m.Writable

instance : (t : Tree) → Decidable t.Written
  | die d => inferInstanceAs (Decidable d.Writable)
  | pool children => inferInstanceAs (Decidable (children ≠ []))
  | modified _ m => inferInstanceAs (Decidable m.Writable)

private theorem derives_append {ts us : List Term} {v w : Text} (hw : Derives (.sum ts) w)
    (hv : Derives (.sum us) v) : Derives (.sum (ts ++ us)) (w ++ '+' :: v) := by
  generalize hp : Phrase.sum us = p at hv
  induction hv generalizing us with
  | single h _ =>
    cases hp
    exact .join hw h
  | @join _ _ terms t _ h ihs _ =>
    cases hp
    have hall := Derives.join (ihs rfl) h
    rw [List.append_assoc, List.append_assoc] at hall
    exact hall
  | @modify _ _ terms t m _ h ihs =>
    cases hp
    have hsum := ihs rfl
    rw [← List.append_assoc] at hsum
    have hall := Derives.modify hsum h
    rw [List.append_assoc, List.append_assoc] at hall
    exact hall
  | die _ => cases hp
  | dice _ _ => cases hp
  | group _ _ => cases hp

private theorem derives_joined {texts : List Text} {sums : List (List Term)}
    (h : List.Forall₂ (fun w ts => Derives (.sum ts) w) texts sums) (hne : texts ≠ []) :
    Derives (.sum sums.flatten) (Text.joined ['+'] texts) := by
  induction h with
  | nil => exact absurd rfl hne
  | @cons w ts texts sums hw hrest ih =>
    cases hrest with
    | nil =>
      rw [Text.joined_singleton, List.flatten_cons, List.flatten_nil, List.append_nil]
      exact hw
    | cons _ _ =>
      have hsum := derives_append hw (ih (List.cons_ne_nil _ _))
      rw [Text.joined_cons_cons, List.append_assoc, List.flatten_cons]
      exact hsum

theorem derives_written {d : Die} (h : d.Writable) (n : Nat) :
    Derives (.sum (d.written n)) (Batch.counted d.text n) := by
  obtain ⟨w, htext, hw⟩ := Die.text_eq h
  rw [htext]
  unfold Die.written Batch.counted
  by_cases hn : n = 1
  · rw [if_pos hn, if_pos hn]
    exact .single (.die hw)
  · rw [if_neg hn, if_neg hn]
    exact .single (.dice (Text.number_ofNat n) hw)

private theorem alike_part {t : Tree} (hnode : t.Written) (h : Derives (.sum t.terms) t.text) :
    Part.Alike (fun w ts => Derives (.sum ts) w) t.textPart (t.termPart t.terms) where
  text := rfl
  isDie := rfl
  counted n _ _ hn := by
    cases t with
    | die d => exact derives_written hnode n
    | pool children =>
      rw [hn.resolve_left nofun]
      exact h
    | modified inner m =>
      rw [hn.resolve_left nofun]
      exact h

private theorem derives_modified {ts : List Term} {w : Text} (h : Derives (.sum ts) w)
    {m : Modifier} (hm : m.Writable) :
    Derives (.sum (Term.modifySum w.hasSum m.token ts)) (modifiedText w m) := by
  have hmodifies := Modifier.modifies_text hm
  unfold modifiedText
  obtain ⟨hsum, hterms⟩ | ⟨hsum, t, rfl, hterms⟩ := Term.modifySum_cases h m.token
  · have hgroup : Derives (.sum ([] ++ [.group ts []])) w.parenthesised := .single (.group h)
    rw [hterms, if_pos hsum]
    exact .modify hgroup hmodifies
  · have hsingle : Derives (.sum ([] ++ [t])) w := h
    rw [hterms, if_neg (Bool.eq_false_iff.mp hsum)]
    exact .modify hsingle hmodifies

/-- The text of a tree is derived from its terms. -/
theorem derives_terms {t : Tree} (h : ∀ n ∈ t.nodes, n.Written) :
    Derives (.sum t.terms) t.text := by
  induction t using plainInduction with
  | die d =>
    have hd : d.Writable := h _ (mem_nodes_self _)
    exact derives_written hd 1
  | pool children ih =>
    obtain ⟨hnode, hchildren⟩ := forall_nodes_pool.mp h
    have hne : children ≠ [] := hnode
    have hparts : List.Forall₂ (Part.Alike fun w ts => Derives (.sum ts) w)
        (children.map textPart) (termParts children) := by
      rw [termParts_eq_map, List.forall₂_map_left_iff, List.forall₂_map_right_iff,
        List.forall₂_same]
      intro c hc
      have hchild := hchildren c hc
      exact alike_part (hchild c (mem_nodes_self c)) (ih c hc hchild)
    have htexts : Part.arranged (children.map textPart) ≠ [] :=
      Part.arranged_ne_nil (by simpa using hne)
    rw [text, poolText_eq hne, terms]
    exact derives_joined (Part.forall₂_arranged hparts) htexts
  | modified inner m ih =>
    obtain ⟨hm, hinner⟩ := forall_nodes_modified.mp h
    rw [text, terms]
    exact derives_modified (ih hinner) hm

end Tree

end DiceExpr
