import DiceExpr.Proofs.Grammar.Completeness
import Mathlib.Data.List.Forall2

namespace DiceExpr

namespace Reader

open Grammar

variable {w rest : Text}

theorem modified_complete {m : ModifierToken} (h : Modifies w m) (hrest : Resumes rest)
    (inside : Reader (List Term)) : (link inside).Reads (w ++ rest) (.modified m) rest := by
  unfold link
  simp only [reads_orElse, reads_bind, reads_char, reads_map, misses_bind, misses_map, misses_char]
  refine .inr ⟨?_, m, modifierToken_complete h hrest.endsNumber, rfl⟩
  by_cases hplus : (w ++ rest).head? = some '+'
  · right
    cases h with
    | @calculate op w n _ h =>
      obtain rfl := Option.some.inj hplus
      exact ⟨(), w ++ rest, rfl, operand_misses h hrest inside⟩
    | @select choice _ _ _ hchoice =>
      obtain rfl := Option.some.inj hplus
      exact absurd hchoice (by decide)
    | explode _ _ => cases hplus
    | explodeEqual _ => cases hplus
  · exact .inl hplus

theorem resumes_of_modifies {m : ModifierToken} (h : Modifies w m) : Resumes (w ++ rest) := by
  cases h with
  | calculate hop _ =>
    have hops : ∀ c ∈ ['+', '-', '*', '/'], c ∈ [')', '+', '-', '*', '/', 'K', '!'] := by simp
    exact .mark (hops _ hop)
  | select hchoice hextreme _ =>
    rcases List.mem_pair.mp hchoice with rfl | rfl
    · exact .mark (by decide)
    · exact .drop hextreme
  | explode _ _ => exact .mark (by decide)
  | explodeEqual _ => exact .mark (by decide)

/-- What may follow a sum. -/
def Closes (rest : Text) : Prop := rest = [] ∨ rest.head? = some ')'

theorem Closes.resumes (h : Closes rest) : Resumes rest := by
  cases rest with
  | nil => exact .done
  | cons c rest =>
    obtain h | h := h
    · cases h
    · obtain rfl := Option.some.inj h
      exact .mark (by decide)

theorem link_misses (h : Closes rest) (inside : Reader (List Term)) :
    (link inside).Misses rest := by
  have hhead (c : Char) (hc : c ≠ ')') : rest.head? ≠ some c := by
    obtain rfl | h := h
    · nofun
    · rw [h]
      intro heq
      exact hc (Option.some.inj heq).symm
  have hops : ∀ c ∈ ['+', '-', '*', '/'], c ≠ ')' := by simp
  have hchoices : ∀ c ∈ ['K', 'D'], c ≠ ')' := by simp
  unfold link modifierToken calculation selection explosion
  simp only [misses_orElse, misses_bind, misses_map, misses_char, misses_oneOf]
  exact ⟨.inl (hhead '+' (by decide)), .inl fun c hc => hhead c (hops c hc),
    .inl fun c hc => hhead c (hchoices c hc), .inl (hhead '!' (by decide))⟩

/-- The text of a link is read as that, wherever it stands. -/
structure Linked (w : Text) (l : Link) : Prop where
  resumes : ∀ rest, Resumes (w ++ rest)
  reads : ∀ levels rest, w.length ≤ levels → Resumes rest →
    (link (sumWithin levels)).Reads (w ++ rest) l rest

theorem repeats_linked {ws : List Text} {links : List Link} (h : List.Forall₂ Linked ws links)
    (levels : Nat) (hlen : ws.flatten.length ≤ levels) (hrest : Closes rest) :
    (link (sumWithin levels)).Repeats (ws.flatten ++ rest) links rest ∧
      Resumes (ws.flatten ++ rest) := by
  induction h with
  | nil => exact ⟨.stop (link_misses hrest _), hrest.resumes⟩
  | @cons w l ws links hw _ ih =>
    rw [List.flatten_cons, List.length_append] at hlen
    obtain ⟨hrepeats, hresumes⟩ := ih (by omega)
    rw [List.flatten_cons, List.append_assoc]
    exact ⟨.more (hw.reads levels _ (by omega) hresumes) hrepeats, hw.resumes _⟩

theorem gather_joined (t s : Term) (links : List Link) :
    gather t (links ++ [.joined s]) = gather t links ++ [s] := by
  induction links generalizing t with
  | nil => rfl
  | cons l links ih =>
    cases l with
    | joined next => simp only [List.cons_append, gather, ih]
    | modified m => simp only [List.cons_append, gather, ih]

theorem gather_modified (t : Term) (links : List Link) :
    ∃ terms last, gather t links = terms ++ [last] ∧
      ∀ m, gather t (links ++ [.modified m]) = terms ++ [last.attach m] := by
  induction links generalizing t with
  | nil => exact ⟨[], t, rfl, fun _ => rfl⟩
  | cons l links ih =>
    cases l with
    | joined next =>
      obtain ⟨terms, last, hgather, hattach⟩ := ih next
      refine ⟨t :: terms, last, ?_, fun m => ?_⟩
      · rw [gather, hgather, List.cons_append]
      · rw [List.cons_append, gather, hattach, List.cons_append]
    | modified m => exact ih (t.attach m)

/-- The text of an operand is read as that, wherever it stands. -/
def Recognized (t : Term) (w : Text) : Prop :=
  ∀ levels rest, w.length ≤ levels → Resumes rest →
    (operand (sumWithin levels)).Reads (w ++ rest) t rest

/-- The text of a sum falls into those of its first term and of the links after it. -/
def Linkable (terms : List Term) (w : Text) : Prop :=
  ∃ t v links ws, terms = gather t links ∧ w = v ++ ws.flatten ∧ Recognized t v ∧
    List.Forall₂ Linked ws links

theorem Linkable.reads {terms : List Term} (h : Linkable terms w) {levels : Nat}
    (hlen : w.length ≤ levels) (hrest : Closes rest) :
    (sumWithin (levels + 1)).Reads (w ++ rest) terms rest := by
  obtain ⟨t, v, links, ws, rfl, rfl, ht, hlinks⟩ := h
  rw [List.length_append] at hlen
  obtain ⟨hrepeats, hresumes⟩ := repeats_linked hlinks levels (by omega) hrest
  have hconsumes := link_consumes (sumWithin_sound levels)
  unfold sumWithin
  simp only [reads_bind, reads_many hconsumes, reads_pure]
  rw [List.append_assoc]
  exact ⟨t, _, ht levels _ (by omega) hresumes, links, rest, hrepeats, rfl, rfl⟩

theorem linked_joined {t : Term} (h : Recognized t w) : Linked ('+' :: w) (.joined t) := by
  refine ⟨fun rest => .mark (by decide), fun levels rest hlen hrest => ?_⟩
  rw [List.length_cons] at hlen
  unfold link
  simp only [reads_orElse, reads_bind, reads_char, reads_map]
  exact .inl ⟨(), w ++ rest, rfl, t, h levels rest (by omega) hrest, rfl⟩

theorem linked_modified {m : ModifierToken} (h : Modifies w m) : Linked w (.modified m) :=
  ⟨fun _ => resumes_of_modifies h, fun _ _ _ hrest => modified_complete h hrest _⟩

theorem recognized_group {inner : List Term} (h : Linkable inner w) :
    Recognized (.group inner []) ('(' :: w ++ [')']) := by
  intro levels rest hlen _
  simp only [List.length_append, List.length_cons, List.length_nil] at hlen
  obtain ⟨levels, rfl⟩ : ∃ fewer, levels = fewer + 1 := ⟨levels - 1, by omega⟩
  have hinner : (sumWithin (levels + 1)).Reads (w ++ ')' :: rest) inner (')' :: rest) :=
    h.reads (by omega) (.inr rfl)
  have hdice : dice.Misses ('(' :: (w ++ ')' :: rest)) := by
    have hnumber : number.Misses ('(' :: (w ++ ')' :: rest)) :=
      number_misses (endsNumber_cons (by decide))
    unfold dice
    simp only [misses_bind, reads_optional, misses_char]
    exact .inr ⟨none, _, .inr ⟨hnumber, rfl, rfl⟩, .inl (by simp)⟩
  unfold operand group
  simp only [reads_orElse, reads_bind, reads_char, reads_nested, reads_pure, List.cons_append,
    List.append_assoc, List.nil_append]
  exact .inr ⟨hdice, (), _, rfl, inner, rest, ⟨inner, _, hinner, (), rest, rfl, rfl, rfl⟩, rfl, rfl⟩

/-- Along a derivation every operand is recognized and every sum falls apart as it is read. -/
theorem derives_complete {p : Phrase} (h : Derives p w) :
    match p with
    | .operand t => Recognized t w
    | .sum terms => Linkable terms w := by
  induction h with
  | die h =>
    intro levels rest _ hrest
    unfold operand
    rw [reads_orElse]
    exact .inl (die_complete h hrest.endsNumber)
  | dice hq h =>
    intro levels rest _ hrest
    unfold operand
    rw [reads_orElse]
    exact .inl (dice_complete hq h hrest.endsNumber)
  | group _ ih => exact recognized_group ih
  | @single w t _ ih => exact ⟨t, w, [], [], rfl, (List.append_nil w).symm, ih, .nil⟩
  | @join _ w _ s _ _ ihs ih =>
    obtain ⟨t, v, links, ws, rfl, rfl, ht, hlinks⟩ := ihs
    refine ⟨t, v, links ++ [.joined s], ws ++ ['+' :: w], (gather_joined t s links).symm, ?_, ht,
      List.rel_append hlinks (.cons (linked_joined ih) .nil)⟩
    simp only [List.flatten_append, List.flatten_cons, List.flatten_nil, List.append_nil,
      List.append_assoc]
  | @modify _ w terms last m _ h ihs =>
    obtain ⟨t, v, links, ws, hgather, rfl, ht, hlinks⟩ := ihs
    obtain ⟨terms', last', hgather', hattach⟩ := gather_modified t links
    obtain ⟨rfl, hlast⟩ := List.append_inj' (hgather.trans hgather') rfl
    obtain rfl := (List.cons.inj hlast).1
    refine ⟨t, v, links ++ [.modified m], ws ++ [w], (hattach m).symm, ?_, ht,
      List.rel_append hlinks (.cons (linked_modified h) .nil)⟩
    simp only [List.flatten_append, List.flatten_cons, List.flatten_nil, List.append_nil,
      List.append_assoc]

theorem sum_reads_iff {terms : List Term} :
    sum.Reads w terms [] ↔ Derives (.sum terms) w := by
  constructor
  · intro h
    obtain ⟨v, rfl, hv⟩ := sumWithin_sound _ w terms [] h
    rw [List.append_nil]
    exact hv
  · intro h
    have hread := (derives_complete h : Linkable terms w).reads (le_refl _) (.inl rfl)
    rw [List.append_nil] at hread
    exact hread

end Reader

namespace Term

theorem read_eq_ok {text : Text} (hne : text ≠ []) {terms : List Term} :
    read text = .ok terms ↔ Grammar.Derives (.sum terms) text := by
  have hwhole : Reader.sum.Reads text terms [] ↔
      ∃ rest, Reader.sum.whole.Reads text terms rest := by
    simp only [Reader.reads_whole, exists_eq_right]
  rw [← Reader.sum_reads_iff, hwhole]
  unfold read
  rw [if_neg (by simpa using hne)]
  unfold Reader.Reads
  split
  · next found rest _ h =>
    rw [h, Except.ok.injEq]
    simp only [Option.some.injEq, Prod.mk.injEq, exists_and_left, exists_eq', and_true]
  · next h =>
    rw [h]
    exact ⟨nofun, nofun⟩

theorem ofText?_of_blank {text : Text} (h : text.normal = []) : ofText? text = .ok [] := by
  rw [ofText?, h]
  rfl

/-- A text is read as just the sum that its normal form can be derived from, and there is only one.
-/
theorem ofText?_eq_ok_iff_derives {text : Text} (hne : text.normal ≠ []) (terms : List Term) :
    (ofText? text = .ok terms ↔ Grammar.Derives (.sum terms) text.normal) ∧
      ∀ other, Grammar.Derives (.sum terms) text.normal →
        Grammar.Derives (.sum other) text.normal → other = terms := by
  refine ⟨read_eq_ok hne, ?_⟩
  intro other hterms hother
  have hread := (read_eq_ok hne).mpr hterms
  have hread' := (read_eq_ok hne).mpr hother
  exact Except.ok.inj (hread'.symm.trans hread)

/-- The first `+3` goes on to dice, the second one is a number. -/
theorem ofText?_added_number :
    let text : Text := "d6 + 3d8 + 3dh1".toList
    let terms := [dice none (.sides 6) [],
      dice (some 3) (.sides 8) [⟨.calculate, ['+'], 3⟩, ⟨.select, ['D', 'H'], 1⟩]]
    text.normal ≠ [] ∧ Grammar.Derives (.sum terms) text.normal ∧ ofText? text = .ok terms := by
  intro text terms
  have hjoined : Grammar.Derives (.sum ([dice none (.sides 6) []] ++ [dice (some 3) (.sides 8) []]))
      "D6+3D8".toList :=
    .join (.single (.die (.sides (.digit '6' rfl (by decide)))))
      (.dice (.digit '3' rfl (by decide)) (.sides (.digit '8' rfl (by decide))))
  have hadded : Grammar.Derives (.sum ([dice none (.sides 6) []] ++
      [dice (some 3) (.sides 8) [⟨.calculate, ['+'], 3⟩]])) "D6+3D8+3".toList :=
    .modify hjoined (.calculate (by decide) (.digit '3' rfl (by decide)))
  have hderives : Grammar.Derives (.sum terms) "D6+3D8+3DH1".toList :=
    .modify hadded (.select (by decide) (by decide) (.digit '1' rfl (by decide)))
  have hnormal : text.normal = "D6+3D8+3DH1".toList := by decide
  have hne : text.normal ≠ [] := by decide
  rw [← hnormal] at hderives
  exact ⟨hne, hderives, (ofText?_eq_ok_iff_derives hne terms).1.mpr hderives⟩

end Term

end DiceExpr
