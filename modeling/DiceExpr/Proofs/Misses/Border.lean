import DiceExpr.CommandLine
import DiceExpr.Proofs.Grammar.Recognition
import DiceExpr.Proofs.Misses.Locality
import DiceExpr.Proofs.Misses.Viability

namespace DiceExpr

open Grammar

namespace Reader

/-! The readers of the grammar are local -/

namespace Local

variable {bound : Nat}

theorem signed : Local bound signed :=
  char.optional.bind fun _ => number.bind fun _ => pure

theorem faces : Local bound faces :=
  char.bind fun _ => signed.bind fun _ =>
    ((char.bind fun _ => signed).many next_face_consumes).bind fun _ => char.bind fun _ => pure

theorem dieToken : Local bound dieToken :=
  number.map.orElse (char.map.orElse (char.map.orElse faces.map))

theorem dice : Local bound dice :=
  number.optional.bind fun _ => char.bind fun _ => dieToken.bind fun _ => pure

theorem calculation : Local bound calculation :=
  oneOf.bind fun _ => number.bind fun _ => pure

theorem selection : Local bound selection :=
  oneOf.bind fun _ => oneOf.bind fun _ => number.bind fun _ => pure

theorem comparator : Local bound comparator := by
  unfold Reader.comparator
  simp only [List.foldr_cons, List.foldr_nil]
  exact (word _).map.orElse ((word _).map.orElse ((word _).map.orElse ((word _).map.orElse
    (word _).map.orElse_fail)))

theorem explosion : Local bound explosion :=
  char.bind fun _ => comparator.optional.bind fun _ => signed.bind fun _ => pure

theorem modifierToken : Local bound modifierToken :=
  calculation.orElse (selection.orElse explosion)

variable {inside : Reader (List Term)}

/-- The inside of a group is read from a shorter text than the group. -/
theorem operand (h : Local bound inside) : Local (bound + 1) (operand inside) := by
  have hgroup : Local (bound + 1) (group inside) := by
    have hinner := (h.bind fun inner => char.bind fun _ => pure (a := inner)).nested (p := do
      let inner ← inside
      Reader.char ')'
      return inner)
    refine char.bind_of_lt (fun _ => hinner.bind fun _ => pure) fun text _ rest hopen hlen _ => ?_
    rw [reads_char.mp hopen, List.length_cons] at hlen
    omega
  exact dice.orElse hgroup

theorem link (h : Local bound inside) : Local (bound + 1) (link inside) :=
  (char.bind fun _ => (operand h).map).orElse modifierToken.map

theorem sumWithin (levels : Nat) : Local levels (sumWithin levels) := by
  induction levels with
  | zero =>
    intro u s s' hs _
    exact absurd hs (Nat.not_lt_zero _)
  | succ levels ih =>
    exact (operand ih).bind fun _ =>
      ((link ih).many (link_consumes (sumWithin_sound levels))).bind fun _ => pure

end Local

theorem sum_whole_eq {text : Text} {levels : Nat} (h : text.length < levels) :
    sum.whole text = (sumWithin levels).whole text :=
  bind_congr (sum_eq_sumWithin h) fun _ _ _ => rfl

/-- A text that does not fit is blamed only behind its viable fronts. -/
theorem blames_behind {u s : Text} (hmiss : sum.whole.Misses (u ++ s))
    (hviable : ∃ v, IsSum (u ++ v)) : ∃ m, sum.whole.Blames (u ++ s) m ∧ m.left ≤ s.length := by
  obtain ⟨v, terms, hterms⟩ := hviable
  have hreads : sum.whole.Reads (u ++ v) terms [] :=
    reads_whole.mpr ⟨sum_reads_iff.mpr hterms, rfl⟩
  -- With this many levels neither text runs out of them.
  obtain ⟨levels, hs, hv⟩ : ∃ levels, (u ++ s).length < levels ∧ (u ++ v).length < levels :=
    ⟨(u ++ s).length + (u ++ v).length + 1, by omega, by omega⟩
  unfold Blames
  unfold Misses at hmiss
  unfold Reads at hreads
  rw [sum_whole_eq hs] at hmiss ⊢
  rw [sum_whole_eq hv] at hreads
  obtain (hblames | ⟨a, rest, ha, -⟩) | hsettles := (Local.sumWithin levels).whole u s v hs hv
  · exact hblames
  · exact absurd hmiss ha.not_misses
  · cases hsettles with
    | misses _ _ h => exact absurd h (Reads.not_misses hreads)
    | reads _ _ h _ => exact absurd hmiss h.not_misses

theorem exists_blames {text : Text} (hmiss : sum.whole.Misses text) :
    ∃ m, sum.whole.Blames text m := by
  obtain ⟨m, hm, -⟩ := blames_behind (u := []) hmiss ⟨_, isOperand_die.sum⟩
  exact ⟨m, hm⟩

theorem left_le_of_viable {u s : Text} (hmiss : sum.whole.Misses (u ++ s))
    (hviable : ∃ v, IsSum (u ++ v)) {m : Miss} (h : sum.whole.Blames (u ++ s) m) :
    m.left ≤ s.length := by
  obtain ⟨n, hn, hleft⟩ := blames_behind hmiss hviable
  obtain rfl : n = m := Option.some.inj (hn.symm.trans h)
  exact hleft

end Reader

namespace Term

/-- Some text behind it makes the text readable. -/
def Viable (w : Text) : Prop := ∃ v terms, read (w ++ v) = .ok terms

/-- The longest front of the text with which a readable text begins. -/
structure IsBorder (border text : Text) : Prop where
  front : border <+: text
  viable : Viable border
  longest : ∀ w, w <+: text → Viable w → w.length ≤ border.length

theorem viable_iff {w : Text} : Viable w ↔ ∃ v, IsSum (w ++ v) := by
  constructor
  · intro h
    obtain ⟨v, terms, hread⟩ := h
    by_cases hne : w ++ v = []
    · rw [(List.append_eq_nil_iff.mp hne).1]
      exact ⟨_, isOperand_die.sum⟩
    · exact ⟨v, terms, (read_eq_ok hne).mp hread⟩
  · intro h
    obtain ⟨v, terms, hterms⟩ := h
    have hne : w ++ v ≠ [] := hterms.text_ne_nil
    exact ⟨v, terms, (read_eq_ok hne).mpr hterms⟩

/-- The viable texts are the fronts of the normal forms that can be read. -/
theorem viable_iff_ofText? {w : Text} :
    Viable w ↔ ∃ text terms, ofText? text = .ok terms ∧ w <+: text.normal := by
  constructor
  · intro h
    obtain ⟨v, terms, hterms⟩ := viable_iff.mp h
    have hnormal : (w ++ v).normal = w ++ v := Text.normal_of_derives hterms
    refine ⟨w ++ v, terms, ?_, hnormal.symm ▸ List.prefix_append w v⟩
    rw [ofText?, hnormal]
    exact (read_eq_ok hterms.text_ne_nil).mpr hterms
  · intro h
    obtain ⟨text, terms, hread, v, hv⟩ := h
    rw [ofText?, ← hv] at hread
    exact ⟨v, terms, hread⟩

/-- Behind a viable front the border is found at once if no viable front is longer by more than one
character. -/
theorem exists_border {front missed : Text} (hviable : Viable front)
    (h : ∀ w, w <+: front ++ missed → Viable w → w.length ≤ front.length + 1) :
    ∃ border, IsBorder border (front ++ missed) ∧
      (front = border ∨ ∃ c, border = front ++ [c]) := by
  have hfront : front <+: front ++ missed := List.prefix_append front missed
  by_cases hnext : ∃ c, front ++ [c] <+: front ++ missed ∧ Viable (front ++ [c])
  · obtain ⟨c, hbegins, hc⟩ := hnext
    refine ⟨front ++ [c], ⟨hbegins, hc, fun w hw hviable => ?_⟩, .inr ⟨c, rfl⟩⟩
    rw [List.length_append]
    exact h w hw hviable
  · refine ⟨front, ⟨hfront, hviable, fun w hw hviable => ?_⟩, .inl rfl⟩
    by_contra hlonger
    have hlen : w.length = front.length + 1 := by
      have hle := h w hw hviable
      omega
    obtain ⟨last, rfl⟩ := List.prefix_of_prefix_length_le hfront hw (by omega)
    rw [List.length_append, Nat.add_left_cancel_iff, List.length_eq_one_iff] at hlen
    obtain ⟨c, rfl⟩ := hlen
    exact hnext ⟨c, hw, hviable⟩

theorem read_eq_unreadable {text rest : Text} (h : read text = .error (.unreadable rest)) :
    text ≠ [] ∧ Reader.sum.whole.Misses text ∧
      rest = blamed text (Reader.sum.whole text).trail := by
  unfold read at h
  split_ifs at h with hempty
  refine ⟨by simpa using hempty, ?_⟩
  unfold Reader.Misses
  split at h
  · cases h
  · next hmiss =>
    rw [hmiss]
    cases h
    exact ⟨rfl, rfl⟩

theorem blamed_eq {text : Text} {m : Miss} (h : Reader.sum.whole.Blames text m) :
    blamed text (Reader.sum.whole text).trail = if m.rest = [] then text else m.rest := by
  unfold Reader.Blames at h
  unfold blamed
  rw [h]
  obtain ⟨missed, left⟩ := m
  cases missed <;> rfl

end Term

namespace CommandLine.Report

/-- The faulty characters are those that the fault blames. -/
theorem ofFault_unreadable {text rest : Text} (h : rest <:+ text.normal) :
    let report := ofFault text (.unreadable rest)
    report.source = text.normal ∧
      (report.source.drop report.start).take report.length = rest := by
  intro report
  have hsource : report.source = text.normal := rfl
  have hstart : report.start = text.normal.length - rest.length := rfl
  have hlength : report.length = text.normal.length - report.start := rfl
  refine ⟨hsource, ?_⟩
  obtain ⟨front, hfront⟩ := h
  rw [hlength, hstart, hsource, ← hfront, List.length_append, Nat.add_sub_cancel,
    List.drop_left, Nat.add_sub_cancel_left, List.take_length]

end CommandLine.Report

namespace Term

open CommandLine in
/-- The text is blamed from its border on or from the character before it. -/
theorem unreadable_at_border {text rest : Text}
    (h : ofText? text = .error (.unreadable rest)) :
    ∃ front miss border, text.normal = front ++ miss.rest ∧
      Reader.sum.whole.Blames text.normal miss ∧ IsBorder border text.normal ∧
      (front = border ∨ ∃ c, border = front ++ [c]) ∧
      rest = (if miss.rest = [] then text.normal else miss.rest) ∧ rest ≠ [] ∧
      rest <:+ text.normal ∧
      let report := Report.ofFault text (.unreadable rest)
      report.source = text.normal ∧
        (report.source.drop report.start).take report.length = rest := by
  obtain ⟨hne, hmiss, hrest⟩ := read_eq_unreadable h
  obtain ⟨miss, hblames⟩ := Reader.exists_blames hmiss
  obtain ⟨⟨front, v, hnormal, hv⟩, -, hlength⟩ := Reader.whole_viable hblames
  have hlongest (w : Text) (hw : w <+: front ++ miss.rest) (hviable : Viable w) :
      w.length ≤ front.length + 1 := by
    -- No viable front ends behind the place that the miss counts for, and that lies at most one
    -- character behind its start.
    obtain ⟨s, hs⟩ := hw
    have htext : text.normal = w ++ s := hnormal.trans hs.symm
    rw [htext] at hmiss hblames
    have hleft := Reader.left_le_of_viable hmiss (viable_iff.mp hviable) hblames
    have hlen := congrArg List.length hs
    simp only [List.length_append] at hlen
    omega
  obtain ⟨border, hborder, hstart⟩ := exists_border (viable_iff.mpr ⟨v, hv⟩) hlongest
  rw [blamed_eq hblames] at hrest
  have hsuffix : rest <:+ text.normal := by
    rw [hrest]
    split
    · exact List.suffix_refl _
    · exact ⟨front, hnormal.symm⟩
  refine ⟨front, miss, border, hnormal, hblames, ?_, hstart, hrest, ?_, hsuffix,
    Report.ofFault_unreadable hsuffix⟩
  · rw [hnormal]
    exact hborder
  · rw [hrest]
    split
    · exact hne
    · assumption

open CommandLine in
/-- The test of a set of characters passes the `!` before it fails, so that its miss counts for as
far on as the end. -/
theorem unreadable_at_mark :
    let text : Text := "d6!".toList
    ofText? text = .error (.unreadable ['!']) ∧ IsBorder "D6!".toList text.normal ∧
      (Report.ofFault text (.unreadable ['!'])).start = 2 := by
  intro text
  have hnormal : text.normal = "D6!".toList := by decide
  have hread : ofText? text = .error (.unreadable ['!']) := by rfl
  obtain ⟨_, _, border, -, -, hborder, -⟩ := unreadable_at_border hread
  have hread' : read "D6!1".toList = .ok [dice none (.sides 6) [⟨.explode, ['='], 1⟩]] := by rfl
  have hviable : Viable "D6!".toList := ⟨['1'], _, hread'⟩
  have hlonger := hborder.longest _ (hnormal ▸ List.prefix_refl _) hviable
  have heq : border = "D6!".toList := hnormal ▸ hborder.front.eq_of_length_le (hnormal ▸ hlonger)
  rw [heq] at hborder
  have hstart : (Report.ofFault text (.unreadable ['!'])).start = text.normal.length - 1 := rfl
  rw [hnormal] at hstart
  exact ⟨hread, hborder, hstart⟩

end Term

end DiceExpr
