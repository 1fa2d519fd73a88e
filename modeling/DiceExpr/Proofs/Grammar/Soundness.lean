import DiceExpr.Proofs.Grammar.Rules
import DiceExpr.Proofs.Grammar.Readers
import DiceExpr.Term.Read
import Mathlib.Data.List.TakeWhile

namespace DiceExpr.Reader

open Grammar

variable {text rest : Text}

/-! What is read has a derivation -/

theorem number_sound {n : Value} (h : number.Reads text n rest) :
    ∃ w, text = w ++ rest ∧ Number w n := by
  unfold number at h
  simp only [reads_bind, reads_pure] at h
  obtain ⟨ds, mid, hds, rfl, rfl⟩ := h
  unfold Reads at hds
  cases text with
  | nil => cases hds
  | cons c text =>
    simp only [digits] at hds
    split_ifs at hds with hzero hdigit
    · cases hds
      rw [hzero]
      exact ⟨['0'], rfl, .zero⟩
    · cases hds
      refine ⟨_, ?_, .digits hdigit hzero fun d hd => List.mem_takeWhile_imp hd⟩
      rw [List.cons_append, List.takeWhile_append_dropWhile]
    · cases hds

theorem signed_sound {n : Value} (h : signed.Reads text n rest) :
    ∃ w, text = w ++ rest ∧ Signed w n := by
  unfold signed at h
  simp only [reads_bind, reads_pure, reads_optional, reads_char] at h
  obtain ⟨sign, mid, hsign, n, _, hn, rfl, rfl⟩ := h
  obtain ⟨w, rfl, hw⟩ := number_sound hn
  obtain ⟨_, rfl, rfl⟩ | ⟨_, rfl, rfl⟩ := hsign
  · exact ⟨'-' :: w, rfl, .negative hw⟩
  · exact ⟨w, rfl, .plain hw⟩

private theorem consumes_of_sound {p : Reader α}
    (h : ∀ text a rest, p.Reads text a rest → ∃ w, text = w ++ rest ∧ w ≠ []) : p.Consumes := by
  intro text a rest hreads
  obtain ⟨w, rfl, hne⟩ := h text a rest hreads
  have hlen := List.length_pos_iff.mpr hne
  rw [List.length_append]
  omega

theorem next_face_sound {n : Value}
    (h : (do char ','; signed : Reader Value).Reads text n rest) :
    ∃ w, text = ',' :: w ++ rest ∧ Signed w n := by
  simp only [reads_bind, reads_char] at h
  obtain ⟨_, _, rfl, h⟩ := h
  obtain ⟨w, rfl, hw⟩ := signed_sound h
  exact ⟨w, rfl, hw⟩

theorem next_face_consumes : (do char ','; signed : Reader Value).Consumes := by
  refine consumes_of_sound fun text n rest h => ?_
  obtain ⟨w, rfl, -⟩ := next_face_sound h
  exact ⟨',' :: w, rfl, List.cons_ne_nil _ _⟩

private theorem next_faces_sound {ns : List Value}
    (h : (do char ','; signed : Reader Value).Repeats text ns rest) :
    ∃ w, text = w ++ rest ∧ ∀ v n, Signed v n → Faces (v ++ w) (n :: ns) := by
  induction h with
  | stop _ =>
    refine ⟨[], rfl, fun v n hv => ?_⟩
    rw [List.append_nil]
    exact .last hv
  | more h _ ih =>
    obtain ⟨w, rfl, hw⟩ := next_face_sound h
    obtain ⟨ws, rfl, hws⟩ := ih
    exact ⟨',' :: w ++ ws, (List.append_assoc ..).symm, fun v n hv => .more hv (hws w _ hw)⟩

theorem faces_sound {ns : List Value} (h : faces.Reads text ns rest) :
    ∃ w, text = '[' :: w ++ [']'] ++ rest ∧ Faces w ns := by
  unfold faces at h
  simp only [reads_bind, reads_char, reads_pure, reads_many next_face_consumes] at h
  obtain ⟨_, _, rfl, n, _, hn, ns, _, hns, _, _, rfl, rfl, rfl⟩ := h
  obtain ⟨v, rfl, hv⟩ := signed_sound hn
  obtain ⟨w, rfl, hw⟩ := next_faces_sound hns
  refine ⟨v ++ w, ?_, hw v n hv⟩
  simp only [List.cons_append, List.append_assoc, List.nil_append]

theorem dieToken_sound {type : DieToken} (h : dieToken.Reads text type rest) :
    ∃ w, text = w ++ rest ∧ DieType w type := by
  unfold dieToken at h
  simp only [reads_orElse, reads_map, reads_char] at h
  obtain ⟨n, hn, rfl⟩ | ⟨-, ⟨_, rfl, rfl⟩ | ⟨-, ⟨_, rfl, rfl⟩ | ⟨-, ns, hns, rfl⟩⟩⟩ := h
  · obtain ⟨w, rfl, hw⟩ := number_sound hn
    exact ⟨w, rfl, .sides hw⟩
  · exact ⟨['F'], rfl, .fudge⟩
  · exact ⟨['%'], rfl, .percentile⟩
  · obtain ⟨w, rfl, hw⟩ := faces_sound hns
    exact ⟨_, rfl, .custom hw⟩

theorem dice_sound {t : Term} (h : dice.Reads text t rest) :
    ∃ w, text = w ++ rest ∧ Derives (.operand t) w := by
  unfold dice at h
  simp only [reads_bind, reads_optional, reads_char, reads_pure] at h
  obtain ⟨n?, _, hn, _, _, rfl, type, _, htype, rfl, rfl⟩ := h
  obtain ⟨w, rfl, hw⟩ := dieToken_sound htype
  obtain ⟨n, hn, rfl⟩ | ⟨-, rfl, rfl⟩ := hn
  · obtain ⟨q, rfl, hq⟩ := number_sound hn
    refine ⟨q ++ 'D' :: w, ?_, .dice hq hw⟩
    simp only [List.append_assoc, List.cons_append]
  · exact ⟨'D' :: w, rfl, .die hw⟩

theorem calculation_sound {m : ModifierToken} (h : calculation.Reads text m rest) :
    ∃ w, text = w ++ rest ∧ Modifies w m := by
  unfold calculation at h
  simp only [reads_bind, reads_oneOf, reads_pure] at h
  obtain ⟨op, _, ⟨hop, rfl⟩, n, _, hn, rfl, rfl⟩ := h
  obtain ⟨w, rfl, hw⟩ := number_sound hn
  exact ⟨op :: w, rfl, .calculate hop hw⟩

theorem selection_sound {m : ModifierToken} (h : selection.Reads text m rest) :
    ∃ w, text = w ++ rest ∧ Modifies w m := by
  unfold selection at h
  simp only [reads_bind, reads_oneOf, reads_pure] at h
  obtain ⟨choice, _, ⟨hchoice, rfl⟩, extreme, _, ⟨hextreme, rfl⟩, n, _, hn, rfl, rfl⟩ := h
  obtain ⟨w, rfl, hw⟩ := number_sound hn
  exact ⟨choice :: extreme :: w, rfl, .select hchoice hextreme hw⟩

theorem comparator_sound {c : Comparator} (h : comparator.Reads text c rest) :
    text = c.symbol ++ rest := by
  unfold comparator at h
  simp only [List.foldr_cons, List.foldr_nil, reads_orElse, reads_map, reads_word] at h
  obtain ⟨_, rfl, rfl⟩ | ⟨-, ⟨_, rfl, rfl⟩ | ⟨-, ⟨_, rfl, rfl⟩ | ⟨-, ⟨_, rfl, rfl⟩ |
    ⟨-, ⟨_, rfl, rfl⟩ | ⟨-, h⟩⟩⟩⟩⟩ := h
  all_goals first | rfl | cases h

theorem explosion_sound {m : ModifierToken} (h : explosion.Reads text m rest) :
    ∃ w, text = w ++ rest ∧ Modifies w m := by
  unfold explosion at h
  simp only [reads_bind, reads_char, reads_optional, reads_pure] at h
  obtain ⟨_, _, rfl, c?, _, hc, n, _, hn, rfl, rfl⟩ := h
  obtain ⟨w, rfl, hw⟩ := signed_sound hn
  obtain ⟨c, hc, rfl⟩ | ⟨-, rfl, rfl⟩ := hc
  · rw [comparator_sound hc]
    refine ⟨'!' :: c.symbol ++ w, ?_, .explode c hw⟩
    simp only [List.cons_append, List.append_assoc]
  · exact ⟨'!' :: w, rfl, .explodeEqual hw⟩

theorem modifierToken_sound {m : ModifierToken} (h : modifierToken.Reads text m rest) :
    ∃ w, text = w ++ rest ∧ Modifies w m := by
  unfold modifierToken at h
  simp only [reads_orElse] at h
  obtain h | ⟨-, h | ⟨-, h⟩⟩ := h
  · exact calculation_sound h
  · exact selection_sound h
  · exact explosion_sound h

/-- Every sum that the reader of the inside of a group gives can be derived. -/
def InsideSound (inside : Reader (List Term)) : Prop :=
  ∀ text inner rest, inside.Reads text inner rest →
    ∃ w, text = w ++ rest ∧ Derives (.sum inner) w

variable {inside : Reader (List Term)}

theorem operand_sound (hinside : InsideSound inside) {t : Term}
    (h : (operand inside).Reads text t rest) :
    ∃ w, text = w ++ rest ∧ Derives (.operand t) w := by
  unfold operand group at h
  simp only [reads_orElse, reads_bind, reads_char, reads_nested, reads_pure] at h
  obtain h | ⟨-, _, _, rfl, inner, _, ⟨_, _, hinner, _, _, rfl, rfl, rfl⟩, rfl, rfl⟩ := h
  · exact dice_sound h
  · obtain ⟨w, rfl, hw⟩ := hinside _ _ _ hinner
    refine ⟨'(' :: w ++ [')'], ?_, .group hw⟩
    simp only [List.cons_append, List.append_assoc, List.nil_append]

/-- The texts of the links of a sum. -/
inductive Links : Text → Link → Prop
  | joined {w : Text} {t : Term} (h : Derives (.operand t) w) : Links ('+' :: w) (.joined t)
  | modified {w : Text} {m : ModifierToken} (h : Modifies w m) : Links w (.modified m)

theorem link_sound (hinside : InsideSound inside) {l : Link}
    (h : (link inside).Reads text l rest) : ∃ w, text = w ++ rest ∧ Links w l := by
  unfold link at h
  simp only [reads_orElse, reads_bind, reads_char, reads_map] at h
  obtain ⟨_, _, rfl, t, ht, rfl⟩ | ⟨-, m, hm, rfl⟩ := h
  · obtain ⟨w, rfl, hw⟩ := operand_sound hinside ht
    exact ⟨'+' :: w, rfl, .joined hw⟩
  · obtain ⟨w, rfl, hw⟩ := modifierToken_sound hm
    exact ⟨w, rfl, .modified hw⟩

theorem Links.ne_nil {w : Text} {l : Link} (h : Links w l) : w ≠ [] := by
  cases h with
  | joined h => exact List.cons_ne_nil _ _
  | modified h => cases h <;> exact List.cons_ne_nil _ _

theorem link_consumes (hinside : InsideSound inside) : (link inside).Consumes := by
  refine consumes_of_sound fun text l rest h => ?_
  obtain ⟨w, rfl, hw⟩ := link_sound hinside h
  exact ⟨w, rfl, hw.ne_nil⟩

theorem links_sound (hinside : InsideSound inside) {links : List Link}
    (h : (link inside).Repeats text links rest) :
    ∃ w, text = w ++ rest ∧ ∀ v terms t, Derives (.sum (terms ++ [t])) v →
      Derives (.sum (terms ++ gather t links)) (v ++ w) := by
  induction h with
  | stop _ =>
    refine ⟨[], rfl, fun v terms t hv => ?_⟩
    rw [List.append_nil]
    exact hv
  | more h _ ih =>
    obtain ⟨w, rfl, hw⟩ := link_sound hinside h
    obtain ⟨ws, rfl, hws⟩ := ih
    refine ⟨w ++ ws, (List.append_assoc ..).symm, fun v terms t hv => ?_⟩
    rw [← List.append_assoc]
    cases hw with
    | joined hw =>
      have hsum := hws _ (terms ++ [t]) _ (.join hv hw)
      rw [List.append_assoc] at hsum
      exact hsum
    | modified hw => exact hws _ terms _ (.modify hv hw)

theorem sumWithin_sound (levels : Nat) : InsideSound (sumWithin levels) := by
  induction levels with
  | zero => exact nofun
  | succ levels ih =>
    intro text terms rest h
    unfold sumWithin at h
    simp only [reads_bind, reads_many (link_consumes ih), reads_pure] at h
    obtain ⟨t, _, ht, links, _, hlinks, rfl, rfl⟩ := h
    obtain ⟨v, rfl, hv⟩ := operand_sound ih ht
    obtain ⟨w, rfl, hw⟩ := links_sound ih hlinks
    exact ⟨v ++ w, (List.append_assoc ..).symm, hw v [] t (.single hv)⟩

end DiceExpr.Reader
