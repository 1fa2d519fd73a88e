import DiceExpr.Proofs.Misses.Trails
import DiceExpr.Proofs.Notation.Scans

namespace DiceExpr

open Grammar

/-- The miss lies behind a front of the text that some other text can follow, so that both together
are of the language. Only that character may count for passed at which the miss lies. -/
structure Miss.Viable (language : Text → Prop) (text : Text) (m : Miss) : Prop where
  front : ∃ w v, text = w ++ m.rest ∧ language (w ++ v)
  left_le : m.left ≤ m.rest.length
  length_le : m.rest.length ≤ m.left + 1

namespace Miss.Viable

variable {language wider : Text → Prop} {text : Text} {m : Miss}

/-- A miss behind a front of the text. -/
theorem behind {front mid v : Text} (h : language (front ++ v)) :
    Viable language (front ++ mid) ⟨mid, mid.length⟩ :=
  ⟨⟨front, v, rfl, h⟩, Nat.le_refl _, Nat.le_succ _⟩

/-- A miss that counts for one character more. -/
theorem past (front : Text) {mid v : Text} (h : language (front ++ v)) :
    Viable language (front ++ mid) ⟨mid, mid.length - 1⟩ :=
  ⟨⟨front, v, rfl, h⟩, Nat.sub_le _ _, by change mid.length ≤ mid.length - 1 + 1; omega⟩

theorem here {v : Text} (h : language v) : Viable language text ⟨text, text.length⟩ :=
  behind (List.nil_append v ▸ h)

/-- The miss of a part of the text. -/
theorem extend (front : Text) {mid : Text} (h : Viable language mid m)
    (hlanguage : ∀ w, language w → ∃ v, wider (front ++ w ++ v)) :
    Viable wider (front ++ mid) m := by
  obtain ⟨⟨w, v, rfl, hw⟩, hleft, hlength⟩ := h
  obtain ⟨v', hv⟩ := hlanguage _ hw
  refine ⟨⟨front ++ w, v ++ v', (List.append_assoc ..).symm, ?_⟩, hleft, hlength⟩
  simpa only [List.append_assoc] using hv

theorem imp (h : Viable language text m) (hlanguage : ∀ w, language w → ∃ v, wider (w ++ v)) :
    Viable wider text m := h.extend [] hlanguage

end Miss.Viable

namespace Grammar

/-! The texts of which there is a phrase of each kind -/

def IsNumber (w : Text) : Prop := ∃ n, Number w n

def IsSigned (w : Text) : Prop := ∃ n, Signed w n

def IsFaces (w : Text) : Prop := ∃ ns, Faces w ns

def IsDieType (w : Text) : Prop := ∃ type, DieType w type

def IsComparator (w : Text) : Prop := ∃ c : Comparator, w = c.symbol

def IsModifier (w : Text) : Prop := ∃ m, Modifies w m

def IsOperand (w : Text) : Prop := ∃ t, Derives (.operand t) w

def IsSum (w : Text) : Prop := ∃ terms, Derives (.sum terms) w

theorem isNumber_one : IsNumber ['1'] := ⟨_, .digits (by decide) (by decide) nofun⟩

theorem IsNumber.signed {w : Text} (h : IsNumber w) : IsSigned w := h.imp fun _ => .plain

theorem IsNumber.negative {w : Text} (h : IsNumber w) : IsSigned ('-' :: w) := by
  obtain ⟨n, hn⟩ := h
  exact ⟨-n, .negative hn⟩

theorem IsSigned.faces {w : Text} (h : IsSigned w) : IsFaces w := by
  obtain ⟨n, hn⟩ := h
  exact ⟨[n], .last hn⟩

theorem IsFaces.snoc {w v : Text} (hs : IsFaces w) (h : IsSigned v) : IsFaces (w ++ ',' :: v) := by
  obtain ⟨ns, hs⟩ := hs
  obtain ⟨n, h⟩ := h
  induction hs with
  | last hw => exact ⟨_, .more hw (.last h)⟩
  | more hw _ ih =>
    obtain ⟨ns', hns⟩ := ih
    have hall := Faces.more hw hns
    rw [← List.cons_append, ← List.append_assoc] at hall
    exact ⟨_, hall⟩

theorem IsFaces.dieType {w : Text} (h : IsFaces w) : IsDieType ('[' :: w ++ [']']) := by
  obtain ⟨ns, hns⟩ := h
  exact ⟨_, .custom hns⟩

theorem IsNumber.dieType {w : Text} (h : IsNumber w) : IsDieType w := by
  obtain ⟨n, hn⟩ := h
  exact ⟨_, .sides hn⟩

theorem IsDieType.operand {w : Text} (h : IsDieType w) : IsOperand ('D' :: w) := by
  obtain ⟨type, htype⟩ := h
  exact ⟨_, .die htype⟩

theorem IsNumber.operand {q w : Text} (hq : IsNumber q) (h : IsDieType w) :
    IsOperand (q ++ 'D' :: w) := by
  obtain ⟨n, hn⟩ := hq
  obtain ⟨type, htype⟩ := h
  exact ⟨_, .dice hn htype⟩

theorem isOperand_die : IsOperand ['D', '1'] := isNumber_one.dieType.operand

theorem IsSum.group {w : Text} (h : IsSum w) : IsOperand ('(' :: w ++ [')']) := by
  obtain ⟨terms, hterms⟩ := h
  exact ⟨_, .group hterms⟩

theorem IsOperand.sum {w : Text} (h : IsOperand w) : IsSum w := by
  obtain ⟨t, ht⟩ := h
  exact ⟨[t], .single ht⟩

theorem IsSum.join {v w : Text} (hs : IsSum v) (h : IsOperand w) : IsSum (v ++ '+' :: w) := by
  obtain ⟨terms, hterms⟩ := hs
  obtain ⟨t, ht⟩ := h
  exact ⟨_, .join hterms ht⟩

theorem IsSum.modify {v w : Text} (hs : IsSum v) (h : IsModifier w) : IsSum (v ++ w) := by
  obtain ⟨terms, hterms⟩ := hs
  obtain ⟨m, hm⟩ := h
  obtain hnil | ⟨terms', t, rfl⟩ := List.eq_nil_or_concat terms
  · exact absurd hnil (hterms.ne_nil terms rfl)
  · rw [List.concat_eq_append] at hterms
    exact ⟨_, .modify hterms hm⟩

end Grammar

namespace Reader

variable {text rest : Text} {m : Miss}

theorem number_viable (h : number.Blames text m) : m.Viable IsNumber text := by
  rw [blames_number h]
  exact .here isNumber_one

theorem signed_viable (h : signed.Blames text m) : m.Viable IsSigned text := by
  unfold signed at h
  obtain h | ⟨sign, mid, hsign, h⟩ := h.of_bind
  · rw [blames_char h.of_optional]
    exact .here isNumber_one.signed
  · obtain h | ⟨_, _, _, h⟩ := h.of_bind
    · have hmiss := number_viable h
      rw [reads_optional] at hsign
      obtain ⟨_, hchar, -⟩ | ⟨-, -, rfl⟩ := hsign
      · rw [reads_char.mp hchar]
        refine hmiss.extend ['-'] fun w hw => ⟨[], ?_⟩
        simpa using hw.negative
      · refine hmiss.imp fun w hw => ⟨[], ?_⟩
        simpa using hw.signed
    · exact absurd h not_blames_pure

theorem takes_faces {ns : List Value}
    (h : (do char ','; signed : Reader Value).Takes text ns rest) :
    ∃ w, text = w ++ rest ∧ ∀ v, IsFaces v → IsFaces (v ++ w) := by
  induction h with
  | none => exact ⟨[], rfl, fun v hv => by simpa using hv⟩
  | more h _ ih =>
    obtain ⟨w, rfl, hw⟩ := next_face_sound h
    obtain ⟨ws, rfl, hws⟩ := ih
    refine ⟨',' :: w ++ ws, (List.append_assoc ..).symm, fun v hv => ?_⟩
    rw [← List.append_assoc]
    exact hws _ (hv.snoc ⟨_, hw⟩)

theorem faces_viable (h : faces.Blames text m) : m.Viable IsDieType text := by
  have hclose {w : Text} (hw : IsFaces w) : IsDieType (('[' :: w) ++ [']']) := hw.dieType
  unfold faces at h
  obtain h | ⟨_, mid, hchar, hinner⟩ := h.of_bind
  · rw [blames_char h]
    exact .here (hclose isNumber_one.signed.faces)
  rw [reads_char.mp hchar]
  obtain h | ⟨n, after, hn, hothers⟩ := hinner.of_bind
  · exact (signed_viable h).extend ['['] fun w hw => ⟨[']'], hclose hw.faces⟩
  obtain ⟨w, rfl, hw⟩ := signed_sound hn
  have hfirst : IsFaces w := IsSigned.faces ⟨_, hw⟩
  rw [← List.cons_append]
  obtain h | ⟨ns, last, hns, hbracket⟩ := hothers.of_bind
  · obtain ⟨_, last, htaken, hnext⟩ := h.of_many
    obtain ⟨ws, rfl, hws⟩ := takes_faces htaken
    have hall := hws w hfirst
    rw [← List.append_assoc, List.cons_append]
    obtain h | ⟨_, _, hcomma, hsigned⟩ := hnext.of_bind
    · rw [blames_char h]
      exact .behind (hclose hall)
    · rw [reads_char.mp hcomma]
      have hmiss : m.Viable IsDieType _ :=
        (signed_viable hsigned).extend ('[' :: (w ++ ws) ++ [',']) fun v hv =>
          ⟨[']'], by simpa using hclose (hall.snoc hv)⟩
      simpa using hmiss
  · obtain ⟨ws, rfl, hws⟩ := takes_faces ((reads_many next_face_consumes).mp hns).takes
    have hall := hws w hfirst
    rw [← List.append_assoc, List.cons_append]
    obtain h | ⟨_, _, _, h⟩ := hbracket.of_bind
    · rw [blames_char h]
      exact .behind (hclose hall)
    · exact absurd h not_blames_pure

theorem dieToken_viable (h : dieToken.Blames text m) : m.Viable IsDieType text := by
  have hone : IsDieType ['1'] := isNumber_one.dieType
  unfold dieToken at h
  obtain h | ⟨-, h⟩ := h.of_orElse
  · rw [blames_number h.of_map]
    exact .here hone
  obtain h | ⟨-, h⟩ := h.of_orElse
  · rw [blames_char h.of_map]
    exact .here hone
  obtain h | ⟨-, h⟩ := h.of_orElse
  · rw [blames_char h.of_map]
    exact .here hone
  · exact faces_viable h.of_map

/-- Dice may follow a quantity, and also nothing. -/
theorem quantity_sound {n? : Option Value} (h : (optional number).Reads text n? rest) :
    ∃ q, text = q ++ rest ∧ ∀ w, IsDieType w → IsOperand (q ++ 'D' :: w) := by
  rw [reads_optional] at h
  obtain ⟨n, hn, -⟩ | ⟨-, -, rfl⟩ := h
  · obtain ⟨q, rfl, hq⟩ := number_sound hn
    exact ⟨q, rfl, fun w hw => IsNumber.operand ⟨_, hq⟩ hw⟩
  · exact ⟨[], rfl, fun w hw => hw.operand⟩

theorem dice_viable (h : dice.Blames text m) : m.Viable IsOperand text := by
  have hone : IsDieType ['1'] := isNumber_one.dieType
  unfold dice at h
  obtain h | ⟨n?, mid, hn, hdie⟩ := h.of_bind
  · exact (number_viable h.of_optional).imp fun w hw => ⟨['D', '1'], hw.operand hone⟩
  obtain ⟨q, rfl, hq⟩ := quantity_sound hn
  obtain h | ⟨_, mid, hd, htype⟩ := hdie.of_bind
  · rw [blames_char h]
    exact .behind (hq _ hone)
  rw [reads_char.mp hd]
  obtain h | ⟨_, _, _, h⟩ := htype.of_bind
  · have hmiss : m.Viable IsOperand _ := (dieToken_viable h).extend (q ++ ['D'])
      fun w hw => ⟨[], by simpa using hq w hw⟩
    simpa using hmiss
  · exact absurd h not_blames_pure

theorem calculation_viable (h : calculation.Blames text m) : m.Viable IsModifier text := by
  have hnumber (op : Char) (hop : op ∈ ['+', '-', '*', '/']) {w : Text} (hw : IsNumber w) :
      IsModifier (op :: w) := by
    obtain ⟨n, hn⟩ := hw
    exact ⟨_, .calculate hop hn⟩
  unfold calculation at h
  obtain h | ⟨op, mid, hread, hoperand⟩ := h.of_bind
  · rw [blames_oneOf h]
    exact .past [] (hnumber '+' (by decide) isNumber_one)
  obtain ⟨hop, rfl⟩ := reads_oneOf.mp hread
  obtain h | ⟨_, _, _, h⟩ := hoperand.of_bind
  · exact (number_viable h).extend [op] fun w hw =>
      ⟨[], by simpa using hnumber op hop hw⟩
  · exact absurd h not_blames_pure

theorem selection_viable (h : selection.Blames text m) : m.Viable IsModifier text := by
  have hnumber (choice extreme : Char) (hchoice : choice ∈ ['K', 'D'])
      (hextreme : extreme ∈ ['H', 'L']) {w : Text} (hw : IsNumber w) :
      IsModifier (choice :: extreme :: w) := by
    obtain ⟨n, hn⟩ := hw
    exact ⟨_, .select hchoice hextreme hn⟩
  unfold selection at h
  obtain h | ⟨choice, mid, hread, hrest⟩ := h.of_bind
  · rw [blames_oneOf h]
    exact .past [] (hnumber 'K' 'H' (by decide) (by decide) isNumber_one)
  obtain ⟨hchoice, rfl⟩ := reads_oneOf.mp hread
  obtain h | ⟨extreme, mid, hread, hcount⟩ := hrest.of_bind
  · rw [blames_oneOf h]
    exact .past [choice] (hnumber choice 'H' hchoice (by decide) isNumber_one)
  obtain ⟨hextreme, rfl⟩ := reads_oneOf.mp hread
  obtain h | ⟨_, _, _, h⟩ := hcount.of_bind
  · exact (number_viable h).extend [choice, extreme] fun w hw =>
      ⟨[], by simpa using hnumber choice extreme hchoice hextreme hw⟩
  · exact absurd h not_blames_pure

theorem word_viable {w : Text} (h : (word w).Blames text m) : m.Viable (· = w) text := by
  induction w generalizing text with
  | nil => exact absurd h not_blames_pure
  | cons c w ih =>
    unfold word at h
    obtain h | ⟨_, mid, hc, hrest⟩ := h.of_bind
    · rw [blames_char h]
      exact .here rfl
    · rw [reads_char.mp hc]
      exact (ih hrest).extend [c] fun v hv => ⟨[], by simp [hv]⟩

theorem comparator_viable (h : comparator.Blames text m) : m.Viable IsComparator text := by
  have hword {c : Comparator} (h : (word c.symbol).Blames text m) : m.Viable IsComparator text :=
    (word_viable h).imp fun w hw => ⟨[], c, by rw [List.append_nil, hw]⟩
  unfold comparator at h
  simp only [List.foldr_cons, List.foldr_nil] at h
  obtain h | ⟨-, h⟩ := h.of_orElse
  · exact hword h.of_map
  obtain h | ⟨-, h⟩ := h.of_orElse
  · exact hword h.of_map
  obtain h | ⟨-, h⟩ := h.of_orElse
  · exact hword h.of_map
  obtain h | ⟨-, h⟩ := h.of_orElse
  · exact hword h.of_map
  obtain h | ⟨-, h⟩ := h.of_orElse
  · exact hword h.of_map
  · cases h

theorem explosion_viable (h : explosion.Blames text m) : m.Viable IsModifier text := by
  have hsigned {w v : Text} (hw : IsComparator w ∨ w = []) (hv : IsSigned v) :
      IsModifier ('!' :: w ++ v) := by
    obtain ⟨n, hn⟩ := hv
    obtain ⟨c, rfl⟩ | rfl := hw
    · exact ⟨_, .explode c hn⟩
    · exact ⟨_, .explodeEqual hn⟩
  have hone : IsSigned ['1'] := isNumber_one.signed
  unfold explosion at h
  obtain h | ⟨_, mid, hmark, hrest⟩ := h.of_bind
  · rw [blames_char h]
    exact .here (hsigned (.inr rfl) hone)
  rw [reads_char.mp hmark]
  obtain h | ⟨c?, after, hc, hexpected⟩ := hrest.of_bind
  · exact (comparator_viable h.of_optional).extend ['!'] fun w hw =>
      ⟨['1'], by simpa using hsigned (.inl hw) hone⟩
  have hfront : ∃ w, mid = w ++ after ∧ (IsComparator w ∨ w = []) := by
    rw [reads_optional] at hc
    obtain ⟨c, hc, -⟩ | ⟨-, -, rfl⟩ := hc
    · exact ⟨c.symbol, comparator_sound hc, .inl ⟨c, rfl⟩⟩
    · exact ⟨[], rfl, .inr rfl⟩
  obtain ⟨w, rfl, hw⟩ := hfront
  obtain h | ⟨_, _, _, h⟩ := hexpected.of_bind
  · have hmiss : m.Viable IsModifier _ := (signed_viable h).extend ('!' :: w)
      fun v hv => ⟨[], by simpa using hsigned hw hv⟩
    simpa using hmiss
  · exact absurd h not_blames_pure

theorem modifierToken_viable (h : modifierToken.Blames text m) : m.Viable IsModifier text := by
  unfold modifierToken at h
  obtain h | ⟨-, h⟩ := h.of_orElse
  · exact calculation_viable h
  obtain h | ⟨-, h⟩ := h.of_orElse
  · exact selection_viable h
  · exact explosion_viable h

/-- Every miss of the reader of the inside of a group lies where a sum can go on. -/
def InsideViable (inside : Reader (List Term)) : Prop :=
  ∀ text m, inside.Blames text m → m.Viable IsSum text

variable {inside : Reader (List Term)}

theorem operand_viable (hsound : InsideSound inside) (hinside : InsideViable inside)
    (h : (operand inside).Blames text m) : m.Viable IsOperand text := by
  unfold operand at h
  obtain h | ⟨-, h⟩ := h.of_orElse
  · exact dice_viable h
  unfold group at h
  obtain h | ⟨_, mid, hopen, hgroup⟩ := h.of_bind
  · rw [blames_char h]
    exact .here isOperand_die
  rw [reads_char.mp hopen]
  obtain h | ⟨_, _, _, h⟩ := hgroup.of_bind
  · obtain h | ⟨inner, after, hinner, hclose⟩ := h.of_nested.of_bind
    · exact (hinside _ _ h).extend ['('] fun w hw => ⟨[')'], hw.group⟩
    obtain ⟨w, rfl, hw⟩ := hsound _ _ _ hinner
    have hsum : IsOperand (('(' :: w) ++ [')']) := IsSum.group ⟨_, hw⟩
    obtain h | ⟨_, _, _, h⟩ := hclose.of_bind
    · rw [blames_char h, ← List.cons_append]
      exact .behind hsum
    · exact absurd h not_blames_pure
  · exact absurd h not_blames_pure

/-- What can stand behind a sum and make it longer. -/
def Lengthens (w : Text) : Prop := ∀ v, IsSum v → IsSum (v ++ w)

theorem Links.lengthens {w : Text} {l : Link} (h : Links w l) : Lengthens w := by
  intro v hv
  cases h with
  | joined h => exact hv.join ⟨_, h⟩
  | modified h => exact hv.modify ⟨_, h⟩

theorem link_viable (hsound : InsideSound inside) (hinside : InsideViable inside)
    (h : (link inside).Blames text m) : m.Viable Lengthens text := by
  unfold link at h
  obtain h | ⟨-, h⟩ := h.of_orElse
  · obtain h | ⟨_, mid, hplus, hnext⟩ := h.of_bind
    · rw [blames_char h]
      exact .here fun v hv => hv.join isOperand_die
    · rw [reads_char.mp hplus]
      exact (operand_viable hsound hinside hnext.of_map).extend ['+'] fun w hw =>
        ⟨[], fun v hv => by simpa using hv.join hw⟩
  · exact (modifierToken_viable h.of_map).imp fun w hw =>
      ⟨[], fun v hv => by simpa using hv.modify hw⟩

theorem takes_links (hsound : InsideSound inside) {links : List Link}
    (h : (link inside).Takes text links rest) : ∃ w, text = w ++ rest ∧ Lengthens w := by
  induction h with
  | none => exact ⟨[], rfl, fun v hv => by simpa using hv⟩
  | more h _ ih =>
    obtain ⟨w, rfl, hw⟩ := link_sound hsound h
    obtain ⟨ws, rfl, hws⟩ := ih
    refine ⟨w ++ ws, (List.append_assoc ..).symm, fun v hv => ?_⟩
    rw [← List.append_assoc]
    exact hws _ (hw.lengthens v hv)

/-- Every miss of the reader of sums lies where a sum can go on. -/
theorem sumWithin_viable (levels : Nat) : InsideViable (sumWithin levels) := by
  -- What was read before the miss is a sum, to which the text of the missed link could be added.
  induction levels with
  | zero => exact nofun
  | succ levels ih =>
    intro text m h
    have hsound := sumWithin_sound levels
    unfold sumWithin at h
    obtain h | ⟨t, mid, ht, hlinks⟩ := h.of_bind
    · exact (operand_viable hsound ih h).imp fun w hw => ⟨[], by simpa using hw.sum⟩
    obtain ⟨w, rfl, hw⟩ := operand_sound hsound ht
    have hfirst : IsSum w := IsOperand.sum ⟨t, hw⟩
    obtain h | ⟨_, _, _, h⟩ := hlinks.of_bind
    · obtain ⟨_, _, htaken, hlink⟩ := h.of_many
      obtain ⟨ws, rfl, hws⟩ := takes_links hsound htaken
      rw [← List.append_assoc]
      refine (link_viable hsound ih hlink).extend _ fun v hv => ⟨[], ?_⟩
      simpa using hv _ (hws w hfirst)
    · exact absurd h not_blames_pure

theorem whole_viable (h : sum.whole.Blames text m) : m.Viable IsSum text := by
  unfold whole at h
  obtain h | ⟨terms, mid, hterms, hend⟩ := h.of_bind
  · exact sumWithin_viable _ _ _ h
  obtain ⟨w, rfl, hw⟩ := sumWithin_sound _ _ _ _ hterms
  obtain h | ⟨_, _, _, h⟩ := hend.of_bind
  · rw [blames_ending h]
    refine .behind (v := []) ?_
    rw [List.append_nil]
    exact ⟨terms, hw⟩
  · exact absurd h not_blames_pure

end Reader

end DiceExpr
