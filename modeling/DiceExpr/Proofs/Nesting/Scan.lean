import DiceExpr.Proofs.Misses.Trails
import DiceExpr.Proofs.Notation.Scans

namespace DiceExpr.Reader

variable {p q : Reader α} {text rest : Text} {a : α}

/-- The most groups that are open at once while the reader is at work, also in the attempts that it
gives up. -/
def opened (p : Reader α) (text : Text) : Nat := (p text).trail.deepest

theorem opened_bind_of_misses {f : α → Reader β} (h : p.Misses text) :
    (p >>= f).opened text = p.opened text := by
  obtain ⟨-, htrail⟩ | ⟨_, _, hreads, -⟩ := trail_bind p f text
  · exact congrArg Trail.deepest htrail
  · exact absurd h hreads.not_misses

theorem opened_bind_of_reads {f : α → Reader β} (h : p.Reads text a rest) :
    (p >>= f).opened text = max (p.opened text) ((f a).opened rest) := by
  obtain ⟨hmiss, -⟩ | ⟨a', rest', hreads, htrail⟩ := trail_bind p f text
  · exact absurd hmiss h.not_misses
  · cases hreads.symm.trans h
    exact congrArg Trail.deepest htrail

theorem opened_orElse_of_reads (h : p.Reads text a rest) :
    (p <|> q).opened text = p.opened text := by
  obtain ⟨-, htrail⟩ | ⟨hmiss, -⟩ := trail_orElse p q text
  · exact congrArg Trail.deepest htrail
  · exact absurd hmiss h.not_misses

theorem opened_orElse_of_misses (h : p.Misses text) :
    (p <|> q).opened text = max (p.opened text) (q.opened text) := by
  obtain ⟨⟨_, _, hreads⟩, -⟩ | ⟨-, htrail⟩ := trail_orElse p q text
  · exact absurd h hreads.not_misses
  · exact congrArg Trail.deepest htrail

theorem opened_pure : (pure a : Reader α).opened text = 0 := rfl

theorem opened_nested : (nested p).opened text = p.opened text + 1 := rfl

/-! Readers that open no group -/

def Flat (p : Reader α) : Prop := ∀ text, p.opened text = 0

namespace Flat

theorem bind {f : α → Reader β} (hp : p.Flat) (hf : ∀ a, (f a).Flat) : (p >>= f).Flat := by
  intro text
  obtain hmiss | ⟨a, rest, hreads⟩ := p.misses_or_reads text
  · rw [opened_bind_of_misses hmiss, hp]
  · rw [opened_bind_of_reads hreads, hp, hf, Nat.max_self]

theorem orElse (hp : p.Flat) (hq : q.Flat) : (p <|> q).Flat := by
  intro text
  obtain hmiss | ⟨a, rest, hreads⟩ := p.misses_or_reads text
  · rw [opened_orElse_of_misses hmiss, hp, hq, Nat.max_self]
  · rw [opened_orElse_of_reads hreads, hp]

theorem pure : (pure a : Reader α).Flat := fun _ => opened_pure

theorem map {f : α → β} (hp : p.Flat) : (f <$> p).Flat := hp.bind fun _ => pure

theorem optional (hp : p.Flat) : (optional p).Flat := hp.map.orElse pure

private theorem atMost (hp : p.Flat) (n : Nat) : (atMost p n).Flat := by
  induction n with
  | zero => exact pure
  | succ n ih => exact (hp.bind fun _ => ih.bind fun _ => pure).orElse pure

theorem many (hp : p.Flat) : (many p).Flat := fun text => hp.atMost _ text

theorem char (c : Char) : (char c).Flat := by
  intro text
  cases text with
  | nil => rfl
  | cons d text =>
    unfold opened
    simp only [Reader.char]
    split <;> rfl

theorem oneOf (cs : List Char) : (oneOf cs).Flat := by
  intro text
  cases text with
  | nil => rfl
  | cons d text =>
    unfold opened
    simp only [Reader.oneOf]
    split <;> rfl

theorem word (w : Text) : (word w).Flat := by
  induction w with
  | nil => exact pure
  | cons c w ih => exact (char c).bind fun _ => ih

theorem number : number.Flat := by
  refine bind (fun text => ?_) fun _ => pure
  cases text with
  | nil => rfl
  | cons d text =>
    unfold opened
    simp only [digits]
    split_ifs <;> rfl

theorem ending : ending.Flat := by
  intro text
  cases text <;> rfl

theorem signed : signed.Flat := (char '-').optional.bind fun _ => number.bind fun _ => pure

theorem dice : dice.Flat := by
  have hnext : (do Reader.char ','; Reader.signed : Reader Value).Flat :=
    (char ',').bind fun _ => signed
  have hfaces : faces.Flat := (char '[').bind fun _ => signed.bind fun _ =>
    hnext.many.bind fun _ => (char ']').bind fun _ => pure
  have htype : dieToken.Flat :=
    number.map.orElse ((char 'F').map.orElse ((char '%').map.orElse hfaces.map))
  exact number.optional.bind fun _ => (char 'D').bind fun _ => htype.bind fun _ => pure

theorem modifierToken : modifierToken.Flat := by
  have hcalculation : calculation.Flat := (oneOf _).bind fun _ => number.bind fun _ => pure
  have hselection : selection.Flat := (oneOf _).bind fun _ => (oneOf _).bind fun _ =>
    number.bind fun _ => pure
  have hfail : (fail : Reader Comparator).Flat := fun _ => rfl
  have hcomparator : comparator.Flat := (word _).map.orElse <| (word _).map.orElse <|
    (word _).map.orElse <| (word _).map.orElse <| (word _).map.orElse hfail
  have hexplosion : explosion.Flat := (char '!').bind fun _ => hcomparator.optional.bind fun _ =>
    signed.bind fun _ => pure
  exact hcalculation.orElse (hselection.orElse hexplosion)

end Flat

/-! The scan of the parentheses counts all groups that a reader opens -/

/-- However many parentheses are open before the text, at no point of the reading are more open than
the scan of the text counts. -/
def Guarded (p : Reader α) : Prop := ∀ text k, k + p.opened text ≤ Text.deepest k text

/-- After what the reader takes, the scan counts no more than before it. -/
def Steady (p : Reader α) : Prop :=
  ∀ text a rest, p.Reads text a rest → ∀ k, Text.deepest k rest ≤ Text.deepest k text

namespace Guarded

theorem of_flat (h : p.Flat) : p.Guarded := by
  intro text k
  rw [h]
  exact Text.le_deepest k text

theorem bind {f : α → Reader β} (hp : p.Guarded) (hsteady : p.Steady) (hf : ∀ a, (f a).Guarded) :
    (p >>= f).Guarded := by
  intro text k
  have hfirst := hp text k
  obtain hmiss | ⟨a, rest, hreads⟩ := p.misses_or_reads text
  · rw [opened_bind_of_misses hmiss]
    exact hfirst
  · have hnext := hf a rest k
    have hle := hsteady text a rest hreads k
    rw [opened_bind_of_reads hreads]
    omega

theorem orElse (hp : p.Guarded) (hq : q.Guarded) : (p <|> q).Guarded := by
  intro text k
  have hfirst := hp text k
  have hsecond := hq text k
  obtain hmiss | ⟨a, rest, hreads⟩ := p.misses_or_reads text
  · rw [opened_orElse_of_misses hmiss]
    omega
  · rw [opened_orElse_of_reads hreads]
    exact hfirst

theorem map {f : α → β} (hp : p.Guarded) (hsteady : p.Steady) : (f <$> p).Guarded :=
  hp.bind hsteady fun _ => of_flat .pure

private theorem atMost (hp : p.Guarded) (hsteady : p.Steady) (n : Nat) : (atMost p n).Guarded := by
  induction n with
  | zero => exact of_flat .pure
  | succ n ih =>
    refine orElse (hp.bind hsteady fun a text k => ?_) (of_flat .pure)
    -- nothing is read after the last repetition, so its steadiness does not matter
    have hrest := ih text k
    obtain hmiss | ⟨as, rest, hreads⟩ := (Reader.atMost p n).misses_or_reads text
    · rw [opened_bind_of_misses hmiss]
      exact hrest
    · rw [opened_bind_of_reads hreads, opened_pure, Nat.max_zero]
      exact hrest

theorem many (hp : p.Guarded) (hsteady : p.Steady) : (many p).Guarded :=
  fun text => hp.atMost hsteady _ text

end Guarded

variable {inside : Reader (List Term)}

theorem InsideSound.steady (h : InsideSound inside) : inside.Steady := by
  intro text inner rest hreads k
  obtain ⟨w, rfl, hw⟩ := h text inner rest hreads
  rw [Text.deepest_derives hw]
  exact Nat.le_max_right ..

theorem operand_steady (h : InsideSound inside) : (operand inside).Steady := by
  intro text t rest hreads k
  obtain ⟨w, rfl, hw⟩ := operand_sound h hreads
  rw [Text.deepest_derives hw]
  exact Nat.le_max_right ..

theorem link_steady (h : InsideSound inside) : (link inside).Steady := by
  intro text l rest hreads k
  obtain ⟨w, rfl, hw⟩ := link_sound h hreads
  cases hw with
  | @joined w _ hw =>
    have hplus : Text.deepest k ('+' :: (w ++ rest)) = Text.deepest k (w ++ rest) := rfl
    rw [List.cons_append, hplus, Text.deepest_derives hw]
    exact Nat.le_max_right ..
  | modified hw => rw [Text.deepest_modifies hw]

theorem group_guarded (hsound : InsideSound inside) (h : inside.Guarded) :
    (group inside).Guarded := by
  have hclosed : (do let inner ← inside; char ')'; pure inner : Reader (List Term)).Guarded :=
    h.bind hsound.steady fun _ => .of_flat ((Flat.char ')').bind fun _ => .pure)
  intro text k
  unfold group
  by_cases hopen : text.head? = some '('
  · obtain ⟨rest, rfl⟩ : ∃ rest, text = '(' :: rest := by
      cases text with
      | nil => cases hopen
      | cons c rest => exact ⟨rest, by rw [Option.some.inj hopen]⟩
    have hscan : Text.deepest k ('(' :: rest) = Text.deepest (k + 1) rest := rfl
    have hinner := hclosed rest (k + 1)
    have hnested : (nested (do let inner ← inside; char ')'; pure inner)).opened rest =
        (do let inner ← inside; char ')'; pure inner : Reader (List Term)).opened rest + 1 := rfl
    rw [opened_bind_of_reads (reads_char.mpr rfl : (char '(').Reads _ () rest), Flat.char, hscan]
    obtain hmiss | ⟨inner, last, hreads⟩ :=
      (nested (do let inner ← inside; char ')'; pure inner)).misses_or_reads rest
    · rw [opened_bind_of_misses hmiss]
      omega
    · rw [opened_bind_of_reads hreads, opened_pure]
      omega
  · rw [opened_bind_of_misses (misses_char.mpr hopen), Flat.char]
    exact Text.le_deepest k text

theorem operand_guarded (hsound : InsideSound inside) (h : inside.Guarded) :
    (operand inside).Guarded := (Guarded.of_flat .dice).orElse (group_guarded hsound h)

theorem link_guarded (hsound : InsideSound inside) (h : inside.Guarded) :
    (link inside).Guarded := by
  have hplus : (char '+').Steady := by
    intro text u rest hreads k
    rw [reads_char.mp hreads]
    exact Nat.le_refl _
  have hjoined := (operand_guarded hsound h).map (f := Link.joined) (operand_steady hsound)
  exact ((Guarded.of_flat (.char '+')).bind hplus fun _ => hjoined).orElse
    (.of_flat Flat.modifierToken.map)

theorem sumWithin_guarded (levels : Nat) : (sumWithin levels).Guarded := by
  induction levels with
  | zero => exact .of_flat fun _ => rfl
  | succ levels ih =>
    have hsound := sumWithin_sound levels
    refine (operand_guarded hsound ih).bind (operand_steady hsound) fun t text k => ?_
    have hlinks := (link_guarded hsound ih).many (link_steady hsound) text k
    obtain hmiss | ⟨links, rest, hreads⟩ :=
      (many (link (sumWithin levels))).misses_or_reads text
    · rw [opened_bind_of_misses hmiss]
      exact hlinks
    · rw [opened_bind_of_reads hreads, opened_pure, Nat.max_zero]
      exact hlinks

theorem opened_whole_le (text : Text) : sum.whole.opened text ≤ text.parenDepth := by
  have hsum : sum.Guarded := fun text k => sumWithin_guarded _ text k
  have hsteady : sum.Steady := fun text a rest hreads =>
    (sumWithin_sound _).steady text a rest hreads
  have hwhole : sum.whole.Guarded := hsum.bind hsteady fun _ =>
    .of_flat (Flat.ending.bind fun _ => .pure)
  have hle := hwhole text 0
  rw [Nat.zero_add] at hle
  exact hle

end DiceExpr.Reader
