import DiceExpr.Proofs.Grammar.Soundness

namespace DiceExpr.Reader

variable {p q : Reader α} {text rest : Text} {m : Miss} {a : α}

/-- Of all the misses of the reader this one is kept. -/
def Blames (p : Reader α) (text : Text) (m : Miss) : Prop := (p text).trail.miss = some m

private theorem farther_eq_some {x y : Option Miss} (h : Trail.farther x y = some m) :
    x = some m ∨ y = some m := by
  cases x with
  | none => exact .inr h
  | some a =>
    cases y with
    | none => exact .inl h
    | some b =>
      simp only [Trail.farther] at h
      split at h
      · exact .inr h
      · exact .inl h

/-- The kept miss lies at least as far on as every other. -/
private theorem farther_left_le {x y : Option Miss} (h : x = some m ∨ y = some m) :
    ∃ n, Trail.farther x y = some n ∧ n.left ≤ m.left := by
  cases x with
  | none =>
    have hy : y = some m := h.resolve_left nofun
    exact ⟨m, hy, Nat.le_refl _⟩
  | some a =>
    cases y with
    | none =>
      obtain rfl : a = m := Option.some.inj (h.resolve_right nofun)
      exact ⟨a, rfl, Nat.le_refl _⟩
    | some b =>
      by_cases hlt : b.left < a.left
      · refine ⟨b, if_pos hlt, ?_⟩
        rcases h with h | h
        · rw [← Option.some.inj h]
          omega
        · rw [← Option.some.inj h]
      · refine ⟨a, if_neg hlt, ?_⟩
        rcases h with h | h
        · rw [← Option.some.inj h]
        · rw [← Option.some.inj h]
          omega

theorem trail_bind (p : Reader α) (f : α → Reader β) (text : Text) :
    (p.Misses text ∧ ((p >>= f) text).trail = (p text).trail) ∨
      ∃ a mid, p.Reads text a mid ∧
        ((p >>= f) text).trail = (p text).trail.append (f a mid).trail := by
  unfold Misses Reads
  change (_ ∧ (p.bind f text).trail = _) ∨ ∃ a mid, _ ∧ (p.bind f text).trail = _
  unfold Reader.bind
  split
  · next a mid trail hp => exact .inr ⟨a, mid, by rw [hp], by rw [hp]; rfl⟩
  · next trail hp => exact .inl ⟨by rw [hp], by rw [hp]⟩

theorem Blames.of_bind {f : α → Reader β} (h : (p >>= f).Blames text m) :
    p.Blames text m ∨ ∃ a mid, p.Reads text a mid ∧ (f a).Blames mid m := by
  unfold Blames at h
  obtain ⟨-, htrail⟩ | ⟨a, mid, hreads, htrail⟩ := trail_bind p f text
  · rw [htrail] at h
    exact .inl h
  · rw [htrail] at h
    rcases farther_eq_some h with h | h
    · exact .inl h
    · exact .inr ⟨a, mid, hreads, h⟩

theorem trail_orElse (p q : Reader α) (text : Text) :
    ((∃ a rest, p.Reads text a rest) ∧ ((p <|> q) text).trail = (p text).trail) ∨
      p.Misses text ∧ ((p <|> q) text).trail = (p text).trail.append (q text).trail := by
  unfold Misses Reads
  change (_ ∧ ((p.orElse q) text).trail = _) ∨ _ ∧ ((p.orElse q) text).trail = _
  unfold Reader.orElse
  split
  · next result trail hp => exact .inl ⟨⟨result.1, result.2, by rw [hp]⟩, by rw [hp]⟩
  · next trail hp => exact .inr ⟨by rw [hp], by rw [hp]; rfl⟩

theorem Blames.of_orElse (h : (p <|> q).Blames text m) :
    p.Blames text m ∨ p.Misses text ∧ q.Blames text m := by
  unfold Blames at h
  obtain ⟨-, htrail⟩ | ⟨hmiss, htrail⟩ := trail_orElse p q text
  · rw [htrail] at h
    exact .inl h
  · rw [htrail] at h
    rcases farther_eq_some h with h | h
    · exact .inl h
    · exact .inr ⟨hmiss, h⟩

/-! A miss stays, or makes place for one farther on -/

theorem Blames.bind_left {f : α → Reader β} (h : p.Blames text m) :
    ∃ n, (p >>= f).Blames text n ∧ n.left ≤ m.left := by
  unfold Blames at h ⊢
  obtain ⟨-, htrail⟩ | ⟨a, mid, -, htrail⟩ := trail_bind p f text
  · rw [htrail]
    exact ⟨m, h, Nat.le_refl _⟩
  · rw [htrail]
    exact farther_left_le (.inl h)

theorem Blames.bind_right {f : α → Reader β} (hp : p.Reads text a rest) (h : (f a).Blames rest m) :
    ∃ n, (p >>= f).Blames text n ∧ n.left ≤ m.left := by
  unfold Blames at h ⊢
  obtain ⟨hmiss, -⟩ | ⟨a', mid, ha, htrail⟩ := trail_bind p f text
  · exact absurd hmiss hp.not_misses
  · cases ha.symm.trans hp
    rw [htrail]
    exact farther_left_le (.inr h)

theorem Blames.orElse_left (h : p.Blames text m) :
    ∃ n, (p <|> q).Blames text n ∧ n.left ≤ m.left := by
  unfold Blames at h ⊢
  obtain ⟨-, htrail⟩ | ⟨-, htrail⟩ := trail_orElse p q text
  · rw [htrail]
    exact ⟨m, h, Nat.le_refl _⟩
  · rw [htrail]
    exact farther_left_le (.inl h)

theorem Blames.orElse_right (hp : p.Misses text) (h : q.Blames text m) :
    ∃ n, (p <|> q).Blames text n ∧ n.left ≤ m.left := by
  unfold Blames at h ⊢
  obtain ⟨⟨a, rest, hreads⟩, -⟩ | ⟨-, htrail⟩ := trail_orElse p q text
  · exact absurd hp hreads.not_misses
  · rw [htrail]
    exact farther_left_le (.inr h)

/-! Where the miss of a composed reader comes from -/

theorem not_blames_pure : ¬(pure a : Reader α).Blames text m := nofun

theorem Blames.of_map {f : α → β} (h : (f <$> p).Blames text m) : p.Blames text m := by
  change (p >>= fun a => pure (f a)).Blames text m at h
  obtain h | ⟨_, _, _, h⟩ := h.of_bind
  · exact h
  · exact absurd h not_blames_pure

theorem Blames.of_optional (h : (optional p).Blames text m) : p.Blames text m := by
  unfold optional at h
  obtain h | ⟨-, h⟩ := h.of_orElse
  · exact h.of_map
  · exact absurd h (not_blames_pure (a := none))

theorem Blames.of_nested (h : (nested p).Blames text m) : p.Blames text m := h

theorem blames_char {c : Char} (h : (char c).Blames text m) : m = ⟨text, text.length⟩ := by
  unfold Blames at h
  cases text with
  | nil => exact (Option.some.inj h).symm
  | cons d text =>
    simp only [char] at h
    split at h
    · cases h
    · exact (Option.some.inj h).symm

theorem blames_oneOf {cs : List Char} (h : (oneOf cs).Blames text m) :
    m = ⟨text, text.length - 1⟩ := by
  unfold Blames at h
  cases text with
  | nil => exact (Option.some.inj h).symm
  | cons d text =>
    simp only [oneOf] at h
    split at h
    · cases h
    · exact (Option.some.inj h).symm

theorem blames_ending (h : ending.Blames text m) : m = ⟨text, text.length⟩ := by
  unfold Blames at h
  cases text with
  | nil => cases h
  | cons d text => exact (Option.some.inj h).symm

theorem blames_number (h : number.Blames text m) : m = ⟨text, text.length⟩ := by
  unfold number at h
  obtain h | ⟨_, _, _, h⟩ := h.of_bind
  · unfold Blames at h
    cases text with
    | nil => exact (Option.some.inj h).symm
    | cons d text =>
      simp only [digits] at h
      split_ifs at h
      · cases h
      · cases h
      · exact (Option.some.inj h).symm
  · exact absurd h not_blames_pure

/-- The reader takes these results one after another, and may go on. -/
inductive Takes (p : Reader α) : Text → List α → Text → Prop
  | none {text : Text} : Takes p text [] text
  | more {text mid rest : Text} {a : α} {as : List α} (h : p.Reads text a mid)
    (hs : Takes p mid as rest) : Takes p text (a :: as) rest

private theorem blames_atMost {n : Nat} (h : (atMost p n).Blames text m) :
    ∃ as mid, p.Takes text as mid ∧ p.Blames mid m := by
  induction n generalizing text with
  | zero => exact absurd h (not_blames_pure (a := []))
  | succ n ih =>
    unfold atMost at h
    obtain h | ⟨-, h⟩ := h.of_orElse
    · obtain h | ⟨a, mid, ha, h⟩ := h.of_bind
      · exact ⟨[], text, .none, h⟩
      · obtain h | ⟨_, _, _, h⟩ := h.of_bind
        · obtain ⟨as, mid', has, h⟩ := ih h
          exact ⟨a :: as, mid', .more ha has, h⟩
        · exact absurd h not_blames_pure
    · exact absurd h (not_blames_pure (a := []))

theorem Blames.of_many (h : (many p).Blames text m) :
    ∃ as mid, p.Takes text as mid ∧ p.Blames mid m := blames_atMost h

theorem Repeats.takes {as : List α} (h : p.Repeats text as rest) : p.Takes text as rest := by
  induction h with
  | stop _ => exact .none
  | more h _ ih => exact .more h ih

end DiceExpr.Reader
