import DiceExpr.Proofs.Misses.Levels
import DiceExpr.Proofs.Misses.Trails

namespace DiceExpr.Reader

/-- The reader takes or blames something of the last `k` characters of the text, or gets there. -/
def Reaches (p : Reader α) (text : Text) (k : Nat) : Prop :=
  (∃ m, p.Blames text m ∧ m.left ≤ k) ∨ ∃ a rest, p.Reads text a rest ∧ rest.length ≤ k

/-- The reader comes to its end inside of `u`, the same way before both texts. -/
inductive Settles (p : Reader α) (u s s' : Text) : Prop
  | misses (hne : u ≠ []) (h : p.Misses (u ++ s)) (h' : p.Misses (u ++ s'))
  | reads {a : α} {r : Text} (hne : r ≠ []) (hr : r <:+ u) (h : p.Reads (u ++ s) a (r ++ s))
    (h' : p.Reads (u ++ s') a (r ++ s'))

/-- On texts shorter than the bound, the reader gets to the end of the front of a text unless it
comes to its end before, whatever follows the front. -/
def Local (bound : Nat) (p : Reader α) : Prop :=
  ∀ u s s' : Text, (u ++ s).length < bound → (u ++ s').length < bound →
    p.Reaches (u ++ s) s.length ∨ p.Settles u s s'

variable {p q : Reader α} {text rest : Text} {a : α} {k bound : Nat}

theorem Reaches.mono {k' : Nat} (h : p.Reaches text k) (hk : k ≤ k') : p.Reaches text k' := by
  obtain ⟨m, hm, hleft⟩ | ⟨a, rest, ha, hrest⟩ := h
  · exact .inl ⟨m, hm, by omega⟩
  · exact .inr ⟨a, rest, ha, by omega⟩

theorem Reaches.bind_right {f : α → Reader β} (hp : p.Reads text a rest)
    (h : (f a).Reaches rest k) : (p >>= f).Reaches text k := by
  obtain ⟨m, hm, hleft⟩ | ⟨b, rest', hb, hrest⟩ := h
  · obtain ⟨n, hn, hnm⟩ := hm.bind_right hp
    exact .inl ⟨n, hn, by omega⟩
  · exact .inr ⟨b, rest', reads_bind.mpr ⟨a, rest, hp, hb⟩, hrest⟩

theorem Reaches.orElse_left (h : p.Reaches text k) : (p <|> q).Reaches text k := by
  obtain ⟨m, hm, hleft⟩ | ⟨a, rest, ha, hrest⟩ := h
  · obtain ⟨n, hn, hnm⟩ := hm.orElse_left (q := q)
    exact .inl ⟨n, hn, by omega⟩
  · exact .inr ⟨a, rest, reads_orElse.mpr (.inl ha), hrest⟩

theorem Reaches.orElse_right (hp : p.Misses text) (h : q.Reaches text k) :
    (p <|> q).Reaches text k := by
  obtain ⟨m, hm, hleft⟩ | ⟨a, rest, ha, hrest⟩ := h
  · obtain ⟨n, hn, hnm⟩ := hm.orElse_right hp
    exact .inl ⟨n, hn, by omega⟩
  · exact .inr ⟨a, rest, reads_orElse.mpr (.inr ⟨hp, ha⟩), hrest⟩

namespace Local

/-- The reader never fails without a miss. -/
theorem reaches (h : Local bound p) (hlen : text.length < bound) :
    p.Reaches text text.length := by
  obtain h | h := h [] text text hlen hlen
  · exact h
  · cases h with
    | misses hne _ _ => exact absurd rfl hne
    | reads hne hr _ _ => exact absurd (List.suffix_nil.mp hr) hne

/-- The second reader may be local on shorter texts only, if the first one leaves such. -/
theorem bind_of_lt {wide : Nat} {f : α → Reader β} (hp : Local wide p)
    (hf : ∀ a, Local bound (f a))
    (hshort : ∀ text a rest, p.Reads text a rest → text.length < wide →
      rest.length ≤ text.length → rest.length < bound) : Local wide (p >>= f) := by
  intro u s s' hs hs'
  -- If the first reader gets behind the front, so do both: the second one either reads on from
  -- there, or it has a miss there.
  obtain (⟨m, hm, hleft⟩ | ⟨a, rest, ha, hrest⟩) | hsettles := hp u s s' hs hs'
  · obtain ⟨n, hn, hnm⟩ := hm.bind_left (f := f)
    exact .inl (.inl ⟨n, hn, by omega⟩)
  · have hlen := hshort _ _ _ ha hs (hrest.trans (List.suffix_append u s).length_le)
    exact .inl (.bind_right ha (((hf a).reaches hlen).mono hrest))
  cases hsettles with
  | misses hne h h' =>
    exact .inr (.misses hne (misses_bind.mpr (.inl h)) (misses_bind.mpr (.inl h')))
  | @reads a r hr hsuffix h h' =>
    -- What is left of the front is the front of the second reader.
    have hlen (t : Text) : (r ++ t).length ≤ (u ++ t).length := by
      have hru := hsuffix.length_le
      rw [List.length_append, List.length_append]
      omega
    obtain hreaches | hsettles := hf a r s s' (hshort _ _ _ h hs (hlen s))
      (hshort _ _ _ h' hs' (hlen s'))
    · exact .inl (.bind_right h hreaches)
    · right
      cases hsettles with
      | misses _ hb hb' =>
        have hu : u ≠ [] := fun hu => hr (List.suffix_nil.mp (hu ▸ hsuffix))
        exact .misses hu (misses_bind.mpr (.inr ⟨a, _, h, hb⟩))
          (misses_bind.mpr (.inr ⟨a, _, h', hb'⟩))
      | reads hne hr' hb hb' =>
        exact .reads hne (hr'.trans hsuffix) (reads_bind.mpr ⟨a, _, h, hb⟩)
          (reads_bind.mpr ⟨a, _, h', hb'⟩)

theorem bind {f : α → Reader β} (hp : Local bound p) (hf : ∀ a, Local bound (f a)) :
    Local bound (p >>= f) := hp.bind_of_lt hf fun _ _ _ _ hlen hle => Nat.lt_of_le_of_lt hle hlen

theorem orElse (hp : Local bound p) (hq : Local bound q) : Local bound (p <|> q) := by
  intro u s s' hs hs'
  obtain hreaches | hsettles := hp u s s' hs hs'
  · exact .inl hreaches.orElse_left
  cases hsettles with
  | misses _ h h' =>
    obtain hreaches | hsettles := hq u s s' hs hs'
    · exact .inl (hreaches.orElse_right h)
    · right
      cases hsettles with
      | misses hne hq hq' =>
        exact .misses hne (misses_orElse.mpr ⟨h, hq⟩) (misses_orElse.mpr ⟨h', hq'⟩)
      | reads hne hr hq hq' =>
        exact .reads hne hr (reads_orElse.mpr (.inr ⟨h, hq⟩)) (reads_orElse.mpr (.inr ⟨h', hq'⟩))
  | reads hne hr h h' =>
    exact .inr (.reads hne hr (reads_orElse.mpr (.inl h)) (reads_orElse.mpr (.inl h')))

theorem pure : Local bound (pure a : Reader α) := by
  intro u s s' _ _
  by_cases hu : u = []
  · rw [hu]
    exact .inl (.inr ⟨a, s, reads_pure.mpr ⟨rfl, rfl⟩, Nat.le_refl _⟩)
  · exact .inr (.reads hu (List.suffix_refl u) (reads_pure.mpr ⟨rfl, rfl⟩)
      (reads_pure.mpr ⟨rfl, rfl⟩))

theorem map {f : α → β} (hp : Local bound p) : Local bound (f <$> p) := by
  change Local bound (p >>= fun a => Pure.pure (f a))
  exact hp.bind fun _ => pure

theorem optional (hp : Local bound p) : Local bound (optional p) := hp.map.orElse pure

/-- Nothing comes after the last alternative. -/
theorem orElse_fail (hp : Local bound p) : Local bound (p <|> fail) := by
  intro u s s' hs hs'
  obtain hreaches | hsettles := hp u s s' hs hs'
  · exact .inl hreaches.orElse_left
  right
  cases hsettles with
  | misses hne h h' =>
    exact .misses hne (misses_orElse.mpr ⟨h, rfl⟩) (misses_orElse.mpr ⟨h', rfl⟩)
  | reads hne hr h h' =>
    exact .reads hne hr (reads_orElse.mpr (.inl h)) (reads_orElse.mpr (.inl h'))

theorem nested (hp : Local bound p) : Local bound (nested p) := by
  intro u s s' hs hs'
  obtain hreaches | hsettles := hp u s s' hs hs'
  · exact .inl hreaches
  · right
    cases hsettles with
    | misses hne h h' => exact .misses hne h h'
    | reads hne hr h h' => exact .reads hne hr h h'

private theorem atMost (hp : Local bound p) (n : Nat) : Local bound (atMost p n) := by
  induction n with
  | zero => exact pure
  | succ n ih =>
    unfold Reader.atMost
    exact (hp.bind fun _ => ih.bind fun _ => pure).orElse pure

private theorem congr (hp : Local bound p)
    (h : ∀ text : Text, text.length < bound → q text = p text) : Local bound q := by
  intro u s s' hs hs'
  have heq := h _ hs
  have heq' := h _ hs'
  obtain hreaches | hsettles := hp u s s' hs hs'
  · unfold Reaches Blames Reads at *
    rw [heq]
    exact .inl hreaches
  · right
    cases hsettles with
    | misses hne h h' =>
      unfold Misses at h h'
      rw [← heq] at h
      rw [← heq'] at h'
      exact .misses hne h h'
    | reads hne hr h h' =>
      unfold Reads at h h'
      rw [← heq] at h
      rw [← heq'] at h'
      exact .reads hne hr h h'

theorem many (hp : Local bound p) (hconsumes : p.Consumes) : Local bound (many p) :=
  (hp.atMost bound).congr fun _ hlen => many_eq_atMost hconsumes hlen

/-- A reader that looks at one character only. -/
theorem of_head (hreaches : ∀ text : Text, p.Reaches text text.length)
    (h : ∀ c, (∀ text, p.Misses (c :: text)) ∨ ∃ a, ∀ text, p.Reads (c :: text) a text) :
    Local bound p := by
  intro u s s' _ _
  cases u with
  | nil => exact .inl (hreaches s)
  | cons c u =>
    obtain hmiss | ⟨a, hread⟩ := h c
    · exact .inr (.misses (List.cons_ne_nil c u) (hmiss _) (hmiss _))
    · by_cases hu : u = []
      · rw [hu]
        exact .inl (.inr ⟨a, s, hread s, Nat.le_refl _⟩)
      · exact .inr (.reads hu (List.suffix_cons c u) (hread _) (hread _))

theorem char {c : Char} : Local bound (char c) := by
  refine of_head (fun text => ?_) fun d => ?_
  · cases text with
    | nil => exact .inl ⟨⟨[], 0⟩, rfl, Nat.le_refl _⟩
    | cons d text =>
      by_cases hd : d = c
      · exact .inr ⟨(), text, reads_char.mpr (by rw [hd]), Nat.le_succ _⟩
      · refine .inl ⟨⟨d :: text, text.length + 1⟩, ?_, Nat.le_refl _⟩
        simp [Blames, Reader.char, hd, miss]
  · by_cases hd : d = c
    · exact .inr ⟨(), fun text => reads_char.mpr (by rw [hd])⟩
    · exact .inl fun text => misses_char.mpr (by simpa using hd)

theorem oneOf {cs : List Char} : Local bound (oneOf cs) := by
  refine of_head (fun text => ?_) fun d => ?_
  · cases text with
    | nil => exact .inl ⟨⟨[], 0⟩, rfl, Nat.le_refl _⟩
    | cons d text =>
      by_cases hd : d ∈ cs
      · exact .inr ⟨d, text, reads_oneOf.mpr ⟨hd, rfl⟩, Nat.le_succ _⟩
      · refine .inl ⟨⟨d :: text, text.length⟩, ?_, Nat.le_succ _⟩
        simp [Blames, Reader.oneOf, hd, miss]
  · by_cases hd : d ∈ cs
    · exact .inr ⟨d, fun text => reads_oneOf.mpr ⟨hd, rfl⟩⟩
    · refine .inl fun text => misses_oneOf.mpr fun c hc => ?_
      rintro ⟨⟩
      exact hd hc

theorem ending : Local bound ending := by
  refine of_head (fun text => ?_) fun c => .inl fun text => rfl
  cases text with
  | nil => exact .inr ⟨(), [], rfl, Nat.le_refl _⟩
  | cons c text => exact .inl ⟨⟨c :: text, text.length + 1⟩, rfl, Nat.le_refl _⟩

theorem whole (h : Local bound p) : Local bound p.whole :=
  h.bind fun _ => ending.bind fun _ => pure

theorem word (w : Text) : Local bound (word w) := by
  induction w with
  | nil => exact pure
  | cons c w ih => exact char.bind fun _ => ih

/-- Whether a number stands alone, goes on or cannot start depends on its first character. -/
private theorem digits_cons (c : Char) :
    (∀ text, Reader.digits (c :: text) = miss ⟨c :: text, text.length + 1⟩) ∨
      (∀ text, Reader.digits.Reads (c :: text) [c] text) ∨
      ∀ text, Reader.digits.Reads (c :: text) (c :: text.takeWhile Char.isDigit)
        (text.dropWhile Char.isDigit) := by
  unfold Reads
  simp only [Reader.digits]
  by_cases hzero : c = '0'
  · exact .inr (.inl fun text => by rw [if_pos hzero])
  by_cases hdigit : c.isDigit
  · exact .inr (.inr fun text => by rw [if_neg hzero, if_pos hdigit])
  · exact .inl fun text => by rw [if_neg hzero, if_neg hdigit]

/-- Digits that end inside of a front do not depend on what follows it. -/
private theorem digits_append {u : Text} (h : u.dropWhile Char.isDigit ≠ []) (text : Text) :
    (u ++ text).takeWhile Char.isDigit = u.takeWhile Char.isDigit ∧
      (u ++ text).dropWhile Char.isDigit = u.dropWhile Char.isDigit ++ text := by
  induction u with
  | nil => exact absurd rfl h
  | cons c u ih =>
    by_cases hc : c.isDigit
    · rw [List.dropWhile_cons_of_pos hc] at h
      obtain ⟨htake, hdrop⟩ := ih h
      rw [List.cons_append, List.takeWhile_cons_of_pos hc, List.takeWhile_cons_of_pos hc,
        List.dropWhile_cons_of_pos hc, List.dropWhile_cons_of_pos hc, htake, hdrop]
      exact ⟨rfl, rfl⟩
    · rw [List.cons_append, List.takeWhile_cons_of_neg hc, List.takeWhile_cons_of_neg hc,
        List.dropWhile_cons_of_neg hc, List.dropWhile_cons_of_neg hc]
      exact ⟨rfl, rfl⟩

theorem digits : Local bound digits := by
  intro u s s' _ _
  have hdrop (text : Text) : (text.dropWhile Char.isDigit).length ≤ text.length :=
    (List.dropWhile_suffix _).length_le
  cases u with
  | nil =>
    left
    cases s with
    | nil => exact .inl ⟨⟨[], 0⟩, rfl, Nat.le_refl _⟩
    | cons c s =>
      obtain h | h | h := digits_cons c
      · exact .inl ⟨_, congrArg (Trail.miss ∘ Reply.trail) (h s), Nat.le_refl _⟩
      · exact .inr ⟨_, s, h s, Nat.le_succ _⟩
      · exact .inr ⟨_, _, h s, (hdrop s).trans (Nat.le_succ _)⟩
  | cons c u =>
    obtain h | h | h := digits_cons c
    · have hmiss (text : Text) : Reader.digits.Misses (c :: text) := congrArg Reply.result (h text)
      exact .inr (.misses (List.cons_ne_nil c u) (hmiss _) (hmiss _))
    · by_cases hu : u = []
      · rw [hu]
        exact .inl (.inr ⟨_, s, h s, Nat.le_refl _⟩)
      · exact .inr (.reads hu (List.suffix_cons c u) (h _) (h _))
    · -- The number ends inside of the front, or reaches behind it.
      by_cases hall : u.dropWhile Char.isDigit = []
      · refine .inl (.inr ⟨_, _, h (u ++ s), ?_⟩)
        rw [List.dropWhile_append, hall]
        exact hdrop s
      · have hinside (text : Text) : Reader.digits.Reads (c :: (u ++ text))
            (c :: u.takeWhile Char.isDigit) (u.dropWhile Char.isDigit ++ text) := by
          obtain ⟨htake, hdrop⟩ := digits_append hall text
          have hread := h (u ++ text)
          rw [htake, hdrop] at hread
          exact hread
        exact .inr (.reads hall ((List.dropWhile_suffix _).trans (List.suffix_cons c u))
          (hinside s) (hinside s'))

theorem number : Local bound number := digits.bind fun _ => pure

end Local

end DiceExpr.Reader
