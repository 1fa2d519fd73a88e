import DiceExpr.Proofs.Grammar.Soundness

namespace DiceExpr.Reader

/-- The readers do the same on all texts of at most some length. -/
def AgreeUpTo (k : Nat) (p p' : Reader α) : Prop :=
  ∀ text : Text, text.length ≤ k → p text = p' text

theorem bind_congr {p p' : Reader α} {f f' : α → Reader β} {text : Text} (hp : p text = p' text)
    (hf : ∀ a rest, p.Reads text a rest → f a rest = f' a rest) :
    (p >>= f) text = (p' >>= f') text := by
  change p.bind f text = p'.bind f' text
  unfold Reader.bind Reads at *
  rw [← hp]
  split
  · next a rest trail h => rw [hf a rest (by rw [h])]
  · rfl

theorem orElse_congr {p p' q q' : Reader α} {text : Text} (hp : p text = p' text)
    (hq : q text = q' text) : (p <|> q) text = (p' <|> q') text := by
  change (p.orElse q) text = (p'.orElse q') text
  unfold Reader.orElse
  rw [hp, hq]

theorem map_congr {p p' : Reader α} {f : α → β} {text : Text} (hp : p text = p' text) :
    (f <$> p) text = (f <$> p') text := by
  change (p >>= fun a => pure (f a)) text = (p' >>= fun a => pure (f a)) text
  exact bind_congr hp fun _ _ _ => rfl

private theorem atMost_agree {k : Nat} {p p' : Reader α} (hp : p.Consumes) (h : AgreeUpTo k p p')
    (n : Nat) : AgreeUpTo k (atMost p n) (atMost p' n) := by
  induction n with
  | zero => exact fun _ _ => rfl
  | succ n ih =>
    intro text hlen
    unfold atMost
    refine orElse_congr (bind_congr (h text hlen) fun a rest hreads => ?_) rfl
    have hshorter := hp text a rest hreads
    exact bind_congr (ih rest (by omega)) fun _ _ _ => rfl

private theorem atMost_eq {p : Reader α} (hp : p.Consumes) {text : Text} {n n' : Nat}
    (h : text.length < n) (h' : text.length < n') : atMost p n text = atMost p n' text := by
  induction n generalizing text n' with
  | zero => omega
  | succ n ih =>
    cases n' with
    | zero => omega
    | succ n' =>
      unfold atMost
      refine orElse_congr (bind_congr rfl fun a rest hreads => ?_) rfl
      have hshorter := hp text a rest hreads
      exact bind_congr (ih (by omega) (by omega)) fun _ _ _ => rfl

/-- More attempts than the text has characters do not matter. -/
theorem many_eq_atMost {p : Reader α} (hp : p.Consumes) {text : Text} {n : Nat}
    (h : text.length < n) : many p text = atMost p n text := atMost_eq hp (Nat.lt_succ_self _) h

theorem many_agree {k : Nat} {p p' : Reader α} (hp : p.Consumes) (h : AgreeUpTo k p p') :
    AgreeUpTo k (many p) (many p') := fun text => atMost_agree hp h _ text

/-- Inside of a group only shorter texts are read. -/
theorem operand_agree {k : Nat} {inside inside' : Reader (List Term)}
    (h : ∀ text : Text, text.length < k → inside text = inside' text) :
    AgreeUpTo k (operand inside) (operand inside') := by
  intro text hlen
  unfold operand group
  refine orElse_congr rfl (bind_congr rfl fun _ rest hopen => ?_)
  rw [reads_char] at hopen
  rw [hopen, List.length_cons] at hlen
  refine bind_congr ?_ fun _ _ _ => rfl
  exact congrArg Reply.nested (bind_congr (h rest (by omega)) fun _ _ _ => rfl)

theorem link_agree {k : Nat} {inside inside' : Reader (List Term)}
    (h : ∀ text : Text, text.length < k → inside text = inside' text) :
    AgreeUpTo k (link inside) (link inside') := by
  intro text hlen
  unfold link
  refine orElse_congr (bind_congr rfl fun _ rest hplus => ?_) rfl
  rw [reads_char] at hplus
  rw [hplus, List.length_cons] at hlen
  exact map_congr (operand_agree h rest (by omega))

/-- Levels beyond the length of the text do not matter. -/
theorem sumWithin_eq {text : Text} {levels levels' : Nat} (h : text.length < levels)
    (h' : text.length < levels') : sumWithin levels text = sumWithin levels' text := by
  induction levels generalizing text levels' with
  | zero => omega
  | succ levels ih =>
    cases levels' with
    | zero => omega
    | succ levels' =>
      have hsound := sumWithin_sound levels
      have hinside (t : Text) (ht : t.length < text.length) :
          sumWithin levels t = sumWithin levels' t := ih (by omega) (by omega)
      unfold sumWithin
      refine bind_congr (operand_agree hinside text (Nat.le_refl _)) fun t rest ht => ?_
      obtain ⟨w, heq, -⟩ := operand_sound hsound ht
      have hlen : rest.length ≤ text.length := by
        rw [heq, List.length_append]
        omega
      exact bind_congr (many_agree (link_consumes hsound) (link_agree hinside) rest hlen)
        fun _ _ _ => rfl

theorem sum_eq_sumWithin {text : Text} {levels : Nat} (h : text.length < levels) :
    sum text = sumWithin levels text := sumWithin_eq (Nat.lt_succ_self _) h

end DiceExpr.Reader
