import DiceExpr.Proofs.Grammar.Recognition
import DiceExpr.Proofs.Nesting.Scan
import DiceExpr.Proofs.Normalizing
import DiceExpr.Tree.Build

namespace DiceExpr

namespace Reader

variable {p q : Reader α} {text rest : Text} {inside : Reader (List Term)}

/-! Every group of a result was open -/

/-- The reader has had as many groups open at once as are nested in its result. -/
def Keeps (depth : α → Nat) (p : Reader α) : Prop :=
  ∀ text a rest, p.Reads text a rest → depth a ≤ p.opened text

theorem Keeps.orElse {depth : α → Nat} (hp : p.Keeps depth) (hq : q.Keeps depth) :
    (p <|> q).Keeps depth := by
  intro text a rest hreads
  obtain h | ⟨hmiss, h⟩ := reads_orElse.mp hreads
  · rw [opened_orElse_of_reads h]
    exact hp text a rest h
  · rw [opened_orElse_of_misses hmiss]
    exact (hq text a rest h).trans (Nat.le_max_right ..)

theorem Keeps.map {β : Type} {depth : α → Nat} {f : α → β} {outer : β → Nat} (hp : p.Keeps depth)
    (hle : ∀ a, outer (f a) ≤ depth a) : (f <$> p).Keeps outer := by
  intro text b rest hreads
  obtain ⟨a, ha, rfl⟩ := reads_map.mp hreads
  have hopened : (f <$> p).opened text = max (p.opened text) 0 := opened_bind_of_reads ha
  rw [hopened]
  exact (hle a).trans ((hp text a rest ha).trans (Nat.le_max_left ..))

private theorem Keeps.atMost {depth : α → Nat} (hp : p.Keeps depth) (n : Nat) :
    ∀ text as rest, (Reader.atMost p n).Reads text as rest →
      ∀ a ∈ as, depth a ≤ (Reader.atMost p n).opened text := by
  induction n with
  | zero =>
    intro text as rest hreads
    rw [(reads_pure.mp hreads).1]
    exact List.forall_mem_nil _
  | succ n ih =>
    intro text as rest hreads
    unfold Reader.atMost at hreads ⊢
    obtain h | ⟨-, h⟩ := reads_orElse.mp hreads
    · rw [opened_orElse_of_reads h]
      simp only [reads_bind, reads_pure] at h
      obtain ⟨a, mid, ha, others, _, hothers, rfl, rfl⟩ := h
      rw [opened_bind_of_reads ha, opened_bind_of_reads hothers]
      refine List.forall_mem_cons.mpr ⟨(hp text a mid ha).trans (Nat.le_max_left ..), ?_⟩
      intro b hb
      have hb := ih mid others _ hothers b hb
      omega
    · rw [(reads_pure.mp h).1]
      exact List.forall_mem_nil _

theorem Keeps.many {depth : α → Nat} (hp : p.Keeps depth) {as : List α}
    (h : (many p).Reads text as rest) : ∀ a ∈ as, depth a ≤ (many p).opened text :=
  hp.atMost _ text as rest h

def linkDepth : Link → Nat
  | .joined next => next.depth
  | .modified _ => 0

theorem depths_gather_le {bound : Nat} {links : List Link} (h : ∀ l ∈ links, linkDepth l ≤ bound)
    {t : Term} (ht : t.depth ≤ bound) : Term.depths (gather t links) ≤ bound := by
  induction links generalizing t with
  | nil => exact Nat.max_le.mpr ⟨ht, Nat.zero_le _⟩
  | cons l links ih =>
    obtain ⟨hl, hlinks⟩ := List.forall_mem_cons.mp h
    cases l with
    | joined next => exact Nat.max_le.mpr ⟨ht, ih hlinks hl⟩
    | modified m =>
      refine ih hlinks ?_
      rw [Term.depth_attach]
      exact ht

theorem group_keeps (h : inside.Keeps Term.depths) : (group inside).Keeps Term.depth := by
  intro text t rest hreads
  unfold group at hreads ⊢
  simp only [reads_bind, reads_nested, reads_pure] at hreads
  obtain ⟨_, mid, hopen, inner, _, ⟨_, after, hinner, _, _, hclose, rfl, rfl⟩, rfl, rfl⟩ := hreads
  have hclosed : (do let inner ← inside; char ')'; pure inner : Reader (List Term)).Reads mid
      inner rest := by
    simp only [reads_bind, reads_pure]
    exact ⟨inner, after, hinner, (), rest, hclose, rfl, rfl⟩
  have hdepth := h mid inner after hinner
  rw [opened_bind_of_reads hopen, opened_bind_of_reads (reads_nested.mpr hclosed), opened_nested,
    opened_bind_of_reads hinner, Term.depth]
  omega

theorem operand_keeps (h : inside.Keeps Term.depths) : (operand inside).Keeps Term.depth := by
  refine Keeps.orElse ?_ (group_keeps h)
  intro text t rest hreads
  unfold dice at hreads
  simp only [reads_bind, reads_pure] at hreads
  obtain ⟨_, _, _, _, _, _, _, _, _, rfl, _⟩ := hreads
  exact Nat.zero_le _

theorem link_keeps (h : inside.Keeps Term.depths) : (link inside).Keeps linkDepth := by
  have hjoined : (Link.joined <$> operand inside).Keeps linkDepth :=
    (operand_keeps h).map fun _ => le_refl _
  have hmodified : (Link.modified <$> modifierToken).Keeps linkDepth := by
    intro text l rest hreads
    obtain ⟨m, -, rfl⟩ := reads_map.mp hreads
    exact Nat.zero_le _
  refine Keeps.orElse (fun text l rest hreads => ?_) hmodified
  obtain ⟨u, mid, hplus, hl⟩ := reads_bind.mp hreads
  rw [opened_bind_of_reads hplus]
  exact (hjoined mid l rest hl).trans (Nat.le_max_right ..)

theorem sumWithin_keeps (levels : Nat) : (sumWithin levels).Keeps Term.depths := by
  induction levels with
  | zero => exact nofun
  | succ levels ih =>
    intro text terms rest hreads
    unfold sumWithin at hreads ⊢
    simp only [reads_bind, reads_pure] at hreads
    obtain ⟨t, mid, ht, links, _, hlinks, rfl, rfl⟩ := hreads
    have hfirst := operand_keeps ih text t mid ht
    rw [opened_bind_of_reads ht, opened_bind_of_reads hlinks]
    refine depths_gather_le (fun l hl => ?_) (hfirst.trans (Nat.le_max_left ..))
    have hl := (link_keeps ih).many hlinks l hl
    omega

theorem opened_whole_of_reads {text : Text} {terms : List Term}
    (h : sum.whole.Reads text terms rest) : Term.depths terms ≤ sum.whole.opened text := by
  have hsum := (reads_whole.mp h).1
  unfold whole
  rw [opened_bind_of_reads hsum]
  exact (sumWithin_keeps _ text terms [] hsum).trans (Nat.le_max_left ..)

end Reader

namespace Term

/-- The groups of a record are nested as deep as the parentheses of the text it was read from. -/
theorem depths_of_ofText? {text : Text} {terms : List Term} (h : ofText? text = .ok terms) :
    depths terms = text.parenDepth := by
  rw [← Text.parenDepth_normal]
  by_cases hblank : text.normal = []
  · rw [ofText?_of_blank hblank] at h
    rw [← Except.ok.inj h, hblank]
    rfl
  · exact (Text.parenDepth_of_derives ((read_eq_ok hblank).mp h)).symm

theorem reads_of_ofText? {text : Text} (hne : text.normal ≠ []) {terms : List Term}
    (h : ofText? text = .ok terms) : Reader.sum.whole.Reads text.normal terms [] := by
  have hsum := Reader.sum_reads_iff.mpr ((read_eq_ok hne).mp h)
  exact Reader.reads_whole.mpr ⟨hsum, rfl⟩

end Term

/-- What has passed as a text passes again as a record. -/
theorem Tree.ofText?_checked_once (limits : Limits) (text : Text) :
    Tree.ofText? limits text = (do
      limits.checkDepth text.parenDepth
      let terms ← Term.ofText? text
      limits.sum? terms) := by
  unfold Tree.ofText?
  cases hcheck : limits.checkDepth text.parenDepth with
  | error fault => rfl
  | ok _ =>
    cases hterms : Term.ofText? text with
    | error fault => rfl
    | ok terms =>
      change Tree.ofTerms? limits terms = limits.sum? terms
      rw [Tree.ofTerms?, Term.depths_of_ofText? hterms, hcheck]
      rfl

/-- The scan of a text that is not yet read bounds the groups that are open at once in its reading,
whatever becomes of it. For a text that can be read it is exact, and then its record is not found
too deep any more. -/
theorem Tree.depth_guard_exact (text : Text) :
    (Reader.sum.whole text.normal).trail.deepest ≤ text.parenDepth ∧
      (∀ terms, Term.ofText? text = .ok terms →
        Term.depths terms = text.parenDepth ∧
          (Reader.sum.whole text.normal).trail.deepest = text.parenDepth) ∧
      ∀ limits : Limits, Tree.ofText? limits text = (do
        limits.checkDepth text.parenDepth
        let terms ← Term.ofText? text
        limits.sum? terms) := by
  have hle : (Reader.sum.whole text.normal).trail.deepest ≤ text.parenDepth := by
    rw [← Text.parenDepth_normal]
    exact Reader.opened_whole_le text.normal
  refine ⟨hle, fun terms hterms => ?_, fun limits => ?_⟩
  · have hdepth := Term.depths_of_ofText? hterms
    refine ⟨hdepth, Nat.le_antisymm hle ?_⟩
    rw [← hdepth]
    by_cases hblank : text.normal = []
    · rw [Term.ofText?_of_blank hblank] at hterms
      rw [← Except.ok.inj hterms]
      exact Nat.zero_le _
    · exact Reader.opened_whole_of_reads (Term.reads_of_ofText? hblank hterms)
  · exact Tree.ofText?_checked_once limits text

/-- Both groups are open although the `+` before them turns out to join nothing. -/
example : let text : Text := "d6 + ((d4)".toList
    (Reader.sum.whole text.normal).trail.deepest = 2 ∧ text.parenDepth = 2 := by decide +kernel

end DiceExpr
