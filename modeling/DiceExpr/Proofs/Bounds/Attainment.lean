import DiceExpr.Proofs.Bounds.Chains
import DiceExpr.Proofs.Shown
import DiceExpr.Tree.Text

namespace DiceExpr

namespace Die

/-- Every face of the die has a position that a number can be drawn for. No list that fits into the
memory has more faces. -/
def Addressable : Die → Prop
  | custom faces => faces.length ≤ 9223372036854775808
  | _ => True

instance (d : Die) : Decidable d.Addressable :=
  match d with
  | sided _ => isTrue trivial
  | percentile => isTrue trivial
  | fudge => isTrue trivial
  | custom _ => Nat.decLe ..

theorem custom_shows_of_mem {faces : List Value} (haddr : (custom faces).Addressable) {v : Value}
    (hv : v ∈ faces) : (custom faces).Shows v := by
  obtain ⟨i, hi, rfl⟩ := List.mem_iff_getElem.mp hv
  have haddr : faces.length ≤ 9223372036854775808 := haddr
  have hval : (Value.clamp i).toInt = i := Value.toInt_clamp_of_mem (by omega) (by omega)
  have hlow : (0 : Value) ≤ .clamp i := Value.clamp_le_clamp (Int.natCast_nonneg i)
  refine ⟨.clamp i, ⟨hlow, Value.clamp_le_clamp (by omega)⟩, ?_⟩
  have hindex : (Value.clamp i).toInt.toNat = i := by omega
  simp only [shown, if_pos hlow, hindex, List.getElem?_eq_getElem hi, Option.getD_some]

theorem custom_nil_shows : (custom []).Shows 0 :=
  ⟨0, ⟨le_refl 0, le_refl 0⟩, rfl⟩

theorem shows_of_mem_ends {d : Die} (hdrawn : d.drawn = d.ends) (hshown : ∀ n, d.shown n = n)
    {v : Value} (hv : v ∈ d.ends) : d.Shows v := by
  refine ⟨v, ?_, (hshown v).symm⟩
  rw [hdrawn]
  exact hv

/-- For any condition the split for a die with faces is one of values that the die shows, its ends
among them. -/
theorem exists_split_divides {d : Die} (haddr : d.Addressable) (hne : d ≠ custom []) :
    ∃ P : Value → Prop, (∀ v, P v → d.Shows v) ∧ P d.ends.low ∧ P d.ends.high ∧
      ∀ c, ((Tree.die d).split c d.ends).Divides c P := by
  have hrange (hdrawn : d.drawn = d.ends) (hshown : ∀ n, d.shown n = n)
      (hsplit : ∀ c, (Tree.die d).split c d.ends = c.splitRange d.ends) :
      ∃ P : Value → Prop, (∀ v, P v → d.Shows v) ∧ P d.ends.low ∧ P d.ends.high ∧
        ∀ c, ((Tree.die d).split c d.ends).Divides c P := by
    have hle := d.drawn_low_le_high
    rw [hdrawn] at hle
    refine ⟨(· ∈ d.ends), fun v hv => shows_of_mem_ends hdrawn hshown hv, Ends.low_mem hle,
      Ends.high_mem hle, fun c => ?_⟩
    rw [hsplit]
    exact c.splitRange_divides hle
  cases d with
  | sided sides => exact hrange rfl (fun _ => rfl) fun _ => rfl
  | percentile => exact hrange rfl (fun _ => rfl) fun _ => rfl
  | fudge => exact hrange rfl (fun _ => rfl) fun _ => rfl
  | custom faces =>
    have hfaces : faces ≠ [] := fun h => hne (by rw [h])
    obtain ⟨hlow, hhigh, -⟩ := extremes_ends hfaces
    exact ⟨(· ∈ faces), fun v hv => custom_shows_of_mem haddr hv, hlow, hhigh,
      fun c => c.splitList_divides faces⟩

theorem shows_ends {d : Die} (haddr : d.Addressable) :
    d.Shows d.ends.low ∧ d.Shows d.ends.high := by
  by_cases hne : d = custom []
  · rw [hne]
    exact ⟨custom_nil_shows, custom_nil_shows⟩
  · obtain ⟨P, hshows, hlow, hhigh, -⟩ := exists_split_divides haddr hne
    exact ⟨hshows _ hlow, hshows _ hhigh⟩

end Die

namespace Tree

/-- What a node rolls again and again is a single die. -/
def RerollsDice : Tree → Prop
  | modified inner (.explode ..) => ∀ t ∈ inner.targets, t.isDie
  | _ => True

instance (t : Tree) : Decidable t.RerollsDice :=
  match t with
  | die _ => isTrue trivial
  | pool _ => isTrue trivial
  | modified _ (.calculate ..) => isTrue trivial
  | modified _ (.select _) => isTrue trivial
  | modified inner (.explode ..) => inferInstanceAs (Decidable (∀ t ∈ inner.targets, t.isDie))

/-- Both bounds of a tree are values of it, and the bounds of its parts are shown together. -/
structure Attained (t : Tree) : Prop where
  low : t.Shows t.bounds.low
  high : t.Shows t.bounds.high
  partsLow : t.ShowsParts t.partBounds.low
  partsHigh : t.ShowsParts t.partBounds.high

theorem forall₂_ends {P : Tree → Value → Prop} {range : Tree → Ends Value} {ts : List Tree}
    (h : ∀ t ∈ ts, P t (range t).low ∧ P t (range t).high) :
    List.Forall₂ P ts (Ends.ofList (ts.map range)).low ∧
      List.Forall₂ P ts (Ends.ofList (ts.map range)).high := by
  induction ts with
  | nil => exact ⟨.nil, .nil⟩
  | cons t ts ih =>
    obtain ⟨hlow, hhigh⟩ := h t List.mem_cons_self
    have hrest := ih fun s hs => h s (List.mem_cons_of_mem t hs)
    exact ⟨.cons hlow hrest.1, .cons hhigh hrest.2⟩

theorem attained_die {d : Die} (haddr : d.Addressable) : (die d).Attained := by
  obtain ⟨hlow, hhigh⟩ := Die.shows_ends haddr
  have hlow := shows_die.mpr hlow
  have hhigh := shows_die.mpr hhigh
  exact ⟨hlow, hhigh, showsParts_die.mpr ⟨_, hlow, rfl⟩, showsParts_die.mpr ⟨_, hhigh, rfl⟩⟩

theorem attained_pool {children : List Tree} (h : ∀ c ∈ children, c.Attained) :
    (pool children).Attained := by
  have hends : ∀ c ∈ children, c.Shows c.bounds.low ∧ c.Shows c.bounds.high :=
    fun c hc => ⟨(h c hc).low, (h c hc).high⟩
  obtain ⟨hlow, hhigh⟩ := forall₂_ends hends
  constructor
  · rw [bounds_pool]
    exact shows_pool.mpr ⟨_, hlow, rfl⟩
  · rw [bounds_pool]
    exact shows_pool.mpr ⟨_, hhigh, rfl⟩
  · rw [partBounds_pool]
    exact showsParts_pool.mpr hlow
  · rw [partBounds_pool]
    exact showsParts_pool.mpr hhigh

theorem attained_calculate {inner : Tree} (op : Operator) (operand : Value) (h : inner.Attained) :
    (modified inner (.calculate op operand)).Attained := by
  have hl : (modified inner (.calculate op operand)).Shows (op.apply inner.bounds.low operand) :=
    shows_calculate.mpr ⟨_, h.low, rfl⟩
  have hh : (modified inner (.calculate op operand)).Shows (op.apply inner.bounds.high operand) :=
    shows_calculate.mpr ⟨_, h.high, rfl⟩
  -- the operation may turn the ends round
  have hlow : (modified inner (.calculate op operand)).Shows
      (modified inner (.calculate op operand)).bounds.low := by
    change Shows _ (min (op.apply inner.bounds.low operand) (op.apply inner.bounds.high operand))
    rcases min_choice (op.apply inner.bounds.low operand) (op.apply inner.bounds.high operand)
      with hmin | hmin
    · rw [hmin]
      exact hl
    · rw [hmin]
      exact hh
  have hhigh : (modified inner (.calculate op operand)).Shows
      (modified inner (.calculate op operand)).bounds.high := by
    change Shows _ (max (op.apply inner.bounds.low operand) (op.apply inner.bounds.high operand))
    rcases max_choice (op.apply inner.bounds.low operand) (op.apply inner.bounds.high operand)
      with hmax | hmax
    · rw [hmax]
      exact hl
    · rw [hmax]
      exact hh
  exact ⟨hlow, hhigh, showsParts_calculate.mpr ⟨_, hlow, rfl⟩,
    showsParts_calculate.mpr ⟨_, hhigh, rfl⟩⟩

theorem attained_select {inner : Tree} (selection : Selection) (h : inner.Attained) :
    (modified inner (.select selection)).Attained where
  low := shows_select.mpr ⟨_, h.partsLow, rfl⟩
  high := shows_select.mpr ⟨_, h.partsHigh, rfl⟩
  partsLow := showsParts_select.mpr ⟨_, h.partsLow, rfl⟩
  partsHigh := showsParts_select.mpr ⟨_, h.partsHigh, rfl⟩

/-- Both bounds of the chains of a die are the sums of chains. -/
theorem showsChain_die {d : Die} (haddr : d.Addressable) (c : Condition) (limit : Nat) :
    ShowsChain c limit (die d) (chainBounds c limit (die d) d.ends).low ∧
      ShowsChain c limit (die d) (chainBounds c limit (die d) d.ends).high := by
  by_cases hne : d = .custom []
  · subst hne
    have hshows := shows_die.mpr Die.custom_nil_shows
    have hzero : ShowsChain c limit (die (.custom [])) 0 := by
      by_cases hc : c.check 0
      · have hchain : ShowsChain c limit (die (.custom [])) (.add (.times 0 limit) 0) :=
          Split.chainSum_of_pass ⟨hshows, hc⟩ hshows
        rw [Value.zero_times, Value.zero_add] at hchain
        exact hchain
      · exact Split.chainSum_of_fail ⟨hshows, hc⟩
    exact ⟨hzero, hzero⟩
  · obtain ⟨P, hshows, hlow, hhigh, hdivides⟩ := Die.exists_split_divides haddr hne
    obtain ⟨hlow, hhigh⟩ := Split.chainSum_chain (hdivides c) hlow hhigh
    exact ⟨hlow.imp fun v hv => shows_die.mpr (hshows v hv),
      hhigh.imp fun v hv => shows_die.mpr (hshows v hv)⟩

theorem isDie_iff {t : Tree} : t.isDie ↔ ∃ d, t = die d := by
  cases t <;> simp [isDie]

theorem attained_explode {inner : Tree} (c : Condition) (limit : Nat)
    (h : ∀ t ∈ inner.targets, ∃ d : Die, t = die d ∧ d.Addressable) :
    (modified inner (.explode c limit)).Attained := by
  have hchains : ∀ t ∈ inner.targets, ShowsChain c limit t (chainBounds c limit t t.bounds).low ∧
      ShowsChain c limit t (chainBounds c limit t t.bounds).high := by
    intro t ht
    obtain ⟨d, rfl, haddr⟩ := h t ht
    exact showsChain_die haddr c limit
  obtain ⟨hlow, hhigh⟩ := forall₂_ends hchains
  constructor
  · rw [bounds_explode, partBounds_explode]
    exact shows_explode.mpr ⟨_, hlow, rfl⟩
  · rw [bounds_explode, partBounds_explode]
    exact shows_explode.mpr ⟨_, hhigh, rfl⟩
  · rw [partBounds_explode]
    exact showsParts_explode.mpr hlow
  · rw [partBounds_explode]
    exact showsParts_explode.mpr hhigh

/-- Every custom die of a node is addressable. -/
def Addressable : Tree → Prop
  | die d => d.Addressable
  | _ => True

instance (t : Tree) : Decidable t.Addressable :=
  match t with
  | die d => inferInstanceAs (Decidable d.Addressable)
  | pool _ => isTrue trivial
  | modified .. => isTrue trivial

theorem attained (t : Tree) (haddr : ∀ n ∈ t.nodes, n.Addressable)
    (hdice : ∀ n ∈ t.nodes, n.RerollsDice) : t.Attained := by
  induction t using Tree.induction with
  | die d => exact attained_die (haddr _ (mem_nodes_self _))
  | pool children ih =>
    have haddrs := (forall_nodes_pool.mp haddr).2
    have hdices := (forall_nodes_pool.mp hdice).2
    exact attained_pool fun c hc => ih c hc (haddrs c hc) (hdices c hc)
  | calculate inner op operand ih =>
    have haddrs := (forall_nodes_modified.mp haddr).2
    have hdices := (forall_nodes_modified.mp hdice).2
    exact attained_calculate op operand (ih haddrs hdices)
  | select inner selection ih =>
    have haddrs := (forall_nodes_modified.mp haddr).2
    have hdices := (forall_nodes_modified.mp hdice).2
    exact attained_select selection (ih haddrs hdices)
  | explode inner c limit ih =>
    have haddrs := (forall_nodes_modified.mp haddr).2
    obtain ⟨hnode, -⟩ := forall_nodes_modified.mp hdice
    refine attained_explode c limit fun t ht => ?_
    obtain ⟨d, rfl⟩ := isDie_iff.mp (hnode t ht)
    exact ⟨d, rfl, haddrs (die d) (mem_nodes_of_target ht (mem_nodes_self (die d)))⟩

/-- For each bound of a tree there is a list of draws, all in the ranges asked for, that an
evaluation uses up to give just this bound. -/
theorem exists_draws_of_bound (t : Tree) (haddr : ∀ n ∈ t.nodes, n.Addressable)
    (hdice : ∀ n ∈ t.nodes, n.RerollsDice) (listener : Listener τ) (u : τ) :
    ∀ bound ∈ [t.lowest, t.highest], ∃ draws roll, t.evaluate.Yields draws roll ∧
      roll.value = bound ∧
      (t.evaluate.run Supply.feed listener (.listed draws) u).result = some roll ∧
      (t.evaluate.run Supply.feed listener (.listed draws) u).feed = .listed [] := by
  have hbounds := t.attained haddr hdice
  have hruns (bound : Value) (h : t.Shows bound) : ∃ draws roll, t.evaluate.Yields draws roll ∧
      roll.value = bound ∧
      (t.evaluate.run Supply.feed listener (.listed draws) u).result = some roll ∧
      (t.evaluate.run Supply.feed listener (.listed draws) u).feed = .listed [] := by
    obtain ⟨roll, ⟨draws, hyields⟩, hvalue⟩ := h
    have hrun := hyields.run listener [] u
    rw [List.append_nil] at hrun
    exact ⟨draws, roll, hyields, hvalue, hrun⟩
  intro bound hbound
  rcases List.mem_pair.mp hbound with rfl | rfl
  · exact hruns _ hbounds.low
  · exact hruns _ hbounds.high

/-- The lowest value of a product with a negative number comes from the longest chains. -/
theorem exists_draws_of_reversed_bound :
    let chains := modified (pool [die (.sided 6), die (.custom [.clamp (-3), 5]), die .fudge])
      (.explode ⟨.gte, 5⟩ 2)
    let t := modified (modified chains (.select ⟨.drop, .low, 1⟩)) (.calculate .mul (.clamp (-2)))
    (∀ n ∈ t.nodes, n.Addressable) ∧ (∀ n ∈ t.nodes, n.RerollsDice) ∧ t.lowest = .clamp (-66) ∧
      ∃ draws roll, t.evaluate.Yields draws roll ∧ roll.value = .clamp (-66) ∧
        (t.evaluate.run Supply.feed .silent (.listed draws) ()).result = some roll ∧
        (t.evaluate.run Supply.feed .silent (.listed draws) ()).feed = .listed [] := by
  intro chains t
  have haddr : ∀ n ∈ t.nodes, n.Addressable := by decide
  have hdice : ∀ n ∈ t.nodes, n.RerollsDice := by decide
  have hlowest : t.lowest = .clamp (-66) := by decide
  have hdraws := exists_draws_of_bound t haddr hdice .silent () t.lowest List.mem_cons_self
  rw [hlowest] at hdraws
  exact ⟨haddr, hdice, hlowest, hdraws⟩

end Tree

end DiceExpr
