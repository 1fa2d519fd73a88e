import DiceExpr.Proofs.Contents
import DiceExpr.Proofs.Runs.Watching
import Mathlib.Algebra.BigOperators.Group.List.Basic
import Mathlib.Algebra.BigOperators.Ring.List
import Mathlib.Algebra.Ring.Nat

namespace DiceExpr

namespace Play

variable {listener : Listener τ} {u : τ}

/-- A run that ends leaves the numbers alone that it does not draw. -/
theorem run_listed_append {p : Play α} {numbers : List Value} {a : α}
    (h : (p.run Supply.feed listener (.listed numbers) u).result = some a) (more : List Value) :
    ∃ left, (p.run Supply.feed listener (.listed numbers) u).feed = .listed left ∧
      p.run Supply.feed listener (.listed (numbers ++ more)) u = ⟨some a, .listed (left ++ more),
        (p.run Supply.feed listener (.listed numbers) u).listener⟩ := by
  induction p generalizing numbers u with
  | done b =>
    cases h
    exact ⟨numbers, rfl, rfl⟩
  | draw range next ih =>
    cases numbers with
    | nil => cases h
    | cons v rest => exact ih v h
  | note step next ih => exact ih h

/-- A run that runs dry has drawn all numbers, and goes on from there if there are more. -/
theorem run_listed_dry {p : Play α} {numbers : List Value}
    (h : (p.run Supply.feed listener (.listed numbers) u).result = none) (more : List Value) :
    (p.run Supply.feed listener (.listed numbers) u).feed = .listed [] ∧
      p.steps Supply.feed (.listed numbers) <+:
        p.steps Supply.feed (.listed (numbers ++ more)) := by
  induction p generalizing numbers u with
  | done b => cases h
  | draw range next ih =>
    cases numbers with
    | nil => exact ⟨rfl, List.nil_prefix⟩
    | cons v rest => exact ih v h
  | note step next ih =>
    obtain ⟨hfeed, hsteps⟩ := ih h
    exact ⟨hfeed, List.cons_prefix_cons.mpr ⟨rfl, hsteps⟩⟩

/-- Whatever the numbers are, it takes so many draws at least and so many at most to the end. -/
def DrawsWithin : Play α → Nat → Nat → Prop
  | done _, least, _ => least = 0
  | draw _ next, least, most => 0 < most ∧ ∀ v, (next v).DrawsWithin (least - 1) (most - 1)
  | note _ next, least, most => next.DrawsWithin least most

namespace DrawsWithin

theorem mono {p : Play α} {least most least' most' : Nat} (h : p.DrawsWithin least most)
    (hleast : least' ≤ least) (hmost : most ≤ most') : p.DrawsWithin least' most' := by
  induction p generalizing least most least' most' with
  | done a =>
    have hzero : least = 0 := h
    exact Nat.le_zero.mp (hzero ▸ hleast)
  | draw range next ih =>
    obtain ⟨hpos, hnext⟩ := h
    exact ⟨by omega, fun v => ih v (hnext v) (by omega) (by omega)⟩
  | note step next ih => exact ih h hleast hmost

theorem bind {p : Play α} {f : α → Play β} {least most least' most' : Nat}
    (hp : p.DrawsWithin least most) (hf : ∀ a, (f a).DrawsWithin least' most') :
    (p.bind f).DrawsWithin (least + least') (most + most') := by
  induction p generalizing least most with
  | done a =>
    have hzero : least = 0 := hp
    exact (hf a).mono (by omega) (by omega)
  | draw range next ih =>
    obtain ⟨hpos, hnext⟩ := hp
    exact ⟨by omega, fun v => (ih v (hnext v)).mono (by omega) (by omega)⟩
  | note step next ih => exact ih hp

/-- What follows without a draw makes no difference. -/
theorem follow {p : Play α} {f : α → Play β} {least most : Nat} (hp : p.DrawsWithin least most)
    (hf : ∀ a, (f a).DrawsWithin 0 0) : (p.bind f).DrawsWithin least most := hp.bind hf

theorem map {p : Play α} {least most : Nat} (hp : p.DrawsWithin least most) (f : α → β) :
    (p.map f).DrawsWithin least most := hp.follow fun _ => rfl

theorem eachThen {ι : Type} {is : List ι} {play : ι → Play α} {least most : ι → Nat}
    {follow : List α → Play β} (h : ∀ i ∈ is, (play i).DrawsWithin (least i) (most i))
    (hf : ∀ as, (follow as).DrawsWithin 0 0) :
    (eachThen (is.map play) follow).DrawsWithin (is.map least).sum (is.map most).sum := by
  induction is generalizing follow with
  | nil => exact hf []
  | cons i rest ih =>
    obtain ⟨hi, hrest⟩ := List.forall_mem_cons.mp h
    rw [List.map_cons, List.map_cons, List.map_cons, List.sum_cons, List.sum_cons]
    exact hi.bind fun a => ih hrest fun as => hf (a :: as)

/-- A chain rolls its target once at least, and not more often than its limit allows. -/
theorem chainThen {target : Play Roll} {condition : Condition} {limit least most : Nat}
    {follow : List Roll → Play β} (h : target.DrawsWithin least most)
    (hf : ∀ rolls, (follow rolls).DrawsWithin 0 0) :
    (chainThen target condition limit follow).DrawsWithin least ((limit + 1) * most) := by
  induction limit generalizing follow with
  | zero =>
    rw [Nat.zero_add, Nat.one_mul]
    exact h.follow fun r => hf [r]
  | succ more ih =>
    have hmost : (more + 1 + 1) * most = most + (more + 1) * most := by
      rw [Nat.succ_mul, Nat.add_comm]
    have hrest (r : Roll) : (if condition.check r.value then
        Play.chainThen target condition more fun rest => follow (r :: rest)
        else follow [r]).DrawsWithin 0 ((more + 1) * most) := by
      split
      · exact (ih fun rolls => hf (r :: rolls)).mono (Nat.zero_le _) (le_refl _)
      · exact (hf [r]).mono (le_refl _) (Nat.zero_le _)
    rw [hmost]
    exact h.bind hrest

theorem length_draws {p : Play α} {least most : Nat} (h : p.DrawsWithin least most)
    {feed : Feed σ} {s : σ} {a : α} (hrun : (p.run feed listener s u).result = some a) :
    least ≤ (p.draws feed s).length ∧ (p.draws feed s).length ≤ most := by
  induction p generalizing least most s u with
  | done b =>
    have hzero : least = 0 := h
    exact ⟨hzero.le, Nat.zero_le most⟩
  | draw range next ih =>
    obtain ⟨hpos, hnext⟩ := h
    simp only [run] at hrun
    simp only [draws]
    cases hanswer : feed.next range s with
    | none =>
      rw [hanswer] at hrun
      cases hrun
    | some answer =>
      rw [hanswer] at hrun
      obtain ⟨hleast, hmost⟩ := ih answer.1 (hnext answer.1) hrun
      rw [List.length_cons]
      exact ⟨by omega, by omega⟩
  | note step next ih => exact ih h hrun

theorem run_listed_ends {p : Play α} {least most : Nat} (h : p.DrawsWithin least most)
    {numbers : List Value} (henough : most ≤ numbers.length) :
    ∃ a, (p.run Supply.feed listener (.listed numbers) u).result = some a := by
  induction p generalizing least most numbers u with
  | done a => exact ⟨a, rfl⟩
  | draw range next ih =>
    obtain ⟨hpos, hnext⟩ := h
    cases numbers with
    | nil =>
      rw [List.length_nil] at henough
      omega
    | cons v rest =>
      rw [List.length_cons] at henough
      exact ih v (hnext v) (by omega)
  | note step next ih => exact ih h henough

theorem run_listed_eq_none {p : Play α} {least most : Nat} (h : p.DrawsWithin least most)
    {numbers : List Value} (hfew : numbers.length < least) :
    (p.run Supply.feed listener (.listed numbers) u).result = none := by
  induction p generalizing least most numbers u with
  | done a =>
    have hzero : least = 0 := h
    omega
  | draw range next ih =>
    cases numbers with
    | nil => rfl
    | cons v rest =>
      rw [List.length_cons] at hfew
      exact ih v (h.2 v) (by omega)
  | note step next ih => exact ih h hfew

end DrawsWithin

end Play

namespace Tree

mutual

/-- The most numbers that an evaluation can draw: what explodes may be rolled again each time. -/
def mostDraws : Tree → Nat
  | die _ => 1
  | pool children => mostDrawsList children
  | modified inner (.explode _ limit) => (limit + 1) * inner.mostDraws
  | modified inner _ => inner.mostDraws

def mostDrawsList : List Tree → Nat
  | [] => 0
  | t :: rest => t.mostDraws + mostDrawsList rest

end

theorem mostDrawsList_eq_sum (ts : List Tree) : mostDrawsList ts = (ts.map mostDraws).sum := by
  induction ts with
  | nil => rfl
  | cons t rest ih => rw [mostDrawsList, ih, List.map_cons, List.sum_cons]

theorem sum_mostDraws_targets (t : Tree) : (t.targets.map mostDraws).sum = t.mostDraws := by
  cases t with
  | die d => rfl
  | pool children => rw [mostDraws, mostDrawsList_eq_sum, targets]
  | modified inner m => rfl

theorem sum_leaves_targets (t : Tree) :
    (t.targets.map fun target => target.leaves.length).sum = t.leaves.length := by
  cases t with
  | die d => rfl
  | pool children => rw [leaves_pool, List.length_flatMap, targets]
  | modified inner m => rfl

theorem drawsWithin_evaluations {ts : List Tree} {follow : List Roll → Play β}
    (h : ∀ t ∈ ts, t.evaluate.DrawsWithin t.leaves.length t.mostDraws)
    (hf : ∀ rolls, (follow rolls).DrawsWithin 0 0) :
    (Play.eachThen (evaluations ts) follow).DrawsWithin (ts.flatMap leaves).length
      (mostDrawsList ts) := by
  rw [evaluations_eq_map, List.length_flatMap, mostDrawsList_eq_sum]
  exact .eachThen h hf

theorem drawsWithin_explode (node : Tree) {inner : Tree} (condition : Condition) (limit : Nat)
    (h : ∀ t ∈ inner.targets, t.evaluate.DrawsWithin t.leaves.length t.mostDraws) :
    (Play.explode node condition limit (evaluations inner.targets)).DrawsWithin
      inner.leaves.length ((limit + 1) * inner.mostDraws) := by
  have hchains : ∀ t ∈ inner.targets, (Play.chain t.evaluate condition limit).DrawsWithin
      t.leaves.length ((limit + 1) * t.mostDraws) :=
    fun t ht => .chainThen (h t ht) fun _ => rfl
  have hmost : (inner.targets.map fun t => (limit + 1) * t.mostDraws).sum =
      (limit + 1) * inner.mostDraws := by
    rw [List.sum_map_mul_left, sum_mostDraws_targets]
  rw [← sum_leaves_targets inner, ← hmost, Play.explode, evaluations_eq_map, List.map_map]
  exact .eachThen hchains fun _ => rfl

/-- An evaluation draws a number for each die at least, and only explosions draw more. -/
theorem drawsWithin (t : Tree) : t.evaluate.DrawsWithin t.leaves.length t.mostDraws ∧
    t.parts.DrawsWithin t.leaves.length t.mostDraws := by
  induction t using Tree.induction with
  | die d =>
    have hplay : d.play.DrawsWithin 1 1 := ⟨Nat.one_pos, fun _ => rfl⟩
    exact ⟨hplay.follow fun _ => rfl, hplay.follow fun _ => rfl⟩
  | pool children ih =>
    rw [leaves_pool, mostDraws]
    have hchildren := fun c hc => (ih c hc).1
    exact ⟨drawsWithin_evaluations hchildren fun _ => rfl,
      drawsWithin_evaluations hchildren fun _ => rfl⟩
  | calculate inner op operand ih =>
    rw [leaves_modified]
    exact ⟨ih.1.follow fun _ => rfl, ih.1.follow fun _ => rfl⟩
  | select inner selection ih =>
    have hselect : (Play.select (modified inner (.select selection)) selection
        inner.parts).DrawsWithin inner.leaves.length inner.mostDraws := ih.2.follow fun _ => rfl
    rw [leaves_modified]
    exact ⟨hselect.map _, hselect.map _⟩
  | explode inner condition limit ih =>
    have hexplode := drawsWithin_explode (modified inner (.explode condition limit)) condition
      limit fun t ht => (ih t ht).1
    obtain ⟨view, hparts⟩ := exists_parts_explode inner condition limit
    rw [evaluate_explode, hparts, leaves_modified, mostDraws]
    exact ⟨hexplode.map _, hexplode.map _⟩

/-- More numbers at the end of a list change nothing for an evaluation that ends without them. One
that runs dry has drawn the whole list, and all it has recorded stays. -/
theorem run_with_more_numbers (t : Tree) (numbers more : List Value) :
    let short := t.evaluate.run Supply.feed .recorder (.listed numbers) #[]
    let long := t.evaluate.run Supply.feed .recorder (.listed (numbers ++ more)) #[]
    (∀ roll, short.result = some roll → ∃ left, short.feed = .listed left ∧
        long = ⟨some roll, .listed (left ++ more), short.listener⟩) ∧
      (short.result = none →
        short.feed = .listed [] ∧ short.listener.toList <+: long.listener.toList) := by
  intro short long
  constructor
  · intro roll hroll
    exact Play.run_listed_append hroll more
  · intro hdry
    obtain ⟨hfeed, hsteps⟩ := Play.run_listed_dry hdry more
    refine ⟨hfeed, ?_⟩
    rw [Play.run_recorder, Play.run_recorder]
    exact hsteps.map Step.entry

/-- A chain of two rolls and one of a single roll, and the same dice with too few numbers. -/
theorem run_with_more_numbers_of_chains :
    let t := modified (pool [die (.sided 6), die (.sided 6)]) (.explode ⟨.eq, 6⟩ 2)
    let run := fun numbers => t.evaluate.run Supply.feed .recorder (.listed numbers) #[]
    (∃ left, (run [6, 2, 3, 4]).feed = .listed left ∧ run [6, 2, 3, 4, 5] =
        ⟨some ⟨11, "(6 + 2) + 3".toList⟩, .listed (left ++ [5]), (run [6, 2, 3, 4]).listener⟩) ∧
      (run [6, 2]).result = none ∧ (run [6, 2]).listener.size = 2 ∧ (run [6, 2]).feed = .listed [] ∧
      (run [6, 2]).listener.toList <+: (run [6, 2, 3]).listener.toList := by
  intro t run
  obtain ⟨hends, -⟩ := run_with_more_numbers t [6, 2, 3, 4] [5]
  obtain ⟨-, hdry⟩ := run_with_more_numbers t [6, 2] [3]
  have hroll : (run [6, 2, 3, 4]).result = some ⟨11, "(6 + 2) + 3".toList⟩ := by decide +kernel
  have hnone : (run [6, 2]).result = none := by decide
  exact ⟨hends _ hroll, hnone, by decide, hdry hnone⟩

/-- An evaluation that ends has drawn a number for each die at least, and at most what explosions
allow. So a list of numbers is long enough if it has the most, and never if it has less than the
least. -/
theorem draws_within (t : Tree) (feed : Feed σ) (listener : Listener τ) (s : σ) (u : τ) :
    let draws := (t.evaluate.run feed.watched listener (s, []) u).feed.2
    (∀ roll, (t.evaluate.run feed listener s u).result = some roll →
        t.leaves.length ≤ draws.length ∧ draws.length ≤ t.mostDraws) ∧
      ∀ numbers, (t.mostDraws ≤ numbers.length → ∃ roll,
          (t.evaluate.run Supply.feed listener (.listed numbers) u).result = some roll) ∧
        (numbers.length < t.leaves.length →
          (t.evaluate.run Supply.feed listener (.listed numbers) u).result = none) := by
  intro draws
  obtain ⟨hwithin, -⟩ := t.drawsWithin
  have hdraws : draws = t.evaluate.draws feed s := Play.draws_watched ..
  refine ⟨fun roll hroll => ?_, fun numbers => ⟨hwithin.run_listed_ends,
    hwithin.run_listed_eq_none⟩⟩
  rw [hdraws]
  exact hwithin.length_draws hroll

/-- Three dice, two of which explode twice at most: from three to seven draws. -/
theorem draws_within_of_exploding_pool :
    let feed : Feed Bool := ⟨fun range s => some (if s then range.low else range.high, !s)⟩
    let t := modified (pool [die (.sided 6), modified (pool [die .fudge, die (.sided 4)])
      (.explode ⟨.gte, 1⟩ 2)]) (.select ⟨.keep, .high, 1⟩)
    let draws := (t.evaluate.run feed.watched .silent (true, []) ()).feed.2
    t.leaves.length = 3 ∧ t.mostDraws = 7 ∧ draws.length = 6 ∧
      (t.leaves.length ≤ draws.length ∧ draws.length ≤ t.mostDraws) ∧
      (∃ roll, (t.evaluate.run Supply.feed .silent (.listed [1, 1, 1, 1, 1, 1, 1]) ()).result =
        some roll) ∧
      (t.evaluate.run Supply.feed .silent (.listed [1, 1]) ()).result = none := by
  intro feed t draws
  obtain ⟨hdraws, hlisted⟩ := draws_within t feed .silent true ()
  have hleast : t.leaves.length = 3 := by decide
  have hmost : t.mostDraws = 7 := by decide
  have hroll : (t.evaluate.run feed .silent true ()).result =
      some ⟨9, "1 (d) + ((1 + -1) + (4 + 1 + 4))".toList⟩ := by decide +kernel
  refine ⟨hleast, hmost, by decide, hdraws _ hroll, ?_, ?_⟩
  · exact (hlisted [1, 1, 1, 1, 1, 1, 1]).1 (by decide)
  · exact (hlisted [1, 1]).2 (by decide)

end Tree

end DiceExpr
