import DiceExpr.Proofs.Courses
import DiceExpr.Proofs.Nodes
import DiceExpr.Tree.Evaluate

namespace DiceExpr

namespace Die

/-- The values that a die can show. -/
def Shows (d : Die) (v : Value) : Prop := ∃ n ∈ d.drawn, v = d.shown n

theorem gives_play {d : Die} {v : Value} : d.play.Gives v ↔ d.Shows v := by
  simp only [play, Play.gives_draw, Play.gives_done, Shows]

theorem drawn_low_le_high (d : Die) : d.drawn.low ≤ d.drawn.high := by
  cases d with
  | sided sides => exact le_max_right sides 1
  | percentile => exact Value.clamp_le_clamp (by decide)
  | fudge => exact Value.clamp_le_clamp (by decide)
  | custom faces => exact Value.clamp_le_clamp (Int.natCast_nonneg _)

theorem askable_play (d : Die) : d.play.Askable := ⟨d.drawn_low_le_high, fun _ => trivial⟩

end Die

namespace Tree

/-- The values that evaluations of a tree can end with. -/
def Shows (t : Tree) (v : Value) : Prop := ∃ r, t.evaluate.Gives r ∧ r.value = v

/-- The values that the parts of a tree can show together. -/
def ShowsParts (t : Tree) (vals : List Value) : Prop :=
  ∃ rolls, t.parts.Gives rolls ∧ rolls.map Roll.value = vals

/-- The sums of the chains of a target. -/
def ShowsChain (condition : Condition) (limit : Nat) (target : Tree) (v : Value) : Prop :=
  condition.ChainSum limit target.Shows v

theorem gives_finish {node : Tree} {r r' : Roll} : (Play.finish node r).Gives r' ↔ r' = r := by
  simp only [Play.finish, Play.gives_note, Play.gives_done]

theorem forall₂_shows {ts : List Tree} {vals : List Value} :
    List.Forall₂ Shows ts vals ↔
      ∃ rolls, List.Forall₂ Play.Gives (ts.map evaluate) rolls ∧ rolls.map Roll.value = vals := by
  constructor
  · intro h
    induction h with
    | nil => exact ⟨[], .nil, rfl⟩
    | cons hv _ ih =>
      obtain ⟨r, hr, rfl⟩ := hv
      obtain ⟨rolls, hrolls, rfl⟩ := ih
      exact ⟨r :: rolls, .cons hr hrolls, rfl⟩
  · intro h
    obtain ⟨rolls, h, rfl⟩ := h
    rw [List.forall₂_map_left_iff] at h
    rw [List.forall₂_map_right_iff]
    exact h.imp fun _ r hr => ⟨r, hr, rfl⟩

theorem shows_die {d : Die} {v : Value} : (die d).Shows v ↔ d.Shows v := by
  simp only [Shows, evaluate, Play.gives_bind, gives_finish, Die.gives_play]
  constructor
  · intro h
    obtain ⟨r, ⟨w, hw, rfl⟩, rfl⟩ := h
    exact hw
  · intro h
    exact ⟨_, ⟨v, h, rfl⟩, rfl⟩

theorem showsParts_pool {children : List Tree} {vals : List Value} :
    (pool children).ShowsParts vals ↔ List.Forall₂ Shows children vals := by
  simp only [ShowsParts, parts_pool, Play.gives_each, forall₂_shows]

theorem shows_pool {children : List Tree} {v : Value} :
    (pool children).Shows v ↔ ∃ vals, List.Forall₂ Shows children vals ∧ v = Value.total vals := by
  simp only [Shows, evaluate_pool, Play.gives_eachThen, gives_finish, forall₂_shows]
  constructor
  · intro h
    obtain ⟨_, ⟨rolls, hrolls, rfl⟩, rfl⟩ := h
    exact ⟨_, ⟨rolls, hrolls, rfl⟩, Roll.value_sum rolls⟩
  · intro h
    obtain ⟨_, ⟨rolls, hrolls, rfl⟩, rfl⟩ := h
    exact ⟨_, ⟨rolls, hrolls, rfl⟩, Roll.value_sum rolls⟩

theorem shows_calculate {inner : Tree} {op : Operator} {operand v : Value} :
    (modified inner (.calculate op operand)).Shows v ↔
      ∃ w, inner.Shows w ∧ v = op.apply w operand := by
  simp only [Shows, evaluate, Play.gives_bind, gives_finish]
  constructor
  · intro h
    obtain ⟨_, ⟨r, hr, rfl⟩, rfl⟩ := h
    exact ⟨_, ⟨r, hr, rfl⟩, rfl⟩
  · intro h
    obtain ⟨_, ⟨r, hr, rfl⟩, rfl⟩ := h
    exact ⟨_, ⟨r, hr, rfl⟩, rfl⟩

/-! Nodes of one part -/

theorem showsParts_die {d : Die} {vals : List Value} :
    (die d).ShowsParts vals ↔ ∃ v, (die d).Shows v ∧ vals = [v] := by
  simp only [Shows, ShowsParts, parts, evaluate, Play.gives_bind, Play.gives_map, gives_finish]
  constructor
  · intro h
    obtain ⟨_, ⟨w, hw, r, rfl, rfl⟩, rfl⟩ := h
    exact ⟨_, ⟨_, ⟨w, hw, rfl⟩, rfl⟩, rfl⟩
  · intro h
    obtain ⟨_, ⟨_, ⟨w, hw, rfl⟩, rfl⟩, rfl⟩ := h
    exact ⟨_, ⟨w, hw, _, rfl, rfl⟩, rfl⟩

theorem showsParts_calculate {inner : Tree} {op : Operator} {operand : Value} {vals : List Value} :
    (modified inner (.calculate op operand)).ShowsParts vals ↔
      ∃ v, (modified inner (.calculate op operand)).Shows v ∧ vals = [v] := by
  simp only [Shows, ShowsParts, parts, evaluate, Play.gives_bind, Play.gives_map, gives_finish]
  constructor
  · intro h
    obtain ⟨_, ⟨r, hr, _, rfl, rfl⟩, rfl⟩ := h
    exact ⟨_, ⟨_, ⟨r, hr, rfl⟩, rfl⟩, rfl⟩
  · intro h
    obtain ⟨_, ⟨_, ⟨r, hr, rfl⟩, rfl⟩, rfl⟩ := h
    exact ⟨_, ⟨r, hr, _, rfl, rfl⟩, rfl⟩

/-! Selections -/

theorem gives_select {node : Tree} {selection : Selection} {parts : Play (List Roll)}
    {result : Parted} :
    (Play.select node selection parts).Gives result ↔
      ∃ rolls, parts.Gives rolls ∧ result =
        ⟨⟨Value.total (selection.kept (rolls.map Roll.value)),
          Roll.maskedTrace (selection.mask (rolls.map Roll.value)) rolls⟩,
          Selection.marked (selection.mask (rolls.map Roll.value)) rolls⟩ := by
  simp only [Play.select, Play.gives_bind, Play.gives_note, Play.gives_done, Selection.kept,
    Selection.marked_map]

theorem shows_select {inner : Tree} {selection : Selection} {v : Value} :
    (modified inner (.select selection)).Shows v ↔
      ∃ vals, inner.ShowsParts vals ∧ v = Value.total (selection.kept vals) := by
  simp only [Shows, ShowsParts, evaluate, Play.gives_map, gives_select]
  constructor
  · intro h
    obtain ⟨_, ⟨_, ⟨rolls, hrolls, rfl⟩, rfl⟩, rfl⟩ := h
    exact ⟨_, ⟨rolls, hrolls, rfl⟩, rfl⟩
  · intro h
    obtain ⟨_, ⟨rolls, hrolls, rfl⟩, rfl⟩ := h
    exact ⟨_, ⟨_, ⟨rolls, hrolls, rfl⟩, rfl⟩, rfl⟩

theorem showsParts_select {inner : Tree} {selection : Selection} {vals : List Value} :
    (modified inner (.select selection)).ShowsParts vals ↔
      ∃ all, inner.ShowsParts all ∧ vals = selection.kept all := by
  simp only [ShowsParts, parts, Play.gives_map, gives_select]
  constructor
  · intro h
    obtain ⟨_, ⟨_, ⟨rolls, hrolls, rfl⟩, rfl⟩, rfl⟩ := h
    exact ⟨_, ⟨rolls, hrolls, rfl⟩, (Selection.marked_map _ _ _).symm⟩
  · intro h
    obtain ⟨_, ⟨rolls, hrolls, rfl⟩, rfl⟩ := h
    exact ⟨_, ⟨_, ⟨rolls, hrolls, rfl⟩, rfl⟩, (Selection.marked_map _ _ _).symm⟩

/-! Explosions -/

private theorem exists_rolls {t : Tree} {vals : List Value} (h : ∀ v ∈ vals, t.Shows v) :
    ∃ rolls : List Roll, (∀ r ∈ rolls, t.evaluate.Gives r) ∧ rolls.map Roll.value = vals := by
  induction vals with
  | nil => exact ⟨[], by simp, rfl⟩
  | cons v vals ih =>
    obtain ⟨r, hr, hv⟩ := h v List.mem_cons_self
    obtain ⟨rolls, hrolls, hvals⟩ := ih fun w hw => h w (List.mem_cons_of_mem v hw)
    refine ⟨r :: rolls, ?_, by rw [List.map_cons, hv, hvals]⟩
    intro x hx
    rcases List.mem_cons.mp hx with rfl | hx
    · exact hr
    · exact hrolls x hx

theorem showsChain_iff {condition : Condition} {limit : Nat} {target : Tree} {v : Value} :
    ShowsChain condition limit target v ↔ ∃ rolls,
      (Play.chain target.evaluate condition limit).Gives rolls ∧ (Roll.added rolls).value = v := by
  simp only [ShowsChain, Condition.ChainSum, Play.gives_chain]
  constructor
  · intro h
    obtain ⟨passed, last, hpassed, ⟨r, hr, rfl⟩, hstops, rfl⟩ := h
    obtain ⟨rolls, hrolls, rfl⟩ := exists_rolls hpassed
    exact ⟨_, ⟨rolls, r, hrolls, hr, hstops, rfl⟩, by simp [Roll.added]⟩
  · intro h
    obtain ⟨_, ⟨passed, last, hpassed, hlast, hstops, rfl⟩, rfl⟩ := h
    refine ⟨passed.map Roll.value, last.value, ?_, ⟨last, hlast, rfl⟩, hstops, by simp [Roll.added]⟩
    intro w hw
    obtain ⟨r, hr, rfl⟩ := List.mem_map.mp hw
    exact ⟨r, hpassed r hr, rfl⟩

theorem forall₂_showsChain {condition : Condition} {limit : Nat} {targets : List Tree}
    {vals : List Value} :
    List.Forall₂ (ShowsChain condition limit) targets vals ↔
      ∃ chains, List.Forall₂ Play.Gives
        ((evaluations targets).map (Play.chain · condition limit)) chains ∧
        (chains.map Roll.added).map Roll.value = vals := by
  rw [evaluations_eq_map, List.map_map]
  constructor
  · intro h
    induction h with
    | nil => exact ⟨[], .nil, rfl⟩
    | cons hv _ ih =>
      obtain ⟨rolls, hr, rfl⟩ := showsChain_iff.mp hv
      obtain ⟨chains, hchains, rfl⟩ := ih
      exact ⟨rolls :: chains, .cons hr hchains, rfl⟩
  · intro h
    obtain ⟨chains, h, rfl⟩ := h
    rw [List.forall₂_map_left_iff] at h
    rw [List.map_map, List.forall₂_map_right_iff]
    exact h.imp fun _ rolls hr => showsChain_iff.mpr ⟨rolls, hr, rfl⟩

theorem gives_explode {node : Tree} {condition : Condition} {limit : Nat}
    {targets : List (Play Roll)} {result : Parted} :
    (Play.explode node condition limit targets).Gives result ↔
      ∃ chains, List.Forall₂ Play.Gives (targets.map (Play.chain · condition limit)) chains ∧
        result = ⟨Roll.sum (chains.map Roll.added), chains.map Roll.added⟩ := by
  simp only [Play.explode, Play.gives_eachThen, Play.gives_note, Play.gives_done]

theorem shows_explode {inner : Tree} {condition : Condition} {limit : Nat} {v : Value} :
    (modified inner (.explode condition limit)).Shows v ↔
      ∃ vals, List.Forall₂ (ShowsChain condition limit) inner.targets vals ∧
        v = Value.total vals := by
  simp only [Shows, evaluate_explode, Play.gives_map, gives_explode, forall₂_showsChain]
  constructor
  · intro h
    obtain ⟨_, ⟨_, ⟨chains, hchains, rfl⟩, rfl⟩, rfl⟩ := h
    exact ⟨_, ⟨chains, hchains, rfl⟩, Roll.value_sum _⟩
  · intro h
    obtain ⟨_, ⟨chains, hchains, rfl⟩, rfl⟩ := h
    exact ⟨_, ⟨_, ⟨chains, hchains, rfl⟩, rfl⟩, Roll.value_sum _⟩

private theorem showsParts_of_single {node inner : Tree} {condition : Condition} {limit : Nat}
    {vals : List Value} (hparts : node.parts =
      (Play.explode node condition limit [inner.evaluate]).map ([·.roll])) :
    node.ShowsParts vals ↔ ∃ chains, List.Forall₂ Play.Gives
      ((evaluations [inner]).map (Play.chain · condition limit)) chains ∧
      (chains.map Roll.added).map Roll.value = vals := by
  simp only [ShowsParts, hparts, Play.gives_map, gives_explode, evaluations, List.map_cons,
    List.map_nil]
  constructor
  · intro h
    obtain ⟨_, ⟨_, ⟨chains, hchains, rfl⟩, rfl⟩, rfl⟩ := h
    refine ⟨chains, hchains, ?_⟩
    obtain ⟨chain, rfl⟩ := List.length_eq_one_iff.mp hchains.length_eq.symm
    rfl
  · intro h
    obtain ⟨chains, hchains, rfl⟩ := h
    refine ⟨_, ⟨_, ⟨chains, hchains, rfl⟩, rfl⟩, ?_⟩
    obtain ⟨chain, rfl⟩ := List.length_eq_one_iff.mp hchains.length_eq.symm
    rfl

theorem showsParts_explode {inner : Tree} {condition : Condition} {limit : Nat}
    {vals : List Value} :
    (modified inner (.explode condition limit)).ShowsParts vals ↔
      List.Forall₂ (ShowsChain condition limit) inner.targets vals := by
  rw [forall₂_showsChain]
  cases inner with
  | pool children =>
    simp only [ShowsParts, parts, targets, Play.gives_map, gives_explode]
    constructor
    · intro h
      obtain ⟨_, ⟨_, ⟨chains, hchains, rfl⟩, rfl⟩, rfl⟩ := h
      exact ⟨chains, hchains, rfl⟩
    · intro h
      obtain ⟨chains, hchains, rfl⟩ := h
      exact ⟨_, ⟨_, ⟨chains, hchains, rfl⟩, rfl⟩, rfl⟩
  | die d => exact showsParts_of_single rfl
  | modified inner m => exact showsParts_of_single rfl

end Tree

end DiceExpr
