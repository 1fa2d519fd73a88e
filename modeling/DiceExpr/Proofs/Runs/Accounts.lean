import DiceExpr.Proofs.Courses
import DiceExpr.Proofs.Nodes
import DiceExpr.Proofs.Runs.Watching

namespace DiceExpr

/-- The evaluation of a node: the step it ends with, the numbers drawn for the node itself, and the
evaluations made for it, in their order. -/
structure Account where
  step : Step
  drawn : List Draw
  made : List Account

namespace Account

def node (a : Account) : Tree := a.step.node

def roll (a : Account) : Roll := a.step.roll

def entry (a : Account) : Entry := a.step.entry

mutual

/-- All evaluations that an account is about, in the order in which they end. -/
def all : Account → List Account
  | ⟨step, drawn, made⟩ => allOf made ++ [⟨step, drawn, made⟩]

def allOf : List Account → List Account
  | [] => []
  | a :: rest => a.all ++ allOf rest

end

theorem all_eq (a : Account) : a.all = allOf a.made ++ [a] := by
  cases a
  rw [all]

theorem allOf_singleton (a : Account) : allOf [a] = a.all := by
  rw [allOf, allOf, List.append_nil]

theorem allOf_append (as bs : List Account) : allOf (as ++ bs) = allOf as ++ allOf bs := by
  induction as with
  | nil => rfl
  | cons a rest ih => rw [List.cons_append, allOf, allOf, ih, List.append_assoc]

/-- Just one account, of this node with this roll, whose trace is not empty. -/
def Single (node : Tree) (accounts : List Account) (roll : Roll) : Prop :=
  ∃ a : Account, accounts = [a] ∧ a.node = node ∧ a.roll = roll ∧ roll.trace ≠ []

/-- A chain of evaluations of one target: it goes on as long as its values pass, at most up to the
limit. -/
structure IsChain (condition : Condition) (limit : Nat) (target : Tree) (chain : List Account) :
    Prop where
  nodes : ∀ a ∈ chain, a.node = target
  one_le_length : 1 ≤ chain.length
  length_le : chain.length ≤ limit + 1
  stops : ∃ passed last, chain.map (fun a => a.roll.value) = passed ++ [last] ∧
    condition.Stops limit passed last

/-- The entry of a selection says how many of the parts are kept, and how many are dropped. -/
def CountsParts (a : Account) (inner : Tree) (selection : Selection) : Prop :=
  ∃ kept dropped, a.entry.extensions = [("dropped", dropped), ("kept", kept)] ∧
    kept.toInt = selection.remaining inner.partCount ∧
    kept.toInt + dropped.toInt = inner.partCount

/-- The entry of an explosion says how many evaluations of its targets were made for it, a chain of
them for each target. The number is out of range only where the trace, which shows each of these
evaluations, is too long to fit into any memory. -/
def CountsRolls (a : Account) (inner : Tree) (condition : Condition) (limit : Nat) : Prop :=
  (∃ chains, a.made = chains.flatten ∧
    List.Forall₂ (IsChain condition limit) inner.targets chains) ∧
  ∃ total, a.entry.extensions = [("total_rolls", total)] ∧ total = .clamp a.made.length ∧
    (a.entry.operation.length ≤ 9223372036854775807 → total.toInt = a.made.length)

/-- An account is correct about its node if the evaluations made for it are those of the inner
trees, and if the entry of its step says what there is to tell of them. Only a die draws numbers,
and just one. -/
def Correct (a : Account) : Prop :=
  match a.node with
  | .die d => ∃ v, a = ⟨⟨.die d, .ofValue (d.shown v), .plain⟩, [⟨d.drawn, v⟩], []⟩
  | .pool children => a.drawn = [] ∧ a.made.map node = children
  | .modified inner (.calculate ..) => a.drawn = [] ∧ a.made.map node = [inner]
  | .modified inner (.select selection) =>
    a.drawn = [] ∧ a.made.map node = inner.targets ∧ a.CountsParts inner selection
  | .modified inner (.explode condition limit) => a.drawn = [] ∧ a.CountsRolls inner condition limit

/-- Correct accounts that leave out no draw and no step. -/
structure Covers (accounts : List Account) (draws : List Draw) (steps : List Step) : Prop where
  draws_eq : (allOf accounts).flatMap drawn = draws
  steps_eq : (allOf accounts).map step = steps
  correct : ∀ a ∈ allOf accounts, a.Correct

theorem covers_nil : Covers [] [] [] := ⟨rfl, rfl, List.forall_mem_nil _⟩

theorem Covers.append {as bs : List Account} {draws draws' : List Draw} {steps steps' : List Step}
    (ha : Covers as draws steps) (hb : Covers bs draws' steps') :
    Covers (as ++ bs) (draws ++ draws') (steps ++ steps') where
  draws_eq := by rw [allOf_append, List.flatMap_append, ha.draws_eq, hb.draws_eq]
  steps_eq := by rw [allOf_append, List.map_append, ha.steps_eq, hb.steps_eq]
  correct := by
    rw [allOf_append]
    exact List.forall_mem_append.mpr ⟨ha.correct, hb.correct⟩

/-- The account of a node is added at the end of those that it encloses. -/
theorem Covers.enclose {a : Account} {draws : List Draw} {steps : List Step}
    (h : Covers a.made draws steps) (hcorrect : a.Correct) :
    Covers [a] (draws ++ a.drawn) (steps ++ [a.step]) where
  draws_eq := by
    rw [allOf_singleton, all_eq, List.flatMap_append, h.draws_eq, List.flatMap_singleton]
  steps_eq := by rw [allOf_singleton, all_eq, List.map_append, h.steps_eq, List.map_singleton]
  correct := by
    rw [allOf_singleton, all_eq]
    exact List.forall_mem_append.mpr ⟨h.correct, List.forall_mem_singleton.mpr hcorrect⟩

end Account

/-- What a draw leaves in a log: an entry of a die that asks for this range, with the value it shows
for the number. -/
def Draw.ToldBy (draw : Draw) (e : Entry) : Prop :=
  ∃ d : Die, draw.range = d.drawn ∧
    e = ⟨d.kind, d.text, (d.shown draw.number).text, d.shown draw.number, []⟩

def Die.kinds : List String := ["SidedDie", "PercentileDie", "FudgeDie", "CustomDie"]

def Entry.isOfDie (e : Entry) : Bool := e.source ∈ Die.kinds

theorem Step.isOfDie_entry (s : Step) : s.entry.isOfDie = s.node.isDie := by
  obtain ⟨node, roll, details⟩ := s
  cases node with
  | die d => cases d <;> simp [Entry.isOfDie, entry, Tree.kind, Die.kind, Die.kinds, Tree.isDie]
  | pool children => simp [Entry.isOfDie, entry, Tree.kind, Die.kinds, Tree.isDie]
  | modified inner m =>
    cases m <;> simp [Entry.isOfDie, entry, Tree.kind, Modifier.kind, Die.kinds, Tree.isDie]

namespace Account

/-- The account of a die has one draw, and any other account none. -/
theorem Correct.die_or_drawn_eq_nil {a : Account} (h : a.Correct) :
    (∃ d v, a = ⟨⟨.die d, .ofValue (d.shown v), .plain⟩, [⟨d.drawn, v⟩], []⟩) ∨
      a.node.isDie = false ∧ a.drawn = [] := by
  unfold Correct at h
  split at h
  · exact .inl ⟨_, h⟩
  all_goals
    next hnode =>
    rw [hnode]
    exact .inr ⟨rfl, h.1⟩

theorem Correct.told {a : Account} (h : a.Correct) :
    List.Forall₂ Draw.ToldBy a.drawn ([a.entry].filter Entry.isOfDie) := by
  rcases h.die_or_drawn_eq_nil with ⟨d, v, rfl⟩ | ⟨hnode, hdrawn⟩
  · rw [List.filter_cons_of_pos (Step.isOfDie_entry _)]
    exact .cons ⟨d, rfl, rfl⟩ .nil
  · have hkind : a.entry.isOfDie = false := a.step.isOfDie_entry.trans hnode
    rw [hdrawn, List.filter_cons_of_neg (Bool.eq_false_iff.mp hkind)]
    exact .nil

/-- The entries of dice in a log are those of the draws, in their order. -/
theorem told_of_correct {accounts : List Account} (h : ∀ a ∈ accounts, a.Correct) :
    List.Forall₂ Draw.ToldBy (accounts.flatMap drawn)
      ((accounts.map entry).filter Entry.isOfDie) := by
  induction accounts with
  | nil => exact .nil
  | cons a rest ih =>
    obtain ⟨ha, hrest⟩ := List.forall_mem_cons.mp h
    rw [List.flatMap_cons, List.map_cons, ← List.singleton_append, List.filter_append]
    exact List.rel_append ha.told (ih hrest)

end Account

namespace Play

/-- A course of a play to its result, through these draws and these steps. -/
inductive Proceeds : Play α → List Draw → List Step → α → Prop
  | done (a : α) : Proceeds (done a) [] [] a
  | draw {range : Ends Value} {next : Value → Play α} {v : Value} {draws : List Draw}
    {steps : List Step} {a : α} (h : Proceeds (next v) draws steps a) :
    Proceeds (draw range next) (⟨range, v⟩ :: draws) steps a
  | note {step : Step} {next : Play α} {draws : List Draw} {steps : List Step} {a : α}
    (h : Proceeds next draws steps a) : Proceeds (note step next) draws (step :: steps) a

theorem proceeds_of_run {feed : Feed σ} {listener : Listener τ} {p : Play α} {s : σ} {u : τ} {a : α}
    (h : (p.run feed listener s u).result = some a) :
    p.Proceeds (p.draws feed s) (p.steps feed s) a := by
  induction p generalizing s u with
  | done b =>
    cases h
    exact .done a
  | draw range next ih =>
    simp only [run] at h
    simp only [draws, steps]
    cases hanswer : feed.next range s with
    | none =>
      rw [hanswer] at h
      cases h
    | some answer =>
      rw [hanswer] at h
      exact .draw (ih answer.1 h)
  | note step next ih => exact .note (ih h)

theorem Proceeds.of_bind {p : Play α} {f : α → Play β} {draws : List Draw} {steps : List Step}
    {b : β} (h : (p.bind f).Proceeds draws steps b) :
    ∃ a draws₁ steps₁ draws₂ steps₂, p.Proceeds draws₁ steps₁ a ∧
      (f a).Proceeds draws₂ steps₂ b ∧ draws = draws₁ ++ draws₂ ∧ steps = steps₁ ++ steps₂ := by
  induction p generalizing draws steps with
  | done a => exact ⟨a, [], [], draws, steps, .done a, h, rfl, rfl⟩
  | draw range next ih =>
    cases h with
    | draw h =>
      obtain ⟨a, draws₁, steps₁, draws₂, steps₂, hp, hf, rfl, rfl⟩ := ih _ h
      exact ⟨a, _, steps₁, draws₂, steps₂, .draw hp, hf, rfl, rfl⟩
  | note step next ih =>
    cases h with
    | note h =>
      obtain ⟨a, draws₁, steps₁, draws₂, steps₂, hp, hf, rfl, rfl⟩ := ih h
      exact ⟨a, draws₁, _, draws₂, steps₂, .note hp, hf, rfl, rfl⟩

/-- For each course of the play there are accounts that cover it and fit its result. -/
def Accounted (p : Play α) (Fits : List Account → α → Prop) : Prop :=
  ∀ draws steps a, p.Proceeds draws steps a →
    ∃ accounts, Account.Covers accounts draws steps ∧ Fits accounts a

namespace Accounted

theorem imp {p : Play α} {P Q : List Account → α → Prop} (h : p.Accounted P)
    (himp : ∀ accounts a, P accounts a → Q accounts a) : p.Accounted Q := by
  intro draws steps a hp
  obtain ⟨accounts, hcovers, hfits⟩ := h draws steps a hp
  exact ⟨accounts, hcovers, himp accounts a hfits⟩

theorem done {P : List Account → α → Prop} {a : α} (h : P [] a) : (done a).Accounted P := by
  intro draws steps b hp
  cases hp
  exact ⟨[], Account.covers_nil, h⟩

theorem bind {p : Play α} {f : α → Play β} {P : List Account → α → Prop}
    {Q : List Account → β → Prop} (hp : p.Accounted P)
    (hf : ∀ as a, P as a → (f a).Accounted fun bs b => Q (as ++ bs) b) :
    (p.bind f).Accounted Q := by
  intro draws steps b h
  obtain ⟨a, draws₁, steps₁, draws₂, steps₂, hfirst, hrest, rfl, rfl⟩ := h.of_bind
  obtain ⟨as, has, hfits⟩ := hp _ _ _ hfirst
  obtain ⟨bs, hbs, hall⟩ := hf as a hfits _ _ _ hrest
  exact ⟨as ++ bs, has.append hbs, hall⟩

theorem map {p : Play α} {P : List Account → α → Prop} (h : p.Accounted P) (f : α → β) :
    (p.map f).Accounted fun accounts b => ∃ a, P accounts a ∧ b = f a := by
  refine h.bind fun as a ha => done ?_
  rw [List.append_nil]
  exact ⟨a, ha, rfl⟩

/-- A step after a play encloses the accounts of that play. -/
theorem enclose {p : Play α} {P : List Account → α → Prop} (h : p.Accounted P)
    {step : α → Step} {result : α → β}
    (hcorrect : ∀ made a, P made a → Account.Correct ⟨step a, [], made⟩) :
    (p.bind fun a => note (step a) (.done (result a))).Accounted fun accounts b =>
      ∃ made a, P made a ∧ accounts = [⟨step a, [], made⟩] ∧ b = result a := by
  intro draws steps b hp
  obtain ⟨a, draws₁, steps₁, draws₂, steps₂, hfirst, hrest, rfl, rfl⟩ := hp.of_bind
  obtain ⟨made, hcovers, hfits⟩ := h _ _ _ hfirst
  cases hrest with
  | note hrest =>
    cases hrest
    exact ⟨_, hcovers.enclose (hcorrect made a hfits), made, a, hfits, rfl, rfl⟩

theorem each {ι : Type} {is : List ι} {play : ι → Play α} {P : ι → List Account → α → Prop}
    (h : ∀ i ∈ is, (play i).Accounted (P i)) :
    (each (is.map play)).Accounted fun accounts as => ∃ runs : List (List Account × α),
      List.Forall₂ (fun i run => P i run.1 run.2) is runs ∧
        accounts = (runs.map Prod.fst).flatten ∧ as = runs.map Prod.snd := by
  induction is with
  | nil => exact done ⟨[], .nil, rfl, rfl⟩
  | cons i rest ih =>
    obtain ⟨hi, hrest⟩ := List.forall_mem_cons.mp h
    have hsplit : Play.each ((i :: rest).map play) =
        (play i).bind fun a => (Play.each (rest.map play)).map (a :: ·) := by
      simp only [Play.map, each_bind]
      rfl
    rw [hsplit]
    refine hi.bind fun accounts a ha => ((ih hrest).map (a :: ·)).imp ?_
    rintro more _ ⟨_, ⟨runs, hruns, rfl, rfl⟩, rfl⟩
    exact ⟨(accounts, a) :: runs, .cons ha hruns, rfl, rfl⟩

/-- If each course of a target has one account, a chain of it has one for each of its rolls. -/
theorem chain {p : Play Roll} {target : Tree} (h : p.Accounted (Account.Single target))
    (condition : Condition) (limit : Nat) :
    (chain p condition limit).Accounted fun accounts rolls =>
      Account.IsChain condition limit target accounts ∧ accounts.map Account.roll = rolls ∧
        ∀ r ∈ rolls, r.trace ≠ [] := by
  induction limit with
  | zero =>
    refine h.bind fun _ r ha => done ?_
    obtain ⟨a, rfl, hnode, rfl, hr⟩ := ha
    have hstops : condition.Stops 0 [] a.roll.value := Condition.stops_nil.mpr (.inr rfl)
    exact ⟨⟨List.forall_mem_singleton.mpr hnode, le_refl 1, le_refl 1, [], _, rfl, hstops⟩, rfl,
      List.forall_mem_singleton.mpr hr⟩
  | succ more ih =>
    refine h.bind fun _ r ha => ?_
    obtain ⟨a, rfl, hnode, rfl, hr⟩ := ha
    split
    · next hpass =>
      -- what goes on after a roll that passes is the chain with one roll less to its limit
      have hrest := chainThen_bind p condition more Play.done fun rest => .done (a.roll :: rest)
      rw [← Play.chain] at hrest
      simp only [Play.bind] at hrest
      rw [← hrest]
      refine (ih.map (a.roll :: ·)).imp ?_
      rintro accounts _ ⟨rolls, ⟨hchain, rfl, hrolls⟩, rfl⟩
      obtain ⟨hnodes, hone, hlength, passed, last, hvalues, hstops⟩ := hchain
      refine ⟨⟨List.forall_mem_cons.mpr ⟨hnode, hnodes⟩, ?_, ?_, a.roll.value :: passed, last, ?_,
        Condition.stops_cons.mpr ⟨hpass, hstops⟩⟩, rfl, List.forall_mem_cons.mpr ⟨hr, hrolls⟩⟩
      · exact Nat.le_add_left 1 _
      · exact Nat.succ_le_succ hlength
      · exact congrArg (a.roll.value :: ·) hvalues
    · next hfail =>
      have hstops : condition.Stops (more + 1) [] a.roll.value :=
        Condition.stops_nil.mpr (.inl hfail)
      exact done ⟨⟨List.forall_mem_singleton.mpr hnode, le_refl 1, Nat.le_add_left 1 _, [], _, rfl,
        hstops⟩, rfl, List.forall_mem_singleton.mpr hr⟩

end Accounted

end Play

end DiceExpr
