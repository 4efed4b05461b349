import Concatenative.Proofs.Depth
import Concatenative.Proofs.Words

/-!
What a run can change. Cells of the main stack and the counter change freely; every
other change is made by certain primitives, and needs a name that is bound to one of
them. Definitions bind names to bodies only, so the primitives that take part in a
run are those that were bound before it. The main statement is that a run stays
within reach of such changes, and that each kind of error has its conditions.
-/

namespace Concatenative

namespace Machine

def Binds (environment : Environment) (primitive : Primitive) (machine : Machine) : Prop :=
  ∃ name, machine.user.get? name = some (.native primitive) ∨
    environment.context.get? name = some (.native primitive)

def BindsAny (environment : Environment) (primitives : List Primitive) (machine : Machine) :
    Prop :=
  ∃ primitive ∈ primitives, machine.Binds environment primitive

/-- A program defines words, and a native module the names in its steps. -/
def MayDefine (environment : Environment) (start : Machine) (name : Text) : Prop :=
  start.Binds environment .define ∧ Text.IsWord name ∨
    start.Binds environment .load ∧ environment.loader.Defines name

/-- Elementary changes lead from the start to a machine. Each of them is made by a
primitive that some name is bound to at the start. -/
inductive Reaches (environment : Environment) (start : Machine) : Machine → Prop where
  | start : Reaches environment start start
  | main {machine : Machine} (reached : Reaches environment start machine)
      (cells : List Text) : Reaches environment start { machine with main := cells }
  | depth {machine : Machine} (reached : Reaches environment start machine)
      (count : Nat) : Reaches environment start { machine with depth := count }
  | retain {machine : Machine} (reached : Reaches environment start machine)
      (bound : start.BindsAny environment [.stash, .unstash]) (cells : List Text) :
      Reaches environment start { machine with retain := cells }
  | mint {machine : Machine} (reached : Reaches environment start machine)
      (bound : start.BindsAny environment [.list .copy, .list .append, .load])
      (elements : List Text) :
      Reaches environment start
        { machine with arena := (machine.arena.mint (ListText.render elements)).2 }
  | overwrite {machine : Machine} (reached : Reaches environment start machine)
      (bound : start.BindsAny environment [.list .set, .list .insert, .list .remove])
      (handle : Handle) (elements : List Text) :
      Reaches environment start
        { machine with arena := machine.arena.set handle (ListText.render elements) }
  | define {machine : Machine} (reached : Reaches environment start machine) {name : Text}
      (allowed : start.MayDefine environment name) (body : Text) :
      Reaches environment start (machine.define name body)

end Machine

/-- When an error can come up in a run from the given start. -/
def Error.IsPossible (environment : Environment) (start : Machine) : Error → Prop
  | .underflow _ needs has => has < needs
  | .negativeDiscard count => count < 0 ∧ start.Binds environment .discard
  | .recursionLimit limit => limit = environment.maxDepth

/-- The machine that is left is within reach, and the error, if there is one, is possible. -/
def Outcome.IsWithin (environment : Environment) (start : Machine) : Outcome → Prop
  | .ok machine | .unfinished machine => Machine.Reaches environment start machine
  | .raised error machine =>
    Machine.Reaches environment start machine ∧ error.IsPossible environment start

theorem Outcome.IsWithin.machine {environment : Environment} {start : Machine}
    {outcome : Outcome} (within : outcome.IsWithin environment start) :
    Machine.Reaches environment start outcome.machine := by
  cases outcome with
  | ok machine => exact within
  | raised error machine => exact within.1
  | unfinished machine => exact within

namespace Node

mutual

theorem mint_keeps {Keeps : Arena → Prop}
    (fresh : ∀ arena elements, Keeps arena → Keeps (arena.mint (ListText.render elements)).2)
    (arena : Arena) (holds : Keeps arena) : (node : Node) → Keeps (mint arena node).2
  | .atom _ => holds
  | .block items => fresh _ _ (mintAll_keeps fresh arena holds items)

theorem mintAll_keeps {Keeps : Arena → Prop}
    (fresh : ∀ arena elements, Keeps arena → Keeps (arena.mint (ListText.render elements)).2)
    (arena : Arena) (holds : Keeps arena) : (nodes : List Node) → Keeps (mintAll arena nodes).2
  | [] => holds
  | node :: rest => mintAll_keeps fresh _ (mint_keeps fresh arena holds node) rest

end

end Node

namespace ListOp

def Leaves (op : ListOp) (before after : Arena) : Prop :=
  match op with
  | .size | .get => after = before
  | .copy | .append => ∃ elements, after = (before.mint (ListText.render elements)).2
  | .set | .remove | .insert =>
    after = before ∨ ∃ handle elements, after = before.set handle (ListText.render elements)

theorem exists_of_bind_eq_ok {α β : Type} {first : Except Fault α} {next : α → Except Fault β}
    {result : β} (done : (first >>= next) = .ok result) :
    ∃ value, first = .ok value ∧ next value = .ok result := by
  cases first with
  | error fault => cases done
  | ok value => exact ⟨value, rfl, done⟩

theorem arena_store (target : Target) (arena : Arena) (items : List Text) :
    (target.store arena items).2 = arena ∨ ∃ handle elements,
      (target.store arena items).2 = arena.set handle (ListText.render elements) := by
  cases target with
  | slot handle => exact .inr ⟨handle, items, rfl⟩
  | inline => exact .inl rfl

section Leaves

variable {arena : Arena} {value index list other : Text} {effect : Effect}

theorem leaves_listSize (done : arena.listSize list = .ok effect) :
    Leaves .size arena effect.arena := by
  obtain ⟨operand, -, finish⟩ := exists_of_bind_eq_ok done
  cases finish
  rfl

theorem leaves_copyList (done : arena.copyList list = .ok effect) :
    Leaves .copy arena effect.arena := by
  obtain ⟨operand, -, finish⟩ := exists_of_bind_eq_ok done
  cases finish
  exact ⟨operand.items, rfl⟩

theorem leaves_appendLists (done : arena.appendLists list other = .ok effect) :
    Leaves .append arena effect.arena := by
  obtain ⟨first, -, further⟩ := exists_of_bind_eq_ok done
  obtain ⟨second, -, finish⟩ := exists_of_bind_eq_ok further
  cases finish
  exact ⟨first.items ++ second.items, rfl⟩

theorem leaves_getItem (done : arena.getItem index list = .ok effect) :
    Leaves .get arena effect.arena := by
  obtain ⟨operand, -, further⟩ := exists_of_bind_eq_ok done
  obtain ⟨i, -, finish⟩ := exists_of_bind_eq_ok further
  cases finish
  rfl

theorem leaves_setItem (done : arena.setItem value index list = .ok effect) :
    Leaves .set arena effect.arena := by
  obtain ⟨operand, -, further⟩ := exists_of_bind_eq_ok done
  obtain ⟨i, -, finish⟩ := exists_of_bind_eq_ok further
  cases finish
  exact arena_store operand.target arena _

theorem leaves_removeItem (done : arena.removeItem index list = .ok effect) :
    Leaves .remove arena effect.arena := by
  obtain ⟨operand, -, further⟩ := exists_of_bind_eq_ok done
  obtain ⟨i, -, finish⟩ := exists_of_bind_eq_ok further
  cases finish
  exact arena_store operand.target arena _

theorem leaves_insertItem (done : arena.insertItem value index list = .ok effect) :
    Leaves .insert arena effect.arena := by
  obtain ⟨operand, -, further⟩ := exists_of_bind_eq_ok done
  obtain ⟨i, -, finish⟩ := exists_of_bind_eq_ok further
  cases finish
  exact arena_store operand.target arena _

end Leaves

inductive Computes (arena : Arena) : ListOp → Except Fault Effect → Prop where
  | size (list : Text) : Computes arena .size (arena.listSize list)
  | copy (list : Text) : Computes arena .copy (arena.copyList list)
  | append (first second : Text) : Computes arena .append (arena.appendLists first second)
  | get (index list : Text) : Computes arena .get (arena.getItem index list)
  | remove (index list : Text) : Computes arena .remove (arena.removeItem index list)
  | set (value index list : Text) : Computes arena .set (arena.setItem value index list)
  | insert (value index list : Text) : Computes arena .insert (arena.insertItem value index list)

theorem Computes.leaves {op : ListOp} {arena : Arena} {effect : Effect}
    (computes : op.Computes arena (.ok effect)) : op.Leaves arena effect.arena := by
  generalize same : Except.ok effect = result at computes
  cases computes with
  | size list => exact leaves_listSize same.symm
  | copy list => exact leaves_copyList same.symm
  | append first second => exact leaves_appendLists same.symm
  | get index list => exact leaves_getItem same.symm
  | remove index list => exact leaves_removeItem same.symm
  | set value index list => exact leaves_setItem same.symm
  | insert value index list => exact leaves_insertItem same.symm

end ListOp

namespace Machine

variable {environment : Environment} {start machine : Machine}

theorem binds_of_lookup {name : Text} {primitive : Primitive}
    (found : machine.lookup environment name = some (.native primitive)) :
    machine.Binds environment primitive := by
  refine ⟨name, ?_⟩
  unfold lookup at found
  cases user : machine.user.get? name with
  | none =>
    rw [user] at found
    exact .inr found
  | some binding =>
    rw [user] at found
    exact .inl found

theorem performList_cases (machine : Machine) (op : ListOp) :
    (machine.main.length < op.needs ∧
        machine.performList op = machine.underflow (.list op)) ∨
      op.needs ≤ machine.main.length ∧ ∃ result, op.Computes machine.arena result ∧
        machine.performList op = .ok (machine.settle (machine.main.drop op.needs) result) := by
  obtain ⟨main, retain, arena, user, depth⟩ := machine
  cases op with
  | size =>
    rcases main with _ | ⟨list, below⟩
    · exact .inl ⟨Nat.zero_lt_one, rfl⟩
    · exact .inr ⟨Nat.le_add_left 1 _, _, .size list, rfl⟩
  | copy =>
    rcases main with _ | ⟨list, below⟩
    · exact .inl ⟨Nat.zero_lt_one, rfl⟩
    · exact .inr ⟨Nat.le_add_left 1 _, _, .copy list, rfl⟩
  | append =>
    rcases main with _ | ⟨second, _ | ⟨first, below⟩⟩
    · exact .inl ⟨Nat.zero_lt_two, rfl⟩
    · exact .inl ⟨Nat.one_lt_two, rfl⟩
    · exact .inr ⟨Nat.le_add_left 2 _, _, .append first second, rfl⟩
  | get =>
    rcases main with _ | ⟨list, _ | ⟨index, below⟩⟩
    · exact .inl ⟨Nat.zero_lt_two, rfl⟩
    · exact .inl ⟨Nat.one_lt_two, rfl⟩
    · exact .inr ⟨Nat.le_add_left 2 _, _, .get index list, rfl⟩
  | remove =>
    rcases main with _ | ⟨list, _ | ⟨index, below⟩⟩
    · exact .inl ⟨Nat.zero_lt_two, rfl⟩
    · exact .inl ⟨Nat.one_lt_two, rfl⟩
    · exact .inr ⟨Nat.le_add_left 2 _, _, .remove index list, rfl⟩
  | set =>
    rcases main with _ | ⟨list, _ | ⟨index, _ | ⟨value, below⟩⟩⟩
    · exact .inl ⟨Nat.zero_lt_succ 2, rfl⟩
    · exact .inl ⟨Nat.succ_lt_succ Nat.zero_lt_two, rfl⟩
    · exact .inl ⟨Nat.lt_succ_self 2, rfl⟩
    · exact .inr ⟨Nat.le_add_left 3 _, _, .set value index list, rfl⟩
  | insert =>
    rcases main with _ | ⟨list, _ | ⟨index, _ | ⟨value, below⟩⟩⟩
    · exact .inl ⟨Nat.zero_lt_succ 2, rfl⟩
    · exact .inl ⟨Nat.succ_lt_succ Nat.zero_lt_two, rfl⟩
    · exact .inl ⟨Nat.lt_succ_self 2, rfl⟩
    · exact .inr ⟨Nat.le_add_left 3 _, _, .insert value index list, rfl⟩

theorem length_lt_two {cells : List Text}
    (shallow : ∀ first second below, cells = first :: second :: below → False) :
    cells.length < 2 := by
  rcases cells with _ | ⟨first, _ | ⟨second, below⟩⟩
  · exact Nat.zero_lt_two
  · exact Nat.one_lt_two
  · exact absurd rfl (shallow first second below)

namespace Reaches

theorem binds (reached : Reaches environment start machine) {primitive : Primitive}
    (bound : machine.Binds environment primitive) : start.Binds environment primitive := by
  induction reached with
  | start => exact bound
  | main _ _ ih | depth _ _ ih | retain _ _ _ ih | mint _ _ _ ih | overwrite _ _ _ _ ih =>
    exact ih bound
  | define _ _ _ ih =>
    obtain ⟨name, user | context⟩ := bound
    · simp only [Machine.define, Dictionary.define, Dictionary.get?_insert] at user
      split at user
      · cases user
      · exact ih ⟨name, .inl user⟩
    · exact ih ⟨name, .inr context⟩

def Same (environment : Environment) (start left right : Machine) : Prop :=
  right = left ∧ Reaches environment start left

def Alike (environment : Environment) (start : Machine) (first second : Outcome) : Prop :=
  second = first ∧ first.IsWithin environment start

theorem congruence (environment : Environment) (start : Machine) :
    Congruence (Same environment start) (Alike environment start) :=
  Congruence.of_invariant (fun _ cells reached => reached.main cells) (fun _ => Iff.rfl)
    (fun _ _ _ _ reached short => ⟨reached, short⟩) (fun _ _ _ _ within => within.1)

variable (reached : Reaches environment start machine)

include reached

theorem underflow {primitive : Primitive} (short : machine.main.length < primitive.needs) :
    (machine.underflow primitive).IsWithin environment start :=
  ⟨reached, short⟩

theorem settle {op : ListOp} (bound : start.Binds environment (.list op)) (below : List Text)
    {result : Except Fault ListOp.Effect} (computes : op.Computes machine.arena result) :
    Reaches environment start (machine.settle below result) := by
  cases result with
  | error fault => exact reached.main _
  | ok done =>
    have left := computes.leaves
    suffices arranged : Reaches environment start { machine with arena := done.arena } from
      arranged.main _
    cases op with
    | size | get =>
      rw [show done.arena = machine.arena from left]
      exact reached
    | copy | append =>
      obtain ⟨elements, minted⟩ := left
      rw [minted]
      exact reached.mint ⟨_, by simp, bound⟩ elements
    | set | remove | insert =>
      obtain kept | ⟨handle, elements, overwritten⟩ := left
      · rw [kept]
        exact reached
      · rw [overwritten]
        exact reached.overwrite ⟨_, by simp, bound⟩ handle elements

theorem performList {op : ListOp} (bound : start.Binds environment (.list op)) :
    (machine.performList op).IsWithin environment start := by
  obtain ⟨short, refused⟩ | ⟨-, result, computes, settled⟩ := performList_cases machine op
  · rw [refused]
    exact reached.underflow short
  · rw [settled]
    exact reached.settle bound _ computes

theorem performMath (op : MathOp) :
    (machine.performMath op).IsWithin environment start := by
  unfold Machine.performMath
  split
  · next right left below stack =>
    cases op.applyText left right with
    | ok value => exact reached.main _
    | error fault => exact reached.main _
  · next shallow => exact reached.underflow (length_lt_two shallow)

theorem defineNames (bound : start.Binds environment .define) :
    machine.defineNames.IsWithin environment start := by
  apply And.right
  apply (congruence environment start).defineNames ⟨rfl, reached⟩
  intro name isWord body left right same
  rw [same.1]
  exact ⟨rfl, same.2.define (.inl ⟨bound, isWord⟩) body⟩

theorem discard (bound : start.Binds environment .discard) :
    machine.discard.IsWithin environment start := by
  unfold Machine.discard
  cases stack : machine.main with
  | nil => exact reached.underflow (by rw [stack]; exact Nat.zero_lt_one)
  | cons count below =>
    simp only
    cases Integer.read? count with
    | none => exact reached.main _
    | some number =>
      simp only
      split
      · next negative => exact ⟨reached.main below, negative, bound⟩
      · split
        · next short => exact ⟨reached.main below, short⟩
        · exact reached.main _

theorem perform {primitive : Primitive} (bound : start.Binds environment primitive)
    (direct : primitive.runsTokens = false) (rounds : Nat) (run : Runner) :
    (machine.perform environment rounds run primitive).IsWithin environment start := by
  cases primitive with
  | list op => exact reached.performList bound
  | math op => exact reached.performMath op
  | define => exact reached.defineNames bound
  | discard => exact reached.discard bound
  | stash =>
    obtain ⟨main, retain, arena, user, depth⟩ := machine
    cases main with
    | nil => exact reached.underflow Nat.zero_lt_one
    | cons value below => exact (reached.retain ⟨_, by simp, bound⟩ _).main below
  | unstash =>
    obtain ⟨main, retain, arena, user, depth⟩ := machine
    cases retain with
    | nil => exact ⟨reached, Nat.zero_lt_one⟩
    | cons value below => exact (reached.retain ⟨_, by simp, bound⟩ below).main _
  | kindOf | isKind | height =>
    obtain ⟨main, retain, arena, user, depth⟩ := machine
    cases main with
    | nil => exact reached.underflow Nat.zero_lt_one
    | cons value below => exact reached.main _
  | choose | loop | times | eval | load => exact absurd direct (by decide)

theorem minted (bound : start.Binds environment .load) (source : Text) :
    Reaches environment start
      { machine with arena := (parseMinting machine.arena source).2 } := by
  have minting : start.BindsAny environment [.list .copy, .list .append, .load] :=
    ⟨_, by simp, bound⟩
  refine @Node.mintAll_keeps (fun arena => Reaches environment start { machine with arena })
    (fun arena elements arranged => ?_) machine.arena reached (Node.read source)
  exact arranged.mint minting elements

omit reached

section Runs

variable {rounds : Nat} {run other : Runner}
  (runs : ∀ tokens left right, Same environment start left right →
    Alike environment start (run tokens left) (other tokens right))
  {left right : Machine} (same : Same environment start left right)

include runs same

theorem performBound {name : Text} {primitive : Primitive}
    (found : left.lookup environment name = some (.native primitive)) :
    Alike environment start (left.perform environment rounds run primitive)
      (right.perform environment rounds other primitive) := by
  have congruence := congruence environment start
  have bound := same.2.binds (binds_of_lookup found)
  apply congruence.perform same runs
  · intro direct
    rw [same.1, perform_of_direct direct environment environment rounds rounds other run]
    exact ⟨rfl, same.2.perform bound direct rounds run⟩
  · intro loops
    apply congruence.loop same runs rounds 0
    intro body left right same
    rw [same.1]
    exact ⟨rfl, same.2⟩
  · intro loads
    rw [loads] at bound
    apply congruence.loadFound same runs
    · intro text left right same
      rw [same.1]
      exact ⟨rfl, same.2.minted bound text⟩
    · intro name defines body left right same
      rw [same.1]
      exact ⟨rfl, same.2.define (.inr ⟨bound, defines⟩) body⟩

end Runs

theorem runs_alike (environment : Environment) (start : Machine) (rounds levels : Nat)
    (tokens : List Text) (left right : Machine) (same : Same environment start left right) :
    Alike environment start (left.runWithin environment rounds levels tokens)
      (right.runWithin environment rounds levels tokens) := by
  have congruence := congruence environment start
  apply congruence.runWithin 0 rfl _ _ _ _ levels tokens left right same
  · intro left right same
    rw [same.1]
    exact ⟨rfl, same.2.depth _⟩
  · intro first second alike
    rw [alike.1]
    refine ⟨rfl, ?_⟩
    cases first with
    | ok machine => exact alike.2.depth _
    | raised error machine => exact ⟨alike.2.1.depth _, alike.2.2⟩
    | unfinished machine => exact alike.2.depth _
  · intro tokens left right same
    rw [same.1]
    exact ⟨rfl, same.2, rfl⟩
  · intro run other runs left right same name primitive found
    exact performBound runs same found

theorem runWithin (reached : Reaches environment start machine) (rounds levels : Nat)
    (tokens : List Text) :
    (machine.runWithin environment rounds levels tokens).IsWithin environment start :=
  (runs_alike environment start rounds levels tokens machine machine ⟨rfl, reached⟩).2

theorem dispatch (reached : Reaches environment start machine) (rounds levels : Nat)
    (name : Text) :
    (machine.dispatch environment rounds (Machine.runWithin environment rounds levels)
      name).IsWithin environment start := by
  have runs := runs_alike environment start rounds levels
  have same : Same environment start machine machine := ⟨rfl, reached⟩
  exact ((congruence environment start).dispatch same runs rfl
    fun _ => performBound runs same).2

theorem eval (reached : Reaches environment start machine) (rounds levels : Nat) :
    (machine.eval (Machine.runWithin environment rounds levels)).IsWithin environment start :=
  ((congruence environment start).eval ⟨rfl, reached⟩
    (runs_alike environment start rounds levels)).2

end Reaches

/-- A run changes only what the primitives bound before it can change. -/
theorem isWithin_run (environment : Environment) (rounds : Nat) (tokens : List Text)
    (machine : Machine) : (machine.run environment rounds tokens).IsWithin environment machine :=
  Reaches.start.runWithin rounds _ tokens

end Machine

end Concatenative
