import Concatenative.Proofs.Primitives
import Concatenative.Proofs.Words

/-!
Comparing two runs. Two machines are taken to be the same if a body cannot tell
them apart, and two outcomes to be alike if one may stand for the other. The
primitives that run bodies lead from same machines to alike outcomes as soon as
the two ways of running tokens do. Nothing here says what is compared: each use
chooses its own pair of relations.
-/

namespace Concatenative

def Loader.Defines (loader : Loader) (name : Text) : Prop :=
  ∃ found steps body, loader found = .ok (.native steps) ∧ NativeStep.define name body ∈ steps

def Outcome.andThen (outcome : Outcome) (next : Machine → Outcome) : Outcome :=
  match outcome with
  | .ok machine => next machine
  | ended => ended

namespace Machine

def takeFlag (primitive : Primitive) (next : Text → Machine → Outcome) (machine : Machine) :
    Outcome :=
  match machine.main with
  | [] => .raised (.underflow primitive.name 1 0) machine
  | flag :: below => next flag { machine with main := below }

theorem choose_eq {machine : Machine} {onFalse onTrue condition : Text} {below : List Text}
    (stack : machine.main = onFalse :: onTrue :: condition :: below) (run : Runner) :
    machine.choose run =
      ({ machine with main := below }.evalBody run condition).andThen
        (takeFlag .choose fun flag after =>
          if flag = truth true then after.evalBody run (machine.arena.derefOrKeep onTrue)
          else if flag = truth false then after.evalBody run (machine.arena.derefOrKeep onFalse)
          else .ok after) := by
  rw [choose, stack]
  rfl

theorem loopRounds_succ (run : Runner) (body : Text) (rounds : Nat) (machine : Machine) :
    machine.loopRounds run body (rounds + 1) =
      (machine.evalBody run body).andThen
        (takeFlag .loop fun flag after =>
          if flag = truth true then after.loopRounds run body rounds else .ok after) := rfl

theorem repeatBody_succ (run : Runner) (body : Text) (count : Nat) (machine : Machine) :
    machine.repeatBody run body (count + 1) =
      (machine.evalBody run body).andThen fun after => after.repeatBody run body count := rfl

theorem steps_cons (step : Text → Machine → Outcome) (token : Text) (rest : List Text)
    (machine : Machine) :
    steps step (token :: rest) machine = (step token machine).andThen (steps step rest) := rfl

theorem isWord_of_mem_boundNames {names name : Text} (mem : name ∈ boundNames names) :
    Text.IsWord name := by
  unfold boundNames at mem
  obtain ⟨bare, nonempty⟩ := List.mem_filter.1 mem
  obtain ⟨word, inNames, rfl⟩ := List.mem_map.1 bare
  have isWord := Text.isWord_of_mem_words inNames
  refine ⟨by simpa using nonempty, fun c inside => isWord.2 c ?_⟩
  split at inside
  · exact List.mem_cons_of_mem _ inside
  · exact inside

/-- Relations under which two runs can be compared from one body to the next. -/
structure Congruence (Same : Machine → Machine → Prop) (Alike : Outcome → Outcome → Prop) :
    Prop where
  main_eq : ∀ {left right}, Same left right → right.main = left.main
  arena_eq : ∀ {left right}, Same left right → right.arena = left.arena
  bound_eq : ∀ {left right}, Same left right → ∀ name, right.user.get? name = left.user.get? name
  setMain : ∀ {left right}, Same left right → ∀ cells,
    Same { left with main := cells } { right with main := cells }
  ok : ∀ {left right}, Same left right → Alike (.ok left) (.ok right)
  underflow : ∀ {left right}, Same left right → ∀ op {needs has}, has < needs →
    Alike (.raised (.underflow op needs has) left) (.raised (.underflow op needs has) right)
  andThen : ∀ {first second next other}, Alike first second →
    (∀ left right, Same left right → Alike (next left) (other right)) →
    Alike (first.andThen next) (second.andThen other)
  contain : ∀ {first second}, Alike first second → Alike first.contain second.contain

namespace Congruence

/-- Equal runs that keep an invariant: `Holds` of every machine between two bodies and
`Ends` of every outcome. -/
theorem of_invariant {Holds : Machine → Prop} {Ends : Outcome → Prop}
    (setMain : ∀ machine cells, Holds machine → Holds { machine with main := cells })
    (ok : ∀ machine, Ends (.ok machine) ↔ Holds machine)
    (underflow : ∀ machine op needs has, Holds machine → has < needs →
      Ends (.raised (.underflow op needs has) machine))
    (recovered : ∀ machine op needs has, Ends (.raised (.underflow op needs has) machine) →
      Holds machine) :
    Congruence (fun left right => right = left ∧ Holds left)
      (fun first second => second = first ∧ Ends first) where
  main_eq := fun same => by rw [same.1]
  arena_eq := fun same => by rw [same.1]
  bound_eq := fun same name => by rw [same.1]
  setMain := by
    intro left right same cells
    rw [same.1]
    exact ⟨rfl, setMain left cells same.2⟩
  ok := by
    intro left right same
    rw [same.1]
    exact ⟨rfl, (ok left).mpr same.2⟩
  underflow := by
    intro left right same op needs has short
    rw [same.1]
    exact ⟨rfl, underflow left op needs has same.2 short⟩
  andThen := by
    intro first second next other alike goesOn
    rw [alike.1]
    cases first with
    | ok machine => exact goesOn machine machine ⟨rfl, (ok machine).mp alike.2⟩
    | raised error machine => exact ⟨rfl, alike.2⟩
    | unfinished machine => exact ⟨rfl, alike.2⟩
  contain := by
    intro first second alike
    rw [alike.1]
    refine ⟨rfl, ?_⟩
    unfold Outcome.contain
    split
    · exact (ok _).mpr (setMain _ _ (recovered _ _ _ _ alike.2))
    · exact alike.2

variable {Same : Machine → Machine → Prop} {Alike : Outcome → Outcome → Prop}
  (congruence : Congruence Same Alike) {left right : Machine} (same : Same left right)

include congruence same

theorem push (value : Text) : Same (left.push value) (right.push value) := by
  rw [Machine.push, Machine.push, congruence.main_eq same]
  exact congruence.setMain same _

theorem underflow_of {primitive : Primitive} (short : left.main.length < primitive.needs) :
    Alike (left.underflow primitive) (right.underflow primitive) := by
  rw [Machine.underflow, Machine.underflow, congruence.main_eq same]
  exact congruence.underflow same _ short

theorem defineNames (defines : ∀ name, Text.IsWord name → ∀ body left right, Same left right →
      Same (left.define name body) (right.define name body)) :
    Alike left.defineNames right.defineNames := by
  rw [Machine.defineNames, Machine.defineNames, congruence.main_eq same, congruence.arena_eq same]
  match stack : left.main with
  | body :: names :: below =>
    have popped := congruence.setMain same below
    rw [congruence.arena_eq same] at popped
    refine congruence.ok (List.foldl_rel popped ?_)
    intro name mem left right same
    exact defines name (isWord_of_mem_boundNames mem) _ left right same
  | [_] => exact congruence.underflow_of same (by rw [stack]; exact Nat.one_lt_two)
  | [] => exact congruence.underflow_of same (by rw [stack]; exact Nat.zero_lt_two)

theorem takeFlag {primitive : Primitive} {next other : Text → Machine → Outcome}
    (goesOn : ∀ flag left right, Same left right → Alike (next flag left) (other flag right)) :
    Alike (left.takeFlag primitive next) (right.takeFlag primitive other) := by
  rw [Machine.takeFlag, Machine.takeFlag, congruence.main_eq same]
  cases left.main with
  | nil => exact congruence.underflow same _ (Nat.zero_lt_one)
  | cons flag below => exact goesOn flag _ _ (congruence.setMain same below)

section Runs

variable {run other : Runner}
  (runs : ∀ tokens left right, Same left right → Alike (run tokens left) (other tokens right))

include runs

theorem call (op : Text) (template : Template) :
    Alike (left.call run op template) (right.call other op template) := by
  simp only [Machine.call, congruence.main_eq same]
  split
  · next short => exact congruence.underflow same op short
  · exact runs _ _ _ (congruence.setMain same _)

theorem eval : Alike (left.eval run) (right.eval other) := by
  rw [Machine.eval, Machine.eval, congruence.main_eq same]
  cases stack : left.main with
  | nil => exact congruence.underflow_of same (by rw [stack]; decide)
  | cons value below =>
    have popped := congruence.setMain same below
    simp only
    cases Handle.read? value with
    | none => exact congruence.call popped runs _ _
    | some handle =>
      have found : right.arena.get? handle = left.arena.get? handle := by
        rw [congruence.arena_eq same]
      simp only [found]
      cases left.arena.get? handle with
      | none => exact congruence.ok (congruence.push popped _)
      | some body => exact congruence.call popped runs _ _

theorem evalBody (body : Text) : Alike (left.evalBody run body) (right.evalBody other body) :=
  congruence.contain (congruence.eval (congruence.push same body) runs)

theorem choose : Alike (left.choose run) (right.choose other) := by
  match stack : left.main with
  | onFalse :: onTrue :: condition :: below =>
    rw [choose_eq stack, choose_eq ((congruence.main_eq same).trans stack)]
    -- The branches are looked up in the arena as it is before the condition runs.
    have arena := congruence.arena_eq same
    have tested := congruence.evalBody (congruence.setMain same below) runs condition
    refine congruence.andThen tested fun left right same =>
      congruence.takeFlag same fun flag left right same => ?_
    rw [arena]
    split
    · exact congruence.evalBody same runs _
    · split
      · exact congruence.evalBody same runs _
      · exact congruence.ok same
  | [] | [_] | [_, _] =>
    have short : left.main.length < Primitive.choose.needs := by simp [stack, Primitive.needs]
    simpa only [Machine.choose, congruence.main_eq same, stack] using
      congruence.underflow_of same short

theorem repeatBody (body : Text) (count : Nat) :
    Alike (left.repeatBody run body count) (right.repeatBody other body count) := by
  induction count generalizing left right with
  | zero => exact congruence.ok same
  | succ count ih =>
    rw [repeatBody_succ, repeatBody_succ]
    exact congruence.andThen (congruence.evalBody same runs body) fun _ _ same => ih same

theorem times : Alike (left.times run) (right.times other) := by
  match stack : left.main with
  | count :: body :: below =>
    have popped := congruence.setMain same below
    simp only [Machine.times, congruence.main_eq same, stack]
    cases Integer.read? count with
    | none => exact congruence.ok (congruence.push popped _)
    | some number => exact congruence.repeatBody popped runs body _
  | [] | [_] =>
    have short : left.main.length < Primitive.times.needs := by simp [stack, Primitive.needs]
    simpa only [Machine.times, congruence.main_eq same, stack] using
      congruence.underflow_of same short

theorem loopRounds {body : Text} {spare : Nat}
    (exhausted : ∀ left right, Same left right →
      Alike (.unfinished left) (right.loopRounds other body spare)) (rounds : Nat) :
    Alike (left.loopRounds run body rounds) (right.loopRounds other body (rounds + spare)) := by
  induction rounds generalizing left right with
  | zero =>
    rw [Nat.zero_add]
    exact exhausted left right same
  | succ rounds ih =>
    rw [Nat.succ_add, loopRounds_succ, loopRounds_succ]
    refine congruence.andThen (congruence.evalBody same runs body) fun left right same =>
      congruence.takeFlag same fun flag left right same => ?_
    split
    · exact ih same
    · exact congruence.ok same

theorem loop (rounds spare : Nat)
    (exhausted : ∀ body left right, Same left right →
      Alike (.unfinished left) (right.loopRounds other body spare)) :
    Alike (left.loop run rounds) (right.loop other (rounds + spare)) := by
  rw [Machine.loop, Machine.loop, congruence.main_eq same]
  cases stack : left.main with
  | nil => exact congruence.underflow_of same (by rw [stack]; decide)
  | cons body below =>
    exact congruence.loopRounds (congruence.setMain same below) runs (exhausted body) rounds

theorem runSource {text : Text}
    (minted : Same { left with arena := (parseMinting left.arena text).2 }
      { right with arena := (parseMinting right.arena text).2 }) :
    Alike (left.runSource run text) (right.runSource other text) := by
  have tokens : (parseMinting right.arena text).1 = (parseMinting left.arena text).1 := by
    rw [congruence.arena_eq same]
  simp only [Machine.runSource, tokens]
  exact runs _ _ _ minted

theorem loadFound {loader : Loader}
    (minted : ∀ text left right, Same left right →
      Same { left with arena := (parseMinting left.arena text).2 }
        { right with arena := (parseMinting right.arena text).2 })
    (defines : ∀ name, loader.Defines name → ∀ body left right, Same left right →
      Same (left.define name body) (right.define name body)) :
    Alike (left.load loader run) (right.load loader other) := by
  rw [Machine.load, Machine.load, congruence.main_eq same]
  cases stack : left.main with
  | nil => exact congruence.underflow_of same (by rw [stack]; decide)
  | cons name below =>
    have popped := congruence.setMain same below
    simp only
    cases found : loader name with
    | error reason => exact congruence.ok (congruence.push popped _)
    | ok module =>
      cases module with
      | source text => exact congruence.runSource popped runs (minted text _ _ popped)
      | native steps =>
        refine congruence.ok (List.foldl_rel popped ?_)
        intro step mem left right same
        cases step with
        | define defined body => exact defines defined ⟨name, steps, body, found, mem⟩ body _ _ same
        | push value => exact congruence.push same value

theorem load {loader : Loader}
    (minted : ∀ text left right, Same left right →
      Same { left with arena := (parseMinting left.arena text).2 }
        { right with arena := (parseMinting right.arena text).2 })
    (defines : ∀ name body left right, Same left right →
      Same (left.define name body) (right.define name body)) :
    Alike (left.load loader run) (right.load loader other) :=
  congruence.loadFound same runs minted fun name _ => defines name

section Tokens

variable {environment otherEnvironment : Environment} {rounds otherRounds : Nat}

theorem perform {primitive : Primitive}
    (direct : primitive.runsTokens = false →
      Alike (left.perform environment rounds run primitive)
        (right.perform otherEnvironment otherRounds other primitive))
    (loops : primitive = .loop → Alike (left.loop run rounds) (right.loop other otherRounds))
    (loads : primitive = .load →
      Alike (left.load environment.loader run) (right.load otherEnvironment.loader other)) :
    Alike (left.perform environment rounds run primitive)
      (right.perform otherEnvironment otherRounds other primitive) := by
  cases primitive with
  | choose => exact congruence.choose same runs
  | times => exact congruence.times same runs
  | eval => exact congruence.eval same runs
  | loop => exact loops rfl
  | load => exact loads rfl
  | _ => exact direct rfl

theorem dispatch {name : Text} (context : otherEnvironment.context = environment.context)
    (performs : ∀ primitive, left.lookup environment name = some (.native primitive) →
      Alike (left.perform environment rounds run primitive)
        (right.perform otherEnvironment otherRounds other primitive)) :
    Alike (left.dispatch environment rounds run name)
      (right.dispatch otherEnvironment otherRounds other name) := by
  have found : right.lookup otherEnvironment name = left.lookup environment name := by
    rw [Machine.lookup, Machine.lookup, congruence.bound_eq same name, context]
  rw [Machine.dispatch, Machine.dispatch, found]
  cases bound : left.lookup environment name with
  | none => exact congruence.ok (congruence.push same name)
  | some binding =>
    cases binding with
    | native primitive => exact performs primitive bound
    | defined definition => exact congruence.call same runs name definition.template

theorem step {token : Text} (context : otherEnvironment.context = environment.context)
    (performs : ∀ primitive, left.lookup environment token = some (.native primitive) →
      Alike (left.perform environment rounds run primitive)
        (right.perform otherEnvironment otherRounds other primitive)) :
    Alike (left.step environment rounds run token)
      (right.step otherEnvironment otherRounds other token) := by
  rw [Machine.step.eq_def, Machine.step.eq_def]
  split
  · exact congruence.ok (congruence.push same _)
  · exact congruence.ok (congruence.push same _)
  · exact congruence.contain (congruence.dispatch same runs context performs)

end Tokens

end Runs

omit same in
theorem steps {step other : Text → Machine → Outcome}
    (stepped : ∀ token left right, Same left right → Alike (step token left) (other token right))
    (tokens : List Text) (left right : Machine) (same : Same left right) :
    Alike (Machine.steps step tokens left) (Machine.steps other tokens right) := by
  induction tokens generalizing left right with
  | nil => exact congruence.ok same
  | cons token rest ih =>
    rw [steps_cons, steps_cons]
    exact congruence.andThen (stepped token left right same) ih

omit same in
/-- The second run may have levels to spare once the first has used up its own. -/
theorem runWithin {environment otherEnvironment : Environment} {rounds otherRounds : Nat}
    (spare : Nat) (context : otherEnvironment.context = environment.context)
    (deeper : ∀ left right, Same left right →
      Same { left with depth := left.depth + 1 } { right with depth := right.depth + 1 })
    (shallower : ∀ first second, Alike first second →
      Alike (first.map fun machine => { machine with depth := machine.depth - 1 })
        (second.map fun machine => { machine with depth := machine.depth - 1 }))
    (limited : ∀ tokens left right, Same left right →
      Alike (.raised (.recursionLimit environment.maxDepth) left)
        (right.runWithin otherEnvironment otherRounds spare tokens))
    (performs : ∀ {run other : Runner},
      (∀ tokens left right, Same left right → Alike (run tokens left) (other tokens right)) →
      ∀ left right, Same left right → ∀ name primitive,
        left.lookup environment name = some (.native primitive) →
        Alike (left.perform environment rounds run primitive)
          (right.perform otherEnvironment otherRounds other primitive))
    (levels : Nat) (tokens : List Text) (left right : Machine) (same : Same left right) :
    Alike (left.runWithin environment rounds levels tokens)
      (right.runWithin otherEnvironment otherRounds (levels + spare) tokens) := by
  induction levels generalizing tokens left right with
  | zero =>
    rw [Nat.zero_add]
    exact limited tokens left right same
  | succ levels runs =>
    rw [Nat.succ_add]
    refine shallower _ _ (congruence.steps (fun token left right same => ?_) tokens _ _
      (deeper left right same))
    exact congruence.step same runs context (performs runs left right same token)

end Congruence

end Machine

end Concatenative
