import Concatenative.Session
import Concatenative.Proofs.Depth

/-!
Lines of a session. What earlier lines leave to a later one is the arena and what names
are bound to: the stacks are emptied, the counter is back where it was, however a line
ended, and the order in which names were bound is seen by no run. Two histories that
agree on the arena and on every name are followed by the same answers.
-/

namespace Concatenative

namespace Machine

/-- Equal stacks and arenas, and the same bindings in whatever order. -/
structure Matches (left right : Machine) : Prop where
  main : right.main = left.main
  retain : right.retain = left.retain
  arena : right.arena = left.arena
  bound : ∀ name, right.user.get? name = left.user.get? name

end Machine

/-- The second run ends as the first one does, if the first one ends. -/
inductive Outcome.Matches : Outcome → Outcome → Prop where
  | ok {left right : Machine} (same : left.Matches right) : Matches (.ok left) (.ok right)
  | raised {left right : Machine} (error : Error) (same : left.Matches right) :
      Matches (.raised error left) (.raised error right)
  | unfinished {left : Machine} {outcome : Outcome} : Matches (.unfinished left) outcome

namespace Machine

theorem congruence_matches : Congruence Machine.Matches Outcome.Matches where
  main_eq := fun same => same.main
  arena_eq := fun same => same.arena
  bound_eq := fun same => same.bound
  setMain := fun same cells => ⟨rfl, same.retain, same.arena, same.bound⟩
  ok := fun same => .ok same
  underflow := fun same op needs has short => .raised _ same
  andThen := by
    intro first second next other alike goesOn
    cases alike with
    | ok same => exact goesOn _ _ same
    | raised error same => exact .raised error same
    | unfinished => exact .unfinished
  contain := by
    intro first second alike
    cases alike with
    | ok same => exact .ok same
    | raised error same =>
      cases error with
      | underflow op needs has =>
        exact .ok ⟨congrArg (List.cons _) same.main, same.retain, same.arena, same.bound⟩
      | _ => exact .raised _ same
    | unfinished => exact .unfinished

namespace Matches

variable {left right : Machine} (same : left.Matches right)

include same

theorem reframe_eq : right = left.reframe right.user right.depth := by
  obtain ⟨main, retain, arena, user, depth⟩ := right
  obtain ⟨rfl, rfl, rfl, -⟩ := same
  rfl

theorem define (name body : Text) : (left.define name body).Matches (right.define name body) where
  main := same.main
  retain := same.retain
  arena := same.arena
  bound other := by
    simp only [Machine.define, Dictionary.define, Dictionary.get?_insert, same.bound]

theorem defineNames : left.defineNames.Matches right.defineNames :=
  congruence_matches.defineNames same fun name _ body _ _ same => same.define name body

theorem perform {primitive : Primitive} (direct : primitive.runsTokens = false)
    (environment : Environment) (rounds otherRounds : Nat) (run other : Runner) :
    (left.perform environment rounds run primitive).Matches
      (right.perform environment otherRounds other primitive) := by
  rw [perform_of_direct direct environment environment otherRounds rounds other run]
  by_cases defines : primitive = .define
  · rw [defines]
    exact same.defineNames
  · have framed := isFramed_perform direct defines environment rounds run
    have user := framed.user_eq left
    rw [same.reframe_eq, (framed left).2]
    have frame : ∀ machine : Machine, machine.user = left.user →
        machine.Matches (machine.reframe right.user right.depth) := by
      intro machine kept
      refine ⟨rfl, rfl, rfl, fun name => ?_⟩
      rw [kept]
      exact same.bound name
    cases outcome : left.perform environment rounds run primitive with
    | ok machine =>
      rw [outcome] at user
      exact .ok (frame machine user)
    | raised error machine =>
      rw [outcome] at user
      exact .raised error (frame machine user)
    | unfinished machine => exact .unfinished

theorem runWithin (environment : Environment) (rounds spare levels : Nat) (tokens : List Text) :
    (left.runWithin environment rounds levels tokens).Matches
      (right.runWithin environment (rounds + spare) levels tokens) := by
  have congruence := congruence_matches
  apply congruence.runWithin 0 rfl _ _ _ _ levels tokens left right same
  · intro left right same
    exact ⟨same.main, same.retain, same.arena, same.bound⟩
  · intro first second alike
    cases alike with
    | ok same => exact .ok ⟨same.main, same.retain, same.arena, same.bound⟩
    | raised error same => exact .raised error ⟨same.main, same.retain, same.arena, same.bound⟩
    | unfinished => exact .unfinished
  · intro tokens left right same
    exact .raised _ same
  · intro run other runs left right same name primitive bound
    apply congruence.perform same runs
    · intro direct
      exact same.perform direct environment rounds (rounds + spare) run other
    · intro loops
      apply congruence.loop same runs rounds spare
      intro body left right same
      exact .unfinished
    · intro loads
      apply congruence.load same runs
      · intro text left right same
        refine ⟨same.main, same.retain, ?_, same.bound⟩
        simp only [same.arena]
      · intro name body left right same
        exact same.define name body

theorem evaluate (depth : right.depth = left.depth) (environment : Environment)
    (rounds spare : Nat) (source : Text) :
    (left.evaluate environment rounds source).Matches
      (right.evaluate environment (rounds + spare) source) := by
  have tokens : (parseMinting right.arena source).1 = (parseMinting left.arena source).1 := by
    rw [same.arena]
  have minted : ({ left with arena := (parseMinting left.arena source).2 } : Machine).Matches
      { right with arena := (parseMinting right.arena source).2 } := by
    refine ⟨same.main, same.retain, ?_, same.bound⟩
    simp only [same.arena]
  have levels : environment.maxDepth - right.depth = environment.maxDepth - left.depth := by
    rw [depth]
  simp only [Machine.evaluate, Machine.runSource, Machine.run, levels, tokens]
  exact minted.runWithin environment rounds spare _ _

end Matches

theorem depth_evaluate (environment : Environment) (rounds : Nat) (source : Text)
    (machine : Machine) :
    (machine.evaluate environment rounds source).machine.depth = machine.depth :=
  depth_runWithin environment rounds _ _ _

end Machine

namespace Session

def answers (environment : Environment) (rounds : Nat) :
    List Text → Machine → List (Reply × Machine)
  | [], _ => []
  | line :: rest, machine =>
    let answered := answer environment rounds line machine
    answered :: answers environment rounds rest answered.2

def after (environment : Environment) (rounds : Nat) (lines : List Text) (machine : Machine) :
    Machine :=
  lines.foldl (fun machine line => (answer environment rounds line machine).2) machine

def seen (answered : Reply × Machine) : Reply × Bool := (answered.1, asksToExit answered.2)

theorem depth_answer (environment : Environment) (rounds : Nat) (line : Text)
    (machine : Machine) : (answer environment rounds line machine).2.depth = machine.depth :=
  Machine.depth_evaluate environment rounds line machine.clear

theorem depth_after (environment : Environment) (rounds : Nat) (lines : List Text)
    (machine : Machine) : (after environment rounds lines machine).depth = machine.depth := by
  induction lines generalizing machine with
  | nil => rfl
  | cons line rest ih => exact (ih _).trans (depth_answer environment rounds line machine)

/-- Machines that a line cannot tell apart, once it has emptied the stacks. -/
structure Agree (left right : Machine) : Prop where
  arena : right.arena = left.arena
  bound : ∀ name, right.user.get? name = left.user.get? name
  depth : right.depth = left.depth

theorem stackLine_eq_of_matches {left right : Machine} (same : left.Matches right) :
    stackLine right = stackLine left := by
  have shown : right.renderMain = left.renderMain := by
    rw [Machine.renderMain, Machine.renderMain, same.main, same.arena]
  exact congrArg ("main: ".toList ++ ·) shown

theorem asksToExit_eq_of_matches {left right : Machine} (same : left.Matches right) :
    asksToExit right = asksToExit left := by
  rw [asksToExit, asksToExit, same.main]

theorem matches_of_finished {first second : Outcome} (alike : first.Matches second)
    (finished : reply first ≠ .unfinished) :
    reply second = reply first ∧ first.machine.Matches second.machine := by
  cases alike with
  | ok same =>
    rw [reply, reply, stackLine_eq_of_matches same, asksToExit_eq_of_matches same]
    exact ⟨rfl, same⟩
  | raised error same => exact ⟨rfl, same⟩
  | unfinished => exact absurd rfl finished

section

variable {environment : Environment} {rounds : Nat} {left right : Machine}

theorem Agree.answer (agree : Agree left right) {line : Text}
    (finished : (answer environment rounds line left).1 ≠ .unfinished) (spare : Nat) :
    seen (Session.answer environment (rounds + spare) line right) =
        seen (Session.answer environment rounds line left) ∧
      Agree (Session.answer environment rounds line left).2
        (Session.answer environment (rounds + spare) line right).2 := by
  have cleared : left.clear.Matches right.clear := ⟨rfl, rfl, agree.arena, agree.bound⟩
  have alike := cleared.evaluate agree.depth environment rounds spare line
  obtain ⟨replied, same⟩ := matches_of_finished alike finished
  refine ⟨Prod.ext replied (asksToExit_eq_of_matches same), same.arena, same.bound, ?_⟩
  rw [depth_answer, depth_answer, agree.depth]

theorem Agree.answers (agree : Agree left right) {lines : List Text}
    (finished : ∀ answered ∈ answers environment rounds lines left, answered.1 ≠ .unfinished)
    (spare : Nat) :
    (Session.answers environment (rounds + spare) lines right).map seen =
      (Session.answers environment rounds lines left).map seen := by
  induction lines generalizing left right with
  | nil => rfl
  | cons line rest ih =>
    rw [Session.answers] at finished
    obtain ⟨first, later⟩ := List.forall_mem_cons.1 finished
    obtain ⟨same, agree⟩ := agree.answer first spare
    rw [Session.answers, Session.answers, List.map_cons, List.map_cons, same, ih agree later]

end

/-- Two sessions start afresh and are given lines of their own. If that leaves them with
equal arenas and the same bindings, they answer alike from then on: lines that the one
finishes are finished by the other, with the same replies and the same wish to exit. -/
theorem answers_eq_of_histories {environment : Environment} {firstRounds secondRounds : Nat}
    {first second : List Text}
    (arenas : (after environment firstRounds first {}).arena =
      (after environment secondRounds second {}).arena)
    (tables : ∀ name, (after environment firstRounds first {}).user.get? name =
      (after environment secondRounds second {}).user.get? name)
    {rounds otherRounds : Nat} (enough : rounds ≤ otherRounds) {lines : List Text}
    (finished : ∀ answered ∈
      answers environment rounds lines (after environment firstRounds first {}),
      answered.1 ≠ .unfinished) :
    (answers environment otherRounds lines (after environment secondRounds second {})).map seen =
      (answers environment rounds lines (after environment firstRounds first {})).map seen := by
  obtain ⟨spare, rfl⟩ := Nat.exists_eq_add_of_le enough
  have agree : Agree (after environment firstRounds first {})
      (after environment secondRounds second {}) := by
    refine ⟨arenas.symm, fun name => (tables name).symm, ?_⟩
    rw [depth_after, depth_after]
  exact agree.answers finished spare

theorem answers_eq_of_histories_reordered :
    ∃ environment : Environment, ∃ x y : Text × Binding,
      after environment 0 ["x 5 def".toList, "y 6 def".toList] {} = { user := ⟨[x, y]⟩ } ∧
      after environment 0 ["y 6 def".toList, "x 5 def 7 >r -1 debug.remove".toList] {} =
        { retain := ["7".toList], user := ⟨[y, x]⟩ } ∧
      (answers environment 9 ["x y +".toList, "exit".toList]
          { retain := ["7".toList], user := ⟨[y, x]⟩ }).map seen =
        [(.shown "main: [ 11 ]".toList false, false),
          (.shown "main: [ exit ]".toList true, true)] := by
  let environment : Environment := { context := Dictionary.natives }
  let x : Text × Binding := ("x".toList, .defined "5".toList)
  let y : Text × Binding := ("y".toList, .defined "6".toList)
  have first : after environment 0 ["x 5 def".toList, "y 6 def".toList] {} =
      { user := ⟨[x, y]⟩ } := by
    decide +kernel
  have second : after environment 0
      ["y 6 def".toList, "x 5 def 7 >r -1 debug.remove".toList] {} =
        { retain := ["7".toList], user := ⟨[y, x]⟩ } := by
    decide +kernel
  have tables : ∀ name, Dictionary.get? ⟨[x, y]⟩ name = Dictionary.get? ⟨[y, x]⟩ name := by
    intro name
    simp only [Dictionary.get?, Dictionary.lookupEntry]
    by_cases named : x.1 = name
    · have other : y.1 ≠ name := by
        rw [← named]
        decide
      rw [if_pos named, if_neg other, if_pos named]
    · rw [if_neg named, if_neg named]
  have finished : ∀ answered ∈
      answers environment 0 ["x y +".toList, "exit".toList] { user := ⟨[x, y]⟩ },
      answered.1 ≠ .unfinished := by
    decide +kernel
  have shown : (answers environment 0 ["x y +".toList, "exit".toList]
      { user := ⟨[x, y]⟩ }).map seen = [(.shown "main: [ 11 ]".toList false, false),
        (.shown "main: [ exit ]".toList true, true)] := by
    decide +kernel
  have arenas : (after environment 0 ["x 5 def".toList, "y 6 def".toList] {}).arena =
      (after environment 0 ["y 6 def".toList, "x 5 def 7 >r -1 debug.remove".toList] {}).arena := by
    rw [first, second]
  have alike := answers_eq_of_histories arenas (by rw [first, second]; exact tables)
    (Nat.zero_le 9) (by rw [first]; exact finished)
  rw [first, second, shown] at alike
  exact ⟨environment, x, y, first, second, alike⟩

end Session

end Concatenative
