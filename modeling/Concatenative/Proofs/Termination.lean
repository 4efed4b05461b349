import Concatenative.Proofs.Congruence

/-!
Runs without loops end. Definitions bind names to bodies only, so a machine in
which no name stands for the loop primitive stays one, whatever it runs. No loop
is then entered, and nothing else asks for rounds.
-/

namespace Concatenative

namespace Machine

def IsLoopFree (environment : Environment) (machine : Machine) : Prop :=
  ∀ name, machine.lookup environment name ≠ some (.native .loop)

namespace IsLoopFree

variable {environment : Environment} {machine : Machine}

theorem of_user_eq (loopFree : machine.IsLoopFree environment) {other : Machine}
    (user : other.user = machine.user) : other.IsLoopFree environment := by
  intro name
  rw [lookup, user]
  exact loopFree name

theorem define (loopFree : machine.IsLoopFree environment) (name body : Text) :
    (machine.define name body).IsLoopFree environment := by
  intro other
  have bound : (machine.define name body).lookup environment other =
      if other = name then some (.defined body) else machine.lookup environment other := by
    rw [lookup, Machine.define, Dictionary.define]
    simp only [Dictionary.get?_insert]
    split
    · rfl
    · rfl
  rw [bound]
  split
  · simp
  · exact loopFree other

theorem congruence (environment : Environment) :
    Congruence (fun left right => right = left ∧ left.IsLoopFree environment)
      (fun first second => second = first ∧
        first.HasEnded ∧ first.machine.IsLoopFree environment) :=
  Congruence.of_invariant (fun _ _ loopFree => loopFree.of_user_eq rfl)
    (fun _ => ⟨fun ends => ends.2, fun loopFree => ⟨trivial, loopFree⟩⟩)
    (fun _ _ _ _ loopFree _ => ⟨trivial, loopFree⟩) (fun _ _ _ _ ends => ends.2)

theorem defineNames (loopFree : machine.IsLoopFree environment) :
    machine.defineNames.HasEnded ∧ machine.defineNames.machine.IsLoopFree environment := by
  apply And.right
  apply (congruence environment).defineNames ⟨rfl, loopFree⟩
  intro name isWord body left right same
  rw [same.1]
  exact ⟨rfl, same.2.define name body⟩

theorem perform (loopFree : machine.IsLoopFree environment) {primitive : Primitive}
    (direct : primitive.runsTokens = false) (rounds : Nat) (run : Runner) :
    (machine.perform environment rounds run primitive).HasEnded ∧
      (machine.perform environment rounds run primitive).machine.IsLoopFree environment := by
  by_cases defines : primitive = .define
  · rw [defines]
    exact loopFree.defineNames
  · have framed := isFramed_perform direct defines environment rounds run
    exact ⟨(framed machine).1, loopFree.of_user_eq (framed.user_eq machine)⟩

theorem of_unbound (user : ∀ name, machine.user.get? name ≠ some (.native .loop))
    (context : ∀ name, environment.context.get? name ≠ some (.native .loop)) :
    machine.IsLoopFree environment := by
  intro name
  rw [lookup]
  cases bound : machine.user.get? name with
  | none => exact context name
  | some binding =>
    have named := user name
    rw [bound] at named
    exact named

theorem runWithin (loopFree : machine.IsLoopFree environment)
    (rounds otherRounds levels : Nat) (tokens : List Text) :
    machine.runWithin environment otherRounds levels tokens =
        machine.runWithin environment rounds levels tokens ∧
      (machine.runWithin environment rounds levels tokens).HasEnded ∧
      (machine.runWithin environment rounds levels tokens).machine.IsLoopFree environment := by
  have congruence := congruence environment
  apply congruence.runWithin 0 rfl _ _ _ _ levels tokens machine machine ⟨rfl, loopFree⟩
  · intro left right same
    rw [same.1]
    exact ⟨rfl, same.2.of_user_eq rfl⟩
  · intro first second alike
    obtain ⟨equal, ended, kept⟩ := alike
    rw [equal]
    refine ⟨rfl, (Outcome.hasEnded_map first _).mpr ended, ?_⟩
    cases first <;> exact kept.of_user_eq rfl
  · intro tokens left right same
    rw [same.1]
    exact ⟨rfl, trivial, same.2⟩
  · intro run other runs left right same name primitive bound
    apply congruence.perform same runs
    · intro direct
      rw [same.1, perform_of_direct direct environment environment otherRounds rounds other run]
      exact ⟨rfl, same.2.perform direct rounds run⟩
    · -- A loop is performed only under a name that is bound to it.
      intro loops
      rw [loops] at bound
      exact absurd bound (same.2 name)
    · intro loads
      apply congruence.load same runs
      · intro text left right same
        rw [same.1]
        exact ⟨rfl, same.2.of_user_eq rfl⟩
      · intro name body left right same
        rw [same.1]
        exact ⟨rfl, same.2.define name body⟩

theorem run (loopFree : machine.IsLoopFree environment) (tokens : List Text) :
    ∃ outcome : Outcome, outcome.HasEnded ∧
      ∀ rounds, machine.run environment rounds tokens = outcome := by
  refine ⟨machine.run environment 0 tokens, ?_, fun rounds => ?_⟩
  · exact (loopFree.runWithin 0 0 _ tokens).2.1
  · exact (loopFree.runWithin 0 rounds _ tokens).1

end IsLoopFree

/-- Without a name for the loop primitive every run ends, well or with an error, and no
bound on the rounds of loops takes part in it. -/
theorem ends_of_no_loop {environment : Environment} {machine : Machine}
    (user : ∀ name, machine.user.get? name ≠ some (.native .loop))
    (context : ∀ name, environment.context.get? name ≠ some (.native .loop)) :
    (∀ tokens, ∃ outcome : Outcome, outcome.HasEnded ∧
      ∀ rounds, machine.run environment rounds tokens = outcome) ∧
    (∀ source, ∃ outcome : Outcome, outcome.HasEnded ∧
      ∀ rounds, machine.execute environment rounds source = outcome) ∧
    (∀ source, ∃ outcome : Outcome, outcome.HasEnded ∧
      ∀ rounds, machine.evaluate environment rounds source = outcome) := by
  have loopFree := IsLoopFree.of_unbound user context
  refine ⟨loopFree.run, fun source => loopFree.run (parse source), fun source => ?_⟩
  have minted : ({ machine with arena := (parseMinting machine.arena source).2 } :
      Machine).IsLoopFree environment := loopFree.of_user_eq rfl
  exact minted.run (parseMinting machine.arena source).1

theorem ends_of_no_loop_recursive :
    ∃ outcome : Outcome, outcome.HasEnded ∧
      ∀ rounds, ({ user := ⟨[("f".toList, .defined "[ f f ]".toList)]⟩ } : Machine).run
        { context := ⟨Dictionary.natives.entries.filter (·.2 ≠ .native .loop)⟩ } rounds
        ["f".toList] = outcome := by
  refine (ends_of_no_loop (fun name bound => ?_) (fun name bound => ?_)).1 ["f".toList]
  · have entry := Dictionary.mem_entries_of_get? bound
    simp at entry
  · have entry := Dictionary.mem_entries_of_get? bound
    simp at entry

end Machine

end Concatenative
