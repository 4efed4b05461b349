import Concatenative.Proofs.Reachability

/-!
Errors are contained. Underflow is turned into its message where a token or a body
raised it, so it never leaves a run; what leaves a run is the removal of a negative
number of cells or the recursion limit, and the counter is back where it was. An
underflow on its way to the place that recovers it found fewer cells than it asked for.
-/

namespace Concatenative

def Outcome.IsRecovered : Outcome → Prop
  | .raised (.underflow _ _ _) _ => False
  | _ => True

theorem Outcome.isRecovered_contain (outcome : Outcome) : outcome.contain.IsRecovered := by
  cases outcome with
  | raised error machine => cases error <;> trivial
  | _ => trivial

theorem Outcome.contain_of_isRecovered {outcome : Outcome} (recovered : outcome.IsRecovered) :
    outcome.contain = outcome := by
  cases outcome with
  | raised error machine =>
    cases error with
    | underflow op needs has => exact recovered.elim
    | _ => rfl
  | _ => rfl

/-- How a run from a machine ends: at the depth it started from, and well, by removing
a negative number of cells or at the recursion limit. -/
structure Outcome.IsContained (environment : Environment) (machine : Machine)
    (outcome : Outcome) : Prop where
  depth : outcome.machine.depth = machine.depth
  result : outcome.HasEnded →
    (∃ after, outcome = .ok after) ∨
    (∃ count after, outcome = .raised (.negativeDiscard count) after ∧ count < 0) ∨
    ∃ after, outcome = .raised (.recursionLimit environment.maxDepth) after

namespace Machine

theorem isRecovered_step (environment : Environment) (rounds : Nat) (run : Runner)
    (token : Text) (machine : Machine) :
    (machine.step environment rounds run token).IsRecovered := by
  rw [step.eq_def]
  split
  · trivial
  · trivial
  · exact Outcome.isRecovered_contain _

theorem isRecovered_steps {step : Text → Machine → Outcome}
    (stepped : ∀ token machine, (step token machine).IsRecovered) (tokens : List Text)
    (machine : Machine) : (steps step tokens machine).IsRecovered := by
  induction tokens generalizing machine with
  | nil => trivial
  | cons token rest ih =>
    have recovered := stepped token machine
    rw [steps_cons]
    cases ended : step token machine with
    | ok after => exact ih after
    | raised error after => rwa [ended] at recovered
    | unfinished after => trivial

theorem isRecovered_runWithin (environment : Environment) (rounds levels : Nat)
    (tokens : List Text) (machine : Machine) :
    (machine.runWithin environment rounds levels tokens).IsRecovered := by
  cases levels with
  | zero => trivial
  | succ levels =>
    have recovered := isRecovered_steps
      (isRecovered_step environment rounds (runWithin environment rounds levels)) tokens
      (machine.withDepth (machine.depth + 1))
    rw [runWithin_succ]
    cases ended : steps (step environment rounds (runWithin environment rounds levels)) tokens
        (machine.withDepth (machine.depth + 1)) with
    | ok after => trivial
    | raised error after =>
      rw [ended] at recovered
      cases error <;> exact recovered
    | unfinished after => trivial

theorem isContained_run (environment : Environment) (rounds : Nat) (tokens : List Text)
    (machine : Machine) :
    (machine.run environment rounds tokens).IsContained environment machine where
  depth := depth_runWithin environment rounds _ tokens machine
  result ended := by
    have within := isWithin_run environment rounds tokens machine
    have recovered : (machine.run environment rounds tokens).IsRecovered :=
      isRecovered_runWithin environment rounds _ tokens machine
    cases outcome : machine.run environment rounds tokens with
    | ok after => exact .inl ⟨after, rfl⟩
    | unfinished after =>
      rw [outcome] at ended
      exact ended.elim
    | raised error after =>
      rw [outcome] at within recovered
      have possible := within.2
      cases error with
      | underflow op needs has => exact recovered.elim
      | negativeDiscard count => exact .inr (.inl ⟨count, after, rfl, possible.1⟩)
      | recursionLimit limit =>
        obtain rfl : limit = environment.maxDepth := possible
        exact .inr (.inr ⟨after, rfl⟩)

/-- Runs of tokens and of source contain their errors. Whatever name is dispatched and
whatever cell is evaluated on the way, at any level and from any machine, an underflow
that this raises found fewer cells than it needs. -/
theorem runs_contain_errors (environment : Environment) (rounds : Nat) (machine : Machine) :
    (∀ tokens, (machine.run environment rounds tokens).IsContained environment machine) ∧
    (∀ source, (machine.execute environment rounds source).IsContained environment machine) ∧
    (∀ source, (machine.evaluate environment rounds source).IsContained environment machine) ∧
    ∀ levels inner op needs has after,
      (∀ name, dispatch environment rounds (runWithin environment rounds levels) name inner =
        .raised (.underflow op needs has) after → has < needs) ∧
      (eval (runWithin environment rounds levels) inner =
        .raised (.underflow op needs has) after → has < needs) := by
  refine ⟨fun tokens => isContained_run environment rounds tokens machine,
    fun source => isContained_run environment rounds (parse source) machine,
    fun source => ?_, fun levels inner op needs has after => ?_⟩
  · -- Minting the blocks of a source does not touch the counter.
    have contained := isContained_run environment rounds (parseMinting machine.arena source).1
      { machine with arena := (parseMinting machine.arena source).2 }
    exact ⟨contained.depth, contained.result⟩
  · have started : Reaches environment inner inner := .start
    refine ⟨fun name raised => ?_, fun raised => ?_⟩
    · have within := started.dispatch rounds levels name
      rw [raised] at within
      exact within.2
    · have within := started.eval rounds levels
      rw [raised] at within
      exact within.2

example : ({} : Machine).run { context := Dictionary.natives } 0
    ["+".toList, "-1".toList, "debug.remove".toList] =
      .raised (.negativeDiscard (-1))
        { main := ["Error in +: Needs 2 elements, Stack has 0".toList] } := by
  decide +kernel

end Machine

end Concatenative
