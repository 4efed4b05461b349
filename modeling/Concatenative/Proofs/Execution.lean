import Concatenative.Proofs.ErrorContainment

/-!
Running programs step by step. Below the recursion limit a run is its steps one level
further down, where tokens that stand for themselves are pushed and a name that is bound
to a primitive performs it on what was pushed.
-/

namespace Concatenative.Machine

def inside (act : Machine → Outcome) (machine : Machine) : Outcome :=
  (act (machine.withDepth (machine.depth + 1))).map (withDepth machine.depth)

/-- A token that stands for itself: it quotes nothing and is bound to nothing. -/
def IsLiteral (environment : Environment) (machine : Machine) (token : Text) : Prop :=
  token.head? ≠ some '$' ∧ machine.lookup environment token = none

section

variable (environment : Environment) (rounds : Nat)

theorem run_at_limit {machine : Machine} (limit : environment.maxDepth ≤ machine.depth)
    (tokens : List Text) :
    machine.run environment rounds tokens =
      .raised (.recursionLimit environment.maxDepth) machine := by
  rw [run_eq, if_pos limit]

theorem run_below_limit {machine : Machine} (below : machine.depth < environment.maxDepth)
    (tokens : List Text) :
    machine.run environment rounds tokens =
      machine.inside (steps (step environment rounds (run environment rounds)) tokens) := by
  have depth : (machine.run environment rounds tokens).machine.depth = machine.depth :=
    (isContained_run environment rounds tokens machine).depth
  rw [run_eq, if_neg (by omega)] at depth ⊢
  unfold inside
  cases ended : steps (step environment rounds (run environment rounds)) tokens
      (machine.withDepth (machine.depth + 1)) with
  | ok after | raised error after | unfinished after =>
    rw [ended] at depth
    have counted : after.depth - 1 = machine.depth := depth
    simp only [Outcome.map, counted]

theorem step_unquoted {token : Text} (unquoted : token.head? ≠ some '$') (run : Runner)
    (machine : Machine) :
    machine.step environment rounds run token =
      (machine.dispatch environment rounds run token).contain := by
  rw [step.eq_def]
  split
  · exact absurd rfl unquoted
  · exact absurd rfl unquoted
  · rfl

theorem step_literal {machine : Machine} {token : Text}
    (literal : machine.IsLiteral environment token) (run : Runner) :
    machine.step environment rounds run token = .ok (machine.push token) := by
  rw [step_unquoted environment rounds literal.1, dispatch, literal.2]
  rfl

theorem step_native {machine : Machine} {token : Text} {primitive : Primitive}
    (unquoted : token.head? ≠ some '$')
    (bound : machine.lookup environment token = some (.native primitive)) (run : Runner) :
    machine.step environment rounds run token =
      (machine.perform environment rounds run primitive).contain := by
  rw [step_unquoted environment rounds unquoted, dispatch, bound]

theorem step_defined {machine : Machine} {token : Text} {definition : Definition}
    (unquoted : token.head? ≠ some '$')
    (bound : machine.lookup environment token = some (.defined definition)) (run : Runner) :
    machine.step environment rounds run token =
      (machine.call run token definition.template).contain := by
  rw [step_unquoted environment rounds unquoted, dispatch, bound]

theorem steps_singleton (step : Text → Machine → Outcome) (token : Text) (machine : Machine) :
    steps step [token] machine = step token machine := by
  rw [steps_cons]
  cases step token machine <;> rfl

theorem steps_literals {machine : Machine} {literals : List Text}
    (all : ∀ literal ∈ literals, machine.IsLiteral environment literal) (run : Runner)
    (tokens : List Text) :
    steps (step environment rounds run) (literals ++ tokens) machine =
      steps (step environment rounds run) tokens
        { machine with main := literals.reverse ++ machine.main } := by
  induction literals generalizing machine with
  | nil => rfl
  | cons literal literals ih =>
    -- Pushing changes no definition.
    have later : ∀ other ∈ literals, (machine.push literal).IsLiteral environment other :=
      fun other mem => all other (List.mem_cons_of_mem literal mem)
    rw [List.cons_append, steps_cons,
      step_literal environment rounds (all literal List.mem_cons_self), List.reverse_cons,
      List.append_assoc, List.singleton_append]
    exact ih later

theorem run_literals {machine : Machine} (below : machine.depth < environment.maxDepth)
    {literals : List Text} (all : ∀ literal ∈ literals, machine.IsLiteral environment literal)
    {name : Text} {primitive : Primitive} (unquoted : name.head? ≠ some '$')
    (bound : machine.lookup environment name = some (.native primitive)) :
    machine.run environment rounds (literals ++ [name]) =
      machine.inside fun deeper =>
        ({ deeper with main := literals.reverse ++ deeper.main }.perform environment rounds
          (run environment rounds) primitive).contain := by
  let deeper := machine.withDepth (machine.depth + 1)
  let ready := { deeper with main := literals.reverse ++ deeper.main }
  have pushed : ∀ literal ∈ literals, deeper.IsLiteral environment literal := all
  have found : ready.lookup environment name = some (.native primitive) := bound
  rw [run_below_limit environment rounds below, inside, inside,
    steps_literals environment rounds pushed, steps_singleton,
    step_native environment rounds unquoted found]

theorem isRecovered_execute (source : Text) (machine : Machine) :
    (machine.execute environment rounds source).IsRecovered :=
  isRecovered_runWithin environment rounds _ (parse source) machine

end

end Concatenative.Machine
