import Concatenative.Proofs.Congruence

/-!
The depth counter. No primitive reads it, so two runs with the same levels left
differ in the counter alone, and each run leaves its counter as it found it. A
run is then what the counter promises: a test of the counter, and the steps with
runs nested in them.
-/

namespace Concatenative

@[simp]
theorem Outcome.map_map (outcome : Outcome) (inner outer : Machine → Machine) :
    (outcome.map inner).map outer = outcome.map fun machine => outer (inner machine) := by
  cases outcome <;> rfl

namespace Machine

def withDepth (depth : Nat) (machine : Machine) : Machine :=
  { machine with depth }

@[simp]
theorem main_withDepth (machine : Machine) (depth : Nat) :
    (machine.withDepth depth).main = machine.main := rfl

@[simp]
theorem arena_withDepth (machine : Machine) (depth : Nat) :
    (machine.withDepth depth).arena = machine.arena := rfl

@[simp]
theorem depth_withDepth (machine : Machine) (depth : Nat) :
    (machine.withDepth depth).depth = depth := rfl

theorem congruence_withDepth (depth : Nat) :
    Congruence (fun left right => right = left.withDepth depth)
      (fun first second => second = first.map (withDepth depth)) where
  main_eq := fun same => by rw [same]; rfl
  arena_eq := fun same => by rw [same]; rfl
  bound_eq := fun same name => by rw [same]; rfl
  setMain := fun same cells => by rw [same]; rfl
  ok := fun same => by rw [same]; rfl
  underflow := fun same op needs has short => by rw [same]; rfl
  andThen := by
    intro first second next other alike goesOn
    rw [alike]
    cases first with
    | ok machine => exact goesOn machine _ rfl
    | raised error machine => rfl
    | unfinished machine => rfl
  contain := by
    intro first second alike
    rw [alike]
    cases first with
    | raised error machine => cases error <;> rfl
    | _ => rfl

theorem defineNames_withDepth (machine : Machine) (depth : Nat) :
    (machine.withDepth depth).defineNames = machine.defineNames.map (withDepth depth) := by
  apply (congruence_withDepth depth).defineNames rfl
  intro name isWord body left right same
  rw [same]
  rfl

theorem perform_withDepth (environment : Environment) (rounds : Nat) (run : Runner)
    {primitive : Primitive} (direct : primitive.runsTokens = false) (machine : Machine)
    (depth : Nat) :
    (machine.withDepth depth).perform environment rounds run primitive =
      (machine.perform environment rounds run primitive).map (withDepth depth) := by
  by_cases defines : primitive = .define
  · rw [defines]
    exact defineNames_withDepth machine depth
  · have framed := isFramed_perform direct defines environment rounds run
    have user := framed.user_eq machine
    have reframed : (machine.withDepth depth).perform environment rounds run primitive =
        (machine.perform environment rounds run primitive).map (reframe machine.user depth) :=
      (framed machine).2 machine.user depth
    rw [reframed, ← user]
    cases machine.perform environment rounds run primitive <;> rfl

theorem steps_withDepth (environment : Environment) (rounds : Nat) {run : Runner} {depth : Nat}
    (runs : ∀ tokens machine,
      run tokens (machine.withDepth depth) = (run tokens machine).map (withDepth depth))
    (tokens : List Text) (machine : Machine) :
    steps (step environment rounds run) tokens (machine.withDepth depth) =
      (steps (step environment rounds run) tokens machine).map (withDepth depth) := by
  have congruence := congruence_withDepth depth
  have nested : ∀ tokens left right, right = left.withDepth depth →
      run tokens right = (run tokens left).map (withDepth depth) := by
    intro tokens left right same
    rw [same, runs]
  apply congruence.steps _ tokens machine _ rfl
  intro token left right same
  apply congruence.step same nested rfl
  intro primitive bound
  apply congruence.perform same nested
  · intro direct
    rw [same]
    exact perform_withDepth environment rounds run direct left depth
  · intro loops
    apply congruence.loop same nested rounds 0
    intro body left right same
    rw [same]
    rfl
  · intro loads
    apply congruence.load same nested
    · intro text left right same
      rw [same]
      rfl
    · intro name body left right same
      rw [same]
      rfl

theorem runWithin_succ (environment : Environment) (rounds levels : Nat) (tokens : List Text)
    (machine : Machine) :
    machine.runWithin environment rounds (levels + 1) tokens =
      (steps (step environment rounds (runWithin environment rounds levels)) tokens
        (machine.withDepth (machine.depth + 1))).map fun after =>
          after.withDepth (after.depth - 1) := rfl

theorem runWithin_withDepth (environment : Environment) (rounds levels : Nat)
    (tokens : List Text) (machine : Machine) (depth : Nat) :
    (machine.withDepth depth).runWithin environment rounds levels tokens =
      (machine.runWithin environment rounds levels tokens).map (withDepth depth) := by
  induction levels generalizing tokens machine depth with
  | zero => rfl
  | succ levels ih =>
    have nested := fun tokens machine => ih tokens machine (depth + 1)
    -- The counter of the steps is set on the way in, whatever it was outside.
    have entered : (machine.withDepth depth).withDepth (depth + 1) =
        (machine.withDepth (machine.depth + 1)).withDepth (depth + 1) := rfl
    rw [runWithin_succ, runWithin_succ]
    simp only [depth_withDepth]
    rw [entered, steps_withDepth environment rounds nested, Outcome.map_map, Outcome.map_map]
    rfl

theorem depth_of_eq_map {outcome : Outcome} {depth : Nat}
    (unseen : outcome = outcome.map (withDepth depth)) : outcome.machine.depth = depth := by
  rw [unseen]
  cases outcome <;> rfl

theorem depth_runWithin (environment : Environment) (rounds levels : Nat)
    (tokens : List Text) (machine : Machine) :
    (machine.runWithin environment rounds levels tokens).machine.depth = machine.depth :=
  depth_of_eq_map (runWithin_withDepth environment rounds levels tokens machine machine.depth)

/-- Runs that agree at one depth, and stay there, may replace one another in the steps of
a run at that depth. -/
theorem steps_of_agree {environment : Environment} {rounds depth : Nat} {run other : Runner}
    (runs : ∀ tokens machine, machine.depth = depth →
      other tokens machine = run tokens machine ∧ (run tokens machine).machine.depth = depth)
    (tokens : List Text) (machine : Machine) (counted : machine.depth = depth) :
    steps (step environment rounds other) tokens machine =
      steps (step environment rounds run) tokens machine := by
  have congruence : Congruence (fun left right => right = left ∧ left.depth = depth)
      (fun first second => second = first ∧ first.machine.depth = depth) :=
    Congruence.of_invariant (fun _ _ counted => counted) (fun _ => Iff.rfl)
      (fun _ _ _ _ counted _ => counted) (fun _ _ _ _ counted => counted)
  have nested : ∀ tokens left right, right = left ∧ left.depth = depth →
      other tokens right = run tokens left ∧ (run tokens left).machine.depth = depth := by
    intro tokens left right same
    rw [same.1]
    exact runs tokens left same.2
  apply And.left
  apply congruence.steps _ tokens machine machine ⟨rfl, counted⟩
  intro token left right same
  apply congruence.step same nested rfl
  intro primitive bound
  apply congruence.perform same nested
  · intro direct
    have unseen := perform_withDepth environment rounds run direct left left.depth
    rw [same.1, perform_of_direct direct environment environment rounds rounds other run]
    exact ⟨rfl, (depth_of_eq_map unseen).trans same.2⟩
  · intro loops
    apply congruence.loop same nested rounds 0
    intro body left right same
    rw [same.1]
    exact ⟨rfl, same.2⟩
  · intro loads
    apply congruence.load same nested
    · intro text left right same
      rw [same.1]
      exact ⟨rfl, same.2⟩
    · intro name body left right same
      rw [same.1]
      exact ⟨rfl, same.2⟩

/-- The run of tokens as a recursion: the counter is tested, and the runs nested in the
steps are runs of the same kind. -/
theorem run_eq (environment : Environment) (rounds : Nat) (tokens : List Text)
    (machine : Machine) :
    machine.run environment rounds tokens =
      if environment.maxDepth ≤ machine.depth then
        .raised (.recursionLimit environment.maxDepth) machine
      else
        (steps (step environment rounds (run environment rounds)) tokens
          (machine.withDepth (machine.depth + 1))).map fun after =>
            after.withDepth (after.depth - 1) := by
  by_cases exhausted : environment.maxDepth ≤ machine.depth
  · have none : environment.maxDepth - machine.depth = 0 := by omega
    rw [if_pos exhausted, run, none]
    rfl
  · obtain ⟨levels, left⟩ : ∃ levels, environment.maxDepth - machine.depth = levels + 1 :=
      ⟨environment.maxDepth - machine.depth - 1, by omega⟩
    rw [if_neg exhausted, run, left, runWithin_succ]
    congr 1
    refine (steps_of_agree (fun tokens inner counted => ?_) tokens _ rfl).symm
    have depth : inner.depth = machine.depth + 1 := counted
    have remaining : environment.maxDepth - inner.depth = levels := by omega
    rw [run, remaining]
    exact ⟨rfl, (depth_runWithin environment rounds levels tokens inner).trans counted⟩

end Machine

end Concatenative
