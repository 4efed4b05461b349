import Concatenative.Machine.Run

/-!
Primitives that run no tokens. All of them end, and all but the definition of
names are maps of the stacks and the arena: the definitions and the depth
counter are neither read nor changed.
-/

namespace Concatenative

def Primitive.runsTokens : Primitive → Bool
  | .choose | .loop | .times | .eval | .load => true
  | _ => false

/-- A run has ended, well or with an error, unless a loop used up its rounds. -/
def Outcome.HasEnded : Outcome → Prop
  | .ok _ | .raised _ _ => True
  | .unfinished _ => False

theorem Outcome.hasEnded_map (outcome : Outcome) (change : Machine → Machine) :
    (outcome.map change).HasEnded ↔ outcome.HasEnded := by
  cases outcome <;> rfl

namespace Machine

theorem perform_of_direct {primitive : Primitive} (direct : primitive.runsTokens = false)
    (environment otherEnvironment : Environment) (rounds otherRounds : Nat)
    (run other : Runner) (machine : Machine) :
    machine.perform environment rounds run primitive =
      machine.perform otherEnvironment otherRounds other primitive := by
  cases primitive with
  | choose | loop | times | eval | load => exact absurd direct (by decide)
  | _ => rfl

def reframe (user : Dictionary) (depth : Nat) (machine : Machine) : Machine :=
  { machine with user, depth }

@[simp]
theorem main_reframe (machine : Machine) (user : Dictionary) (depth : Nat) :
    (machine.reframe user depth).main = machine.main := rfl

@[simp]
theorem arena_reframe (machine : Machine) (user : Dictionary) (depth : Nat) :
    (machine.reframe user depth).arena = machine.arena := rfl

/-- The action ends, and does not see the definitions and the counter. -/
def IsFramed (act : Machine → Outcome) : Prop :=
  ∀ machine : Machine, (act machine).HasEnded ∧
    ∀ user depth, act (machine.reframe user depth) = (act machine).map (reframe user depth)

theorem IsFramed.user_eq {act : Machine → Outcome} (framed : IsFramed act) (machine : Machine) :
    (act machine).machine.user = machine.user := by
  have same : act machine = (act machine).map (reframe machine.user machine.depth) :=
    (framed machine).2 machine.user machine.depth
  rw [same]
  cases act machine <;> rfl

theorem settle_reframe (machine : Machine) (user : Dictionary) (depth : Nat)
    (below : List Text) (effect : Except Fault ListOp.Effect) :
    (machine.reframe user depth).settle below effect =
      (machine.settle below effect).reframe user depth := by
  cases effect <;> rfl

theorem isFramed_performList (op : ListOp) : IsFramed fun machine => machine.performList op := by
  intro machine
  unfold performList
  simp only [main_reframe, arena_reframe, settle_reframe]
  split <;> exact ⟨trivial, fun _ _ => rfl⟩

theorem isFramed_performMath (op : MathOp) : IsFramed fun machine => machine.performMath op := by
  intro machine
  unfold performMath
  simp only [main_reframe]
  split
  · next right left below _ =>
    cases op.applyText left right <;> exact ⟨trivial, fun _ _ => rfl⟩
  · exact ⟨trivial, fun _ _ => rfl⟩

theorem isFramed_discard : IsFramed discard := by
  intro machine
  unfold discard
  simp only [main_reframe]
  cases machine.main with
  | nil => exact ⟨trivial, fun _ _ => rfl⟩
  | cons count below =>
    simp only
    cases Integer.read? count with
    | none => exact ⟨trivial, fun _ _ => rfl⟩
    | some number =>
      simp only
      split
      · exact ⟨trivial, fun _ _ => rfl⟩
      · split <;> exact ⟨trivial, fun _ _ => rfl⟩

theorem isFramed_perform {primitive : Primitive} (direct : primitive.runsTokens = false)
    (other : primitive ≠ .define) (environment : Environment) (rounds : Nat) (run : Runner) :
    IsFramed (perform environment rounds run primitive) := by
  cases primitive with
  | list op => exact isFramed_performList op
  | math op => exact isFramed_performMath op
  | discard => exact isFramed_discard
  | stash | kindOf | isKind | height =>
    intro machine
    obtain ⟨main, retain, arena, user, depth⟩ := machine
    cases main <;> exact ⟨trivial, fun _ _ => rfl⟩
  | unstash =>
    intro machine
    obtain ⟨main, retain, arena, user, depth⟩ := machine
    cases retain <;> exact ⟨trivial, fun _ _ => rfl⟩
  | define => exact absurd rfl other
  | choose | loop | times | eval | load => exact absurd direct (by decide)

end Machine

end Concatenative
