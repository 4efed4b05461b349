import Concatenative.Proofs.Depth

/-!
The recursion limit is only a limit. A run that stays within its levels and its
rounds ends the same way when it is given more of them, whatever the counter
shows when it starts.
-/

namespace Concatenative

namespace Outcome

/-- A run that more rounds or more levels could have taken further. -/
def CutShort : Outcome → Prop
  | .unfinished _ => True
  | .raised (.recursionLimit _) _ => True
  | _ => False

theorem CutShort.andThen {outcome : Outcome} (cut : outcome.CutShort)
    (next : Machine → Outcome) : (outcome.andThen next).CutShort := by
  cases outcome with
  | ok machine => exact cut.elim
  | raised error machine => exact cut
  | unfinished machine => exact cut

theorem CutShort.contain {outcome : Outcome} (cut : outcome.CutShort) :
    outcome.contain.CutShort := by
  cases outcome with
  | ok machine => exact cut
  | raised error machine => cases error <;> exact cut
  | unfinished machine => exact cut

theorem CutShort.map {outcome : Outcome} (cut : outcome.CutShort)
    (change : Machine → Machine) : (outcome.map change).CutShort := by
  cases outcome with
  | ok machine => exact cut
  | raised error machine => cases error <;> exact cut
  | unfinished machine => exact cut

theorem not_cutShort {outcome : Outcome} (ended : outcome.HasEnded)
    (unlimited : ∀ limit machine, outcome ≠ .raised (.recursionLimit limit) machine) :
    ¬ outcome.CutShort := by
  intro cut
  cases outcome with
  | ok machine => exact cut
  | raised error machine =>
    cases error with
    | recursionLimit limit => exact unlimited limit machine rfl
    | underflow | negativeDiscard => exact cut
  | unfinished machine => exact ended

end Outcome

namespace Machine

theorem congruence_cutShort :
    Congruence (fun left right => right = left)
      (fun first second => first.CutShort ∨ second = first) where
  main_eq := fun same => by rw [same]
  arena_eq := fun same => by rw [same]
  bound_eq := fun same name => by rw [same]
  setMain := fun same cells => by rw [same]
  ok := fun same => Or.inr (by rw [same])
  underflow := fun same op needs has short => Or.inr (by rw [same])
  andThen := by
    intro first second next other alike goesOn
    rcases alike with cut | equal
    · exact Or.inl (cut.andThen next)
    · rw [equal]
      cases first with
      | ok machine => exact goesOn machine machine rfl
      | raised error machine => exact Or.inr rfl
      | unfinished machine => exact Or.inr rfl
  contain := by
    intro first second alike
    rcases alike with cut | equal
    · exact Or.inl cut.contain
    · exact Or.inr (by rw [equal])

theorem runWithin_of_spare (environment : Environment) (maxDepth rounds spareRounds levels
    spareLevels : Nat) (tokens : List Text) (machine : Machine) :
    (machine.runWithin environment rounds levels tokens).CutShort ∨
      machine.runWithin { environment with maxDepth } (rounds + spareRounds)
          (levels + spareLevels) tokens =
        machine.runWithin environment rounds levels tokens := by
  have congruence := congruence_cutShort
  have context : ({ environment with maxDepth } : Environment).context =
      environment.context := rfl
  apply congruence.runWithin spareLevels context _ _ _ _ levels tokens machine machine rfl
  · intro left right same
    rw [same]
  · intro first second alike
    rcases alike with cut | equal
    · exact Or.inl (cut.map _)
    · exact Or.inr (by rw [equal])
  · -- With no levels left the shorter run is cut short, whatever the longer one does.
    intro tokens left right same
    exact Or.inl trivial
  · intro run other runs left right same name primitive bound
    apply congruence.perform same runs
    · intro direct
      rw [same]
      exact Or.inr (perform_of_direct direct _ _ _ _ _ _ left)
    · intro loops
      apply congruence.loop same runs rounds spareRounds
      intro body left right same
      exact Or.inl trivial
    · intro loads
      apply congruence.load same runs
      · intro text left right same
        rw [same]
      · intro name body left right same
        rw [same]

/-- A run that ended below the recursion limit ends in the same way, on the same stacks,
arena and definitions, from every counter that leaves at least as many levels. -/
theorem run_eq_of_levels_le {environment : Environment} {rounds : Nat} {tokens : List Text}
    {machine : Machine} {outcome : Outcome}
    (ran : machine.run environment rounds tokens = outcome) (ended : outcome.HasEnded)
    (unlimited : ∀ limit after, outcome ≠ .raised (.recursionLimit limit) after)
    {depth maxDepth : Nat} (room : environment.maxDepth - machine.depth ≤ maxDepth - depth)
    {otherRounds : Nat} (enough : rounds ≤ otherRounds) :
    (machine.withDepth depth).run { environment with maxDepth } otherRounds tokens =
      outcome.map (withDepth depth) := by
  obtain ⟨spareLevels, levels⟩ := Nat.exists_eq_add_of_le room
  obtain ⟨spareRounds, total⟩ := Nat.exists_eq_add_of_le enough
  have longer := runWithin_of_spare environment maxDepth rounds spareRounds
    (environment.maxDepth - machine.depth) spareLevels tokens machine
  rw [← levels, ← total] at longer
  rcases longer with cut | equal
  · rw [← run, ran] at cut
    exact absurd cut (Outcome.not_cutShort ended unlimited)
  · rw [← run, ran] at equal
    rw [run, runWithin_withDepth]
    simp only [depth_withDepth]
    rw [equal]

theorem run_eq_of_levels_le_discard :
    ∃ environment : Environment, ∃ machine : Machine,
      environment.maxDepth = 9 ∧ machine.depth = 7 ∧
      machine.run environment 0 ["f".toList] =
        .raised (.negativeDiscard (-1)) { machine with main := [] } ∧
      (machine.withDepth 0).run { environment with maxDepth := 2 } 5 ["f".toList] =
        .raised (.negativeDiscard (-1)) { machine with main := [], depth := 0 } := by
  let environment : Environment :=
    { context := ⟨[("debug.remove".toList, .native .discard)]⟩, maxDepth := 9 }
  let machine : Machine :=
    { main := ["-1".toList], user := ⟨[("f".toList, .defined "debug.remove".toList)]⟩,
      depth := 7 }
  have called : (machine.withDepth 8).call (runWithin environment 0 1) "f".toList
      (.ofBody "debug.remove".toList) =
        (machine.withDepth 8).runWithin environment 0 1 ["debug.remove".toList] := by
    have template : Template.ofBody "debug.remove".toList =
        ⟨["debug.remove".toList.map Segment.char]⟩ := by decide +kernel
    rw [call, template]
    rfl
  have stepped : (machine.withDepth 8).step environment 0 (runWithin environment 0 1)
      "f".toList = .raised (.negativeDiscard (-1)) { machine with main := [], depth := 8 } := by
    have dispatched : (machine.withDepth 8).step environment 0 (runWithin environment 0 1)
        "f".toList = ((machine.withDepth 8).call (runWithin environment 0 1) "f".toList
          (.ofBody "debug.remove".toList)).contain := rfl
    rw [dispatched, called]
    decide
  have ran : machine.run environment 0 ["f".toList] =
      .raised (.negativeDiscard (-1)) { machine with main := [] } := by
    have entered : machine.run environment 0 ["f".toList] =
        ((machine.withDepth 8).step environment 0 (runWithin environment 0 1) "f".toList
          |>.andThen (steps (step environment 0 (runWithin environment 0 1)) [])).map
            fun after => after.withDepth (after.depth - 1) := rfl
    rw [entered, stepped]
    rfl
  refine ⟨environment, machine, rfl, rfl, ran, ?_⟩
  exact run_eq_of_levels_le ran trivial (fun limit after limited => by cases limited)
    (by decide) (by decide)

end Machine

end Concatenative
