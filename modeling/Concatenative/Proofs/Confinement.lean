import Concatenative.Proofs.Reachability

/-!
Effects are confined to the primitives that are bound. Bodies are put together and
run as programs go on, but no body can name a primitive that no name is bound to, so
the two dictionaries before a run tell what the run leaves alone.
-/

namespace Concatenative

/-- What a run from a machine leaves alone, by the primitives that no name is bound to. -/
structure Outcome.IsConfined (environment : Environment) (machine : Machine)
    (outcome : Outcome) : Prop where
  size : ¬ machine.BindsAny environment [.list .copy, .list .append, .load] →
    outcome.machine.arena.slots.size = machine.arena.slots.size
  arena : ¬ machine.BindsAny environment [.list .copy, .list .append, .load] →
    ¬ machine.BindsAny environment [.list .set, .list .insert, .list .remove] →
    outcome.machine.arena = machine.arena
  retain : ¬ machine.BindsAny environment [.stash, .unstash] →
    outcome.machine.retain = machine.retain
  user : ¬ machine.BindsAny environment [.define, .load] →
    outcome.machine.user = machine.user
  error : ¬ machine.BindsAny environment [.discard] →
    ∀ count after, outcome ≠ .raised (.negativeDiscard count) after

namespace Machine

theorem bindsAny_of_mayDefine {environment : Environment} {start : Machine} {name : Text}
    (allowed : start.MayDefine environment name) :
    start.BindsAny environment [.define, .load] := by
  rcases allowed with ⟨bound, -⟩ | ⟨bound, -⟩
  · exact ⟨.define, by simp, bound⟩
  · exact ⟨.load, by simp, bound⟩

namespace Reaches

variable {environment : Environment} {start machine : Machine}
  (reached : Reaches environment start machine)

include reached

theorem size_eq (unbound : ¬ start.BindsAny environment [.list .copy, .list .append, .load]) :
    machine.arena.slots.size = start.arena.slots.size := by
  induction reached with
  | start => rfl
  | main _ _ ih | depth _ _ ih | retain _ _ _ ih | define _ _ _ ih => exact ih
  | mint _ bound => exact absurd bound unbound
  | overwrite _ _ handle elements ih => rwa [Arena.size_slots_set]

theorem arena_eq (unbound : ¬ start.BindsAny environment [.list .copy, .list .append, .load])
    (unchanging : ¬ start.BindsAny environment [.list .set, .list .insert, .list .remove]) :
    machine.arena = start.arena := by
  induction reached with
  | start => rfl
  | main _ _ ih | depth _ _ ih | retain _ _ _ ih | define _ _ _ ih => exact ih
  | mint _ bound => exact absurd bound unbound
  | overwrite _ bound => exact absurd bound unchanging

theorem retain_eq (unbound : ¬ start.BindsAny environment [.stash, .unstash]) :
    machine.retain = start.retain := by
  induction reached with
  | start => rfl
  | main _ _ ih | depth _ _ ih | mint _ _ _ ih | overwrite _ _ _ _ ih | define _ _ _ ih => exact ih
  | retain _ bound => exact absurd bound unbound

theorem user_eq (unbound : ¬ start.BindsAny environment [.define, .load]) :
    machine.user = start.user := by
  induction reached with
  | start => rfl
  | main _ _ ih | depth _ _ ih | retain _ _ _ ih | mint _ _ _ ih | overwrite _ _ _ _ ih => exact ih
  | define _ allowed => exact absurd (bindsAny_of_mayDefine allowed) unbound

end Reaches

theorem isConfined_run (environment : Environment) (rounds : Nat) (tokens : List Text)
    (machine : Machine) :
    (machine.run environment rounds tokens).IsConfined environment machine := by
  have within := isWithin_run environment rounds tokens machine
  have reached := within.machine
  refine ⟨reached.size_eq, reached.arena_eq, reached.retain_eq, reached.user_eq, ?_⟩
  intro unbound count after raised
  rw [raised] at within
  exact unbound ⟨.discard, by simp, within.2.2⟩

/-- Whatever a run of tokens or of source goes through, its effects are those of the
primitives bound before it. -/
theorem runs_confine_effects (environment : Environment) (rounds : Nat) (machine : Machine) :
    (∀ tokens, (machine.run environment rounds tokens).IsConfined environment machine) ∧
    ∀ source, (machine.execute environment rounds source).IsConfined environment machine :=
  ⟨fun tokens => isConfined_run environment rounds tokens machine,
    fun source => isConfined_run environment rounds (parse source) machine⟩

theorem runs_confine_effects_overwriting :
    ∃ environment : Environment, ∃ machine : Machine,
      machine.Binds environment (.list .set) ∧ machine.arena.slots.size = 1 ∧
      (machine.run environment 0 ["f".toList]).machine.arena.slots.size = 1 := by
  let makers : List Primitive := [.list .copy, .list .append, .load]
  let environment : Environment :=
    { context := ⟨Dictionary.natives.entries.filter
        fun entry => ∀ primitive ∈ makers, entry.2 ≠ .native primitive⟩ }
  let machine : Machine :=
    { arena := ⟨#["[ 0 ]".toList]⟩,
      user := ⟨[("f".toList, .defined "[ [ 7 0 &1 set ] 3 rep ]".toList)]⟩ }
  have unbound : ¬ machine.BindsAny environment makers := by
    rintro ⟨primitive, mem, name, user | context⟩
    · have entry := Dictionary.mem_entries_of_get? user
      simp [machine] at entry
    · have entry := List.mem_filter.1 (Dictionary.mem_entries_of_get? context)
      exact of_decide_eq_true entry.2 primitive mem rfl
  refine ⟨environment, machine, ⟨"set".toList, .inr (by decide)⟩, rfl, ?_⟩
  exact ((runs_confine_effects environment 0 machine).1 ["f".toList]).size unbound

end Machine

end Concatenative
