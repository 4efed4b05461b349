import Concatenative.Proofs.Reachability

/-!
The invariant of the state. Slots hold bracketed text and users bind names without
blanks to bodies; a fresh machine is like that, and every run keeps it so, however it
ends. The arena never shrinks and no name is unbound, so a handle that was live stays
live, what it names is a list and never another handle, and a token with a blank in it
is no name.
-/

namespace Concatenative

open Text

def Text.IsSpaced (text : Text) : Prop := ∃ c ∈ text, isBlank c = true

def ListText.IsBracketed (text : Text) : Prop :=
  text.head? = some '[' ∧ text.getLast? = some ']'

theorem ListText.isBracketed_render (elements : List Text) : IsBracketed (render elements) := by
  rw [render_eq]
  exact ⟨rfl, List.getLast?_concat⟩

theorem ListText.isSpaced_render (elements : List Text) : IsSpaced (render elements) :=
  ⟨' ', by simp [render_eq], isBlank_space⟩

theorem space_mem_errorIn (op : Text) : ' ' ∈ errorIn op := by
  unfold errorIn
  exact List.mem_append_left _ (List.mem_append_left op (by decide))

theorem Fault.isSpaced_message (fault : Fault) : IsSpaced fault.message := by
  refine ⟨' ', ?_, isBlank_space⟩
  cases fault <;> simp only [message, List.mem_append, space_mem_errorIn, true_or]

theorem Fault.head?_message (fault : Fault) : fault.message.head? = some 'E' := by
  have opens : ∀ op rest : Text, (errorIn op ++ rest).head? = some 'E' := fun _ _ => rfl
  cases fault <;> simp only [message, List.append_assoc, opens]

theorem Handle.read?_of_isBracketed {text : Text} (bracketed : ListText.IsBracketed text) :
    read? text = none := by
  cases text with
  | nil => rfl
  | cons c rest =>
    obtain rfl : c = '[' := by simpa using bracketed.1
    rfl

namespace Arena

def IsBracketed (arena : Arena) : Prop := ∀ slot ∈ arena.slots, ListText.IsBracketed slot

theorem IsBracketed.mint {arena : Arena} (bracketed : arena.IsBracketed) (elements : List Text) :
    (arena.mint (ListText.render elements)).2.IsBracketed := by
  intro slot mem
  rw [slots_mint, Array.mem_push] at mem
  rcases mem with mem | rfl
  · exact bracketed slot mem
  · exact ListText.isBracketed_render elements

theorem IsBracketed.set {arena : Arena} (bracketed : arena.IsBracketed) (handle : Handle)
    (elements : List Text) : (arena.set handle (ListText.render elements)).IsBracketed := by
  intro slot mem
  rcases Array.mem_or_eq_of_mem_setIfInBounds mem with mem | rfl
  · exact bracketed slot mem
  · exact ListText.isBracketed_render elements

theorem IsBracketed.read?_eq_none {arena : Arena} (bracketed : arena.IsBracketed)
    {handle : Handle} {slot : Text} (found : arena.get? handle = some slot) :
    Handle.read? slot = none :=
  Handle.read?_of_isBracketed (bracketed slot (Array.mem_of_getElem? found))

theorem IsBracketed.derefOrKeep_idem {arena : Arena} (bracketed : arena.IsBracketed)
    (text : Text) : arena.derefOrKeep (arena.derefOrKeep text) = arena.derefOrKeep text := by
  cases found : arena.deref? text with
  | none => simp only [derefOrKeep, found, Option.getD_none]
  | some slot =>
    obtain ⟨handle, -, live⟩ := Option.bind_eq_some_iff.1 found
    have unread : arena.deref? slot = none := by
      rw [deref?, bracketed.read?_eq_none live, Option.bind_none]
    simp only [derefOrKeep, found, unread, Option.getD_some, Option.getD_none]

end Arena

namespace Machine

/-- Slots hold bracketed text, and names without blanks are bound to definitions. The empty name
is a name only where a native module defines it. -/
structure IsSound (environment : Environment) (machine : Machine) : Prop where
  slots : machine.arena.IsBracketed
  names : ∀ name binding, machine.user.get? name = some binding →
    ¬IsSpaced name ∧ ∃ definition, binding = .defined definition
  nonempty : machine.user.contains [] = true → environment.loader.Defines []

structure Upholds (environment : Environment) (before after : Machine) : Prop where
  size_le : before.arena.slots.size ≤ after.arena.slots.size
  live : ∀ handle, before.arena.isLive handle = true → after.arena.isLive handle = true
  sound : after.IsSound environment
  unread : ∀ handle slot, after.arena.get? handle = some slot → Handle.read? slot = none
  single : ∀ text, after.arena.derefOrKeep (after.arena.derefOrKeep text) =
    after.arena.derefOrKeep text
  bound : ∀ name, before.user.contains name = true → after.user.contains name = true
  words : ¬environment.loader.Defines [] →
    ∀ name, after.user.contains name = true → IsWord name
  spaced : ∀ token, IsSpaced token → after.user.get? token = none
  lists : ∀ elements, after.user.get? (ListText.render elements) = none
  faults : ∀ fault : Fault, after.user.get? fault.message = none

theorem isSound_fresh (environment : Environment) : IsSound environment {} where
  slots := by intro slot mem; simp at mem
  names := by intro name binding found; cases found
  nonempty := by intro bound; cases bound

theorem not_isSpaced_of_isWord {name : Text} (isWord : IsWord name) : ¬IsSpaced name := by
  rintro ⟨c, mem, blank⟩
  rw [isWord.2 c mem] at blank
  cases blank

namespace IsSound

variable {environment : Environment} {machine : Machine} (sound : machine.IsSound environment)

include sound

theorem get?_eq_none {token : Text} (spaced : IsSpaced token) : machine.user.get? token = none := by
  cases found : machine.user.get? token with
  | none => rfl
  | some binding => exact absurd spaced (sound.names token binding found).1

theorem isWord (unnamed : ¬environment.loader.Defines []) {name : Text}
    (bound : machine.user.contains name = true) : IsWord name := by
  obtain ⟨binding, found⟩ := Option.isSome_iff_exists.1 bound
  refine ⟨?_, fun c mem => ?_⟩
  · rintro rfl
    exact unnamed (sound.nonempty bound)
  · rw [← Bool.not_eq_true]
    exact fun blank => (sound.names name binding found).1 ⟨c, mem, blank⟩

theorem define {name : Text} (solid : ¬IsSpaced name)
    (allowed : name = [] → environment.loader.Defines []) (body : Text) :
    (machine.define name body).IsSound environment where
  slots := sound.slots
  names other binding found := by
    simp only [Machine.define, Dictionary.define, Dictionary.get?_insert] at found
    split at found
    · next same =>
      rw [same]
      exact ⟨solid, _, (Option.some.inj found).symm⟩
    · exact sound.names other binding found
  nonempty bound := by
    simp only [Machine.define, Dictionary.define, Dictionary.contains, Dictionary.get?_insert]
      at bound
    split at bound
    · next same => exact allowed same.symm
    · exact sound.nonempty bound

end IsSound

theorem contains_define (machine : Machine) (name body : Text) {other : Text}
    (bound : machine.user.contains other = true) :
    (machine.define name body).user.contains other = true := by
  simp only [Machine.define, Dictionary.define, Dictionary.contains, Dictionary.get?_insert]
  split
  · rfl
  · exact bound

theorem Upholds.of_isSound {environment : Environment} {before after : Machine}
    (sound : after.IsSound environment)
    (size_le : before.arena.slots.size ≤ after.arena.slots.size)
    (bound : ∀ name, before.user.contains name = true → after.user.contains name = true) :
    before.Upholds environment after where
  size_le := size_le
  live handle isLive := by
    unfold Arena.isLive at isLive ⊢
    simp only [decide_eq_true_eq] at isLive ⊢
    omega
  sound := sound
  unread _ _ := sound.slots.read?_eq_none
  single := sound.slots.derefOrKeep_idem
  bound := bound
  words unnamed _ := sound.isWord unnamed
  spaced _ := sound.get?_eq_none
  lists elements := sound.get?_eq_none (ListText.isSpaced_render elements)
  faults fault := sound.get?_eq_none fault.isSpaced_message

namespace Reaches

variable {environment : Environment} {start machine : Machine}
  (reached : Reaches environment start machine)

include reached

theorem isSound (solid : ∀ name, environment.loader.Defines name → ¬IsSpaced name)
    (sound : start.IsSound environment) : machine.IsSound environment := by
  induction reached with
  | start => exact sound
  | main _ _ ih | depth _ _ ih | retain _ _ _ ih => exact ⟨ih.slots, ih.names, ih.nonempty⟩
  | mint _ _ elements ih => exact ⟨ih.slots.mint elements, ih.names, ih.nonempty⟩
  | overwrite _ _ handle elements ih =>
    exact ⟨ih.slots.set handle elements, ih.names, ih.nonempty⟩
  | define _ allowed body ih =>
    rcases allowed with ⟨-, isWord⟩ | ⟨-, defines⟩
    · exact ih.define (not_isSpaced_of_isWord isWord) (fun empty => absurd empty isWord.1) body
    · exact ih.define (solid _ defines) (fun empty => empty ▸ defines) body

theorem size_le : start.arena.slots.size ≤ machine.arena.slots.size := by
  induction reached with
  | start => exact Nat.le_refl _
  | main _ _ ih | depth _ _ ih | retain _ _ _ ih | define _ _ _ ih => exact ih
  | mint _ _ elements ih =>
    rw [Arena.slots_mint, Array.size_push]
    omega
  | overwrite _ _ handle elements ih => rwa [Arena.size_slots_set]

theorem contains {name : Text} (bound : start.user.contains name = true) :
    machine.user.contains name = true := by
  induction reached with
  | start => exact bound
  | main _ _ ih | depth _ _ ih | retain _ _ _ ih | mint _ _ _ ih | overwrite _ _ _ _ ih => exact ih
  | define _ _ body ih => exact contains_define _ _ body ih

end Reaches

section Runs

variable {environment : Environment}
  (solid : ∀ name, environment.loader.Defines name → ¬IsSpaced name)
  {machine : Machine} (sound : machine.IsSound environment)

include solid sound

theorem upholds_run (rounds : Nat) (tokens : List Text) :
    machine.Upholds environment (machine.run environment rounds tokens).machine := by
  have reached := (isWithin_run environment rounds tokens machine).machine
  exact .of_isSound (reached.isSound solid sound) reached.size_le fun _ => reached.contains

theorem upholds_evaluate (rounds : Nat) (source : Text) :
    machine.Upholds environment (machine.evaluate environment rounds source).machine := by
  -- The blocks of the source are in the arena before the first token runs.
  obtain ⟨bracketed, grown⟩ : (parseMinting machine.arena source).2.IsBracketed ∧
      machine.arena.slots.size ≤ (parseMinting machine.arena source).2.slots.size := by
    refine @Node.mintAll_keeps
      (fun arena => arena.IsBracketed ∧ machine.arena.slots.size ≤ arena.slots.size)
      (fun arena elements keeps => ⟨keeps.1.mint elements, ?_⟩) machine.arena
      ⟨sound.slots, Nat.le_refl _⟩ (Node.read source)
    rw [Arena.slots_mint, Array.size_push]
    omega
  have minted : IsSound environment { machine with arena := (parseMinting machine.arena source).2 } :=
    ⟨bracketed, sound.names, sound.nonempty⟩
  have upheld := upholds_run solid minted rounds (parseMinting machine.arena source).1
  exact .of_isSound upheld.sound (Nat.le_trans grown upheld.size_le) upheld.bound

end Runs

/-- Every run keeps a sound machine sound, as long as native modules define names without blanks.
If none of them defines the empty name, users bind words only. -/
theorem runs_uphold_soundness {environment : Environment}
    (solid : ∀ name, environment.loader.Defines name → ¬IsSpaced name) :
    IsSound environment {} ∧
    ∀ machine : Machine, machine.IsSound environment → ∀ rounds,
      (∀ tokens, machine.Upholds environment (machine.run environment rounds tokens).machine) ∧
      (∀ source, machine.Upholds environment (machine.execute environment rounds source).machine) ∧
      ∀ source,
        machine.Upholds environment (machine.evaluate environment rounds source).machine := by
  refine ⟨isSound_fresh environment, fun machine sound rounds => ⟨fun tokens => ?_,
    fun source => ?_, fun source => ?_⟩⟩
  · exact upholds_run solid sound rounds tokens
  · exact upholds_run solid sound rounds (parse source)
  · exact upholds_evaluate solid sound rounds source

theorem runs_uphold_soundness_native :
    ∃ environment : Environment, ∃ after : Machine,
      environment.loader.Defines "pair".toList ∧
      ({} : Machine).run environment 0 ["m".toList, "import".toList] = .ok after ∧
      after.user.contains "pair".toList = true ∧
      ({} : Machine).Upholds environment after := by
  let steps : List NativeStep :=
    [.define "pair".toList "[ [ $2 $1 ] ]".toList, .push "paired up".toList]
  let environment : Environment :=
    { context := Dictionary.natives, loader := fun _ => .ok (.native steps) }
  have solid : ∀ name, environment.loader.Defines name → ¬IsSpaced name := by
    rintro name ⟨found, loaded, body, same, mem⟩
    obtain rfl : steps = loaded := by
      injection same with same
      injection same
    obtain ⟨rfl, -⟩ : name = "pair".toList ∧ body = "[ [ $2 $1 ] ]".toList := by
      simpa [steps] using mem
    exact not_isSpaced_of_isWord (by decide)
  have ran : ({} : Machine).run environment 0 ["m".toList, "import".toList] =
      .ok { main := ["paired up".toList],
            user := ⟨[("pair".toList, .defined "[ [ $2 $1 ] ]".toList)]⟩ } := by
    decide +kernel
  have upheld := ((runs_uphold_soundness solid).2 {} (isSound_fresh environment) 0).1
    ["m".toList, "import".toList]
  rw [ran] at upheld
  exact ⟨environment, _, ⟨[], steps, _, rfl, List.mem_cons_self⟩, ran, rfl, upheld⟩

/-- A native module whose names have no blanks defines the empty name, and a fresh machine that
loads it binds it. -/
theorem run_binds_empty_name :
    ∃ environment : Environment, ∃ after : Machine,
      (∀ name, environment.loader.Defines name → ¬IsSpaced name) ∧
      ({} : Machine).run environment 0 ["m".toList, "import".toList] = .ok after ∧
      after.user.get? [] = some (.defined "[ 7 ]".toList) ∧
      ¬∀ name binding, after.user.get? name = some binding → name ≠ [] := by
  let steps : List NativeStep := [.define [] "[ 7 ]".toList]
  let environment : Environment :=
    { context := Dictionary.natives, loader := fun _ => .ok (.native steps) }
  have solid : ∀ name, environment.loader.Defines name → ¬IsSpaced name := by
    rintro name ⟨found, loaded, body, same, mem⟩ ⟨c, inside, -⟩
    obtain rfl : steps = loaded := by
      injection same with same
      injection same
    obtain ⟨rfl, -⟩ : name = [] ∧ body = "[ 7 ]".toList := by simpa [steps] using mem
    cases inside
  have ran : ({} : Machine).run environment 0 ["m".toList, "import".toList] =
      .ok { user := ⟨[([], .defined "[ 7 ]".toList)]⟩ } := by
    decide +kernel
  exact ⟨environment, _, solid, ran, rfl, fun words => words [] _ rfl rfl⟩

end Machine

end Concatenative
