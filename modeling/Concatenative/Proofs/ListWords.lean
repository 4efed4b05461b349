import Concatenative.Proofs.Comparisons
import Concatenative.Proofs.Invocation
import Concatenative.Proofs.ListOperations
import Concatenative.Proofs.References
import Concatenative.Proofs.StackWords

/-!
Programs that work on a list through a reference. The reference is a word like any other: it can
be copied, put aside and handed to a list primitive, and what it names changes in its slot while
the word stays the same. A body can stand behind a reference too, and a loop runs it as long as it
leaves the true value, which a count of the rounds still to come brings to an end.
-/

namespace Concatenative

open Text ListText Library

namespace Handle

theorem isAtom_toText (handle : Handle) : Node.IsAtom handle.toText := by
  refine ⟨?_, ?_, ?_⟩ <;> rintro ⟨⟩

theorem dollar_not_mem_toText (handle : Handle) : '$' ∉ handle.toText := by
  rw [toText, List.mem_cons, not_or]
  exact ⟨by decide, fun mem => absurd (Decimal.isDigit_of_mem_write mem) (by decide)⟩

end Handle

namespace Arena

theorem derefOrKeep_toText {arena : Arena} {handle : Handle} {body : Text}
    (live : arena.get? handle = some body) : arena.derefOrKeep handle.toText = body := by
  rw [derefOrKeep, deref?, Handle.read?_toText, Option.bind_some, live]
  rfl

theorem set_set (arena : Arena) (handle : Handle) (first second : Text) :
    (arena.set handle first).set handle second = arena.set handle second := by
  simp [set]

theorem get?_set_of_ne {handle other : Handle} (apart : handle ≠ other) (arena : Arena)
    (body : Text) : (arena.set handle body).get? other = arena.get? other := by
  rw [get?_set, if_neg fun same => apart (Handle.index_injective same.1)]

theorem get?_set_self {arena : Arena} {handle : Handle} {old : Text}
    (live : arena.get? handle = some old) (body : Text) :
    (arena.set handle body).get? handle = some body := by
  obtain ⟨inBounds, -⟩ := Array.getElem?_eq_some_iff.1 live
  rw [get?_set, if_pos ⟨rfl, inBounds⟩]

theorem set_of_get? {arena : Arena} {handle : Handle} {body : Text}
    (live : arena.get? handle = some body) : arena.set handle body = arena := by
  obtain ⟨inBounds, same⟩ := Array.getElem?_eq_some_iff.1 live
  rw [set, ← same, Array.setIfInBounds, dif_pos inBounds, Array.set_getElem_self]

theorem get?_mint_of_get? {arena : Arena} {handle : Handle} {old : Text}
    (live : arena.get? handle = some old) (body : Text) :
    (arena.mint body).2.get? handle = some old := by
  obtain ⟨inBounds, -⟩ := Array.getElem?_eq_some_iff.1 live
  rw [get?, slots_mint, Array.getElem?_push, if_neg (Nat.ne_of_lt inBounds)]
  exact live

namespace HasRoom

variable {arena : Arena} (room : arena.HasRoom)

include room

theorem get?_mint_nextHandle (body : Text) :
    (arena.mint body).2.get? arena.nextHandle = some body := by
  rw [get?, room.nextHandle_index, slots_mint, Array.getElem?_push_size]

theorem ne_nextHandle {handle : Handle} {old : Text} (live : arena.get? handle = some old) :
    handle ≠ arena.nextHandle := by
  rintro rfl
  obtain ⟨inBounds, -⟩ := Array.getElem?_eq_some_iff.1 live
  rw [room.nextHandle_index] at inBounds
  exact Nat.lt_irrefl _ inBounds

end HasRoom

end Arena

theorem ListOp.resolves_set {arena : Arena} {handle : Handle} {old : Text}
    (live : arena.get? handle = some old) {list : List Text}
    (all : ∀ item ∈ list, IsElement item) :
    Resolves (arena.set handle (render list)) handle.toText (.slot handle) list :=
  resolves_slot_iff.2 ⟨_, Arena.get?_set_self live _, items_render all⟩

theorem Library.handle_of_get? {name : Text} {binding : Binding}
    (bound : dictionary.get? name = some binding) : Handle.read? name = none := by
  have all : ∀ name ∈ names, Handle.read? name = none := by
    decide +kernel
  exact all name (mem_names_of_get? bound)

namespace Machine

section

variable {environment : Environment} {rounds levels : Nat} {machine first last : Machine}
  {words : List Text}

theorem KeepsWords.of_user_eq (keeps : machine.KeepsWords environment words) {other : Machine}
    (same : other.user = machine.user) : other.KeepsWords environment words where
  library := keeps.library
  words := by rw [same]; exact keeps.words
  integers := by rw [same]; exact keeps.integers
  spaced := by rw [same]; exact keeps.spaced

theorem isLiteral_toText (library : environment.context = dictionary) (handle : Handle)
    (unbound : machine.user.get? handle.toText = none) :
    machine.IsLiteral environment handle.toText := by
  refine ⟨by simp [Handle.toText], ?_⟩
  rw [lookup, unbound, library, Option.none_or]
  cases bound : dictionary.get? handle.toText with
  | none => rfl
  | some binding =>
    have unnamed := handle_of_get? bound
    rw [Handle.read?_toText] at unnamed
    cases unnamed

theorem KeepsWords.runsTo_stash (keeps : machine.KeepsWords environment words)
    (used : ">r".toList ∈ words) (value : Text) (below : List Text) :
    RunsTo environment rounds levels [">r".toList]
      { machine with main := value :: below }
      { machine with main := below, retain := value :: machine.retain } := by
  have known : machine.Knows environment Primitive.stash.name := keeps.knows used
  exact runsTo_native known (by decide) fun depth room => rfl

theorem KeepsWords.runsTo_unstash (keeps : machine.KeepsWords environment words)
    (used : "r>".toList ∈ words) (value : Text) (below retained : List Text) :
    RunsTo environment rounds levels ["r>".toList]
      { machine with main := below, retain := value :: retained }
      { machine with main := value :: below, retain := retained } := by
  have known : { machine with retain := value :: retained }.Knows environment
      Primitive.unstash.name := keeps.knows used
  exact runsTo_native known (by decide) fun depth room => rfl

theorem KeepsWords.runsTo_list (keeps : machine.KeepsWords environment words) {op : ListOp}
    (used : (Primitive.list op).name ∈ words) {operands cells : List Text} {after : Arena}
    (replaces : ListOp.Replaces machine op operands cells after) (below : List Text) :
    RunsTo environment rounds levels [(Primitive.list op).name]
      { machine with main := operands ++ below }
      { machine with main := cells ++ below, arena := after } := by
  have listed : Primitive.list op ∈ Primitive.all := by
    cases op <;> decide
  refine runsTo_native (keeps.knows used) listed fun depth room => ?_
  rw [perform_withDepth environment rounds _ rfl]
  exact congrArg (Outcome.map (withDepth depth)) (replaces below)

theorem evaluatesTo_reference {handle : Handle} {body : Text}
    (live : first.arena.get? handle = some body) (unnamed : Handle.read? body = none)
    (runs : EvaluatesTo environment rounds levels body first last) :
    EvaluatesTo environment rounds levels handle.toText first last := by
  intro depth room
  have evaluated := runs depth room
  have stored : (first.withDepth depth).arena.get? handle = some body := live
  rw [evalBody, eval_push, unnamed] at evaluated
  rw [evalBody, eval_push, Handle.read?_toText]
  simp only [stored]
  exact evaluated

/-- A body that leaves the true value as long as rounds are to come, and then the false one,
ends the loop. -/
theorem loopRounds_of_variant {body : Text} {invariant : Nat → Machine → Prop}
    {done : Machine → Prop}
    (continues : ∀ left machine, invariant (left + 1) machine →
      ∃ next, EvaluatesTo environment rounds levels body machine (next.push (truth true)) ∧
        invariant left next)
    (stops : ∀ machine, invariant 0 machine →
      ∃ last, EvaluatesTo environment rounds levels body machine (last.push (truth false)) ∧
        done last)
    (left : Nat) : ∀ {machine : Machine} {budget : Nat}, invariant left machine →
      left < budget →
        ∃ last, done last ∧
          ∀ depth, depth + levels ≤ environment.maxDepth →
            (machine.withDepth depth).loopRounds (run environment rounds) body budget =
              .ok (last.withDepth depth) := by
  induction left with
  | zero =>
    intro machine budget holds within
    obtain ⟨spare, rfl⟩ : ∃ spare, budget = spare + 1 := ⟨budget - 1, by omega⟩
    obtain ⟨last, evaluates, isDone⟩ := stops machine holds
    refine ⟨last, isDone, fun depth room => ?_⟩
    rw [loopRounds, evaluates depth room]
    rfl
  | succ left ih =>
    intro machine budget holds within
    obtain ⟨spare, rfl⟩ : ∃ spare, budget = spare + 1 := ⟨budget - 1, by omega⟩
    obtain ⟨next, evaluates, holdsNext⟩ := continues left machine holds
    obtain ⟨last, isDone, loops⟩ := ih holdsNext (Nat.lt_of_succ_lt_succ within)
    refine ⟨last, isDone, fun depth room => ?_⟩
    rw [loopRounds, evaluates depth room]
    exact loops depth room

theorem KeepsWords.runsTo_loop (keeps : machine.KeepsWords environment words)
    (used : "loop".toList ∈ words) {body : Text} {invariant : Nat → Machine → Prop}
    {done : Machine → Prop}
    (continues : ∀ left machine, invariant (left + 1) machine →
      ∃ next, EvaluatesTo environment rounds levels body machine (next.push (truth true)) ∧
        invariant left next)
    (stops : ∀ machine, invariant 0 machine →
      ∃ last, EvaluatesTo environment rounds levels body machine (last.push (truth false)) ∧
        done last)
    {left : Nat} (within : left < rounds) {below : List Text}
    (start : invariant left { machine with main := below }) :
    ∃ last, done last ∧
      RunsTo environment rounds levels ["loop".toList]
        { machine with main := body :: below } last := by
  obtain ⟨last, isDone, loops⟩ := loopRounds_of_variant continues stops left start within
  have known : machine.Knows environment Primitive.loop.name := keeps.knows used
  exact ⟨last, isDone, runsTo_native known (by decide) loops⟩

end

end Machine

end Concatenative
