import Concatenative.Machine.Lists
import Concatenative.Proofs.Elements

/-!
The list primitives are operations on mathematical lists. An operand stands for
a place and a list of elements; each primitive answers about that list, or leaves
a changed list in the same place or in a fresh slot, where it reads back.
-/

namespace Concatenative

open ListText

/-- The next slot has a number of its own: slots are counted in 64-bit words. -/
def Arena.HasRoom (arena : Arena) : Prop := arena.slots.size + 1 < Decimal.wordBound

theorem Arena.HasRoom.nextHandle_index {arena : Arena} (room : arena.HasRoom) :
    arena.nextHandle.index = arena.slots.size := by
  unfold Arena.HasRoom at room
  simp only [Handle.index, Arena.nextHandle]
  omega

namespace ListOp

/-- What a list operand stands for: a live handle for the list in its slot, and text
that starts with a bracket for the list it spells. -/
inductive Resolves (arena : Arena) : Text → Target → List Text → Prop where
  | slot {token body : Text} {handle : Handle} (named : Handle.read? token = some handle)
      (live : arena.get? handle = some body) : Resolves arena token (.slot handle) (items body)
  | inline {token : Text} (list : isList token = true) : Resolves arena token .inline (items token)

/-- A list was put back where it came from: a slot is overwritten under its own
handle and no other slot is touched, while inline text leaves the arena alone. -/
def Target.Updates (target : Target) (before after : Arena) (stored : Text) : Prop :=
  match target with
  | .slot handle => stored = handle.toText ∧ after.isLive handle = true ∧
      ∀ index ≠ handle.index, after.slots[index]? = before.slots[index]?
  | .inline => after = before ∧ isList stored = true

/-- The handle was not live, now names a slot that reads back as the list, and every
slot there was before is as it was. -/
structure IsFresh (before after : Arena) (handle : Handle) (list : List Text) : Prop where
  dead : before.isLive handle = false
  reads : Resolves after handle.toText (.slot handle) list
  kept : ∀ index < before.slots.size, after.slots[index]? = before.slots[index]?

/-- The operation takes the operands, topmost first, from any stack, puts the cells
in their place, leaves this arena and changes nothing else. -/
def Replaces (machine : Machine) (op : ListOp) (operands cells : List Text) (after : Arena) : Prop :=
  ∀ below, { machine with main := operands ++ below }.performList op =
    .ok { machine with main := cells ++ below, arena := after }

theorem Resolves.operand_eq {arena : Arena} {token : Text} {target : Target} {list : List Text}
    (resolves : Resolves arena token target list) (op : ListOp) :
    operand op arena token = .ok ⟨target, list⟩ := by
  cases resolves with
  | slot named live => simp only [operand, named, live]
  | inline isList =>
    have unnamed : Handle.read? token = none := by
      cases token with
      | nil => rfl
      | cons c rest =>
        obtain rfl : c = '[' := by simpa [ListText.isList] using isList
        rfl
    simp only [operand, unnamed, isList, if_true]

theorem Resolves.isElement {arena : Arena} {token : Text} {target : Target} {list : List Text}
    (resolves : Resolves arena token target list) {item : Text} (mem : item ∈ list) :
    IsElement item := by
  cases resolves with
  | slot named live => exact isElement_of_mem_items mem
  | inline isList => exact isElement_of_mem_items mem

theorem position_eq {op : ListOp} {index : Text} {place bound : Nat} (size : Nat)
    (read : Integer.read? index = some (place : Int)) (inside : place < bound) :
    position op index size bound = .ok place := by
  have range : (0 : Int) ≤ place ∧ (place : Int) < bound := by omega
  simp only [position, read, if_pos range, Int.toNat_natCast]

theorem resolves_slot_iff {arena : Arena} {handle : Handle} {list : List Text} :
    Resolves arena handle.toText (.slot handle) list ↔
      ∃ body, arena.get? handle = some body ∧ items body = list := by
  constructor
  · rintro ⟨named, live⟩
    exact ⟨_, live, rfl⟩
  · rintro ⟨body, live, rfl⟩
    exact .slot (Handle.read?_toText handle) live

theorem resolves_inline_iff {arena : Arena} {token : Text} {list : List Text} :
    Resolves arena token .inline list ↔ isList token = true ∧ items token = list := by
  constructor
  · intro resolves
    cases resolves with
    | inline bracketed => exact ⟨bracketed, rfl⟩
  · rintro ⟨bracketed, rfl⟩
    exact .inline bracketed

theorem Resolves.store {arena : Arena} {token : Text} {target : Target} {list : List Text}
    (resolves : Resolves arena token target list) (changed : List Text) :
    target.Updates arena (target.store arena changed).2 (target.store arena changed).1 ∧
      (Resolves (target.store arena changed).2 (target.store arena changed).1 target changed ↔
        ∀ item ∈ changed, IsElement item) := by
  rw [← items_render_iff]
  cases resolves with
  | slot named live =>
    obtain ⟨inBounds, -⟩ := Array.getElem?_eq_some_iff.1 live
    refine ⟨⟨rfl, ?_, ?_⟩, ?_⟩
    · simpa [Target.store, Arena.isLive] using inBounds
    · intro index other
      simp [Target.store, Arena.set, other.symm]
    · rw [Target.store, resolves_slot_iff]
      simp [Arena.get?_set, inBounds]
  | inline isList =>
    refine ⟨⟨rfl, rfl⟩, ?_⟩
    rw [Target.store, resolves_inline_iff]
    simp [isList_render]

theorem isFresh_mint {arena : Arena} (room : arena.HasRoom) {list : List Text}
    (all : ∀ item ∈ list, IsElement item) :
    IsFresh arena (arena.mint (render list)).2 arena.nextHandle list where
  dead := by simp [Arena.isLive, room.nextHandle_index]
  reads := by
    rw [resolves_slot_iff]
    refine ⟨render list, ?_, items_render all⟩
    simp [Arena.get?, room.nextHandle_index]
  kept := by
    intro index inside
    simp [Array.getElem?_push, Nat.ne_of_lt inside]

theorem forall_isElement_set {list : List Text} (all : ∀ item ∈ list, IsElement item)
    {place : Nat} (inside : place < list.length) {value : Text} :
    (∀ item ∈ list.set place value, IsElement item) ↔ IsElement value := by
  constructor
  · intro each
    exact each value (List.mem_set inside value)
  · intro isElement item mem
    rcases List.mem_or_eq_of_mem_set mem with mem | rfl
    · exact all item mem
    · exact isElement

theorem forall_isElement_insertIdx {list : List Text} (all : ∀ item ∈ list, IsElement item)
    {place : Nat} (inside : place ≤ list.length) {value : Text} :
    (∀ item ∈ list.insertIdx place value, IsElement item) ↔ IsElement value := by
  simp only [List.mem_insertIdx inside]
  constructor
  · intro each
    exact each value (Or.inl rfl)
  · rintro isElement item (rfl | mem)
    · exact isElement
    · exact all item mem

section Operations

variable {machine : Machine} {token index : Text} {target : Target} {xs : List Text} {i : Nat}

theorem replaces_of_effect {op : ListOp} {operands cells : List Text} {after : Arena}
    (result : Except Fault Effect) (effect : result = .ok ⟨cells, after⟩)
    (performs : ∀ below, { machine with main := operands ++ below }.performList op =
      .ok ({ machine with main := operands ++ below }.settle below result)) :
    Replaces machine op operands cells after := by
  intro below
  rw [performs, effect]
  rfl

theorem replaces_size (resolves : Resolves machine.arena token target xs) :
    Replaces machine .size [token] [Decimal.write xs.length] machine.arena := by
  refine replaces_of_effect (machine.arena.listSize token) ?_ fun _ => rfl
  rw [Arena.listSize, resolves.operand_eq]
  rfl

theorem replaces_get (resolves : Resolves machine.arena token target xs)
    (read : Integer.read? index = some (i : Int)) (inside : i < xs.length) :
    Replaces machine .get [token, index] [xs[i]] machine.arena := by
  refine replaces_of_effect (machine.arena.getItem index token) ?_ fun _ => rfl
  rw [Arena.getItem, resolves.operand_eq]
  simp only [bind, Except.bind, position_eq _ read inside, List.getD_eq_getElem?_getD,
    List.getElem?_eq_getElem inside]
  rfl

theorem replaces_remove (resolves : Resolves machine.arena token target xs)
    (read : Integer.read? index = some (i : Int)) (inside : i < xs.length) :
    Replaces machine .remove [token, index]
      [xs[i], (target.store machine.arena (xs.eraseIdx i)).1]
      (target.store machine.arena (xs.eraseIdx i)).2 := by
  refine replaces_of_effect (machine.arena.removeItem index token) ?_ fun _ => rfl
  rw [Arena.removeItem, resolves.operand_eq]
  simp only [bind, Except.bind, position_eq _ read inside, List.getD_eq_getElem?_getD,
    List.getElem?_eq_getElem inside]
  rfl

theorem replaces_set (resolves : Resolves machine.arena token target xs)
    (read : Integer.read? index = some (i : Int)) (inside : i < xs.length) (value : Text) :
    Replaces machine .set [token, index, value]
      [(target.store machine.arena (xs.set i value)).1]
      (target.store machine.arena (xs.set i value)).2 := by
  refine replaces_of_effect (machine.arena.setItem value index token) ?_ fun _ => rfl
  rw [Arena.setItem, resolves.operand_eq]
  simp only [bind, Except.bind, position_eq _ read inside]
  rfl

theorem replaces_insert (resolves : Resolves machine.arena token target xs)
    (read : Integer.read? index = some (i : Int)) (inside : i ≤ xs.length) (value : Text) :
    Replaces machine .insert [token, index, value]
      [(target.store machine.arena (xs.insertIdx i value)).1]
      (target.store machine.arena (xs.insertIdx i value)).2 := by
  refine replaces_of_effect (machine.arena.insertItem value index token) ?_ fun _ => rfl
  rw [Arena.insertItem, resolves.operand_eq]
  simp only [bind, Except.bind, position_eq _ read (Nat.lt_succ_of_le inside)]
  rfl

theorem replaces_copy (resolves : Resolves machine.arena token target xs) :
    Replaces machine .copy [token] [machine.arena.nextHandle.toText]
      (machine.arena.mint (render xs)).2 := by
  refine replaces_of_effect (machine.arena.copyList token) ?_ fun _ => rfl
  rw [Arena.copyList, resolves.operand_eq]
  rfl

theorem replaces_append (resolves : Resolves machine.arena token target xs)
    {second : Text} {place : Target} {ys : List Text}
    (other : Resolves machine.arena second place ys) :
    Replaces machine .append [second, token] [machine.arena.nextHandle.toText]
      (machine.arena.mint (render (xs ++ ys))).2 := by
  refine replaces_of_effect (machine.arena.appendLists token second) ?_ fun _ => rfl
  rw [Arena.appendLists, resolves.operand_eq, other.operand_eq]
  rfl

end Operations

/-- Each list primitive does to its operands what its name says of mathematical
lists. What is put in by `set` and `insert` comes out again exactly when it is an
element, and `copy` and `append` leave a list in a slot of its own. -/
theorem performList_refines (machine : Machine) {token : Text} {target : Target} {xs : List Text}
    (resolves : Resolves machine.arena token target xs) :
    Replaces machine .size [token] [Decimal.write xs.length] machine.arena ∧
    (∀ (index : Text) (i : Nat) (_ : Integer.read? index = some (i : Int)) (_ : i < xs.length),
      Replaces machine .get [token, index] [xs[i]] machine.arena ∧
      (∃ stored after, Replaces machine .remove [token, index] [xs[i], stored] after ∧
        target.Updates machine.arena after stored ∧
        Resolves after stored target (xs.eraseIdx i)) ∧
      ∀ value, ∃ stored after, Replaces machine .set [token, index, value] [stored] after ∧
        target.Updates machine.arena after stored ∧
        (Resolves after stored target (xs.set i value) ↔ IsElement value)) ∧
    (∀ (index : Text) (i : Nat) (_ : Integer.read? index = some (i : Int)) (_ : i ≤ xs.length),
      ∀ value, ∃ stored after, Replaces machine .insert [token, index, value] [stored] after ∧
        target.Updates machine.arena after stored ∧
        (Resolves after stored target (xs.insertIdx i value) ↔ IsElement value)) ∧
    (machine.arena.HasRoom → ∃ handle after,
      Replaces machine .copy [token] [handle.toText] after ∧ IsFresh machine.arena after handle xs) ∧
    (machine.arena.HasRoom → ∀ second place ys, Resolves machine.arena second place ys →
      ∃ handle after, Replaces machine .append [second, token] [handle.toText] after ∧
        IsFresh machine.arena after handle (xs ++ ys)) := by
  have elements : ∀ item ∈ xs, IsElement item := fun _ => resolves.isElement
  refine ⟨replaces_size resolves, fun index i read inside =>
      ⟨replaces_get resolves read inside, ?_, fun value => ?_⟩,
    fun index i read inside value => ?_, fun room => ?_, fun room second place ys other => ?_⟩
  · obtain ⟨updates, reads⟩ := resolves.store (xs.eraseIdx i)
    refine ⟨_, _, replaces_remove resolves read inside, updates, reads.2 fun item mem => ?_⟩
    exact elements item (List.mem_of_mem_eraseIdx mem)
  · obtain ⟨updates, reads⟩ := resolves.store (xs.set i value)
    rw [forall_isElement_set elements inside] at reads
    exact ⟨_, _, replaces_set resolves read inside value, updates, reads⟩
  · obtain ⟨updates, reads⟩ := resolves.store (xs.insertIdx i value)
    rw [forall_isElement_insertIdx elements inside] at reads
    exact ⟨_, _, replaces_insert resolves read inside value, updates, reads⟩
  · exact ⟨_, _, replaces_copy resolves, isFresh_mint room elements⟩
  · refine ⟨_, _, replaces_append resolves other, isFresh_mint room fun item mem => ?_⟩
    rcases List.mem_append.1 mem with mem | mem
    · exact elements item mem
    · exact other.isElement mem

theorem performList_refines_nested :
    ∃ (machine : Machine) (handle : Handle),
      Resolves machine.arena "&01".toList (.slot handle) ["a".toList, "[ b c ]".toList] ∧
      (∃ stored after,
        Replaces machine .set ["&01".toList, "+1".toList, "[ d ]".toList] [stored] after ∧
        Resolves after stored (.slot handle) ["a".toList, "[ d ]".toList]) ∧
      (∃ stored after,
        Replaces machine .set ["&01".toList, "+1".toList, "d e".toList] [stored] after ∧
        ¬Resolves after stored (.slot handle) ["a".toList, "d e".toList]) ∧
      ∃ fresh after, Replaces machine .copy ["&01".toList] [fresh.toText] after ∧
        IsFresh machine.arena after fresh ["a".toList, "[ b c ]".toList] := by
  have items_eq : items "[ a [ b c ] ]".toList = ["a".toList, "[ b c ]".toList] := by decide
  have resolves : Resolves ⟨#["[ a [ b c ] ]".toList]⟩ "&01".toList
      (.slot ⟨1, by decide, by decide⟩) ["a".toList, "[ b c ]".toList] := by
    rw [← items_eq]
    exact .slot (by decide) rfl
  have operations := performList_refines { arena := ⟨#["[ a [ b c ] ]".toList]⟩ } resolves
  obtain ⟨-, -, set⟩ := operations.2.1 "+1".toList 1 (by decide) (by decide)
  have room : Arena.HasRoom ⟨#["[ a [ b c ] ]".toList]⟩ := by
    unfold Arena.HasRoom
    decide
  refine ⟨{ arena := ⟨#["[ a [ b c ] ]".toList]⟩ }, ⟨1, by decide, by decide⟩, resolves, ?_, ?_,
    operations.2.2.2.1 room⟩
  · obtain ⟨stored, after, replaces, -, reads⟩ := set "[ d ]".toList
    exact ⟨stored, after, replaces, reads.2 (by decide)⟩
  · obtain ⟨stored, after, replaces, -, reads⟩ := set "d e".toList
    exact ⟨stored, after, replaces, fun wrong => absurd (reads.1 wrong) (by decide)⟩

end ListOp

end Concatenative
