import Concatenative.Proofs.Words
import Concatenative.Terminal.History
import Mathlib.Data.List.Chain
import Mathlib.Data.List.TakeWhile

/-!
What a history holds. Whatever was recorded and however it was browsed in between, the entries
are the last of the lines worth keeping, as many as the capacity allows, and the cursor is on
one of them or just past the newest.
-/

namespace Concatenative

open Text

theorem Text.trim_eq_nil_iff {text : Text} : trim text = [] ↔ ∀ c ∈ text, isBlank c = true := by
  rw [trim, List.reverse_eq_nil_iff, List.dropWhile_eq_nil_iff]
  constructor
  · intro blank c mem
    rw [← List.takeWhile_append_dropWhile (p := isBlank) (l := text)] at mem
    rcases List.mem_append.1 mem with front | back
    · exact List.all_eq_true.1 List.all_takeWhile c front
    · exact blank c (List.mem_reverse.2 back)
  · intro blank c mem
    exact blank c ((List.dropWhile_sublist _).subset (List.mem_reverse.1 mem))

namespace History

inductive Operation where
  | push (line : Text)
  | older
  | newer
deriving DecidableEq, Repr

namespace Operation

def apply (history : History) : Operation → History
  | .push line => history.push line
  | .older => history.older
  | .newer => history.newer

def line? : Operation → Option Text
  | .push line => some line
  | .older | .newer => none

end Operation

def after (history : History) (operations : List Operation) : History :=
  operations.foldl Operation.apply history

/-- A line is kept if it is not blank and not the line that was kept last. -/
def keepLine (kept : List Text) (line : Text) : List Text :=
  if line.all isBlank = true ∨ kept.getLast? = some line then kept else kept ++ [line]

def keptLines (lines : List Text) : List Text := lines.foldl keepLine []

/-- The entries are the last of the kept lines, as many as there is room for, and the cursor is
on one of them or just past the newest. -/
structure Holds (capacity : Nat) (kept : List Text) (history : History) : Prop where
  capacity_eq : history.capacity = capacity
  recent : history.entries <:+ kept
  length_eq : history.entries.length = min capacity kept.length
  cursor_le : history.cursor ≤ history.entries.length

/-- Browsing went to a place: it changed the cursor alone and shows the entry there, which is
none just past the newest. -/
structure BrowsesTo (history moved : History) (place : Nat) : Prop where
  moved_eq : moved = { history with cursor := place }
  shown : moved.current = history.entries[place]?
  past : moved.current = none ↔ place = history.entries.length

section

variable {capacity : Nat} {kept : List Text} {history : History}

theorem keeps_iff (history : History) (line : Text) :
    history.keeps line = true ↔
      ¬(line.all isBlank = true ∨ history.entries.getLast? = some line) := by
  rw [List.all_eq_true, ← trim_eq_nil_iff, keeps, Bool.and_eq_true, not_or]
  simp

theorem Holds.fresh (capacity : Nat) : Holds capacity [] { capacity } :=
  ⟨rfl, List.suffix_rfl, by simp, Nat.le_refl 0⟩

theorem Holds.getLast?_entries (holds : Holds capacity kept history) (room : 0 < capacity) :
    history.entries.getLast? = kept.getLast? := by
  have length := holds.length_eq
  rcases List.eq_nil_or_concat history.entries with empty | ⟨front, last, filled⟩
  · have none : kept = [] := by
      rw [empty, List.length_nil] at length
      exact List.eq_nil_of_length_eq_zero (by omega)
    rw [empty, none]
  · obtain ⟨dropped, rfl⟩ := holds.recent
    rw [filled, List.concat_eq_append, ← List.append_assoc, List.getLast?_concat,
      List.getLast?_concat]

theorem Holds.push (holds : Holds capacity kept history) (line : Text) :
    Holds capacity (keepLine kept line) (history.push line) := by
  have size := holds.capacity_eq
  have length := holds.length_eq
  by_cases room : 0 < capacity
  · have kept_iff := history.keeps_iff line
    rw [holds.getLast?_entries room] at kept_iff
    by_cases skipped : line.all isBlank = true ∨ kept.getLast? = some line
    · have unchanged : history.push line = { history with cursor := history.entries.length } := by
        have keeps : history.keeps line = false :=
          Bool.eq_false_iff.2 fun keeps => kept_iff.1 keeps skipped
        simp [History.push, keeps]
      rw [keepLine, if_pos skipped, unchanged]
      exact ⟨size, holds.recent, length, Nat.le_refl _⟩
    · have recorded : (history.push line).entries =
          (if history.entries.length = capacity then history.entries.drop 1
            else history.entries) ++ [line] := by
        simp [History.push, kept_iff.2 skipped, size, room]
      refine ⟨size, ?_, ?_, Nat.le_refl _⟩
      · rw [keepLine, if_neg skipped, recorded]
        obtain ⟨dropped, rfl⟩ := holds.recent
        -- At capacity the oldest entry goes to those that were dropped before.
        split
        · refine ⟨dropped ++ history.entries.take 1, ?_⟩
          rw [List.append_assoc, ← List.append_assoc (history.entries.take 1),
            List.take_append_drop, ← List.append_assoc]
        · exact ⟨dropped, (List.append_assoc _ _ _).symm⟩
      · rw [keepLine, if_neg skipped, recorded, List.length_append, List.length_append,
          List.length_singleton]
        split
        · rw [List.length_drop]
          omega
        · omega
  · -- Without any room nothing is recorded, however many lines are worth it.
    have empty : history.entries = [] := List.eq_nil_of_length_eq_zero (by omega)
    have unchanged : history.push line = { history with cursor := 0 } := by
      simp [History.push, size, room, empty]
    rw [unchanged]
    exact ⟨size, empty ▸ List.nil_suffix, by simp [empty]; omega, Nat.zero_le _⟩

theorem older_browsesTo (within : history.cursor ≤ history.entries.length) :
    BrowsesTo history history.older (history.cursor - 1) := by
  refine ⟨rfl, rfl, ?_⟩
  show history.entries[history.cursor - 1]? = none ↔ _
  rw [List.getElem?_eq_none_iff]
  omega

theorem newer_browsesTo (within : history.cursor ≤ history.entries.length) :
    BrowsesTo history history.newer (min (history.cursor + 1) history.entries.length) := by
  have moved : history.newer =
      { history with cursor := min (history.cursor + 1) history.entries.length } := by
    unfold newer
    split
    · congr 1
      omega
    · have last : min (history.cursor + 1) history.entries.length = history.cursor := by omega
      rw [last]
  refine ⟨moved, by rw [moved]; rfl, ?_⟩
  rw [moved]
  show history.entries[min (history.cursor + 1) history.entries.length]? = none ↔ _
  rw [List.getElem?_eq_none_iff]
  omega

theorem Holds.apply (holds : Holds capacity kept history) (operation : Operation) :
    Holds capacity (operation.line?.toList.foldl keepLine kept) (operation.apply history) := by
  cases operation with
  | push line =>
    rw [Operation.line?, Option.toList_some, List.foldl_cons, List.foldl_nil]
    exact holds.push line
  | older =>
    have still : history.cursor - 1 ≤ history.entries.length :=
      Nat.le_trans (Nat.sub_le _ _) holds.cursor_le
    exact ⟨holds.capacity_eq, holds.recent, holds.length_eq, still⟩
  | newer =>
    have moved := (newer_browsesTo holds.cursor_le).moved_eq
    rw [Operation.apply, moved]
    exact ⟨holds.capacity_eq, holds.recent, holds.length_eq, Nat.min_le_right _ _⟩

theorem Holds.after (holds : Holds capacity kept history) (operations : List Operation) :
    Holds capacity ((operations.filterMap Operation.line?).foldl keepLine kept)
      (history.after operations) := by
  induction operations generalizing kept history with
  | nil => exact holds
  | cons operation rest ih =>
    have lines : (operation :: rest).filterMap Operation.line? =
        operation.line?.toList ++ rest.filterMap Operation.line? := by
      cases operation with
      | push line | older | newer => rfl
    have stepped : history.after (operation :: rest) = (operation.apply history).after rest := rfl
    rw [lines, List.foldl_append, stepped]
    exact ih (holds.apply operation)

end

theorem keptLines_separated (lines : List Text) :
    (∀ line ∈ keptLines lines, ∃ c ∈ line, isBlank c = false) ∧
      (keptLines lines).IsChain (· ≠ ·) := by
  induction lines using List.reverseRecOn with
  | nil => simp [keptLines]
  | append_singleton lines line ih =>
    have step : keptLines (lines ++ [line]) = keepLine (keptLines lines) line := by
      rw [keptLines, List.foldl_concat]
      rfl
    rw [step, keepLine]
    split
    · exact ih
    · next kept =>
      rw [not_or] at kept
      constructor
      · intro other mem
        rcases List.mem_append.1 mem with mem | mem
        · exact ih.1 other mem
        · rw [List.mem_singleton.1 mem]
          simpa using kept.1
      · rw [List.isChain_append]
        refine ⟨ih.2, List.isChain_singleton line, ?_⟩
        intro last lastKept next isNext same
        obtain rfl : line = next := by simpa using isNext
        exact kept.2 (same ▸ lastKept)

/-- However a history was used, it holds the last of the kept lines that there is room for, so
that no entry is blank and none equals the one before it. Its cursor is on an entry or just past
the newest: recording puts it there, and browsing moves it by one, changes nothing else and shows
what is there. -/
theorem history_holds_recent_lines (capacity : Nat) (operations : List Operation) :
    let history := ({ capacity } : History).after operations
    let kept := keptLines (operations.filterMap Operation.line?)
    (history.entries <:+ kept ∧ history.entries.length = min capacity kept.length) ∧
      (history.entries.length ≤ capacity ∧
        (∀ entry ∈ history.entries, ∃ c ∈ entry, isBlank c = false) ∧
        history.entries.IsChain (· ≠ ·)) ∧
      history.cursor ≤ history.entries.length ∧
      (∀ line, (history.push line).cursor = (history.push line).entries.length) ∧
      BrowsesTo history history.older (history.cursor - 1) ∧
      BrowsesTo history history.newer (min (history.cursor + 1) history.entries.length) := by
  intro history kept
  have holds : Holds capacity kept history := (Holds.fresh capacity).after operations
  obtain ⟨solid, separated⟩ := keptLines_separated (operations.filterMap Operation.line?)
  refine ⟨⟨holds.recent, holds.length_eq⟩, ⟨?_, ?_, ?_⟩, holds.cursor_le, fun line => rfl,
    older_browsesTo holds.cursor_le, newer_browsesTo holds.cursor_le⟩
  · rw [holds.length_eq]
    exact Nat.min_le_left _ _
  · exact fun entry mem => solid entry (holds.recent.subset mem)
  · exact separated.suffix holds.recent

end History

end Concatenative
