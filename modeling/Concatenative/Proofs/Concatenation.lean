import Concatenative.Proofs.Depth
import Concatenative.Proofs.Reading

/-!
Concatenation is composition. Words that close every block and every comment they open
are read the same whatever follows them, so a balanced source in front of another one
adds its tokens in front. Tokens in front of others run first, and the others go on
from the machine that is left, if there is one.
-/

namespace Concatenative

namespace Node

open Text ListText

/-- Read with comments and blocks open: everything is closed at the end, and no closing
bracket stands outside all blocks. -/
def closes : Nat → Nat → List Text → Bool
  | comments, blocks, [] => comments == 0 && blocks == 0
  | 0, blocks, word :: rest =>
    if word = commentOpening then closes 1 blocks rest
    else if word = opening then closes 0 (blocks + 1) rest
    else if word = closing then blocks != 0 && closes 0 (blocks - 1) rest
    else closes 0 blocks rest
  | comments + 1, blocks, word :: rest =>
    if word = commentOpening then closes (comments + 2) blocks rest
    else if word = commentClosing then closes comments blocks rest
    else closes (comments + 1) blocks rest

def IsBalanced (source : Text) : Prop := closes 0 0 (words source) = true

instance (source : Text) : Decidable (IsBalanced source) :=
  inferInstanceAs (Decidable (closes 0 0 (words source) = true))

theorem closes_comment (blocks : Nat) (words : List Text) :
    closes 0 blocks (commentOpening :: words) = closes 1 blocks words := by
  rw [closes, if_pos rfl]

theorem closes_opening (blocks : Nat) (words : List Text) :
    closes 0 blocks (opening :: words) = closes 0 (blocks + 1) words := by
  rw [closes, if_neg (by decide), if_pos rfl]

theorem closes_closing (blocks : Nat) (words : List Text) :
    closes 0 (blocks + 1) (closing :: words) = closes 0 blocks words := by
  rw [closes, if_neg (by decide), if_neg (by decide), if_pos rfl]
  rfl

theorem closes_zero_closing (words : List Text) : closes 0 0 (closing :: words) = false := by
  rw [closes, if_neg (by decide), if_neg (by decide), if_pos rfl]
  rfl

theorem closes_atom {word : Text} (isAtom : IsAtom word) (blocks : Nat) (words : List Text) :
    closes 0 blocks (word :: words) = closes 0 blocks words := by
  rw [closes, if_neg isAtom.1, if_neg isAtom.2.1, if_neg isAtom.2.2]

theorem closes_leaveComments {comments blocks : Nat} {words : List Text}
    (closed : closes comments blocks words = true) :
    closes 0 blocks (leaveComments comments words) = true ∧
      ∀ later, leaveComments comments (words ++ later) = leaveComments comments words ++ later := by
  have other : commentClosing ≠ commentOpening := by decide
  induction comments, words using comments_induction with
  | left words => exact ⟨closed, fun later => rfl⟩
  | nil comments => simp [closes] at closed
  | opened comments words ih =>
    rw [closes, if_pos rfl] at closed
    simp only [List.cons_append, leaveComments_opening]
    exact ih closed
  | closed comments words ih =>
    rw [closes, if_neg other, if_pos rfl] at closed
    simp only [List.cons_append, leaveComments_closing]
    exact ih closed
  | passed comments word words opens ends ih =>
    rw [closes, if_neg opens, if_neg ends] at closed
    simp only [List.cons_append, leaveComments_word opens ends]
    exact ih closed

/-- How reading goes on past words that close this many blocks around them: through to
the words that follow, or out of the innermost block, with one block less to close. -/
def ReadsOn (words : List Text) : Nat → Prop
  | 0 => ∀ later, nodes (words ++ later) = nodes words ++ nodes later ∧
      rest (words ++ later) = rest later
  | blocks + 1 => closes 0 blocks (rest words) = true ∧
      ∀ later, nodes (words ++ later) = nodes words ∧ rest (words ++ later) = rest words ++ later

theorem readsOn_of_closes {blocks : Nat} {words : List Text}
    (closed : closes 0 blocks words = true) : ReadsOn words blocks := by
  induction words using reading_induction generalizing blocks with
  | nil =>
    cases blocks with
    | zero => exact fun later => by simp
    | succ blocks => simp [closes] at closed
  | comment words ih =>
    rw [closes_comment] at closed
    obtain ⟨skipped, append⟩ : closes 0 blocks (skipComment words) = true ∧
        ∀ later, skipComment (words ++ later) = skipComment words ++ later :=
      closes_leaveComments closed
    have on := ih skipped
    cases blocks with
    | zero => simpa only [ReadsOn, List.cons_append, nodes_comment, rest_comment, append] using on
    | succ blocks =>
      simpa only [ReadsOn, List.cons_append, nodes_comment, rest_comment, append] using on
  | block words inside after =>
    rw [closes_opening] at closed
    -- The block inside takes up one of the closing brackets; what is left of the words
    -- closes the blocks that were open before.
    obtain ⟨left, through⟩ := inside closed
    have on := after left
    cases blocks with
    | zero =>
      intro later
      obtain ⟨items, behind⟩ := through later
      rw [List.cons_append, nodes_opening, rest_opening, nodes_opening, items, behind,
        (on later).1, (on later).2]
      exact ⟨rfl, rfl⟩
    | succ blocks =>
      refine ⟨by rw [rest_opening]; exact on.1, fun later => ?_⟩
      obtain ⟨items, behind⟩ := through later
      rw [List.cons_append, nodes_opening, rest_opening, nodes_opening, rest_opening, items,
        behind, (on.2 later).1, (on.2 later).2]
      exact ⟨rfl, rfl⟩
  | closed words =>
    cases blocks with
    | zero => simp [closes_zero_closing] at closed
    | succ blocks =>
      rw [closes_closing] at closed
      refine ⟨by rw [rest_closing]; exact closed, fun later => ?_⟩
      rw [List.cons_append, nodes_closing, rest_closing, nodes_closing, rest_closing]
      exact ⟨rfl, rfl⟩
  | atom word words isAtom ih =>
    rw [closes_atom isAtom] at closed
    have on := ih closed
    cases blocks with
    | zero =>
      intro later
      rw [List.cons_append, nodes_atom isAtom, rest_atom isAtom, nodes_atom isAtom,
        (on later).1, (on later).2]
      exact ⟨rfl, rfl⟩
    | succ blocks =>
      simp only [ReadsOn, List.cons_append, nodes_atom isAtom, rest_atom isAtom]
      refine ⟨on.1, fun later => ?_⟩
      rw [(on.2 later).1, (on.2 later).2]
      exact ⟨rfl, rfl⟩

theorem renderAll_append (first second : List Node) :
    renderAll (first ++ second) = renderAll first ++ renderAll second := by
  simp only [renderAll_eq_map, List.map_append]

end Node

theorem parse_append {first blanks : Text} (balanced : Node.IsBalanced first)
    (separates : blanks ≠ []) (blank : ∀ c ∈ blanks, Text.isBlank c = true) (second : Text) :
    parse (first ++ blanks ++ second) = parse first ++ parse second := by
  have read := (Node.readsOn_of_closes balanced (Text.words second)).1
  simp only [parse, Node.read, Text.words_append_separated separates blank, read,
    Node.renderAll_append]

namespace Machine

theorem steps_append (step : Text → Machine → Outcome) (first second : List Text)
    (machine : Machine) :
    steps step (first ++ second) machine =
      (steps step first machine).andThen (steps step second) := by
  induction first generalizing machine with
  | nil => rfl
  | cons token first ih =>
    rw [List.cons_append, steps_cons, steps_cons]
    cases step token machine with
    | ok after => exact ih after
    | raised error after => rfl
    | unfinished after => rfl

theorem depth_steps (environment : Environment) (rounds levels : Nat) (tokens : List Text)
    (machine : Machine) :
    (steps (step environment rounds (runWithin environment rounds levels)) tokens
      machine).machine.depth = machine.depth := by
  have nested := fun tokens inner =>
    runWithin_withDepth environment rounds levels tokens inner machine.depth
  exact depth_of_eq_map (steps_withDepth environment rounds nested tokens machine)

theorem runWithin_append (environment : Environment) (rounds levels : Nat)
    (first second : List Text) (machine : Machine) :
    machine.runWithin environment rounds levels (first ++ second) =
      (machine.runWithin environment rounds levels first).andThen
        (runWithin environment rounds levels second) := by
  cases levels with
  | zero => rfl
  | succ levels =>
    have depth := depth_steps environment rounds levels first
      (machine.withDepth (machine.depth + 1))
    rw [runWithin_succ, runWithin_succ, steps_append]
    cases ended : steps (step environment rounds (runWithin environment rounds levels)) first
        (machine.withDepth (machine.depth + 1)) with
    | raised error after => rfl
    | unfinished after => rfl
    | ok after =>
      -- The second run counts itself again, and so starts from where the first one stood.
      rw [ended] at depth
      have counted : after.depth = machine.depth + 1 := depth
      have entered : (after.withDepth (after.depth - 1)).withDepth (after.depth - 1 + 1) =
          after := by
        rw [counted, Nat.add_sub_cancel, ← counted]
        rfl
      change _ = (after.withDepth (after.depth - 1)).runWithin environment rounds (levels + 1)
        second
      rw [runWithin_succ, depth_withDepth, entered]
      rfl

theorem run_append (environment : Environment) (rounds : Nat) (first second : List Text)
    (machine : Machine) :
    machine.run environment rounds (first ++ second) =
      (machine.run environment rounds first).andThen (run environment rounds second) := by
  have depth := depth_runWithin environment rounds (environment.maxDepth - machine.depth) first
    machine
  rw [run, run, runWithin_append]
  cases ended : machine.runWithin environment rounds (environment.maxDepth - machine.depth)
      first with
  | raised error after => rfl
  | unfinished after => rfl
  | ok after =>
    rw [ended] at depth
    have counted : after.depth = machine.depth := depth
    change _ = after.runWithin environment rounds (environment.maxDepth - after.depth) second
    rw [counted]
    rfl

/-- A balanced source and another one behind it run one after the other. -/
theorem execute_append {first blanks : Text} (balanced : Node.IsBalanced first)
    (separates : blanks ≠ []) (blank : ∀ c ∈ blanks, Text.isBlank c = true) (second : Text)
    (environment : Environment) (rounds : Nat) (machine : Machine) :
    machine.execute environment rounds (first ++ blanks ++ second) =
      (machine.execute environment rounds first).andThen
        (execute environment rounds second) := by
  rw [execute, parse_append balanced separates blank, run_append]
  rfl

theorem execute_append_commented :
    Node.IsBalanced "1 ( [ ( ] ) ) [ a ( ] ) b ]".toList ∧
      ({} : Machine).execute { context := Dictionary.natives } 0
          ("1 ( [ ( ] ) ) [ a ( ] ) b ]".toList ++ "\n ".toList ++ "size ] +".toList) =
        (({} : Machine).execute { context := Dictionary.natives } 0
          "1 ( [ ( ] ) ) [ a ( ] ) b ]".toList).andThen
            (execute { context := Dictionary.natives } 0 "size ] +".toList) := by
  have balanced : Node.IsBalanced "1 ( [ ( ] ) ) [ a ( ] ) b ]".toList := by decide
  have blank : ∀ c ∈ "\n ".toList, Text.isBlank c = true := List.all_eq_true.1 (by decide)
  exact ⟨balanced, execute_append balanced (by decide) blank _ _ _ _⟩

end Machine

end Concatenative
