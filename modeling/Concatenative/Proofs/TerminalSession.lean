import Mathlib.Data.List.Forall2
import Concatenative.Proofs.LineEditing
import Concatenative.Proofs.Transcript

/-!
Typing lines and piping them. A line that is typed character by character is in the editor
when it is entered, and the editor is empty again afterwards, so the terminal evaluates the
lines that were typed and no others. An answer holds no line feed, so it is shown as it would
be written to a pipe, between two moves to a new row.
-/

namespace Concatenative

open Text Session

namespace Text

def endLines (lines : List Text) : Text := lines.flatMap (· ++ ['\n'])

theorem IsPrintable.not_mem {line : Text} (printable : IsPrintable line) {c : Char}
    (control : Editor.isPrintable c = false) : c ∉ line := fun mem => by
  rw [printable c mem] at control
  cases control

theorem pieces_endLines {lines : List Text} (all : ∀ line ∈ lines, IsPrintable line) :
    pieces '\n' (endLines lines) = lines ++ [[]] := by
  induction lines with
  | nil => rfl
  | cons line rest ih =>
    obtain ⟨first, later⟩ := List.forall_mem_cons.1 all
    have cut : pieces '\n' ('\n' :: endLines rest) = [] :: (rest ++ [[]]) := by
      rw [pieces_separator, ih later]
    have split : endLines (line :: rest) = line ++ '\n' :: endLines rest := by
      simp [endLines]
    rw [split, pieces_append (first.not_mem (by decide)) cut, List.append_nil, List.cons_append]

theorem lines_endLines {lines : List Text} (all : ∀ line ∈ lines, IsPrintable line) :
    (endLines lines).lines = lines := by
  have kept : ∀ line ∈ lines, stripEnd '\r' line = line := by
    intro line mem
    have absent : '\r' ∉ line := (all line mem).not_mem (by decide)
    exact if_neg fun last => absent (List.mem_of_getLast? last)
  rw [Text.lines, pieces_endLines all, List.dropLast_concat, List.getLast?_concat,
    List.map_congr_left kept]
  simp

end Text

theorem Key.ofChar_of_isPrintable {c : Char} (printable : Editor.isPrintable c = true) :
    Key.ofChar c = .char c := by
  simp only [Editor.isPrintable, Bool.and_eq_true, decide_eq_true_eq] at printable
  have newline : c ≠ '\n' := by
    rintro rfl
    exact absurd printable (by decide)
  have carriage : c ≠ '\r' := by
    rintro rfl
    exact absurd printable (by decide)
  have tab : c ≠ '\t' := by
    rintro rfl
    exact absurd printable (by decide)
  simp only [ofChar, newline, carriage, tab]
  grind

namespace Terminal

theorem map_ofChar_endLines_cons {line : Text} (printable : IsPrintable line)
    (rest : List Text) :
    (endLines (line :: rest)).map Key.ofChar =
      line.map .char ++ .enter :: (endLines rest).map Key.ofChar := by
  have typed : line.map Key.ofChar = line.map .char :=
    List.map_congr_left fun c mem => Key.ofChar_of_isPrintable (printable c mem)
  have ends : Key.ofChar '\n' = .enter := rfl
  simp [endLines, typed, ends]

/-- The turn enters a line and shows the text of the answer to it, between two moves to a new
row; the prompt follows unless the line asked to exit. -/
structure Turn.Enters (turn : Turn) (line : Text) (answered : Reply × Machine) : Prop where
  key : turn.key = .enter
  line : turn.state.editor.buffer = line
  machine : turn.response.state.machine = answered.2
  ended : turn.response.ended = answered.1.exits
  output : turn.response.output =
    (newline turn.state).1 ++ answered.1.text ++ (newline (newline turn.state).2).1 ++
      if answered.1.exits then [] else draw turn.response.state

structure Turn.Types (limit : Nat) (turn : Turn) : Prop where
  key : turn.key ≠ .enter
  machine : turn.response.state.machine = turn.state.machine
  within : turn.response.state.editor.index ≤ limit

/-- A session of typing lines: the turns that type a line and the turn that enters it, again
and again, up to a line that asks to exit. -/
inductive TypedSession (environment : Environment) (rounds : Nat) :
    List Text → State → List Turn → Prop where
  | done (state : State) : TypedSession environment rounds [] state []
  | exits {line : Text} {rest : List Text} {state : State} {typing : List Turn} {entering : Turn}
      (types : ∀ turn ∈ typing, turn.Types line.length)
      (enters : entering.Enters line (answer environment rounds line state.machine))
      (emptied : entering.response.state.editor = {})
      (exit : (answer environment rounds line state.machine).1.exits = true) :
      TypedSession environment rounds (line :: rest) state (typing ++ [entering])
  | continues {line : Text} {rest : List Text} {state : State} {typing session : List Turn}
      {entering : Turn} (types : ∀ turn ∈ typing, turn.Types line.length)
      (enters : entering.Enters line (answer environment rounds line state.machine))
      (emptied : entering.response.state.editor = {})
      (stays : (answer environment rounds line state.machine).1.exits = false)
      (later : TypedSession environment rounds rest entering.response.state session) :
      TypedSession environment rounds (line :: rest) state (typing ++ entering :: session)

section

variable (environment : Environment) (rounds : Nat)

theorem press_char {c : Char} (printable : Editor.isPrintable c = true) (state : State)
    (typed : Text) :
    press environment rounds { state with editor := .ofLine typed } (.char c) =
      ⟨draw { state with editor := .ofLine (typed ++ [c]) },
        { state with editor := .ofLine (typed ++ [c]) }, false⟩ := by
  have inserted : (Editor.ofLine typed).insert c = .ofLine (typed ++ [c]) := by
    rw [← Editor.ofSides_line, Editor.insert_ofSides printable, Editor.ofSides_line]
  simp [press, handle, inserted]

theorem turns_typed {line : Text} (printable : IsPrintable line) (keys : List Key)
    (state : State) (typed : Text) : ∃ typing : List Turn,
    turns environment rounds (line.map .char ++ keys) { state with editor := .ofLine typed } =
        typing ++ turns environment rounds keys { state with editor := .ofLine (typed ++ line) } ∧
      ∀ turn ∈ typing, turn.Types (typed ++ line).length := by
  induction line generalizing typed with
  | nil => exact ⟨[], by simp, List.forall_mem_nil _⟩
  | cons c line ih =>
    obtain ⟨first, rest⟩ := List.forall_mem_cons.1 printable
    obtain ⟨typing, later, all⟩ := ih rest (typed ++ [c])
    rw [← List.append_cons] at later all
    let before : State := { state with editor := .ofLine typed }
    let after : State := { state with editor := .ofLine (typed ++ [c]) }
    refine ⟨⟨before, .char c, draw after, after, false⟩ :: typing, ?_, ?_⟩
    · rw [List.map_cons, List.cons_append, turns, press_char environment rounds first, later]
      rfl
    · have other : Key.char c ≠ .enter := by
        intro same
        cases same
      have within : after.editor.index ≤ (typed ++ c :: line).length := by
        simp [after, Editor.ofLine]
      exact List.forall_mem_cons.2 ⟨⟨other, rfl, within⟩, all⟩

theorem write_of_isPlain {text : Text} (plain : IsPlain text) (state : State) :
    write text state = (text, state) := by
  have whole : pieces '\n' text = [text] := by
    have cut : pieces '\n' (text ++ []) = [text ++ []] := pieces_append plain.newline_not_mem rfl
    simpa using cut
  rw [write, whole]
  simp [writeLines]

theorem enter_eq (state : State) :
    enter environment rounds state =
      let answered := answer environment rounds state.editor.buffer state.machine
      ⟨(newline state).1 ++ answered.1.text ++ (newline (newline state).2).1,
        { (newline (newline state).2).2 with
          editor := {}
          history := state.history.push state.editor.buffer
          machine := answered.2 },
        answered.1.ends⟩ := by
  have plain := isPlain_answer environment rounds state.editor.buffer
  rw [enter]
  simp only [write_of_isPlain (plain _)]
  rfl

theorem enters_press (state : State)
    (finished : (answer environment rounds state.editor.buffer state.machine).1 ≠ .unfinished) :
    (Turn.mk state .enter (press environment rounds state .enter)).Enters state.editor.buffer
        (answer environment rounds state.editor.buffer state.machine) ∧
      (press environment rounds state .enter).state.editor = {} := by
  have pressed : handle environment rounds state .enter = enter environment rounds state := rfl
  refine ⟨⟨rfl, rfl, ?_, ?_, ?_⟩, ?_⟩
  all_goals
    rw [press, pressed, enter_eq]
    simp only [Reply.ends_eq_exits finished]
    split <;> simp_all

theorem typedSession_turns {lines : List Text} (printable : ∀ line ∈ lines, IsPrintable line)
    {state : State} (waiting : state.editor = {})
    (finished : ∀ answered ∈ untilExit (answers environment rounds lines state.machine),
      answered.1 ≠ .unfinished) :
    TypedSession environment rounds lines state
      (turns environment rounds ((endLines lines).map Key.ofChar) state) := by
  induction lines generalizing state with
  | nil => exact .done state
  | cons line rest ih =>
    obtain ⟨printableLine, printableRest⟩ := List.forall_mem_cons.1 printable
    rw [answers.eq_def, untilExit_cons] at finished
    obtain ⟨finishedLine, finishedRest⟩ := List.forall_mem_cons.1 finished
    let keys := (endLines rest).map Key.ofChar
    obtain ⟨typing, typed, types⟩ :=
      turns_typed environment rounds printableLine (.enter :: keys) state []
    let ready : State := { state with editor := .ofLine line }
    obtain ⟨enters, emptied⟩ := enters_press environment rounds ready finishedLine
    have start : ({ state with editor := .ofLine [] } : State) = state := by
      rw [show Editor.ofLine [] = state.editor from waiting.symm]
    have ended : (press environment rounds ready .enter).ended =
        (answer environment rounds line state.machine).1.exits := enters.ended
    rw [map_ofChar_endLines_cons printableLine, ← start, typed, turns]
    -- The keys of the later lines are pressed only if this line did not ask to exit.
    split
    · next exits => exact .exits types enters emptied (ended.symm.trans exits)
    · next stays =>
      have stays : (answer environment rounds line state.machine).1.exits = false :=
        ended.symm.trans (Bool.eq_false_iff.2 stays)
      rw [stays] at finishedRest
      have later := ih printableRest emptied (enters.machine ▸ finishedRest)
      exact .continues types enters emptied stays later

end

namespace TypedSession

variable {environment : Environment} {rounds : Nat} {lines : List Text} {state : State}
  {session : List Turn}

theorem filter_typing {line : Text} {typing : List Turn}
    (types : ∀ turn ∈ typing, turn.Types line.length) : typing.filter (·.key = .enter) = [] := by
  simpa using fun turn mem => (types turn mem).key

theorem forall₂_enters (typed : TypedSession environment rounds lines state session) :
    List.Forall₂ (fun turn (line, answered) => Turn.Enters turn line answered)
      (session.filter (·.key = .enter))
      (lines.zip (untilExit (answers environment rounds lines state.machine))) := by
  induction typed with
  | done state => exact .nil
  | exits types enters emptied exit =>
    rw [answers.eq_def, untilExit_cons, exit, List.filter_append, filter_typing types]
    simpa [enters.key] using enters
  | continues types enters emptied stays later ih =>
    rw [answers.eq_def, untilExit_cons, stays, List.filter_append, filter_typing types]
    rw [enters.machine] at ih
    simpa [enters.key] using ⟨enters, ih⟩

theorem machine_eq (typed : TypedSession environment rounds lines state session)
    (finished : ∀ answered ∈ untilExit (answers environment rounds lines state.machine),
      answered.1 ≠ .unfinished) :
    (session.getLast?.elim state (·.response.state)).machine =
      (converse environment rounds (lines.map some) state.machine).machine := by
  induction typed with
  | done state => rfl
  | exits types enters emptied exit =>
    rw [answers.eq_def, untilExit_cons] at finished
    have ends := Reply.ends_eq_exits (List.forall_mem_cons.1 finished).1
    simpa [converse, ends, exit] using enters.machine
  | @continues _ _ _ _ session _ types enters emptied stays later ih =>
    rw [answers.eq_def, untilExit_cons, stays] at finished
    obtain ⟨first, rest⟩ := List.forall_mem_cons.1 finished
    rw [enters.machine] at ih
    have goesOn := ih rest
    rw [List.getLast?_append, List.getLast?_cons, Option.some_or, Option.elim_some, List.map_cons,
      converse]
    simp only [Reply.ends_eq_exits first, stays]
    cases last : session.getLast? with
    | none => simpa [last] using goesOn
    | some turn => simpa [last] using goesOn

theorem types_or_enters (typed : TypedSession environment rounds lines state session) :
    ∀ turn ∈ session, (∃ line ∈ lines, turn.Types line.length) ∨
      turn.key = .enter ∧ turn.response.state.editor = {} := by
  induction typed with
  | done state => exact List.forall_mem_nil _
  | exits types enters emptied exit =>
    rw [List.forall_mem_append, List.forall_mem_singleton]
    exact ⟨fun turn mem => .inl ⟨_, List.mem_cons_self, types turn mem⟩,
      .inr ⟨enters.key, emptied⟩⟩
  | continues types enters emptied stays later ih =>
    rw [List.forall_mem_append, List.forall_mem_cons]
    refine ⟨fun turn mem => .inl ⟨_, List.mem_cons_self, types turn mem⟩,
      .inr ⟨enters.key, emptied⟩, fun turn mem => ?_⟩
    exact (ih turn mem).imp_left fun ⟨line, member, types⟩ =>
      ⟨line, List.mem_cons_of_mem _ member, types⟩

end TypedSession

/-- Printable lines, typed into a terminal that waits with an empty line, are evaluated in
their order, each when it is entered and nothing in between, up to and including the first
that asks to exit. For each the terminal shows the text that is written when the lines are
piped to an equal machine, and both machines end alike. Lines below 65000 characters keep the
cursor within the columns that can be addressed. -/
theorem terminal_agrees_with_pipe {environment : Environment} {rounds : Nat} {lines : List Text}
    (printable : ∀ line ∈ lines, IsPrintable line)
    (short : ∀ line ∈ lines, line.length < 65000) {state : State} (waiting : state.editor = {})
    (finished : ∀ answered ∈ untilExit (answers environment rounds lines state.machine),
      answered.1 ≠ .unfinished) :
    let answered := untilExit (answers environment rounds lines state.machine)
    let session := turns environment rounds ((endLines lines).map Key.ofChar) state
    let piped := converse environment rounds
      (Encoding.decodedLines (Encoding.encode (endLines lines))) state.machine
    pressAll environment rounds ((endLines lines).map Key.ofChar) state =
        session.map (·.response.output) ∧
      List.Forall₂ (fun turn (line, answered) => Turn.Enters turn line answered)
        (session.filter (·.key = .enter)) (lines.zip answered) ∧
      (∀ turn ∈ session, turn.key ≠ .enter →
        turn.response.state.machine = turn.state.machine) ∧
      piped.broken = false ∧
      piped.output = answered.flatMap (fun answered => answered.1.text ++ ['\n']) ∧
      (session.getLast?.elim state (·.response.state)).machine = piped.machine ∧
      ∀ turn ∈ session, cursorColumn turn.response.state =
        prompt.length + turn.response.state.editor.index + 1 := by
  have typed := typedSession_turns environment rounds printable waiting finished
  have read : Encoding.decodedLines (Encoding.encode (endLines lines)) = lines.map some := by
    rw [Encoding.decodedLines_eq (Encoding.decode?_eq_some_iff.2 rfl), lines_endLines printable]
  obtain ⟨unbroken, output⟩ := converse_eq_untilExit finished
  simp only [read]
  refine ⟨pressAll_eq_turns environment rounds _ state, typed.forall₂_enters,
    fun turn mem other => ?_, unbroken, output, typed.machine_eq finished, fun turn mem => ?_⟩
  · rcases typed.types_or_enters turn mem with ⟨line, _, types⟩ | ⟨enter, _⟩
    · exact types.machine
    · exact absurd enter other
  · have within : turn.response.state.editor.index < 65000 := by
      rcases typed.types_or_enters turn mem with ⟨line, member, types⟩ | ⟨_, emptied⟩
      · exact Nat.lt_of_le_of_lt types.within (short line member)
      · rw [emptied]
        decide
    have width : prompt.length = 2 := rfl
    exact Nat.mod_eq_of_lt (by omega)

theorem terminal_agrees_with_pipe_until_exit :
    ∃ environment : Environment, ∃ state : State, ∃ lines : List Text,
      lines = ["[ a [ ] ]", "-1 debug.remove", "", "1 exit", "later"].map String.toList ∧
      state.rows = 2 ∧ state.row = 2 ∧
      (∀ answered ∈ untilExit (answers environment 0 lines state.machine),
        answered.1 ≠ .unfinished) ∧
      ((turns environment 0 ((endLines lines).map Key.ofChar) state).filter
        (·.key = .enter)).map (·.state.editor.buffer) = lines.take 4 ∧
      (converse environment 0 (Encoding.decodedLines (Encoding.encode (endLines lines)))
          state.machine).output =
        ["main: [ [ a [ ] ] ]", "error: You can't remove what's not there!", "main: [ ]",
          "main: [ 1 exit ]"].flatMap fun line => line.toList ++ ['\n'] := by
  let environment : Environment := { context := Dictionary.natives }
  let state : State := { rows := 2, row := 2 }
  let lines := ["[ a [ ] ]", "-1 debug.remove", "", "1 exit", "later"].map String.toList
  have finished : ∀ answered ∈ untilExit (answers environment 0 lines state.machine),
      answered.1 ≠ .unfinished := by
    decide +kernel
  have written : (untilExit (answers environment 0 lines state.machine)).flatMap
      (fun answered => answered.1.text ++ ['\n']) =
        ["main: [ [ a [ ] ] ]", "error: You can't remove what's not there!", "main: [ ]",
          "main: [ 1 exit ]"].flatMap fun line => line.toList ++ ['\n'] := by
    decide +kernel
  have agrees := terminal_agrees_with_pipe (by decide +kernel) (by decide +kernel)
    (show state.editor = {} from rfl) finished
  exact ⟨environment, state, lines, rfl, rfl, rfl, finished, by decide +kernel,
    agrees.2.2.2.2.1.trans written⟩

end Terminal

end Concatenative
