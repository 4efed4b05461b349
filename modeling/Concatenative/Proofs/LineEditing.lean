import Concatenative.Proofs.LineHistory
import Concatenative.Proofs.Lines
import Concatenative.Terminal.Interactive

/-!
Editing a line. The cursor divides the line into the text before it and the text after it,
and every key is a change of these two texts. Only printable characters get into a line, so
a place in the text is the same place in its bytes, and along a whole session the cursor
stays in the line, the row stays on the screen and no blank line is recorded.
-/

namespace Concatenative

open Text

namespace Text

def IsPrintable (text : Text) : Prop := ∀ c ∈ text, Editor.isPrintable c = true

instance (text : Text) : Decidable (IsPrintable text) :=
  List.decidableBAll (fun c => Editor.isPrintable c = true) text

theorem isPrintable_append {first second : Text} :
    IsPrintable (first ++ second) ↔ IsPrintable first ∧ IsPrintable second :=
  List.forall_mem_append

theorem IsPrintable.length_encode {text : Text} (printable : IsPrintable text) :
    (Encoding.encode text).length = text.length := by
  induction text with
  | nil => rfl
  | cons c text ih =>
    obtain ⟨first, rest⟩ := List.forall_mem_cons.1 printable
    have small : c.toNat ≤ 0x7E := by
      simp only [Editor.isPrintable, Bool.and_eq_true, decide_eq_true_eq] at first
      exact first.2
    have size : c.utf8Size = 1 := by
      rw [Char.utf8Size_eq_one_iff, UInt32.le_iff_toNat_le]
      have value : c.val.toNat = c.toNat := rfl
      have bound : (0x7F : UInt32).toNat = 0x7F := rfl
      omega
    rw [Encoding.encode_cons, List.length_append, String.length_utf8EncodeChar, size, ih rest,
      List.length_cons, Nat.add_comm]

theorem exists_of_trim_ne_nil {text : Text} (some : trim text ≠ []) :
    ∃ c ∈ text, isBlank c = false := by
  rw [Ne, trim_eq_nil_iff] at some
  simpa using some

end Text

namespace Editor

/-- The text before the cursor and the text from it on. -/
def sides (editor : Editor) : Text × Text := (editor.before, editor.after)

def ofSides (sides : Text × Text) : Editor := ⟨sides.1 ++ sides.2, sides.1.length⟩

@[simp] theorem sides_ofSides (sides : Text × Text) : (ofSides sides).sides = sides := by
  obtain ⟨before, after⟩ := sides
  simp [Editor.sides, ofSides, Editor.before, Editor.after]

theorem ofSides_sides {editor : Editor} (within : editor.index ≤ editor.buffer.length) :
    ofSides editor.sides = editor := by
  obtain ⟨buffer, index⟩ := editor
  have length : (buffer.take index).length = index := List.length_take_of_le within
  simp [Editor.sides, ofSides, Editor.before, Editor.after, length]

theorem ofSides_line (line : Text) : ofSides (line, []) = ofLine line := by
  rw [ofSides, ofLine, List.append_nil]

theorem insertIdx_length_append (before after : Text) (c : Char) :
    (before ++ after).insertIdx before.length c = before ++ c :: after := by
  induction before with
  | nil => rfl
  | cons first before ih =>
    rw [List.cons_append, List.length_cons, List.insertIdx_succ_cons, ih, List.cons_append]

theorem insert_ofSides {c : Char} (printable : isPrintable c = true) (before after : Text) :
    (ofSides (before, after)).insert c = ofSides (before ++ [c], after) := by
  rw [insert, if_pos printable, ofSides, ofSides]
  simp [insertIdx_length_append]

theorem backspace_ofSides (before after : Text) :
    (ofSides (before, after)).backspace = ofSides (before.dropLast, after) := by
  rcases List.eq_nil_or_concat before with rfl | ⟨before, c, rfl⟩
  · rfl
  · rw [List.concat_eq_append, List.dropLast_concat]
    simp [backspace, ofSides, List.eraseIdx_append_of_length_le]

theorem delete_ofSides (before after : Text) :
    (ofSides (before, after)).delete = ofSides (before, after.tail) := by
  rw [delete, ofSides, ofSides, List.eraseIdx_append_of_length_le (Nat.le_refl _)]
  simp

def sidesLeft (sides : Text × Text) : Text × Text :=
  (sides.1.dropLast, sides.1.getLast?.toList ++ sides.2)

def sidesRight (sides : Text × Text) : Text × Text :=
  (sides.1 ++ sides.2.head?.toList, sides.2.tail)

theorem left_ofSides (sides : Text × Text) : (ofSides sides).left = ofSides (sidesLeft sides) := by
  obtain ⟨before, after⟩ := sides
  rcases List.eq_nil_or_concat before with rfl | ⟨before, c, rfl⟩
  · rfl
  · simp [left, ofSides, sidesLeft, List.concat_eq_append]

theorem right_ofSides (sides : Text × Text) :
    (ofSides sides).right = ofSides (sidesRight sides) := by
  obtain ⟨before, after⟩ := sides
  cases after with
  | nil => simp [right, ofSides, sidesRight]
  | cons c after => simp [right, ofSides, sidesRight]

end Editor

namespace Terminal

/-- What a key makes of the text before and the text after the cursor, where `recalled` is
the recorded line that the key finds. -/
def edited (recalled : Option Text) (sides : Text × Text) : Key → Text × Text
  | .char c => if Editor.isPrintable c then (sides.1 ++ [c], sides.2) else sides
  | .backspace => (sides.1.dropLast, sides.2)
  | .delete => (sides.1, sides.2.tail)
  | .left => Editor.sidesLeft sides
  | .right => Editor.sidesRight sides
  | .up => (recalled.map (·, [])).getD sides
  | .down => (recalled.map (·, [])).getD ([], [])
  | .enter => ([], [])
  | .ctrl c => if c = 'c' then ([], []) else sides
  | .other => sides

def recalled (history : History) : Key → Option Text
  | .up => history.older.current
  | .down => history.newer.current
  | _ => none

section

variable (environment : Environment) (rounds : Nat)

theorem state_press (state : State) (key : Key) :
    (press environment rounds state key).state = (handle environment rounds state key).state := by
  rw [press]
  split <;> rfl

theorem state_handle_ctrl (state : State) (c : Char) :
    (handle environment rounds state (.ctrl c)).state =
      if c = 'c' then { state with editor := {} }
      else if c = 'd' ∧ state.editor.buffer = [] then (newline state).2
      else state := by
  by_cases cancels : c = 'c'
  · rw [if_pos cancels, cancels]
    rfl
  · rw [if_neg cancels]
    by_cases ends : c = 'd'
    · rw [ends]
      by_cases empty : state.editor.buffer = [] <;> simp [handle, empty]
    · rw [if_neg (fun both => ends both.1), handle.eq_def]
      split <;> simp_all

theorem editor_handle {state : State}
    (within : state.editor.index ≤ state.editor.buffer.length) (key : Key) :
    (handle environment rounds state key).state.editor =
      .ofSides (edited (recalled state.history key) state.editor.sides key) := by
  obtain ⟨sides, divided⟩ : ∃ sides, state.editor = .ofSides sides :=
    ⟨state.editor.sides, (Editor.ofSides_sides within).symm⟩
  rw [divided, Editor.sides_ofSides]
  cases key with
  | char c =>
    simp only [handle, edited, divided]
    split
    · next printable => exact Editor.insert_ofSides printable sides.1 sides.2
    · next other => exact if_neg other
  | backspace =>
    simp only [handle, edited, divided]
    exact Editor.backspace_ofSides sides.1 sides.2
  | delete =>
    simp only [handle, edited, divided]
    exact Editor.delete_ofSides sides.1 sides.2
  | left =>
    simp only [handle, edited, divided]
    exact Editor.left_ofSides sides
  | right =>
    simp only [handle, edited, divided]
    exact Editor.right_ofSides sides
  | up =>
    simp only [handle, edited, recalled]
    cases state.history.older.current with
    | none => exact divided
    | some line => exact (Editor.ofSides_line line).symm
  | down =>
    simp only [handle, edited, recalled]
    cases state.history.newer.current with
    | none => rfl
    | some line => exact (Editor.ofSides_line line).symm
  | enter => rfl
  | ctrl c =>
    rw [state_handle_ctrl, edited]
    split
    · rfl
    · split <;> exact divided
  | other => exact divided

end

/-- What holds between two keys of a session on a screen of the given height. -/
structure State.IsSound (rows : Nat) (state : State) : Prop where
  printable : state.editor.buffer.IsPrintable
  within : state.editor.index ≤ state.editor.buffer.length
  recorded : ∀ line ∈ state.history.entries, line.IsPrintable ∧ ∃ c ∈ line, isBlank c = false
  height : state.rows = rows
  onScreen : 1 ≤ state.row ∧ state.row ≤ rows

/-- The second state is the first one on the same row or on one below, still on the screen. -/
structure MovesDown (first second : State) : Prop where
  same : second = { first with row := second.row }
  down : first.row ≤ second.row
  stays : first.row ≤ first.rows → second.row ≤ first.rows

namespace MovesDown

theorem refl (state : State) : MovesDown state state := ⟨rfl, Nat.le_refl _, id⟩

theorem trans {first second third : State} (front : MovesDown first second)
    (back : MovesDown second third) : MovesDown first third := by
  have rows : second.rows = first.rows := by rw [front.same]
  refine ⟨?_, Nat.le_trans front.down back.down, fun inside => ?_⟩
  · rw [back.same, front.same]
  · rw [← rows]
    exact back.stays (rows ▸ front.stays inside)

theorem withEditor {first second : State} (moves : MovesDown first second) (editor : Editor) :
    MovesDown { first with editor } { second with editor } :=
  ⟨by rw [moves.same], moves.down, moves.stays⟩

theorem withMachine {first second : State} (moves : MovesDown first second) (machine : Machine) :
    MovesDown { first with machine } { second with machine } :=
  ⟨by rw [moves.same], moves.down, moves.stays⟩

end MovesDown

theorem movesDown_newline (state : State) : MovesDown state (newline state).2 := by
  refine ⟨rfl, ?_, fun inside => ?_⟩
  all_goals
    simp only [newline]
    split <;> omega

theorem movesDown_writeLines (lines : List Text) (state : State) :
    MovesDown state (writeLines lines state).2 := by
  induction lines generalizing state with
  | nil => exact .refl state
  | cons line rest ih => exact (movesDown_newline state).trans (ih _)

theorem movesDown_write (text : Text) (state : State) : MovesDown state (write text state).2 := by
  obtain ⟨first, rest, cut⟩ := exists_pieces '\n' text
  rw [write, cut]
  exact movesDown_writeLines rest state

section

variable (environment : Environment) (rounds : Nat) (state : State)

theorem movesDown_enter :
    MovesDown
      { state with
        editor := {}
        history := state.history.push state.editor.buffer
        machine := (Session.answer environment rounds state.editor.buffer state.machine).2 }
      (enter environment rounds state).state := by
  let history := state.history.push state.editor.buffer
  let answered := Session.answer environment rounds state.editor.buffer state.machine
  let below := (newline { state with history }).2
  have entered := (movesDown_newline { state with history }).withMachine answered.2
  have shown := movesDown_write answered.1.text { below with machine := answered.2 }
  have finished := movesDown_newline (write answered.1.text { below with machine := answered.2 }).2
  exact ((entered.trans shown).trans finished).withEditor {}

theorem movesDown_handle (key : Key) : ∃ editor history machine,
    MovesDown { state with editor, history, machine } (handle environment rounds state key).state ∧
      (history = state.history.push state.editor.buffer ∨
        history.entries = state.history.entries) := by
  cases key with
  | enter => exact ⟨_, _, _, movesDown_enter environment rounds state, .inl rfl⟩
  | ctrl c =>
    rw [state_handle_ctrl]
    split
    · exact ⟨_, _, _, .refl _, .inr rfl⟩
    · split
      · exact ⟨_, _, _, movesDown_newline state, .inr rfl⟩
      · exact ⟨_, _, _, .refl state, .inr rfl⟩
  | down =>
    refine ⟨_, _, _, .refl _, .inr ?_⟩
    rw [History.newer]
    split <;> rfl
  | _ => exact ⟨_, _, _, .refl _, .inr rfl⟩

end

theorem mem_entries_push {history : History} {line entry : Text}
    (mem : entry ∈ (history.push line).entries) :
    entry ∈ history.entries ∨ entry = line ∧ ∃ c ∈ line, isBlank c = false := by
  simp only [History.push] at mem
  split at mem
  · next kept =>
    have filled : ∃ c ∈ line, isBlank c = false := by
      apply exists_of_trim_ne_nil
      intro empty
      simp [History.keeps, empty] at kept
    rcases List.mem_append.1 mem with mem | mem
    · refine .inl ?_
      split at mem
      · exact List.mem_of_mem_drop mem
      · exact mem
    · exact .inr ⟨List.mem_singleton.1 mem, filled⟩
  · exact .inl mem

theorem mem_entries_of_recalled {history : History} {key : Key} {line : Text}
    (found : recalled history key = some line) : line ∈ history.entries := by
  cases key with
  | up => exact List.mem_of_getElem? found
  | down =>
    have entries : history.newer.entries = history.entries := by
      rw [History.newer]
      split <;> rfl
    rw [← entries]
    exact List.mem_of_getElem? found
  | _ => cases found

theorem isPrintable_edited {found : Option Text} {sides : Text × Text}
    (typed : (sides.1 ++ sides.2).IsPrintable) (recorded : ∀ line ∈ found, line.IsPrintable)
    (key : Key) : ((edited found sides key).1 ++ (edited found sides key).2).IsPrintable := by
  obtain ⟨before, after⟩ := sides
  obtain ⟨front, back⟩ := isPrintable_append.1 typed
  cases key with
  | char c =>
    rw [edited]
    split
    · next printable =>
      exact isPrintable_append.2 ⟨isPrintable_append.2 ⟨front, by simpa [IsPrintable]⟩, back⟩
    · exact typed
  | backspace =>
    exact isPrintable_append.2 ⟨fun c mem => front c (List.dropLast_subset before mem), back⟩
  | delete => exact isPrintable_append.2 ⟨front, fun c mem => back c (List.mem_of_mem_tail mem)⟩
  | left =>
    rcases List.eq_nil_or_concat before with rfl | ⟨before, c, rfl⟩
    · exact typed
    · simpa [edited, Editor.sidesLeft, List.concat_eq_append] using typed
  | right =>
    cases after with
    | nil => simpa [edited, Editor.sidesRight] using typed
    | cons c after => simpa [edited, Editor.sidesRight] using typed
  | up =>
    cases found with
    | none => exact typed
    | some line => simpa [edited] using recorded line rfl
  | down =>
    cases found with
    | none => exact fun c mem => nomatch mem
    | some line => simpa [edited] using recorded line rfl
  | enter => exact fun c mem => nomatch mem
  | ctrl c =>
    rw [edited]
    split
    · exact fun c mem => nomatch mem
    · exact typed
  | other => exact typed

theorem State.IsSound.press {rows : Nat} {state : State} (sound : state.IsSound rows)
    (environment : Environment) (rounds : Nat) (key : Key) :
    (press environment rounds state key).state.IsSound rows := by
  rw [state_press]
  have edits := editor_handle environment rounds sound.within key
  obtain ⟨editor, history, machine, moves, records⟩ :=
    movesDown_handle environment rounds state key
  have entries : (handle environment rounds state key).state.history = history := by
    rw [moves.same]
  have height : (handle environment rounds state key).state.rows = state.rows := by
    rw [moves.same]
  have typed : (state.editor.before ++ state.editor.after).IsPrintable := by
    rw [Editor.before_append_after]
    exact sound.printable
  refine ⟨?_, ?_, fun line mem => ?_, height.trans sound.height, ?_, ?_⟩
  · rw [edits]
    exact isPrintable_edited typed
      (fun line found => (sound.recorded line (mem_entries_of_recalled found)).1) key
  · rw [edits]
    simp [Editor.ofSides]
  · rw [entries] at mem
    rcases records with pushed | kept
    · rw [pushed] at mem
      rcases mem_entries_push mem with old | ⟨same, filled⟩
      · exact sound.recorded line old
      · exact same ▸ ⟨sound.printable, filled⟩
    · exact sound.recorded line (kept ▸ mem)
  · exact Nat.le_trans sound.onScreen.1 moves.down
  · rw [← sound.height]
    exact moves.stays (sound.height ▸ sound.onScreen.2)

structure Turn where
  state : State
  key : Key
  response : Response

/-- The keys in turn, up to the one that ends the session. -/
def turns (environment : Environment) (rounds : Nat) : List Key → State → List Turn
  | [], _ => []
  | key :: rest, state =>
    let response := press environment rounds state key
    ⟨state, key, response⟩ ::
      if response.ended then [] else turns environment rounds rest response.state

theorem pressAll_eq_turns (environment : Environment) (rounds : Nat) (keys : List Key)
    (state : State) :
    pressAll environment rounds keys state =
      (turns environment rounds keys state).map (·.response.output) := by
  induction keys generalizing state with
  | nil => rfl
  | cons key rest ih =>
    rw [pressAll, turns]
    split
    · rfl
    · rw [List.map_cons, ih]

theorem exists_press_of_mem_turns {environment : Environment} {rounds rows : Nat}
    {keys : List Key} {state : State} (sound : state.IsSound rows) {turn : Turn}
    (mem : turn ∈ turns environment rounds keys state) :
    turn.state.IsSound rows ∧
      turn.response = press environment rounds turn.state turn.key := by
  induction keys generalizing state with
  | nil => cases mem
  | cons key rest ih =>
    rw [turns] at mem
    rcases List.mem_cons.1 mem with here | later
    · exact here ▸ ⟨sound, rfl⟩
    · split at later
      · cases later
      · exact ih (sound.press environment rounds key) later

/-- A session that starts on the screen stays on it, whatever is typed and evaluated. At every
key the line holds printable characters only, one byte each, with the cursor in it or at its
end, no blank line is recorded, and the key changes the texts before and after the cursor as
`edited` says. -/
theorem turns_edit_line {rows row : Nat} (top : 1 ≤ row) (bottom : row ≤ rows)
    (environment : Environment) (rounds : Nat) (machine : Machine) (keys : List Key) :
    ∀ turn ∈ turns environment rounds keys { rows, row, machine },
      turn.state.IsSound rows ∧ turn.response.state.IsSound rows ∧
      (∀ place ≤ turn.state.editor.buffer.length,
        (Encoding.encode (turn.state.editor.buffer.take place)).length = place) ∧
      turn.response.state.editor.sides =
        edited (recalled turn.state.history turn.key) turn.state.editor.sides turn.key := by
  intro turn mem
  have start : State.IsSound rows { rows, row, machine } :=
    ⟨List.forall_mem_nil _, Nat.le_refl _, List.forall_mem_nil _, rfl, top, bottom⟩
  obtain ⟨sound, response⟩ := exists_press_of_mem_turns start mem
  refine ⟨sound, ?_, fun place inside => ?_, ?_⟩
  · rw [response]
    exact sound.press environment rounds turn.key
  · have printable : IsPrintable (turn.state.editor.buffer.take place) :=
      fun c mem => sound.printable c (List.mem_of_mem_take mem)
    rw [printable.length_encode, List.length_take_of_le inside]
  · rw [response, state_press, editor_handle environment rounds sound.within,
      Editor.sides_ofSides]

/-- On the bottom row of a screen: a letter that cannot be typed, a line that is entered with
the cursor inside it, recalled, shortened and put back, and a key that ends only an empty line. -/
theorem turns_edit_line_recalling :
    ∃ environment : Environment, ∃ keys : List Key,
      keys = [.char 'a', .char 'b', .left, .char 'é', .enter, .up, .left, .delete, .ctrl 'd',
        .down, .ctrl 'd', .enter] ∧
      (turns environment 0 keys { rows := 2, row := 2 }).map (·.response.state.editor.sides) =
        [("a", ""), ("ab", ""), ("a", "b"), ("a", "b"), ("", ""), ("ab", ""), ("a", "b"),
          ("a", ""), ("a", ""), ("", ""), ("", "")].map (fun (before, after) =>
            (before.toList, after.toList)) ∧
      ∀ turn ∈ turns environment 0 keys { rows := 2, row := 2 },
        turn.response.state.IsSound 2 := by
  let environment : Environment := { context := Dictionary.natives }
  let keys : List Key := [.char 'a', .char 'b', .left, .char 'é', .enter, .up, .left, .delete,
    .ctrl 'd', .down, .ctrl 'd', .enter]
  refine ⟨environment, keys, rfl, by decide +kernel, fun turn mem => ?_⟩
  exact (turns_edit_line (by decide) (by decide) environment 0 {} keys turn mem).2.1

end Terminal

end Concatenative
