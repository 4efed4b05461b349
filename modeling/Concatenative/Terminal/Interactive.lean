import Concatenative.Session
import Concatenative.Terminal.Editor
import Concatenative.Terminal.History
import Concatenative.Text.Pieces

/-!
The interactive session: keys edit a line, Enter evaluates it, and every key is
answered by a piece of terminal output that ends with the line drawn anew.
-/

namespace Concatenative

inductive Key where
  | char (c : Char)
  | enter
  | backspace
  | delete
  | left
  | right
  | up
  | down
  | ctrl (c : Char)
  | other
deriving DecidableEq, Repr

def Key.ofChar (c : Char) : Key :=
  let n := c.toNat
  if c = '\n' || c = '\r' then .enter
  else if n = 0x7F then .backspace
  else if c = '\t' then .char c
  else if 1 ≤ n && n ≤ 26 then .ctrl (Char.ofNat (n - 1 + 'a'.toNat))
  else if n < 0x20 then .other
  else .char c

namespace Terminal

def escape (sequence : Text) : Text := '\x1b' :: '[' :: sequence

def goto (column row : Nat) : Text :=
  escape (Decimal.write row ++ ';' :: Decimal.write column ++ ['H'])

def clearAfter : Text := escape ['J']

def moveLeft : Text := escape "1D".toList

def moveRight : Text := escape "1C".toList

def askPosition : Text := escape "6n".toList

def version : Text := "0.1.0".toList

def banner : Text :=
  ("       _\n" ++
    "  __ _| | ___   ___  _ __ ___\n" ++
    " / _` | |/ _ \\ / _ \\| '_ ` _ \\\n" ++
    "| (_| | | (_) | (_) | | | | | |\n" ++
    " \\__, |_|\\___/ \\___/|_| |_| |_|\n" ++
    " |___/").toList

def greeting : Text :=
  banner ++ ' ' :: version ++ "\n\nType exit<ENTER> to quit.\n\n".toList

/-- What is written first: a line feed still returns to the first column, and the
terminal is asked where its cursor stands. -/
def opening : Text :=
  (greeting.flatMap fun c => if c = '\n' then ['\r', '\n'] else [c]) ++ askPosition

def prompt : Text := "> ".toList

structure State where
  rows : Nat
  row : Nat
  editor : Editor := {}
  history : History := ⟨100, [], 0⟩
  machine : Machine := {}

structure Response where
  output : Text
  state : State
  ended : Bool := false

/-- Columns are 16-bit numbers. -/
def cursorColumn (state : State) : Nat := (prompt.length + state.editor.index + 1) % 65536

def draw (state : State) : Text :=
  goto 1 state.row ++ clearAfter ++ prompt ++ state.editor.buffer ++
    goto (cursorColumn state) state.row

/-- To the start of the next row; on the bottom row the screen scrolls instead. -/
def newline (state : State) : Text × State :=
  let row := if state.row = state.rows then state.row else state.row + 1
  ('\n' :: goto 1 row, { state with row })

def writeLines : List Text → State → Text × State
  | [], state => ([], state)
  | line :: rest, state =>
    let (start, state) := newline state
    let (output, state) := writeLines rest state
    (start ++ line ++ output, state)

def write (text : Text) (state : State) : Text × State :=
  match pieces '\n' text with
  | [] => ([], state)
  | first :: rest =>
    let (output, state) := writeLines rest state
    (first ++ output, state)

def enter (environment : Environment) (rounds : Nat) (state : State) : Response :=
  let line := state.editor.buffer
  let (start, state) := newline { state with history := state.history.push line }
  let (reply, machine) := Session.answer environment rounds line state.machine
  let (shown, state) := write reply.text { state with machine }
  let (finish, state) := newline state
  ⟨start ++ shown ++ finish, { state with editor := {} }, reply.ends⟩

def handle (environment : Environment) (rounds : Nat) (state : State) : Key → Response
  | .backspace =>
    let output := if state.editor.index = 0 then [] else moveLeft
    ⟨output, { state with editor := state.editor.backspace }, false⟩
  | .delete => ⟨[], { state with editor := state.editor.delete }, false⟩
  | .left =>
    let output := if state.editor.index = 0 then [] else moveLeft
    ⟨output, { state with editor := state.editor.left }, false⟩
  | .right =>
    let output := if state.editor.index < state.editor.buffer.length then moveRight else []
    ⟨output, { state with editor := state.editor.right }, false⟩
  | .up =>
    let history := state.history.older
    let editor := (history.current.map Editor.ofLine).getD state.editor
    ⟨[], { state with history, editor }, false⟩
  | .down =>
    let history := state.history.newer
    let editor := (history.current.map Editor.ofLine).getD {}
    ⟨[], { state with history, editor }, false⟩
  | .ctrl 'c' => ⟨[], { state with editor := {} }, false⟩
  | .ctrl 'd' =>
    if state.editor.buffer.isEmpty then
      let (output, state) := newline state
      ⟨output, state, true⟩
    else ⟨[], state, false⟩
  | .enter => enter environment rounds state
  | .char c => ⟨[], { state with editor := state.editor.insert c }, false⟩
  | _ => ⟨[], state, false⟩

def press (environment : Environment) (rounds : Nat) (state : State) (key : Key) : Response :=
  let response := handle environment rounds state key
  if response.ended then response
  else { response with output := response.output ++ draw response.state }

def pressAll (environment : Environment) (rounds : Nat) : List Key → State → List Text
  | [], _ => []
  | key :: rest, state =>
    let response := press environment rounds state key
    if response.ended then [response.output]
    else response.output :: pressAll environment rounds rest response.state

def transcript (environment : Environment) (rounds rows row : Nat) (keys : List Key) :
    List Text :=
  let state : State := { rows, row }
  opening :: draw state :: pressAll environment rounds keys state

end Terminal

end Concatenative
