import Concatenative.Arena
import Concatenative.ListText

/-!
Source text is read into words and bracketed blocks. Comments in round brackets
nest and are dropped. A block can then be kept inline, as the canonical text of
its list, or minted, which moves the text into an arena and leaves a handle.
-/

namespace Concatenative

inductive Node where
  | atom (text : Text)
  | block (items : List Node)

namespace Node

def commentOpening : Text := ['(']

def commentClosing : Text := [')']

/-- Leave a comment. The comments in it are left on the way, and one that is never
closed runs to the end. -/
def readComment (words : List Text) : { rest : List Text // rest.length ≤ words.length } :=
  match words with
  | [] => ⟨[], Nat.le_refl _⟩
  | word :: rest =>
    if word = commentClosing then ⟨rest, by grind⟩
    else if word = commentOpening then
      let inner := readComment rest
      have shorter := inner.2
      let after := readComment inner.1
      ⟨after.1, by grind⟩
    else
      let after := readComment rest
      ⟨after.1, by grind⟩
termination_by words.length
decreasing_by all_goals grind

def skipComment (words : List Text) : List Text := (readComment words).1

theorem length_skipComment_le (words : List Text) : (skipComment words).length ≤ words.length :=
  (readComment words).2

@[simp] theorem skipComment_nil : skipComment [] = [] := by
  rw [skipComment, readComment]

theorem skipComment_closing (words : List Text) : skipComment (commentClosing :: words) = words := by
  rw [skipComment, readComment]
  simp

theorem skipComment_opening (words : List Text) :
    skipComment (commentOpening :: words) = skipComment (skipComment words) := by
  rw [skipComment, readComment]
  simp [skipComment, commentOpening, commentClosing]

theorem skipComment_word {word : Text} (notOpening : word ≠ commentOpening)
    (notClosing : word ≠ commentClosing) (words : List Text) :
    skipComment (word :: words) = skipComment words := by
  rw [skipComment, readComment]
  simp [skipComment, notOpening, notClosing]

/-- Read up to the end, or up to and including the first closing bracket that
has no partner, and return the words after it. A block that is never closed
ends where the words end. -/
def readUntilClosed (words : List Text) :
    List Node × { rest : List Text // rest.length ≤ words.length } :=
  match words with
  | [] => ([], ⟨[], Nat.le_refl _⟩)
  | word :: rest =>
    if word = commentOpening then
      have shorter := length_skipComment_le rest
      let (nodes, after) := readUntilClosed (skipComment rest)
      (nodes, ⟨after.1, by grind⟩)
    else if word = ListText.opening then
      let (items, inside) := readUntilClosed rest
      have shorter := inside.2
      let (nodes, after) := readUntilClosed inside.1
      (.block items :: nodes, ⟨after.1, by grind⟩)
    else if word = ListText.closing then ([], ⟨rest, by grind⟩)
    else
      let (nodes, after) := readUntilClosed rest
      (.atom word :: nodes, ⟨after.1, by grind⟩)
termination_by words.length
decreasing_by all_goals grind

def nodes (words : List Text) : List Node := (readUntilClosed words).1

def rest (words : List Text) : List Text := (readUntilClosed words).2.1

theorem length_rest_le (words : List Text) : (rest words).length ≤ words.length :=
  (readUntilClosed words).2.2

@[simp] theorem nodes_nil : nodes [] = [] := by
  rw [nodes, readUntilClosed]

@[simp] theorem rest_nil : rest [] = [] := by
  rw [rest, readUntilClosed]

theorem nodes_comment (words : List Text) :
    nodes (commentOpening :: words) = nodes (skipComment words) := by
  rw [nodes, readUntilClosed]
  simp [nodes]

theorem rest_comment (words : List Text) :
    rest (commentOpening :: words) = rest (skipComment words) := by
  rw [rest, readUntilClosed]
  simp [rest]

theorem nodes_opening (words : List Text) :
    nodes (ListText.opening :: words) = .block (nodes words) :: nodes (rest words) := by
  rw [nodes, readUntilClosed]
  simp [nodes, rest, ListText.opening, commentOpening]

theorem rest_opening (words : List Text) :
    rest (ListText.opening :: words) = rest (rest words) := by
  rw [rest, readUntilClosed]
  simp [rest, ListText.opening, commentOpening]

theorem nodes_closing (words : List Text) : nodes (ListText.closing :: words) = [] := by
  rw [nodes, readUntilClosed]
  simp [ListText.closing, ListText.opening, commentOpening]

theorem rest_closing (words : List Text) : rest (ListText.closing :: words) = words := by
  rw [rest, readUntilClosed]
  simp [ListText.closing, ListText.opening, commentOpening]

def IsAtom (word : Text) : Prop :=
  word ≠ commentOpening ∧ word ≠ ListText.opening ∧ word ≠ ListText.closing

theorem nodes_atom {word : Text} (atom : IsAtom word) (words : List Text) :
    nodes (word :: words) = .atom word :: nodes words := by
  rw [nodes, readUntilClosed]
  simp [nodes, atom.1, atom.2.1, atom.2.2]

theorem rest_atom {word : Text} (atom : IsAtom word) (words : List Text) :
    rest (word :: words) = rest words := by
  rw [rest, readUntilClosed]
  simp [rest, atom.1, atom.2.1, atom.2.2]

/-- The nodes of a source text. Reading stops at a closing bracket that has no
partner. -/
def read (source : Text) : List Node :=
  nodes (Text.words source)

mutual

def render : Node → Text
  | .atom text => text
  | .block items => ListText.render (renderAll items)

def renderAll : List Node → List Text
  | [] => []
  | node :: rest => node.render :: renderAll rest

end

mutual

/-- A node as one token, every block moved into the arena. Inner blocks are
minted before the blocks around them. -/
def mint (arena : Arena) : Node → Text × Arena
  | .atom text => (text, arena)
  | .block items =>
    let (elements, arena) := mintAll arena items
    let (handle, arena) := arena.mint (ListText.render elements)
    (handle.toText, arena)

def mintAll (arena : Arena) : List Node → List Text × Arena
  | [] => ([], arena)
  | node :: rest =>
    let (token, arena) := mint arena node
    let (tokens, arena) := mintAll arena rest
    (token :: tokens, arena)

end

end Node

def parse (source : Text) : List Text :=
  Node.renderAll (Node.read source)

def parseMinting (arena : Arena) (source : Text) : List Text × Arena :=
  Node.mintAll arena (Node.read source)

end Concatenative
