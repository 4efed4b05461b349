import Concatenative.Text.Blank

/-!
The line being edited: its text and the place of the cursor in it.
-/

namespace Concatenative

structure Editor where
  buffer : Text := []
  index : Nat := 0
deriving DecidableEq, Repr

namespace Editor

def isPrintable (c : Char) : Bool := 0x20 ≤ c.toNat && c.toNat ≤ 0x7E

def ofLine (line : Text) : Editor := ⟨line, line.length⟩

/-- Other characters than printable ones are ignored. -/
def insert (editor : Editor) (c : Char) : Editor :=
  if isPrintable c then ⟨editor.buffer.insertIdx editor.index c, editor.index + 1⟩
  else editor

def delete (editor : Editor) : Editor :=
  { editor with buffer := editor.buffer.eraseIdx editor.index }

def backspace (editor : Editor) : Editor :=
  if editor.index = 0 then editor
  else ⟨editor.buffer.eraseIdx (editor.index - 1), editor.index - 1⟩

def left (editor : Editor) : Editor :=
  { editor with index := editor.index - 1 }

def right (editor : Editor) : Editor :=
  if editor.index < editor.buffer.length then { editor with index := editor.index + 1 }
  else editor

def before (editor : Editor) : Text := editor.buffer.take editor.index

def after (editor : Editor) : Text := editor.buffer.drop editor.index

theorem before_append_after (editor : Editor) :
    editor.before ++ editor.after = editor.buffer :=
  List.take_append_drop editor.index editor.buffer

end Editor

end Concatenative
