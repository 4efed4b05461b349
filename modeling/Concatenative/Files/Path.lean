import Concatenative.Text.Pieces

/-!
Path texts: joining, the extension of the last component, and the file name that
belongs to a module name.
-/

namespace Concatenative.Path

def separator : Char := '/'

def isAbsolute (path : Text) : Bool := path.head? = some separator

/-- The path as seen from a directory. An absolute path is not changed, and a
separator is put in unless the directory is empty or ends in one. -/
def join (directory path : Text) : Text :=
  if isAbsolute path || directory.isEmpty then path
  else if directory.getLast? = some separator then directory ++ path
  else directory ++ separator :: path

def here : Text := ".".toList

def parent : Text := "..".toList

def fileName? (path : Text) : Option Text :=
  match ((pieces separator path).filter fun c => !(c.isEmpty || c = here)).getLast? with
  | none => none
  | some component => if component = parent then none else some component

/-- What follows the last dot of the file name, if something precedes that dot. -/
def extension? (path : Text) : Option Text :=
  (fileName? path).bind fun name =>
    match pieces '.' name.reverse with
    | after :: before :: rest =>
      if before.isEmpty && rest.isEmpty then none else some after.reverse
    | _ => none

def moduleExtension : Text := "gloom".toList

def moduleFile (name : Text) : Text :=
  if extension? name = some moduleExtension then name
  else name ++ '.' :: moduleExtension

end Concatenative.Path
