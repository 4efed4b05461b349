import Concatenative.Files.Path

/-!
File systems as the programs see them: which path texts name a file, and the
bytes it holds. A file tree gives one by walking a relative path component by
component.
-/

namespace Concatenative

/-- The bytes of the file that a path names; a path that names no file has none. -/
abbrev FileSystem := Text → Option (List UInt8)

def FileSystem.isFile (files : FileSystem) (path : Text) : Bool := (files path).isSome

structure FileTree where
  files : List (List Text × List UInt8) := []
  directories : List (List Text) := []

namespace FileTree

def normalize (path : Text) : List Text :=
  (pieces Path.separator path).foldl
    (fun location component =>
      if component.isEmpty || component = Path.here then location
      else if component = Path.parent then location.dropLast
      else location ++ [component])
    []

def addDirectory (tree : FileTree) (path : Text) : FileTree :=
  { tree with directories := normalize path :: tree.directories }

def addFile (tree : FileTree) (path : Text) (contents : List UInt8) : FileTree :=
  { tree with files := (normalize path, contents) :: tree.files }

def isDirectory (tree : FileTree) (location : List Text) : Bool :=
  location.isEmpty || tree.directories.any (location.isPrefixOf ·) ||
    tree.files.any fun file => location.length < file.1.length && location.isPrefixOf file.1

/-- One component further. Only a directory can be entered, also when the
component does not move, and there is nothing above the current directory. -/
def enter? (tree : FileTree) (location : List Text) (component : Text) :
    Option (List Text) :=
  if !tree.isDirectory location then none
  else if component.isEmpty || component = Path.here then some location
  else if component = Path.parent then
    if location.isEmpty then none else some location.dropLast
  else some (location ++ [component])

def byteLength (text : Text) : Nat := (String.ofList text).utf8ByteSize

/-- The limits that a file system sets to names: 255 bytes for a component and
4095 for a path, and no NUL. -/
def isNameable (path : Text) : Bool :=
  !path.isEmpty && !path.contains '\x00' && byteLength path < 4096 &&
    (pieces Path.separator path).all (byteLength · ≤ 255)

def fileSystem (tree : FileTree) : FileSystem := fun path =>
  if isNameable path && !Path.isAbsolute path then
    match (pieces Path.separator path).foldlM tree.enter? [] with
    | none => none
    | some location => (tree.files.find? (·.1 = location)).map (·.2)
  else none

end FileTree

end Concatenative
