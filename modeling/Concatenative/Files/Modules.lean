import Concatenative.Files.Tree
import Concatenative.Module

/-!
Modules found by name: first among the registered native ones, then as files
along the search paths.
-/

namespace Concatenative

structure ModuleFinder where
  files : FileSystem
  searchPaths : List Text
  /-- Registered native modules, the latest first. -/
  natives : List (Text × List NativeStep) := []

namespace ModuleFinder

def register (finder : ModuleFinder) (name : Text) (steps : List NativeStep) : ModuleFinder :=
  { finder with natives := (name, steps) :: finder.natives }

def resolve? (finder : ModuleFinder) (name : Text) : Option Text :=
  (finder.searchPaths.map (Path.join · (Path.moduleFile name))).find? finder.files.isFile

def load (finder : ModuleFinder) : Loader := fun name =>
  match finder.natives.find? (·.1 = name) with
  | some (_, steps) => .ok (.native steps)
  | none =>
    match finder.resolve? name with
    | none => .error (.notFound name)
    | some path =>
      match (finder.files path).bind Encoding.decode? with
      | some text => .ok (.source text)
      | none => .error (.unreadable Encoding.invalid)

end ModuleFinder

end Concatenative
