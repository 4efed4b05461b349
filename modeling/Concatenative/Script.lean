import Concatenative.Files.Modules
import Concatenative.Library
import Concatenative.Session

/-!
Scripts: a file is evaluated once, and what is left on the main stack is shown.
-/

namespace Concatenative

inductive ScriptError where
  | missing (path : Text)
  | unreadable (report : Text)
  | raised (error : Error)
  | unfinished
deriving DecidableEq, Repr

def ScriptError.message : ScriptError → Text
  | .missing path => "file ".toList ++ path ++ " does not exist".toList
  | .unreadable report => report
  | .raised error => error.message
  | .unfinished => "unfinished".toList

namespace Script

def environment (files : FileSystem) (searchPaths : List Text) (maxDepth : Nat) :
    Environment where
  context := Library.dictionary
  loader := { files, searchPaths : ModuleFinder }.load
  maxDepth := maxDepth

def run (files : FileSystem) (environment : Environment) (rounds : Nat) (path : Text) :
    Except ScriptError Text :=
  match files path with
  | none => .error (.missing path)
  | some bytes =>
    match Encoding.decode? bytes with
    | none => .error (.unreadable Encoding.invalid)
    | some source =>
      match ({} : Machine).evaluate environment rounds source with
      | .ok machine => .ok (Session.stackLine machine ++ ['\n'])
      | .raised error _ => .error (.raised error)
      | .unfinished _ => .error .unfinished

end Script

end Concatenative
