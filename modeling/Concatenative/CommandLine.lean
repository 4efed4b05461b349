import Concatenative.Script
import Concatenative.Terminal.Interactive

/-!
The command line: at most one file, directories to search for modules, a limit
for nesting, verbosity and the version. Options may stand anywhere before a
double dash.
-/

namespace Concatenative

structure Options where
  file : Option Text := none
  directories : List Text := []
  maxDepth : Option Nat := none
  verbosity : Nat := 0
  version : Bool := false
deriving DecidableEq, Repr

namespace Options

def searchPaths (options : Options) : List Text :=
  if options.directories.isEmpty then [Path.here] else options.directories

def depthLimit (options : Options) : Nat := options.maxDepth.getD 256

def addFile (options : Options) (file : Text) : Option Options :=
  match options.file with
  | none => some { options with file := some file }
  | some _ => none

def addInclude (options : Options) (directory : Text) : Option Options :=
  if directory.isEmpty then none
  else some { options with directories := options.directories ++ [directory] }

def readLimit? (text : Text) : Option Nat :=
  let digits := match text with
    | '+' :: digits => digits
    | digits => digits
  (Decimal.read? digits).bind fun n => if n < Decimal.wordBound then some n else none

def setLimit (options : Options) (text : Text) : Option Options :=
  match options.maxDepth, readLimit? text with
  | none, some limit => some { options with maxDepth := some limit }
  | _, _ => none

def setVersion (options : Options) : Option Options :=
  if options.version then none else some { options with version := true }

def addVerbose (options : Options) : Options :=
  { options with verbosity := options.verbosity + 1 }

inductive Valued where
  | includeDirectory
  | depthLimit
deriving DecidableEq, Repr

def setValue (options : Options) : Valued → Text → Option Options
  | .includeDirectory, value => options.addInclude value
  | .depthLimit, value => options.setLimit value

def isOption (argument : Text) : Bool :=
  argument.head? = some '-' && argument.length > 1

/-- What reading one argument leaves: options, or an option that still waits for
its value in the next argument. -/
inductive Progress where
  | done (options : Options)
  | waiting (options : Options) (option : Valued)

def readLong (options : Options) (text : Text) : Option Progress :=
  let name := text.takeWhile (· ≠ '=')
  let value : Option Text := match text.dropWhile (· ≠ '=') with
    | _ :: value => some value
    | [] => none
  let valued (option : Valued) := match value with
    | some value => (options.setValue option value).map Progress.done
    | none => some (.waiting options option)
  if name = "include".toList then valued .includeDirectory
  else if name = "max-depth".toList then valued .depthLimit
  else if value.isSome then none
  else if name = "verbose".toList then some (.done options.addVerbose)
  else if name = "version".toList then options.setVersion.map .done
  else none

/-- A cluster of short options. What follows `I` is its value, with or without an
equals sign. -/
def readShort (options : Options) : Text → Option Progress
  | [] => some (.done options)
  | 'v' :: rest => readShort options.addVerbose rest
  | ['I'] => some (.waiting options .includeDirectory)
  | 'I' :: '=' :: value => (options.addInclude value).map .done
  | 'I' :: value => (options.addInclude value).map .done
  | _ => none

/-- Read the arguments; an option that waits for its value takes the next
argument, which must not look like an option. -/
def readAll : List Text → Progress → Option Options
  | [], .done options => some options
  | [], .waiting _ _ => none
  | argument :: rest, .waiting options option =>
    if isOption argument then none
    else (options.setValue option argument).bind fun options => readAll rest (.done options)
  | argument :: rest, .done options =>
    if argument = "--".toList then rest.foldlM addFile options
    else if isOption argument then
      let progress := match argument with
        | '-' :: '-' :: text => readLong options text
        | '-' :: text => readShort options text
        | _ => none
      progress.bind fun progress => readAll rest progress
    else (options.addFile argument).bind fun options => readAll rest (.done options)

def read? (arguments : List Text) : Option Options := readAll arguments (.done {})

end Options

structure Exit where
  code : Nat := 0
  output : Text := []
  errors : Text := []
deriving DecidableEq, Repr

namespace CommandLine

def usage : Text :=
  ("usage: gloom [-I DIR] [--max-depth N] [-v] [--version] [--] [FILE]\n").toList

def versionLine : Text := "gloom ".toList ++ Terminal.version ++ ['\n']

def runFile (files : FileSystem) (environment : Environment) (rounds : Nat) (file : Text) :
    Exit :=
  match Script.run files environment rounds file with
  | .ok output => { output }
  | .error error => { code := 1, errors := "error: ".toList ++ error.message ++ ['\n'] }

def runInput (environment : Environment) (rounds : Nat) (input : List UInt8) : Exit :=
  let transcript := Session.converse environment rounds (Encoding.decodedLines input) {}
  if transcript.broken then
    { code := 1, output := transcript.output,
      errors := "io error: ".toList ++ Encoding.invalid ++ ['\n'] }
  else { output := transcript.output }

def environment (files : FileSystem) (options : Options) : Environment :=
  Script.environment files options.searchPaths options.depthLimit

def run (files : FileSystem) (rounds : Nat) (arguments : List Text) (input : List UInt8) :
    Exit :=
  match Options.read? arguments with
  | none => { code := 2, errors := usage }
  | some options =>
    if options.version then { output := versionLine }
    else
      match options.file with
      | some file => runFile files (environment files options) rounds file
      | none => runInput (environment files options) rounds input

end CommandLine

end Concatenative
