import Concatenative.CommandLine

/-!
The command. Module files below the current directory and the file to run are
read before anything is evaluated; without a file, standard input is answered
line by line.
-/

namespace Concatenative.Command

def readModuleFiles : IO FileTree := do
  let root ← IO.currentDir
  let start := root.toString.length + 1
  let mut tree : FileTree := {}
  for path in ← root.walkDir do
    if path.extension == some "gloom" && !(← path.isDir) then
      let contents ← IO.FS.readBinFile path
      tree := tree.addFile (path.toString.toList.drop start) contents.toList
  return tree

/-- A file system that knows one more file, by exactly its path. -/
def withFile (files : FileSystem) (path : Text) (contents : List UInt8) :
    FileSystem := fun other =>
  if other = path then some contents else files other

def readScript (files : FileSystem) (options : Options) : IO FileSystem := do
  match options.file with
  | none => return files
  | some file =>
    try return withFile files file (← IO.FS.readBinFile (String.ofList file)).toList
    catch _ => return files

partial def readInput (stream : IO.FS.Stream) (sofar : ByteArray) : IO ByteArray := do
  let chunk ← stream.read 65536
  if chunk.isEmpty then return sofar else readInput stream (sofar ++ chunk)

/-- More rounds than a loop can go through. -/
def roundLimit : Nat := 4611686018427387904

end Concatenative.Command

open Concatenative Command in
def main (arguments : List String) : IO UInt32 := do
  let arguments := arguments.map String.toList
  let mut files := (← readModuleFiles).fileSystem
  let mut input := ByteArray.empty
  if let some options := Options.read? arguments then
    files ← readScript files options
    if options.file.isNone && !options.version then
      input ← readInput (← IO.getStdin) ByteArray.empty
  let exit := CommandLine.run files roundLimit arguments input.toList
  IO.print (String.ofList exit.output)
  IO.eprint (String.ofList exit.errors)
  return exit.code.toUInt32
