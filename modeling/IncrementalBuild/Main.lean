import IncrementalBuild.CommandLine.Run
import IncrementalBuild.Disk.Listing
import IncrementalBuild.Tool.Gnu

/-!
The program. It reads a listing of the files it may use from standard input, one line for each as
`find "$PWD" -printf '%y %m %T@ %p\n'` writes them, takes their contents from the file system, does
what its arguments ask for, and then carries out on the file system what has changed.
-/

namespace IncrementalBuild

/-- The lines of the standard input, without their line ends. -/
partial def inputLines (input : IO.FS.Stream) (lines : Array String) : IO (List String) := do
  let line ← input.getLine
  if line.isEmpty then return lines.toList
  else inputLines input (lines.push (String.ofList (line.toList.takeWhile (· != '\n'))))

/-- The contents of a listed file. -/
def contents (entry : Listed) : IO ByteArray :=
  if entry.isDirectory then return ByteArray.empty else IO.FS.readBinFile entry.path.text

/-- The disk that the standard input lists. -/
def readDisk (workingDirectory : Location) : IO Disk := do
  let lines ← inputLines (← IO.getStdin) #[]
  let entries ← (lines.filterMap Listed.ofLine?).mapM fun entry => do
    return (entry, ← contents entry)
  return Shell.install (Disk.ofListing workingDirectory entries) []

/-- Carries out a change on the file system. -/
def carryOut : Disk.Change → IO Unit
  | .makeDirectory p => IO.FS.createDirAll p.text
  | .writeFile p bytes => IO.FS.writeBinFile p.text bytes
  | .removeFile p => IO.FS.removeFile p.text
  | .removeDirectory p => IO.FS.removeDir p.text

/-- The names from the root down that an absolute path is made of. -/
def locationOf (path : String) : Location :=
  ((Text.splitOn '/' path.toList).filter (· ≠ [])).map String.ofList

/-- The directories that a search path lists. -/
def directoriesOf (searchPath : String) : List Path :=
  (Text.splitOn ':' searchPath.toList).map fun p => ⟨String.ofList p⟩

end IncrementalBuild

open IncrementalBuild in
/-- Runs the program. -/
def main (words : List String) : IO UInt32 := do
  let directory := (← IO.getEnv "PWD").getD "/"
  let searchPath := (← IO.getEnv "PATH").getD ""
  let disk ← readDisk (locationOf directory)
  let (code, w) := CommandLine.run Tool.Gnu.choose words
    { disk, console := .start .normal, messages := .empty, scheduler := .empty
      searchPath := directoriesOf searchPath, notes := () }
  for change in disk.changes w.disk do carryOut change
  (← IO.getStdout).write (Text.Raw.toBytes w.console.output)
  (← IO.getStderr).write (Text.Raw.toBytes w.console.errorOutput)
  return code.toUInt32
