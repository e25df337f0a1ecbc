import IncrementalBuild.Shell.Builtin.Options
import IncrementalBuild.Shell.Format
import IncrementalBuild.Shell.Test

/-!
Commands that write their arguments, and those that only have an exit status.
-/

namespace IncrementalBuild.Shell

open Text

/-- Arguments between spaces, with escapes replaced, and whether a line end follows. An escape can
end all output. -/
def echoed : List Raw → Raw × Bool
  | [] => ([], true)
  | [argument] => unescape argument
  | argument :: rest =>
    match unescape argument with
    | (text, false) => (text, false)
    | (text, true) =>
      let (more, goesOn) := echoed rest
      (text ++ ' ' :: more, goesOn)

/-- `echo`: its arguments between spaces; `-n` leaves the line end out. -/
def echo : Builtin := fun arguments => do
  let (ended, arguments) := match arguments with
    | ['-', 'n'] :: rest => (false, rest)
    | arguments => (true, arguments)
  let (text, goesOn) := echoed arguments
  Step.print (if ended && goesOn then text ++ ['\n'] else text)
  return 0

/-- `printf`: a format with its arguments. -/
def printFormatted : Builtin := fun arguments => do
  match ← withoutOptions arguments with
  | [] => Step.fail "usage: printf format [arg ...]".toList
  | format :: arguments =>
    let p := printed format arguments
    p.complaints.forM Step.warn
    Step.print p.text
    match p.refusal with
    | some reason => Step.fail reason
    | none => return if p.complaints.isEmpty then 0 else 1

/-- Commands that always end with the same status. -/
def constantStatus (status : Nat) : Builtin := fun _ => return status

/-- `test`: whether a condition holds. -/
def testCondition : Builtin := fun arguments => do
  match condition (← get).disk arguments with
  | .ok holds => return if holds then 0 else 1
  | .error reason => Step.fail reason

/-- `[`: a condition before a closing bracket. -/
def testBracketed : Builtin := fun arguments => do
  match betweenBrackets? arguments with
  | some words => testCondition words
  | none => Step.fail "missing ]".toList

end IncrementalBuild.Shell
