import IncrementalBuild.Shell.Number
import IncrementalBuild.Shell.Session

/-!
Jobs of a shell: the processes that it does not wait for. A job keeps its place among the jobs until
the shell has waited for it and needs a place for another process, or has said that it is over.
-/

namespace IncrementalBuild.Shell

open Text

namespace Session

/-- Makes a place for a job, and returns its number: the first that is free, or that nobody asks for
anymore. -/
def makePlace (s : Session) : Nat × Session :=
  let needed (n : Nat) : Bool := s.jobs.any fun j => j.index = n && !j.waitedFor
  let place := ((List.range s.jobs.length).map (· + 1)).find? fun n => !needed n
  let n := place.getD (s.jobs.length + 1)
  (n, { s with jobs := s.jobs.filter fun j => j.index ≠ n })

/-- A session that has waited for the jobs which are over, as far as they are asked for. -/
def haveWaited (s : Session) (asked : Job → Bool) : Session :=
  let mark (j : Job) : Job := { j with waitedFor := j.waitedFor || (j.isOver && asked j) }
  { s with jobs := s.jobs.map mark }

/-- The job that an argument names with a percent sign, or what is wrong with it. Jobs have no names
by which they could be told apart. -/
def namedJob (s : Session) (argument : Raw) : Except Raw Job :=
  let missing : Raw := "No such job: ".toList ++ argument
  match argument.tail with
  | [] | ['%'] | ['+'] => (s.jobs.head?.map Except.ok).getD (.error "No current job".toList)
  | ['-'] => (s.jobs[1]?.map Except.ok).getD (.error "No previous job".toList)
  | ['?'] =>
    match s.jobs with
    | [] => .error missing
    | [j] => .ok j
    | _ => .error (argument ++ ": ambiguous".toList)
  | name =>
    match (count? name).bind fun n => s.jobs.find? fun j => j.index = n with
    | some j => .ok j
    | none => .error missing

end Session

namespace Step

/-- The job that an argument names with a percent sign. -/
def namedJob (argument : Raw) : Step Job := do
  match (← get).namedJob argument with
  | .ok j => return j
  | .error reason => fail reason

end Step

end IncrementalBuild.Shell
