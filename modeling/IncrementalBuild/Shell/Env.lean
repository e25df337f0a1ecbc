import IncrementalBuild.Shell.Command

/-!
The program `env`, which runs another program with other variables than its own. The first lines of
scripts name it to have their interpreter looked for in the search path.
-/

namespace IncrementalBuild.Shell

open Text

/-- What `env` is asked to do. -/
structure Preparation where
  /-- Whether the variables that it was given are left out. -/
  alone : Bool
  /-- The variables that are taken away. -/
  removed : List Raw
  /-- The program and its arguments, behind the variables that it is given. -/
  rest : List Raw
  deriving Repr, Inhabited

namespace Preparation

/-- What a text is cut into that stands for several arguments. -/
def pieces (text : Raw) : List Raw :=
  (splitOn ' ' (text.map fun c => if isNumberGap c then ' ' else c)).filter (· ≠ [])

/-- What is said of an option that there is none of. -/
def refusal (c : Char) : List Raw :=
  ("invalid option -- '".toList ++ [c, '\'']) ::
    if isNumberGap c then ["use -[v]S to pass options in shebang lines".toList] else []

/-- Reads arguments, or tells what is wrong with them. `limit` bounds what there is to read. -/
def read : (limit : Nat) → Preparation → List Raw → Except (List Raw) Preparation
  | 0, p, arguments => .ok { p with rest := arguments }
  | limit + 1, p, arguments =>
    match arguments with
    | ['-', '-'] :: rest => .ok { p with rest }
    | ['-'] :: rest => .ok { p with alone := true, rest }
    | ('-' :: '-' :: name) :: rest =>
      if name = "ignore-environment".toList then read limit { p with alone := true } rest
      else .error ["unrecognized option '--".toList ++ name ++ ['\'']]
    | ('-' :: 'i' :: letters) :: rest =>
      let more := if letters.isEmpty then rest else ('-' :: letters) :: rest
      read limit { p with alone := true } more
    | ('-' :: c :: letters) :: rest =>
      if c = 'u' || c = 'S' then
        match letters, rest with
        | [], [] => .error ["option requires an argument -- '".toList ++ [c, '\'']]
        | [], value :: rest => take limit p c value rest
        | value, rest => take limit p c value rest
      else .error (refusal c)
    | _ => .ok { p with rest := arguments }
where
  /-- Goes on behind an option with a value. -/
  take (limit : Nat) (p : Preparation) (c : Char) (value : Raw) (rest : List Raw) :
      Except (List Raw) Preparation :=
    if c = 'u' then read limit { p with removed := p.removed ++ [value] } rest
    else read limit p (pieces value ++ rest)

end Preparation

/-- A text between quotes, in which every character can be seen. -/
def visiblyQuoted (text : Raw) : Raw :=
  let octal (c : Char) : Raw :=
    let ds := Nat.toDigits 8 c.toNat
    '\\' :: List.replicate (3 - ds.length) '0' ++ ds
  let shown (c : Char) : Raw :=
    match c with
    | '\t' => ['\\', 't']
    | '\n' => ['\\', 'n']
    | '\r' => ['\\', 'r']
    | '\\' | '\'' => ['\\', c]
    | c => if ' ' ≤ c && c < '\x7f' then [c] else octal c
  '\'' :: text.flatMap shown ++ ['\'']

/-- The first of some results that is none of those that let the search go on. -/
def firstRun {α : Type} (run : Path → Except Fault α) : List Path → Except Fault α
  | [] => .error .notFound
  | p :: ps =>
    match run p with
    | .error .permissionDenied =>
      match firstRun run ps with
      | .error .notFound => .error .permissionDenied
      | result => result
    | .error .notFound | .error .notDirectory => firstRun run ps
    | result => result

/-- Runs a program where it is, or from the first directory of a search path that has it. -/
def runFrom {α : Type} (searchPath : List Path) (program : String)
    (run : Path → Except Fault α) : Except Fault α :=
  if program.isEmpty || program.contains '/' then run ⟨program⟩
  else firstRun run (candidates searchPath program)

/-- The exit status for what `env` does not understand. -/
def misuse : Nat := 125

/-- Runs `env`, which was called by some name. -/
def runEnv (launch : Launch) (called : Raw) (arguments : List Raw) (s : Session) :
    Session × ExitStatus :=
  let complain (s : Session) (line : Raw) : Session :=
    s.write 2 (called ++ ':' :: ' ' :: line ++ ['\n'])
  let limit := arguments.foldl (fun n a => n + a.length + 1) 0
  match Preparation.read limit ⟨false, [], []⟩ arguments with
  | .error lines =>
    let help := "Try '".toList ++ called ++ " --help' for more information.\n".toList
    ((lines.foldl complain s).write 2 help, .code misuse)
  | .ok p =>
    match p.removed.find? fun name => name.isEmpty || name.contains '=' with
    | some name =>
      let reason := "cannot unset ".toList ++ visiblyQuoted name ++ ": Invalid argument".toList
      (complain s reason, .code misuse)
    | none =>
      let given := p.rest.takeWhile fun a => a.contains '='
      let own := if p.alone then [] else
        s.environment.filter fun v => !p.removed.contains (Raw.ofString v.1)
      let set (vs : List (String × Raw)) (a : Raw) : List (String × Raw) :=
        let name := Raw.shown (a.takeWhile (· ≠ '='))
        (vs.filter fun v => v.1 ≠ name) ++ [(name, (a.dropWhile (· ≠ '=')).tail)]
      let values := given.foldl set own
      let prepared := { s with values := values.map fun v => (v.1, ⟨some v.2, true, false⟩) }
      match p.rest.drop given.length with
      | [] =>
        let line (v : String × Raw) : Raw := v.1.toList ++ '=' :: v.2 ++ ['\n']
        (s.write 1 (values.flatMap line), .code 0)
      | name :: arguments =>
        let run (file : Path) : Except Fault (Session × ExitStatus) :=
          match launch file name arguments prepared with
          | .error .notProgram =>
            launch ⟨Raw.shown shellFile⟩ shellFile (Raw.ofString file.text :: arguments) prepared
          | result => result
        let searchPath := ((values.lookup "PATH").map fun v =>
          (splitOn ':' v).map fun p => Path.mk (Raw.shown p)).getD standardPath
        match runFrom searchPath (Raw.shown name) run with
        | .ok result => result
        | .error fault =>
          let s := complain s (visiblyQuoted name ++ ':' :: ' ' :: fault.reason.toList)
          let hint := fault = .notFound && name.any isNumberGap
          (if hint then complain s "use -[v]S to pass options in shebang lines".toList else s,
            .code (if fault = .notFound then 127 else 126))

end IncrementalBuild.Shell
