import IncrementalBuild.CommandLine.Request
import IncrementalBuild.Number.Decimal
import IncrementalBuild.Text.Split

/-!
Reading command lines word by word. A value can be attached to its option or be the next word,
unless that is an option itself. Where two options of one level exclude each other, or one is given
twice, the line is refused; of an option that is given on both levels, the one behind the command
counts.
-/

namespace IncrementalBuild.CommandLine

/-- The options that were given on one level. -/
structure Given where
  /-- Options with their values; those without a value have an empty one. -/
  values : List (Flag × String)
  /-- The option that was read last, if its value can be the next word, and that word if it was. -/
  pending : Option (Flag × Option String)
  deriving DecidableEq, Repr, Inhabited

namespace Given

/-- No options. -/
def empty : Given := ⟨[], none⟩

/-- Whether an option was given. -/
def has (g : Given) (f : Flag) : Bool :=
  g.values.any fun v => v.1 = f

/-- The value of an option, if it was given. -/
def value? (g : Given) (f : Flag) : Option String :=
  g.values.lookup f

/-- Whether the next word is a value. -/
def waits (g : Given) : Bool :=
  match g.pending with
  | some (_, none) => true
  | _ => false

/-- Whether an option can have a value. -/
def check (f : Flag) (value : String) : Except Refusal Unit :=
  match f with
  | .workspace => if value.isEmpty then .error .missingValue else .ok ()
  | .workers =>
    if (Number.natBelow? (UInt64.size) value.toList).isSome then .ok () else .error .badValue
  | _ => .ok ()

/-- Takes an option with what was found to be its value. -/
def put (g : Given) (f : Flag) (value : Option String) : Except Refusal Given := do
  match f with
  | .help => throw .helpRequested
  | .version => throw .versionRequested
  | f =>
    if f.takesValue && value.isNone then throw .missingValue
    if g.has f then throw .conflict
    check f (value.getD "")
    return { g with values := g.values ++ [(f, value.getD "")] }

/-- Takes the option that is pending. -/
def settle (g : Given) : Except Refusal Given :=
  match g.pending with
  | some (f, value) => { g with pending := none }.put f value
  | none => .ok g

/-- Takes an option whose value, if it has one, is attached. -/
def take (g : Given) (f : Flag) (value : Option String) : Except Refusal Given := do
  (← g.settle).put f value

/-- Takes an option whose value is the next word. -/
def await (g : Given) (f : Flag) : Except Refusal Given := do
  return { ← g.settle with pending := some (f, none) }

/-- Takes a word as the value that is waited for. -/
def answer (g : Given) (word : String) : Given :=
  { g with pending := g.pending.map fun p => (p.1, some word) }

end Given

/-- Takes a word that starts with two dashes. -/
def readLong (flags : List Flag) (g : Given) (body : List Char) : Except Refusal Given :=
  let (name, value) := match Text.splitOnce '=' body with
    | some (name, value) => (name, some (String.ofList value))
    | none => (body, none)
  match flags.find? fun f => f.long.toList = name with
  | none => .error .unknownArgument
  | some f =>
    if f.takesValue then
      match value with
      | some v => g.take f (some v)
      | none => g.await f
    else if value.isSome then .error .unwantedValue
    else g.take f none

/-- Takes the letters of a word that starts with one dash. What follows an option with a value is
its value, with or without an equals sign. -/
def readShort (flags : List Flag) : Given → List Char → Except Refusal Given
  | g, [] => .ok g
  | g, c :: cs =>
    match flags.find? fun f => f.short? = some c with
    | none => .error .unknownArgument
    | some f =>
      if f.takesValue then
        match cs with
        | [] => g.await f
        | '=' :: value => g.take f (some (String.ofList value))
        | value => g.take f (some (String.ofList value))
      else do readShort flags (← g.take f none) cs

/-- Why a word that is neither an option nor a value is refused. Behind two dashes no word is a
command. -/
def refuseWord (level : Option Verb) (behindDashes : Bool) (word : String) : Refusal :=
  match level with
  | some _ => .unknownArgument
  | none =>
    if behindDashes && ((Verb.ofText? word).isSome || word = "help") then .unknownArgument
    else .unknownVerb

/-- Why a line that asks for help on some words gets nothing else. -/
def refuseHelp : List String → Refusal
  | [] => .helpRequested
  | [word] =>
    if (Verb.ofText? word).isSome || word = "help" then .helpRequested else .unknownVerb
  | _ => .unknownVerb

/-- Reads the words of one level, up to the command if none was read yet. The result is what was
given, and the command with the words behind it. -/
def readLevel (level : Option Verb) : Given → List String →
    Except Refusal (Given × Option (Verb × List String))
  | g, [] => .ok (g, none)
  | g, word :: words =>
    let verb := if level.isNone && !g.waits then Verb.ofText? word else none
    match verb with
    | some v => .ok (g, some (v, words))
    | none =>
      if level.isNone && !g.waits && word = "help" then .error (refuseHelp words)
      else match word.toList with
        | ['-', '-'] =>
          match words with
          | [] => .ok (g, none)
          | next :: _ => .error (refuseWord level true next)
        | '-' :: '-' :: body => do readLevel level (← readLong (Flag.at? level) g body) words
        | '-' :: c :: cs => do readLevel level (← readShort (Flag.at? level) g (c :: cs)) words
        | _ =>
          if g.waits then readLevel level (g.answer word) words
          else .error (refuseWord level false word)

/-- Refuses options of one level that exclude each other. -/
def excludeConflicts (g : Given) : Except Refusal Unit :=
  if g.has .quiet && g.has .verbose then .error .conflict else .ok ()

/-- What the options of both levels ask a command for. -/
def requestOf (verb : Verb) (before behind : Given) : Request :=
  let value? (f : Flag) : Option String := (behind.value? f).or (before.value? f)
  let has (f : Flag) : Bool := behind.has f || before.has f
  { verb
    project := behind.value? .project
    withoutDependencies := behind.has .withoutDependencies
    workspace := ⟨(value? .workspace).getD "workspace.kiln"⟩
    configuration := value? .configuration
    platform := value? .platform
    quiet := has .quiet
    verbose := has .verbose
    workers := (value? .workers).bind fun w => Number.natBelow? (UInt64.size) w.toList }

/-- Reads a command line. -/
def read (words : List String) : Except Refusal Request := do
  match ← readLevel none .empty words with
  | (g, none) =>
    let g ← g.settle
    if g.values.isEmpty then throw .nothingGiven else throw .missingVerb
  | (before, some (verb, rest)) =>
    let (behind, _) ← readLevel (some verb) .empty rest
    let behind ← behind.settle
    excludeConflicts behind
    let before ← before.settle
    excludeConflicts before
    return requestOf verb before behind

end IncrementalBuild.CommandLine
