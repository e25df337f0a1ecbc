import IncrementalBuild.Shell.Builtin.Options
import IncrementalBuild.Shell.ProgramFile
import IncrementalBuild.Shell.Script.Reader

/-!
Commands that say what names mean, and the names that stand for other words.
-/

namespace IncrementalBuild.Shell

open Text

/-- An alias as a line that can be read back. -/
def aliasLine (name : String) (value : Raw) : Raw :=
  name.toList ++ '=' :: singleQuoted value ++ ['\n']

/-- A session in which an alias has a value. -/
def Session.setAlias (s : Session) (name : String) (value : Raw) : Session :=
  if (s.aliases.lookup name).isSome then
    { s with aliases := s.aliases.map fun a => if a.1 = name then (name, value) else a }
  else { s with aliases := s.aliases ++ [(name, value)] }

/-- `alias`: shows aliases, or makes new ones. -/
def aliasCommand : Builtin := fun arguments => do
  let s ← get
  if arguments.isEmpty then
    Step.print ((grouped 39 s.aliases).map fun a => aliasLine a.1 a.2).flatten
    return 0
  let results ← arguments.mapM fun argument => do
    let s ← get
    match argument, splitOnce '=' argument.tail with
    | c :: _, some (name, value) =>
      set (s.setAlias (Raw.shown (c :: name)) value)
      return 0
    | _, _ =>
      match s.aliases.lookup (Raw.shown argument) with
      | some value =>
        Step.print (aliasLine (Raw.shown argument) value)
        return 0
      | none =>
        putError ("alias: ".toList ++ argument ++ " not found\n".toList)
        return 1
  return if results.contains 1 then 1 else 0

/-- `unalias`: forgets aliases, or all of them. -/
def unaliasCommand : Builtin := fun arguments => do
  let (given, names) ← optionsOf [('a', false)] arguments
  if !given.isEmpty then
    modify fun s => { s with aliases := [] }
    return 0
  let results ← names.mapM fun name => do
    let s ← get
    if (s.aliases.lookup (Raw.shown name)).isSome then
      set { s with aliases := s.aliases.filter fun a => a.1 ≠ Raw.shown name }
      return 0
    else
      putError ("unalias: ".toList ++ name ++ " not found\n".toList)
      return 1
  return if results.contains 1 then 1 else 0

/-- Says what a name means: in a sentence, or by what it is called by. -/
def describe (searchPath : Option (List Path)) (verbose : Bool) (name : Raw) : Step Nat := do
  let s ← get
  let text := Raw.shown name
  let say (sentence : String) (brief : Raw) : Step Nat := do
    Step.print (if verbose then name ++ sentence.toList ++ ['\n'] else brief ++ ['\n'])
    return 0
  let program (tracked : Bool) (file : Path) : Step Nat :=
    say (" is" ++ (if tracked then " a tracked alias for" else "") ++ " " ++ file.text)
      (Raw.ofString file.text)
  if keywords.contains text then say " is a shell keyword" name
  else match s.aliases.lookup text with
    | some value =>
      if verbose then say (" is an alias for " ++ Raw.shown value) []
      else
        Step.print ("alias ".toList ++ aliasLine text value)
        return 0
    | none =>
      let remembered := if searchPath.isNone then s.remembered.lookup text else none
      match remembered, meaningIn s true (searchPath.getD s.searchPath) text with
      | _, .function _ => say " is a shell function" name
      | _, .special => say " is a special shell builtin" name
      | _, .ordinary => say " is a shell builtin" name
      | some file, _ => program true file
      | none, .program file =>
        if text.toList.contains '/' && !s.disk.present file then
          if verbose then Step.print (name ++ ": not found\n".toList)
          return 127
        else
          set (s.remember text file)
          program false file
      | none, .nothing _ =>
        if verbose then Step.print (name ++ ": not found\n".toList)
        return 127

/-- `type`: what names mean. -/
def typeCommand : Builtin := fun arguments => do
  let results ← arguments.mapM (describe none true)
  return if results.contains 127 then 127 else 0

/-- `command`, where it says what a name means. -/
def describeCommand : Builtin := fun arguments => do
  let (given, names) ← optionsOf [('p', false), ('v', false), ('V', false)] arguments
  let has (c : Char) : Bool := given.any fun o => o.1 = c
  match names with
  | name :: _ =>
    if has 'v' || has 'V' then
      describe (if has 'p' then some standardPath else none) (has 'V') name
    else return 0
  | [] => return 0

/-- `hash`: the programs that were found, which can be forgotten or looked for. -/
def hashCommand : Builtin := fun arguments => do
  let (given, names) ← optionsOf [('r', false)] arguments
  let s ← get
  if !given.isEmpty then
    set { s with remembered := [] }
    return 0
  else if names.isEmpty then
    Step.print ((grouped 31 s.remembered).map fun r => Raw.ofString (r.2.text ++ "\n")).flatten
    return 0
  else
    let results ← names.mapM fun name => do
      modify fun s =>
        { s with remembered := s.remembered.filter fun r => r.1 ≠ Raw.shown name }
      let s ← get
      match meaning s (Raw.shown name) with
      | .program file =>
        set (s.remember (Raw.shown name) file)
        return 0
      | .nothing fault =>
        let reason := if fault = .permissionDenied then fault.reason else "not found"
        Step.warn (name ++ ": ".toList ++ reason.toList)
        return 1
      | _ => return 0
    return if results.contains 1 then 1 else 0

end IncrementalBuild.Shell
