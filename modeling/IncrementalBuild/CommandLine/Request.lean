import IncrementalBuild.Path

/-!
What a command line can ask for. Options of every command can stand before or behind the command
word; each has a long name, and most have a short one.
-/

namespace IncrementalBuild.CommandLine

/-- The commands. -/
inductive Verb where
  | build
  /-- Clean, and then build. -/
  | rebuild
  | clean
  /-- Show a resolved description. -/
  | resolve
  deriving DecidableEq, Repr, Inhabited

namespace Verb

/-- All commands. -/
def all : List Verb := [build, rebuild, clean, resolve]

/-- The word for a command. -/
def text : Verb → String
  | build => "build"
  | rebuild => "rebuild"
  | clean => "clean"
  | resolve => "resolve"

/-- The command a word stands for. -/
def ofText? (word : String) : Option Verb :=
  all.find? fun v => v.text = word

/-- Whether a command builds. -/
def builds : Verb → Bool
  | build | rebuild => true
  | clean | resolve => false

end Verb

/-- The options. -/
inductive Flag where
  | workspace
  | configuration
  | platform
  | quiet
  | verbose
  | workers
  | help
  | version
  | project
  | withoutDependencies
  deriving DecidableEq, Repr, Inhabited

namespace Flag

/-- The long name of an option, without its dashes. -/
def long : Flag → String
  | workspace => "workspace"
  | configuration => "config"
  | platform => "platform"
  | quiet => "quiet"
  | verbose => "verbose"
  | workers => "jobs"
  | help => "help"
  | version => "version"
  | project => "project"
  | withoutDependencies => "no-deps"

/-- The short name of an option, if it has one. -/
def short? : Flag → Option Char
  | workspace => some 'w'
  | configuration => some 'c'
  | platform => some 'p'
  | quiet => some 'q'
  | verbose => some 'v'
  | workers => some 'j'
  | help => some 'h'
  | version => some 'V'
  | project | withoutDependencies => none

/-- Whether a value belongs to an option. -/
def takesValue : Flag → Bool
  | workspace | configuration | platform | workers | project => true
  | quiet | verbose | help | version | withoutDependencies => false

/-- The options that can be given with every command. -/
def common : List Flag := [workspace, configuration, platform, quiet, verbose, workers, help]

/-- The options that can be given behind a command, or before it. -/
def at? : Option Verb → List Flag
  | none => version :: common
  | some v => if v.builds then project :: withoutDependencies :: common else project :: common

end Flag

/-- What a command line asks for. -/
structure Request where
  verb : Verb
  /-- Only this project. -/
  project : Option String
  /-- Leave out what the project depends on. -/
  withoutDependencies : Bool
  workspace : Path
  configuration : Option String
  platform : Option String
  quiet : Bool
  verbose : Bool
  /-- How many workers there may be; zero stands for as many as are useful. -/
  workers : Option Nat
  deriving Repr, Inhabited

/-- Why a command line asks for nothing that can be done. -/
inductive Refusal where
  | helpRequested
  | versionRequested
  /-- Nothing is asked for at all. -/
  | nothingGiven
  | missingVerb
  | unknownVerb
  | unknownArgument
  /-- An option lacks its value, or the value is empty where it must not be. -/
  | missingValue
  /-- A value is none that the option can have. -/
  | badValue
  /-- A value is given to an option that has none. -/
  | unwantedValue
  /-- An option is given twice, or together with one that excludes it. -/
  | conflict
  deriving DecidableEq, Repr, Inhabited

end IncrementalBuild.CommandLine
