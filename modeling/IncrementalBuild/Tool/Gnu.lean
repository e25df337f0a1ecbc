import IncrementalBuild.Build.Toolchain

/-!
Compilers that are driven like GCC, and the archiver beside them. The arguments of an invocation
follow from the settings of the project alone, in a fixed order.
-/

namespace IncrementalBuild.Tool

open Workspace Build

/-- The compilers that are driven alike. -/
inductive Family where
  | gcc
  | clang
  deriving DecidableEq, Repr, Inhabited

namespace Family

/-- The program that compiles a language. -/
def compiler : Family → Language → String
  | gcc, .c => "gcc"
  | gcc, .cpp => "g++"
  | clang, .c => "clang"
  | clang, .cpp => "clang++"

/-- The name of a family. -/
def text : Family → String
  | gcc => "GCC"
  | clang => "Clang"

/-- The family that builds for a platform, if there is one. Clang is the default. -/
def select? (platform : Platform) : Toolset → Option Family
  | .gcc => if platform.isSupported then some gcc else none
  | .clang | .default => if platform.isSupported then some clang else none

end Family

/-- The arguments that choose a platform. -/
def platformArguments : Platform → List String
  | .x86 => ["-m32"]
  | .x64 => ["-m64"]
  | .arm | .arm64 | .native => []

/-- The arguments that choose how far to optimise. -/
def optimizationArguments : Optimization → List String
  | .debug => ["-O0", "-g"]
  | .preferSize => ["-Os"]
  | .preferSpeed => ["-O2"]
  | .full => ["-O3"]

/-- The arguments that choose how much to warn of. -/
def warningArguments : WarningLevel → List String
  | .none => ["-w"]
  | .low => ["-Wall"]
  | .high => ["-Wall", "-Wextra"]
  | .verbose => ["-Wall", "-Wextra", "-Wpedantic"]

/-- The version number in a line: its last word that starts with a digit and has a dot. -/
def versionIn? (line : List Char) : Option String :=
  ((Text.words line).reverse.find? fun word =>
    word.head?.any Char.isDigit && word.contains '.').map String.ofList

/-- A compiler and an archiver for a project. -/
structure Gnu where
  family : Family
  request : Request
  compiler : Path
  archiver : Path
  /-- The version of the compiler, once it has been asked for. -/
  version : Option String
  deriving Inhabited

namespace Gnu

/-- The programs of a family by their usual names. -/
def ofFamily (family : Family) (request : Request) : Gnu where
  family
  request
  compiler := ⟨family.compiler request.project.language⟩
  archiver := ⟨"ar"⟩
  version := none

/-- The name and the version. -/
def description (g : Gnu) : String :=
  match g.version with
  | some v => g.family.text ++ " " ++ v
  | none => g.family.text

/-- The extension of objects. -/
def objectExtension : String := "o"

/-- The invocation that compiles a unit. -/
def compileCommand (g : Gnu) (u : State.CompileUnit) (version : Option String) : Command :=
  let p := g.request.project
  let c := ((Command.make g.compiler u.source.text).compileOnly.output u.output).dependencyFile
  let c := c.add (platformArguments p.platform ++ optimizationArguments p.optimization ++
    warningArguments p.warnings)
  let c := if p.outputType = .dynamicLibrary then c.add ["-fPIC"] else c
  let c := p.defines.foldl Command.define c
  let c := match version with
    | some v => c.define ("KILN_VERSION=\"" ++ v ++ "\"")
    | none => c
  let c := p.includeDirectories.foldl Command.includeDirectory c
  (c.add p.compilerArguments).add [u.source.text]

/-- The invocation that archives objects. -/
def archiveCommand (g : Gnu) (objects : List Path) (output : Path) : Command :=
  (Command.make g.archiver g.request.project.name).add
    ("rcs" :: output.text :: objects.map Path.text)

/-- The invocation that links objects. -/
def linkCommand (g : Gnu) (objects : List Path) (output : Path) : Command :=
  let p := g.request.project
  let c := Command.make g.compiler p.name
  let c := if p.outputType = .dynamicLibrary then c.add ["-shared"] else c
  let c := (c.add (platformArguments p.platform)).output output
  let c := c.add ((objects ++ g.request.dependencyOutputs).map Path.text)
  let c := p.libraryDirectories.foldl Command.libraryDirectory c
  (p.libraries.foldl Command.library c).add p.linkerArguments

/-- The task that makes the artifact. -/
def artifactTask {ν : Type} (g : Gnu) (objects : List Path) (output : Path) : Build.Task ν :=
  if g.request.project.outputType = .staticLibrary then
    .archive output (g.archiveCommand objects output)
  else .link output (g.linkCommand objects output)

/-- The tasks that bring an artifact up to date. -/
def tasks {ν : Type} (g : Gnu) (units : List State.CompileUnit) (output : Path)
    (version : Option String) : List (Build.Task ν) :=
  (units.filter State.CompileUnit.isStale).map (fun u =>
    .compile u.source u.output (g.compileCommand u version)) ++
  [g.artifactTask (units.map State.CompileUnit.output) output]

/-- The file of a program; one that is not seen from the root is looked for. -/
def located {ν : Type} (w : World ν) (role : String) (program : Path) : Except Failure Path :=
  if program.isAbsolute then .ok program
  else match find? w program.text with
    | some p => .ok p
    | none => .error (.toolNotFound role program.text)

/-- Finds the programs; the archiver has to be there only for a static library. What is found before
something is missing stays found. -/
def locate {ν : Type} (w : World ν) (g : Gnu) : Gnu × Except Failure Unit :=
  match located w "compiler" g.compiler with
  | .error f => (g, .error f)
  | .ok compiler =>
    let g := { g with compiler }
    if g.request.project.outputType = .staticLibrary then
      match located w "archiver" g.archiver with
      | .error f => (g, .error f)
      | .ok archiver => ({ g with archiver }, .ok ())
    else (g, .ok ())

/-- Asks the compiler for its version. -/
def queryVersion {ν : Type} (g : Gnu) : Action ν (Option String) := do
  let query := (Command.make g.compiler "version query").add ["--version"]
  let done ← query.runChecked "query version of"
  return (Text.lines (Text.Raw.shown done.output).toList).head?.bind versionIn?

/-- Finds the programs and asks the compiler for its version. -/
def init {ν : Type} (g : Gnu) (w : World ν) : (Gnu × Except Failure Unit) × World ν :=
  match g.locate w with
  | (g, .error f) => ((g, .error f), w)
  | (g, .ok ()) =>
    match g.queryVersion.runIn w with
    | (.error f, w) => ((g, .error f), w)
    | (.ok version, w) => (({ g with version }, .ok ()), w)

/-- A compiler and an archiver as a toolchain. -/
def toolchain {ν : Type} (g : Gnu) : Toolchain ν where
  description := g.description
  compileStep := true
  objectExtension
  tasks := fun units _ output version => g.tasks units output version

/-- The toolchain for a project, if there is one that can build it. -/
def choose {ν : Type} : ToolchainChoice ν := fun request =>
  let p := request.project
  match Family.select? p.platform p.toolset with
  | none => .error (.noToolchain p.name p.language.text p.platform.text p.toolset.text)
  | some family => .ok do
    let ((g, result), w) := (ofFamily family request).init (← get)
    set w
    Action.ofExcept result
    return g.toolchain

end Gnu

end IncrementalBuild.Tool
