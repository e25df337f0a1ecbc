import IncrementalBuild.Build.Builder
import IncrementalBuild.Build.Stages
import IncrementalBuild.Build.Toolchain
import IncrementalBuild.State.DependencyFile
import IncrementalBuild.State.Layout
import IncrementalBuild.State.Manifest.Store
import IncrementalBuild.Version.Files

/-!
Building, cleaning and rebuilding. A project is built by checking its sources and its artifact
against the manifest, running the tasks of the toolchain if anything is stale, and recording what
was built. The manifest is written last, and only if everything before succeeded.
-/

namespace IncrementalBuild

open Build State

/-- What a build did with a project. -/
inductive BuildOutcome where
  | built
  /-- Everything was fresh. -/
  | upToDate
  /-- The project groups others, and there is nothing to build. -/
  | skipped
  deriving DecidableEq, Repr, Inhabited

namespace Builder

variable {ν : Type}

/-- Runs the commands that come before anything else. -/
def runPreBuild (p : Project) : Action ν Unit :=
  p.preBuildCommands |> Action.each fun line => do
    Action.status ("  Running " ++ line)
    Action.within .preBuild (runLine line p.directory)

/-- The manifest of a project. One that cannot be used is as good as none. -/
def readManifest (p : Project) : Action ν Manifest := do
  match Manifest.read (← Action.disk) p.manifestFile with
  | .ok m => return m
  | .error f =>
    Action.tell (·.warning (f.message ++ "; rebuilding " ++ p.name ++ " from scratch"))
    return .empty

/-- What the artifact of a project is made from: its objects, and the artifacts it is linked
against. -/
def artifactInputs (units : List CompileUnit) (request : Request) : List Path :=
  units.map CompileUnit.output ++ request.dependencyOutputs

/-- The units of a project and its artifact, with their verdicts. -/
def checkProject (d : Disk) (p : Project) (request : Request) (t : Toolchain ν)
    (fingerprint : UInt64) (m : Manifest) : List CompileUnit × CompileUnit :=
  let sources := p.sourceFiles
  let units := checkedUnits d sources (Path.commonRoot sources) p.intermediateDirectory fingerprint
    t.compileStep m t.objectExtension
  let artifact := (CompileUnit.make p.path p.outputFile).check d fingerprint t.compileStep m
  (units, if t.compileStep then artifact.checkInputs (artifactInputs units request) else artifact)

/-- Tells why a unit is stale. -/
def explain (u : CompileUnit) : Action ν Unit :=
  match u.staleReason? with
  | some reason => Action.detail ("  stale: " ++ u.output.text ++ " (" ++ reason.text ++ ")")
  | none => pure ()

/-- Runs tasks and then shows what compilers said of the units, also where a task fails. -/
def runAndReport (units : List CompileUnit) (tasks : List (Build.Task ν)) : Action ν Unit :=
  ExceptT.mk do
    let result ← ExceptT.run (runTasks tasks)
    modify fun w =>
      let (units, messages) := attachMessages units w.messages
      let said := units.flatMap CompileUnit.messages
      { w with messages, console := said.foldl Console.compilerMessage w.console }
    return result

/-- The manifest in which stale units are recorded as they are now, with the dependencies that their
compilers found. -/
def recordUnits (d : Disk) (fingerprint : UInt64) : Manifest → List CompileUnit →
    Except Failure Manifest
  | m, [] => .ok m
  | m, u :: us =>
    if u.isStale then do
      let found ← if d.present u.dependencyFile then readDependencies d u.dependencyFile else .ok []
      recordUnits d fingerprint (← m.record d u.source u.output fingerprint found) us
    else recordUnits d fingerprint m us

/-- The manifest of what was built: the units and the artifact, and nothing else. -/
def recordBuild (d : Disk) (p : Project) (request : Request) (fingerprint : UInt64) (m : Manifest)
    (units : List CompileUnit) : Except Failure Manifest := do
  let m ← recordUnits d fingerprint m units
  let m ← m.record d p.path p.outputFile fingerprint (artifactInputs units request)
  return m.retain (units.map CompileUnit.output ++ [p.outputFile])

/-- Keeps the manifest of a project. -/
def writeManifest (p : Project) (m : Manifest) : Action ν Unit := do
  let w ← get
  let (result, disk) := m.write p.manifestFile w.disk
  set { w with disk }
  Action.ofExcept result

/-- What is found out about a project before its tasks are run. -/
structure Checked (ν : Type) where
  request : Request
  toolchain : Toolchain ν
  fingerprint : UInt64
  /-- What earlier builds have recorded. -/
  manifest : Manifest
  units : List CompileUnit
  artifact : CompileUnit

namespace Checked

/-- Whether nothing has to be built. -/
def isFresh (c : Checked ν) : Bool :=
  (c.units ++ [c.artifact]).all fun u => !u.isStale

/-- The tasks of the toolchain, and the commands that come after them. -/
def tasks (c : Checked ν) (p : Project) : List (Build.Task ν) :=
  c.toolchain.tasks c.units c.fingerprint p.outputFile p.version ++
    p.postBuildCommands.map fun line => .ofLine .postBuild line p.directory

end Checked

/-- Writes the version files of a project, and tells if they have changed. -/
def writeVersionFiles (p : Project) : Action ν Unit := do
  if ← Version.writeFiles p then Action.detail ("  Wrote version files for " ++ p.name)

/-- Makes ready what a build of a project needs, and checks its units and its artifact. -/
def checkArtifact (choose : ToolchainChoice ν) (b : Builder) (p : Project) :
    Action ν (Checked ν) := do
  Action.createDirectories p.outputDirectory
  Action.createDirectories p.intermediateDirectory
  writeVersionFiles p
  let manifest ← readManifest p
  let request : Request := ⟨p, ← Action.ofExcept (b.dependencyOutputs p)⟩
  modify fun w => { w with messages := .empty }
  let makeReady ← Action.ofExcept (choose request)
  let toolchain ← Action.within .toolchain makeReady
  Action.detail ("  Toolchain: " ++ toolchain.description)
  let fingerprint := b.fingerprint (← Action.disk) p
  Action.detail ("  Fingerprint: " ++ String.ofList (Number.hexDigits 16 fingerprint.toNat))
  let (units, artifact) ← Action.phase ("staleness check (" ++ p.name ++ ")") do
    return checkProject (← Action.disk) p request toolchain fingerprint manifest
  Action.each explain (units ++ [artifact])
  return { request, toolchain, fingerprint, manifest, units, artifact }

/-- Runs the tasks of a project and records what was built. -/
def refresh (p : Project) (c : Checked ν) : Action ν Unit := do
  Action.phase ("scheduled build (" ++ p.name ++ ")") (runAndReport c.units (c.tasks p))
  let recorded ← Action.ofExcept
    (recordBuild (← Action.disk) p c.request c.fingerprint c.manifest c.units)
  writeManifest p recorded

/-- Builds the artifact of a project if it is stale. -/
def buildArtifact (choose : ToolchainChoice ν) (b : Builder) (p : Project) :
    Action ν BuildOutcome := do
  let began := (← Action.disk).clock
  let c ← b.checkArtifact choose p
  if c.isFresh then
    Action.status ("  " ++ p.name ++ " is up to date")
    return .upToDate
  refresh p c
  let time ← Action.elapsed began
  Action.status ("Completed " ++ p.name ++ " in " ++ Elapsed.seconds time ++ " seconds")
  return .built

/-- Announces the build of a project and runs the commands that come first. -/
def announce (b : Builder) (p : Project) : Action ν Unit := do
  Action.status
    ("Building " ++ p.name ++ " (" ++ b.target.configuration ++ " " ++ b.target.platform ++ ")")
  runPreBuild p

/-- Builds one project, and not what it depends on. -/
def buildProject (choose : ToolchainChoice ν) (b : Builder) (p : Project) :
    Action ν BuildOutcome := do
  b.announce p
  if p.outputType = .container then
    Action.status "  Nothing to build for container project"
    return .skipped
  else buildArtifact choose b p

/-- Builds some projects one after another. -/
def buildAll (choose : ToolchainChoice ν) (b : Builder) : List Project →
    Action ν (List (String × BuildOutcome))
  | [] => return []
  | p :: ps => do
    let outcome ← Action.within (.build p.name) (b.buildProject choose p)
    return (p.name, outcome) :: (← buildAll choose b ps)

/-- Builds the project of a name, or all, with what they need or without. -/
def build (choose : ToolchainChoice ν) (b : Builder) (name : Option String)
    (withDependencies : Bool) : Action ν (List (String × BuildOutcome)) := do
  buildAll choose b (← Action.ofExcept (b.selection name withDependencies))

/-- Removes what was built of a project: its intermediate directory and its artifact. -/
def cleanProject (p : Project) : Action ν Unit := do
  Action.status ("Cleaning " ++ p.name)
  if (← Action.disk).present p.intermediateDirectory then
    Action.throughDisk (.remove p.intermediateDirectory)
      (·.removeDirectory p.intermediateDirectory)
  if p.outputType ≠ .container && (← Action.disk).isFile p.outputFile then
    Action.onDisk (.remove p.outputFile) (·.removeFile p.outputFile)

/-- Removes what was built of the project of a name, or of all. -/
def clean (b : Builder) (name : Option String) : Action ν Unit := do
  Action.each cleanProject (← Action.ofExcept (b.selection name false))

/-- Removes what was built, and then builds. -/
def rebuild (choose : ToolchainChoice ν) (b : Builder) (name : Option String)
    (withDependencies : Bool) : Action ν (List (String × BuildOutcome)) := do
  Action.each cleanProject (← Action.ofExcept (b.selection name withDependencies))
  b.build choose name withDependencies

end Builder

end IncrementalBuild
