import IncrementalBuild.Workspace.Basic

/-!
Projects: what they are built from, what is made of it, and how. The values of a project's own
description come before those of its workspace, so they win wherever both declare a key.
-/

namespace IncrementalBuild

open Workspace

/-- A project as its description file and its workspace declare it. -/
structure Project where
  /-- The description file, as the workspace lists it. -/
  path : Path
  /-- Where the description file lies; relative paths of the project start there. -/
  directory : Path
  /-- The name of the project, of which a workspace has only one. -/
  name : String
  language : Language
  outputType : OutputType
  /-- The file name of the artifact, without its extension. -/
  outputName : String
  /-- The extension of the artifact, without the dot. -/
  outputExtension : String
  outputDirectory : Path
  /-- Where objects, dependency files and the manifest go. -/
  intermediateDirectory : Path
  platform : Platform
  toolset : Toolset
  optimization : Optimization
  warnings : WarningLevel
  /-- Further arguments of the compiler. -/
  compilerArguments : List String
  /-- Further arguments of the linker. -/
  linkerArguments : List String
  defines : List String
  includeDirectories : List Path
  libraryDirectories : List Path
  libraries : List String
  /-- The names of the projects this one depends on. -/
  dependencies : List String
  /-- The files of the project, the generated version source among them. -/
  files : List Path
  /-- The commands that are run before anything else. -/
  preBuildCommands : List String
  /-- The commands that are run once the artifact is made. -/
  postBuildCommands : List String
  version : Option String
  versionSource : VersionSource
  /-- The header to generate. -/
  versionHeader : Option Path
  /-- The source to generate. -/
  versionSourceFile : Option Path
  /-- The resolved description. -/
  settings : Settings.Model
  deriving Inhabited

namespace Project

/-- The description of a project, layered over its workspace's and resolved for a target. -/
def settingsFor (d : Disk) (path directory : Path) (workspace : Workspace) (target : Target)
    (m : Settings.Model) : Except Failure Settings.Model := do
  let m ← injectTarget d target m
  let m ← injectPlace "Project" path directory m
  return (m.merge workspace.settings).resolve

/-- The words of all values of a key. -/
def argumentsOf (m : Settings.Model) (key : String) : List String :=
  (m.valuesOf "Build" key).flatMap fun v => (Text.words v.toList).map String.ofList

/-- The files a list of patterns describes, each once, behind those in `found`. -/
def filesOf (d : Disk) (directory : Path) : (found : List Path) → List String →
    Except Failure (List Path)
  | found, [] => .ok found
  | found, pattern :: patterns => do
    let more ← expandPattern d directory pattern
    let found := more.foldl (fun found p =>
      if found.any fun q => q == p then found else found ++ [p]) found
    filesOf d directory found patterns

/-- An extension without the dots before it. -/
def withoutDots (extension : String) : String :=
  String.ofList (extension.toList.dropWhile (· == '.'))

/-- The project a resolved description declares. -/
def ofSettings (d : Disk) (path directory : Path) (workspace : Workspace) (target : Target)
    (m : Settings.Model) : Except Failure Project := do
  let name ← nameOf m path "Project"
  let language ← choiceOr m "Project" "Language" Language.choices .cpp
  let outputType ← choiceOr m "Project" "OutputType" OutputType.choices .executable
  let platform ← match Platform.ofName? target.platform with
    | some p => pure p
    | none => throw (.unknownPlatform target.platform)
  let toolset ← choiceOr m "Build" "PlatformToolset" Toolset.choices .default
  let optimization ← choiceOr m "Build" "OptimizationLevel" Optimization.choices .debug
  let warnings ← choiceOr m "Build" "WarningLevel" WarningLevel.choices .low
  let buildRoot := ((workspace.directory.join ⟨"build"⟩).join ⟨name⟩).join
    ⟨target.configuration ++ "_" ++ target.platform⟩
  let under (key : String) (fallback : Path) : Path :=
    ((m.value? "Project" key).map (rooted directory)).getD fallback
  let versionSource ← choiceOr m "ProductInfo" "VersionSource" VersionSource.choices .none
  let versionHeader := (m.value? "ProductInfo" "VersionHpp").map (rooted directory)
  let versionSourceFile := (m.value? "ProductInfo" "VersionCpp").map (rooted directory)
  let files ← filesOf d directory versionSourceFile.toList (m.valuesOf "Files" "File")
  return {
    path, directory, name, language, outputType, platform, toolset, optimization, warnings
    outputName := (m.value? "Project" "OutputName").getD name
    outputExtension :=
      ((m.value? "Project" "OutputExtension").map withoutDots).getD outputType.defaultExtension
    outputDirectory := under "OutputDirectory" (buildRoot.join ⟨"bin"⟩)
    intermediateDirectory := under "IntermediateDirectory" (buildRoot.join ⟨"obj"⟩)
    compilerArguments := argumentsOf m "CompilerArguments"
    linkerArguments := argumentsOf m "LinkerArguments"
    defines := m.valuesOf "Defines" "Define"
    includeDirectories := (m.valuesOf "SearchPaths" "IncludeDirectory").map (rooted directory)
    libraryDirectories := (m.valuesOf "SearchPaths" "LibraryDirectory").map (rooted directory)
    libraries := m.valuesOf "Libraries" "Library"
    dependencies := m.valuesOf "Dependencies" "Dependency"
    preBuildCommands := m.valuesOf "PreBuildCommands" "Command"
    postBuildCommands := m.valuesOf "PostBuildCommands" "Command"
    version := m.value? "ProductInfo" "Version"
    files, versionSource, versionHeader, versionSourceFile
    settings := m }

/-- Loads a project of a workspace for a target. -/
def load {ν : Type} (path : Path) (workspace : Workspace) (target : Target) :
    Action ν Project := do
  let d ← Action.disk
  let directory ← Action.ofExcept (directoryOf d path)
  let declared ← Action.ofExcept (readDescription d path)
  let m ← Action.ofExcept (settingsFor d path directory workspace target declared)
  Action.tell (·.diagnostics m.path m.diagnostics)
  Action.ofExcept (ofSettings d path directory workspace target m)

/-- The artifact of a project. -/
def outputFile (p : Project) : Path :=
  p.outputDirectory.join
    ⟨if p.outputExtension.isEmpty then p.outputName else p.outputName ++ "." ++ p.outputExtension⟩

/-- Where the manifest of a project is kept. -/
def manifestFile (p : Project) : Path :=
  p.intermediateDirectory.join ⟨p.name ++ ".manifest"⟩

/-- The files of a project that are compiled. -/
def sourceFiles (p : Project) : List Path :=
  p.files.filter p.language.isSource

end Project

end IncrementalBuild
