import IncrementalBuild.Disk.Basic
import IncrementalBuild.ExitStatus
import IncrementalBuild.Jobs.Scheduler
import IncrementalBuild.Settings.Error

/-!
What can go wrong in a build. A failure is its cause, possibly inside the activity it broke off;
`Failure.chain` words it from the outermost activity to the innermost cause, and nothing else fixes
any wording.
-/

namespace IncrementalBuild

/-- The part of a build a failure broke off, or the reason it did. -/
inductive Failure where
  /-- A description file cannot be read. -/
  | description (e : Settings.Error)
  /-- A setting cannot be put into a description. -/
  | setting (group key : String) (e : Settings.Error)
  /-- A file without a name has no place. -/
  | unresolvablePath (p : Path)
  /-- A description does not say what it describes. -/
  | nameNotSet (file : Path) (key : String)
  /-- The configuration or platform asked for is none that the workspace declares. -/
  | undeclared (kind name workspace : String) (available : List String)
  /-- A workspace declares a platform that does not exist. -/
  | unknownPlatformIn (file : Path) (name : String)
  | unknownPlatform (name : String)
  /-- A setting has none of the values it can have. -/
  | unknownChoice (file : Path) (value group key : String) (expected : List String)
  | fileNotFound (file : Path)
  | walk (directory : Path) (fault : Fault)
  | loadProject (file : Path) (cause : Failure)
  | duplicateProject (name workspace : String)
  | unknownProject (name workspace : String)
  | projectCycle (names : List String)
  | dependencies (name : String) (cause : Failure)
  | build (name : String) (cause : Failure)
  | preBuild (cause : Failure)
  | toolchain (cause : Failure)
  | noToolchain (project language platform toolset : String)
  | toolNotFound (role name : String)
  /-- The job graph of a build was refused. -/
  | jobs (e : Jobs.Error)
  | taskPanicked (e : Jobs.Error)
  | tasksFailed
  | shell (line : String) (fault : Fault)
  | command (line : String) (status : ExitStatus)
  | run (program : Path) (label : String) (fault : Fault)
  | tool (verb label output : String)
  | compile (source : Path)
  | createDirectory (p : Path) (fault : Fault)
  | remove (p : Path) (fault : Fault)
  | write (p : Path) (fault : Fault)
  | stat (p : Path)
  | hash (p : Path) (fault : Fault)
  | readManifest (p : Path) (fault : Fault)
  | corruptManifest (p : Path) (reason : String)
  | manifestVersion (p : Path) (found expected : Nat)
  | temporaryManifest (fault : Fault)
  | replaceManifest (fault : Fault)
  | readDependencyFile (p : Path) (fault : Fault)
  | versionFromSourceControl (project : String)
  | versionFilesApart (project : String)
  | versionHeaderName (p : Path)
  /-- A failure of a task or toolchain from outside, in its own words. -/
  | external (words : List String)
  deriving Inhabited

namespace Failure

/-- The wording of a failure, from the outermost activity to the innermost cause. -/
def chain : Failure → List String
  | description e =>
    match e with
    | .unreadable _ cause => [e.message, cause]
    | _ => [e.message]
  | setting group key e => ["cannot set " ++ group ++ "." ++ key, e.message]
  | unresolvablePath p =>
    ["cannot resolve path " ++ p.text, "cannot make an empty path absolute"]
  | nameNotSet file key => [file.text ++ ": " ++ key ++ " is not set"]
  | undeclared kind name workspace available =>
    [kind ++ " '" ++ name ++ "' is not declared by workspace '" ++ workspace ++
      "' (available: " ++ ", ".intercalate available ++ ")"]
  | unknownPlatformIn file name => [file.text ++ ": unknown platform '" ++ name ++ "'"]
  | unknownPlatform name => ["unknown platform '" ++ name ++ "'"]
  | unknownChoice file value group key expected =>
    [file.text ++ ": unknown value '" ++ value ++ "' for " ++ group ++ "." ++ key ++
      " (expected one of: " ++ ", ".intercalate expected ++ ")"]
  | fileNotFound file => ["file not found: " ++ file.text]
  | walk directory fault =>
    ["failed to walk " ++ directory.text,
      "IO error for operation on " ++ directory.text ++ ": " ++ fault.message, fault.message]
  | loadProject file cause => ("failed to load project " ++ file.text) :: cause.chain
  | duplicateProject name workspace =>
    ["duplicate project name '" ++ name ++ "' in workspace '" ++ workspace ++ "'"]
  | unknownProject name workspace =>
    ["no project named '" ++ name ++ "' in workspace '" ++ workspace ++ "'"]
  | projectCycle names => ["dependency cycle between projects: " ++ " -> ".intercalate names]
  | dependencies name cause => ("while resolving dependencies of '" ++ name ++ "'") :: cause.chain
  | build name cause => ("build of '" ++ name ++ "' failed") :: cause.chain
  | preBuild cause => "pre-build command failed" :: cause.chain
  | toolchain cause => "failed to initialise toolchain" :: cause.chain
  | noToolchain project language platform toolset =>
    ["no toolchain available for project '" ++ project ++ "' (" ++ language ++ ", " ++ platform ++
      ", " ++ toolset ++ ")"]
  | toolNotFound role name => [role ++ " '" ++ name ++ "' not found on PATH"]
  | jobs e => [e.message]
  | taskPanicked e => ["build task panicked", e.message]
  | tasksFailed => ["one or more build tasks failed"]
  | shell line fault => ["failed to spawn shell for '" ++ line ++ "'", fault.message]
  | command line status => ["command '" ++ line ++ "' failed with " ++ status.text]
  | run program label fault =>
    ["failed to run " ++ program.text ++ " for " ++ label, fault.message]
  | tool verb label output => ["failed to " ++ verb ++ " '" ++ label ++ "':\n" ++ output]
  | compile source => ["failed to compile " ++ source.text]
  | createDirectory p fault => ["failed to create " ++ p.text, fault.message]
  | remove p fault => ["failed to remove " ++ p.text, fault.message]
  | write p fault => ["failed to write " ++ p.text, fault.message]
  | stat p => ["cannot stat " ++ p.text]
  | hash p fault => ["failed to read file for hashing: " ++ p.text, fault.message]
  | readManifest p fault => ["failed to read manifest " ++ p.text, fault.message]
  | corruptManifest p reason => ["corrupt build manifest " ++ p.text, reason]
  | manifestVersion p found expected =>
    ["build manifest " ++ p.text ++ " has version " ++ toString found ++ ", expected " ++
      toString expected]
  | temporaryManifest fault => ["failed to write temporary build manifest", fault.message]
  | replaceManifest fault => ["failed to atomically replace build manifest", fault.message]
  | readDependencyFile p fault => ["failed to read dep-info: " ++ p.text, fault.message]
  | versionFromSourceControl project =>
    ["project '" ++ project ++ "': ProductInfo.VersionSource = SourceControl is not supported"]
  | versionFilesApart project =>
    ["project '" ++ project ++
      "': ProductInfo.VersionHpp and ProductInfo.VersionCpp must be set together"]
  | versionHeaderName p => ["invalid version header path " ++ p.text]
  | external words => words

/-- A failure in one line. -/
def message (f : Failure) : String :=
  ": ".intercalate f.chain

/-- The wording of the outermost activity alone. -/
def outermost (f : Failure) : String :=
  f.chain.headD ""

end Failure

end IncrementalBuild
