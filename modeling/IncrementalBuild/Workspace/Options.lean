import IncrementalBuild.Path

/-!
The choices a project can make, with the words that name them in description files. Words are
compared without regard to the case of ASCII letters.
-/

namespace IncrementalBuild.Workspace

/-- The words for the members of a set of choices, in the order messages list them. -/
abbrev Choices (α : Type) := List (String × α)

/-- Whether two words agree but for the case of ASCII letters. -/
def sameWord (a b : String) : Bool :=
  a.toList.map Char.toLower = b.toList.map Char.toLower

/-- The choice a word names. -/
def choice? {α : Type} (choices : Choices α) (word : String) : Option α :=
  (choices.find? fun c => sameWord c.1 word).map Prod.snd

/-- The language of a project's sources. -/
inductive Language where
  | c
  /-- C++; files in C are compiled too. -/
  | cpp
  deriving DecidableEq, Repr, Inhabited

/-- What a project produces. -/
inductive OutputType where
  | executable
  | staticLibrary
  | dynamicLibrary
  /-- It groups other projects and produces nothing itself. -/
  | container
  deriving DecidableEq, Repr, Inhabited

/-- What a build is meant to run on. -/
inductive Platform where
  | x86
  | x64
  | arm
  | arm64
  /-- Whatever the compiler of the host targets by default. -/
  | native
  deriving DecidableEq, Repr, Inhabited

/-- The family of compilers to use. -/
inductive Toolset where
  | default
  | gcc
  | clang
  deriving DecidableEq, Repr, Inhabited

/-- How far to optimise. -/
inductive Optimization where
  | debug
  | preferSize
  | preferSpeed
  | full
  deriving DecidableEq, Repr, Inhabited

/-- How much to warn of. -/
inductive WarningLevel where
  | none
  | low
  | high
  | verbose
  deriving DecidableEq, Repr, Inhabited

/-- Where a version number comes from. -/
inductive VersionSource where
  /-- It is the one declared. -/
  | none
  | sourceControl
  deriving DecidableEq, Repr, Inhabited

namespace Language

/-- The words for languages. -/
def choices : Choices Language := [("C", .c), ("Cpp", .cpp), ("C++", .cpp)]

/-- The name of a language in messages. -/
def text : Language → String
  | c => "C"
  | cpp => "Cpp"

/-- The extensions of the files a language compiles. -/
def extensions : Language → List String
  | c => ["c"]
  | cpp => ["c", "cc", "cpp", "cxx", "c++"]

/-- Whether a file is compiled for a language. -/
def isSource (l : Language) (p : Path) : Bool :=
  l.extensions.contains (p.extension?.getD "")

end Language

namespace OutputType

/-- The words for what projects produce. -/
def choices : Choices OutputType :=
  [("Executable", .executable), ("StaticLibrary", .staticLibrary),
    ("DynamicLibrary", .dynamicLibrary), ("Container", .container)]

/-- The extension of an artifact whose project names none. -/
def defaultExtension : OutputType → String
  | executable => ""
  | staticLibrary => "a"
  | dynamicLibrary => "so"
  | container => ""

/-- Whether other projects link against the artifact. -/
def isLibrary : OutputType → Bool
  | staticLibrary | dynamicLibrary => true
  | executable | container => false

end OutputType

namespace Platform

/-- The words for platforms. -/
def choices : Choices Platform :=
  [("x86", .x86), ("x64", .x64), ("ARM", .arm), ("ARM64", .arm64), ("Native", .native)]

/-- The platform a workspace names. -/
def ofName? (name : String) : Option Platform :=
  choice? choices name

/-- The name of a platform in messages. -/
def text : Platform → String
  | x86 => "X86"
  | x64 => "X64"
  | arm => "Arm"
  | arm64 => "Arm64"
  | native => "Native"

/-- The platform builds run on, as a workspace would name it. -/
def hostName : String := "x64"

/-- Whether the compilers of the host can target a platform. -/
def isSupported : Platform → Bool
  | native | x64 | x86 => true
  | arm | arm64 => false

end Platform

namespace Toolset

/-- The words for families of compilers. -/
def choices : Choices Toolset := [("Default", .default), ("GCC", .gcc), ("Clang", .clang)]

/-- The name of a family in messages. -/
def text : Toolset → String
  | default => "Default"
  | gcc => "Gcc"
  | clang => "Clang"

end Toolset

/-- The words for how far to optimise. -/
def Optimization.choices : Choices Optimization :=
  [("Debug", .debug), ("PreferSize", .preferSize), ("PreferSpeed", .preferSpeed), ("Full", .full)]

/-- The words for how much to warn of. -/
def WarningLevel.choices : Choices WarningLevel :=
  [("None", .none), ("Low", .low), ("High", .high), ("Verbose", .verbose)]

/-- The words for where a version comes from. -/
def VersionSource.choices : Choices VersionSource :=
  [("None", .none), ("SourceControl", .sourceControl)]

end IncrementalBuild.Workspace
