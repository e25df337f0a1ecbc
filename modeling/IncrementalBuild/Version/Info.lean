import IncrementalBuild.Text.Split
import IncrementalBuild.Workspace.Options

/-!
The version of a project as source text: a header that declares its constants, and a source file
that defines them. When the version last changed is a date of the Gregorian calendar in UTC, in
which years are counted through zero and every day has as many seconds as another.
-/

namespace IncrementalBuild.Version

/-- A moment, to the second. -/
structure Date where
  year : Int
  month : Nat
  day : Nat
  hour : Nat
  minute : Nat
  second : Nat
  deriving DecidableEq, Repr, Inhabited

/-- The seconds of a day. -/
def secondsOfDay : Int := 86400

/-- The days of an era of four hundred years, after which the calendar repeats. -/
def daysOfEra : Int := 146097

/-- The days from the first of March of year zero to the first day of 1970. -/
def daysBefore1970 : Int := 719468

/-- The date a number of days after the first day of 1970. Years are counted from March here, so
that a leap day is the last of its year. -/
def civil (days : Int) : Int × Nat × Nat :=
  let shifted := days + daysBefore1970
  let era := shifted / daysOfEra
  let dayOfEra := (shifted % daysOfEra).toNat
  let yearOfEra := (dayOfEra - dayOfEra / 1460 + dayOfEra / 36524 - dayOfEra / 146096) / 365
  let dayOfYear := dayOfEra - (365 * yearOfEra + yearOfEra / 4 - yearOfEra / 100)
  let march := (5 * dayOfYear + 2) / 153
  let day := dayOfYear - (153 * march + 2) / 5 + 1
  let month := if march < 10 then march + 3 else march - 9
  let year := (yearOfEra : Int) + 400 * era + if month ≤ 2 then 1 else 0
  (year, month, day)

/-- The date a number of seconds after the start of 1970. -/
def Date.ofSeconds (seconds : Int) : Date :=
  let (year, month, day) := civil (seconds / secondsOfDay)
  let rest := (seconds % secondsOfDay).toNat
  ⟨year, month, day, rest / 3600, rest / 60 % 60, rest % 60⟩

/-- The first second of the year -262143, the earliest of the calendar. -/
def Date.firstSecond : Int := -8334601228800

/-- The last second of the year 262142, the latest of the calendar. -/
def Date.lastSecond : Int := 8210266876799

/-- The date a number of seconds after the start of 1970, if the calendar has it. -/
def Date.ofSeconds? (seconds : Int) : Option Date :=
  if seconds < firstSecond || lastSecond < seconds then none else some (.ofSeconds seconds)

open Workspace (Language)

/-- The version of a project. -/
structure Info where
  changelist : String
  /-- The version as it is shown. -/
  short : String
  /-- When the version last changed. -/
  lastChange : Date
  /-- How many changelists there are. -/
  total : Nat
  deriving Repr, Inhabited

/-- The value of a constant. -/
inductive Constant where
  | text (s : String)
  | number (n : Nat)
  deriving DecidableEq, Repr, Inhabited

namespace Constant

/-- The type of a constant in C. -/
def typeName : Constant → String
  | text _ => "char*"
  | number _ => "long"

/-- A text as a literal of C: quotes and backslashes are escaped. -/
def literal (s : String) : String :=
  let slashed := Text.replaceChar '\\' ['\\', '\\'] s.toList
  String.ofList ('"' :: Text.replaceChar '"' ['\\', '"'] slashed ++ ['"'])

/-- The value of a constant in C. -/
def initializer : Constant → String
  | text s => literal s
  | number n => toString n

end Constant

namespace Info

/-- The constants of a version, with their names. -/
def constants (v : Info) : List (String × Constant) :=
  let t := v.lastChange
  [("DAY", .text (toString t.day)), ("MONTH", .text (toString t.month)),
    ("YEAR", .text (toString t.year)), ("HOUR", .text (toString t.hour)),
    ("MINUTE", .text (toString t.minute)), ("SECOND", .text (toString t.second)),
    ("CHANGELIST", .text v.changelist), ("FULLVERSION_STRING", .text v.short),
    ("TOTAL_CHANGELISTS", .number v.total)]

/-- The comment at the start of generated files. -/
def banner : String :=
  "// Automatically generated by kiln, do not modify directly.\n\n"

/-- The header: a class with static members in C++, external constants in C. -/
def header (v : Info) (language : Language) : String :=
  banner ++ "#pragma once\n\n" ++
    match language with
    | .cpp => "class VersionInfo\n\x7b\npublic:\n" ++
        String.join (v.constants.map fun (name, c) =>
          "    static const " ++ c.typeName ++ " " ++ name ++ ";\n") ++ "\x7d;\n"
    | .c => String.join (v.constants.map fun (name, c) =>
        "extern const " ++ c.typeName ++ " VersionInfo_" ++ name ++ ";\n")

/-- The name of a constant where it is defined. -/
def qualified (language : Language) (name : String) : String :=
  match language with
  | .cpp => "VersionInfo::" ++ name
  | .c => "VersionInfo_" ++ name

/-- The source file, which includes the header by its name. -/
def source (v : Info) (language : Language) (headerName : String) : String :=
  banner ++ "#include \"" ++ headerName ++ "\"\n\n" ++
    String.join (v.constants.map fun (name, c) =>
      "const " ++ c.typeName ++ " " ++ qualified language name ++ " = " ++ c.initializer ++ ";\n")

end Info

end IncrementalBuild.Version
