import IncrementalBuild.Text.Utf8

/-!
The switches of a shell: what it does by itself while it runs a script, turned on and off by their
names or letters.
-/

namespace IncrementalBuild.Shell

/-- A switch of a shell. -/
inductive Switch where
  /-- The first command that fails ends the script. -/
  | errexit
  /-- Words are not replaced by the names of files. -/
  | noglob
  | ignoreeof
  | interactive
  | monitor
  /-- Commands are read and not run. -/
  | noexec
  /-- The script is what the shell reads from its input. -/
  | stdin
  /-- Commands are shown before they are run. -/
  | xtrace
  /-- Lines of the script are shown as they are read. -/
  | verbose
  | vi
  | emacs
  /-- Files that exist are not overwritten. -/
  | noclobber
  /-- Programs see every variable that is set. -/
  | allexport
  | notify
  /-- Variables that are not set cannot be used. -/
  | nounset
  | privileged
  | nolog
  | debug
  deriving DecidableEq, Repr, Inhabited

namespace Switch

/-- The switches in the order they are listed in, with their names and letters. -/
def table : List (Switch × String × Option Char) :=
  [(errexit, "errexit", some 'e'), (noglob, "noglob", some 'f'), (ignoreeof, "ignoreeof", some 'I'),
    (interactive, "interactive", some 'i'), (monitor, "monitor", some 'm'),
    (noexec, "noexec", some 'n'), (stdin, "stdin", some 's'), (xtrace, "xtrace", some 'x'),
    (verbose, "verbose", some 'v'), (vi, "vi", some 'V'), (emacs, "emacs", some 'E'),
    (noclobber, "noclobber", some 'C'), (allexport, "allexport", some 'a'),
    (notify, "notify", some 'b'), (nounset, "nounset", some 'u'),
    (privileged, "privileged", some 'p'), (nolog, "nolog", none), (debug, "debug", none)]

/-- The switch with a letter. -/
def ofLetter? (c : Char) : Option Switch :=
  (table.find? fun row => row.2.2 = some c).map Prod.fst

/-- The switch with a name. -/
def ofName? (name : String) : Option Switch :=
  (table.find? fun row => row.2.1 = name).map Prod.fst

/-- The letters of the switches that are on, the last of the table first. -/
def letters (on : List Switch) : Text.Raw :=
  (table.filter fun row => on.contains row.1).reverse.filterMap fun row => row.2.2

end Switch

end IncrementalBuild.Shell
