import IncrementalBuild.Shell.Builtin.Options

/-!
Commands on variables, switches and arguments.
-/

namespace IncrementalBuild.Shell

open Text

/-- An argument that gives a name a value, or only is a name. -/
def nameAndValue (argument : Raw) : Raw × Option Raw :=
  match splitOnce '=' argument with
  | some (name, value) => (name, some value)
  | none => (argument, none)

/-- A variable as a line that can be read back, behind a word. -/
def variableLine (word : Raw) (name : String) (value : Option Raw) : Raw :=
  (if word.isEmpty then [] else word ++ [' ']) ++ name.toList ++
    ((value.map fun v => '=' :: singleQuoted v).getD []) ++ ['\n']

/-- Variables of some kind as lines behind a word, in the order of their names. -/
def variableLines (word : Raw) (shown : Variable → Bool) (s : Session) : Raw :=
  let rows := s.values.filter fun v => shown v.2
  ((rows.mergeSort fun a b => a.1 ≤ b.1).map fun v => variableLine word v.1 v.2.value).flatten

/-- `export` and `readonly`: variables that programs see, or that keep their values. -/
def declare (word : String) (exported readOnly : Bool) : Builtin := fun arguments => do
  let (given, names) ← optionsOf [('p', false)] arguments
  if !given.isEmpty || names.isEmpty then
    let s ← get
    let shown (v : Variable) : Bool := (exported && v.exported) || (readOnly && v.readOnly)
    Step.print (variableLines word.toList shown s)
  else
    names.forM fun argument => do
      let s ← get
      let (name, value) := nameAndValue argument
      match value, s.entry? (Raw.shown name) with
      | none, some v =>
        set (s.place (Raw.shown name)
          (some { v with
            exported := v.exported || exported
            readOnly := v.readOnly || readOnly }))
      | _, _ => Step.assignNamed name value exported readOnly
  return 0

/-- `local`: variables that are put back when the function ends. A minus sign stands for the
switches. -/
def declareLocal : Builtin := fun arguments => do
  if (← get).former.isEmpty then Step.fail "not in a function".toList
  let names ← withoutOptions arguments
  names.forM fun argument => do
    if argument = ['-'] then modify fun s => s.note (.switches s.switches)
    else
      let (name, value) := nameAndValue argument
      if value.isSome || isName name then Step.makeOwn (Raw.shown name) value false
      else Step.fail (name ++ ": bad variable name".toList)
  return 0

/-- `unset`: variables without values, or functions that are forgotten. -/
def unsetNames : Builtin := fun arguments => do
  let (given, names) ← optionsOf [('v', false), ('f', false)] arguments
  let functions := (given.getLast?.map Prod.fst) = some 'f'
  names.forM fun name => do
    if functions then
      modify fun s => { s with functions := s.functions.filter fun f => f.1 ≠ Raw.shown name }
    else Step.assignNamed name none false false
  return 0

/-- The settings of all switches, as a table. -/
def switchTable (s : Session) : Raw :=
  let row (w : Switch) (name : String) : Raw :=
    name.toList ++ List.replicate (16 - name.length) ' ' ++
      (if s.has w then "on\n" else "off\n").toList
  "Current option settings\n".toList ++ (Switch.table.map fun (w, name, _) => row w name).flatten

/-- The settings of all switches, as commands that restore them. -/
def switchCommands (s : Session) : Raw :=
  (Switch.table.map fun (w, name, _) =>
    ("set " ++ (if s.has w then "-o " else "+o ") ++ name ++ "\n").toList).flatten

/-- Turns a switch on or off. -/
def Session.turn (s : Session) (on : Bool) (w : Switch) : Session :=
  let others := s.switches.filter (· ≠ w)
  { s with switches := if on then w :: others else others }

/-- Turns the switches of letters on or off. The letter `o` stands for the switch that the next
argument names; without one, all settings are shown. Letters of `special` only are noted. -/
def turnLetters (special : List Char) (on : Bool) : (letters : Raw) → (others : List Raw) →
    Step (List Char × List Raw)
  | [], others => return ([], others)
  | c :: cs, others => do
    if special.contains c then
      let (noted, others) ← turnLetters special on cs others
      return (c :: noted, others)
    else if c = 'o' then
      let s ← get
      match others with
      | [] => Step.print (if on then switchTable s else switchCommands s)
      | name :: _ =>
        match Switch.ofName? (Raw.shown name) with
        | some w => set (s.turn on w)
        | none => Step.fail ("Illegal option -o ".toList ++ name)
      turnLetters special on cs others.tail
    else match Switch.ofLetter? c with
      | none => Step.fail ("Illegal option -".toList ++ [c])
      | some w =>
        modify fun s => s.turn on w
        turnLetters special on cs others

/-- `set`: switches, and other arguments for the script. Without arguments it shows all variables.
`limit` bounds the number of arguments. -/
def setArguments : (limit : Nat) → List Raw → Step Unit
  | 0, _ => return ()
  | limit + 1, arguments => do
    let replace (arguments : List Raw) : Step Unit :=
      modify fun s => { s with arguments, optionIndex := 1, optionOffset := none }
    match arguments with
    | [] => return ()
    | ['-', '-'] :: others => replace others
    | ['-'] :: others =>
      modify fun s => (s.turn false .xtrace).turn false .verbose
      unless others.isEmpty do replace others
    | ('-' :: letters) :: others =>
      let (_, others) ← turnLetters [] true letters others
      setArguments limit others
    | ('+' :: letters) :: others =>
      let (_, others) ← turnLetters [] false letters others
      setArguments limit others
    | others => replace others

/-- `set`. -/
def setCommand : Builtin := fun arguments => do
  if arguments.isEmpty then Step.print (variableLines [] (fun v => v.value.isSome) (← get))
  else setArguments arguments.length arguments
  return 0

/-- `shift`: fewer arguments. -/
def shift : Builtin := fun arguments => do
  let n ← match arguments with
    | [] => pure 1
    | cs :: _ => countArgument cs
  let s ← get
  if s.arguments.length < n then Step.fail "can't shift that many".toList
  set { s with arguments := s.arguments.drop n, optionIndex := 1, optionOffset := none }
  return 0

/-- What is known of an option: whether there is one of that letter, and whether it takes a value.
-/
def knownOption? (c : Char) : Raw → Option Bool
  | [] => none
  | d :: ':' :: rest => if c = d then some true else knownOption? c rest
  | d :: rest => if c = d then some false else knownOption? c rest

/-- Where the reading of options stands. -/
structure OptionPlace where
  /-- The argument that is read next, counted from one. -/
  index : Nat
  /-- What is left of the argument before it, unless nothing more is read from that. -/
  rest : Option Raw
  deriving Inhabited

/-- The letter of the next option, and where the reading stands behind it, if there is one. -/
def nextOption? (s : Session) (arguments : List Raw) : Option Char × OptionPlace :=
  let index := s.optionIndex
  let current := arguments.getD (index - 2) []
  let rest := match s.optionOffset with
    | some offset => if 1 < index then current.drop offset else []
    | none => []
  match rest with
  | c :: cs => (some c, ⟨index, some cs⟩)
  | [] =>
    match arguments.getD (index - 1) [] with
    | ['-', '-'] => (none, ⟨index + 1, none⟩)
    | '-' :: c :: cs => (some c, ⟨index + 1, some cs⟩)
    | _ => (none, ⟨index, none⟩)

/-- `getopts`: the next option of some arguments. -/
def readOption : Builtin := fun arguments => do
  match ← withoutOptions arguments with
  | known :: target :: own => do
    let s ← get
    let arguments := if own.isEmpty then s.arguments else own
    let s := if arguments.length + 1 < s.optionIndex then
        { s with optionIndex := 1, optionOffset := none }
      else s
    set s
    let (letter, place) := nextOption? s arguments
    let silent := known.head? = some ':'
    let conclude (c : Char) (p : OptionPlace) (status : Nat) : Step Nat := do
      let current := arguments.getD (p.index - 2) []
      let offset := p.rest.map fun rest => current.length - rest.length
      Step.set "OPTIND" (toString p.index).toList
      modify fun s => { s with optionIndex := p.index, optionOffset := offset }
      Step.assignNamed target (some [c]) false false
      return status
    let refuse (c sign : Char) (reason : Raw) (p : OptionPlace) : Step Nat := do
      if silent then Step.set "OPTARG" [c]
      else
        putError (reason ++ ['\n'])
        Step.assign "OPTARG" none false false
      conclude (if silent then sign else '?') p 0
    match letter with
    | none => conclude '?' place 1
    | some c =>
      match knownOption? c known with
      | none => refuse c '?' ("Illegal option -".toList ++ [c]) place
      | some false =>
        Step.set "OPTARG" []
        conclude c place 0
      | some true =>
        match place.rest.getD [], arguments[place.index - 1]? with
        | [], none =>
          refuse c ':' ("No arg for -".toList ++ c :: " option".toList) ⟨place.index, none⟩
        | [], some value =>
          Step.set "OPTARG" value
          conclude c ⟨place.index + 1, none⟩ 0
        | value, _ =>
          Step.set "OPTARG" value
          conclude c ⟨place.index, none⟩ 0
  | _ => Step.fail "Usage: getopts optstring var [arg...]".toList

end IncrementalBuild.Shell
