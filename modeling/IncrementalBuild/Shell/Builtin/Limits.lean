import IncrementalBuild.Shell.Builtin.Options

/-!
Commands on the permissions that new files get, and on what processes may use. A limit has two
values: the one that holds, and the greatest one that it can be given.
-/

namespace IncrementalBuild.Shell

open Text

/-- The permissions that are left to the user, the group and others, in words. -/
def maskText (mask : Nat) : Raw :=
  let group (name : Char) (bits : Nat) : Raw :=
    let left := 7 - bits % 8
    name :: '=' :: ((if 4 ≤ left then ['r'] else []) ++ (if left / 2 % 2 = 1 then ['w'] else []) ++
      if left % 2 = 1 then ['x'] else [])
  group 'u' (mask / 64) ++ ',' :: group 'g' (mask / 8) ++ ',' :: group 'o' mask

/-- The permissions that some letters stand for, where all of the others are known. -/
def permissionBits (all : Nat) (letters : Raw) : Nat :=
  let bit (c : Char) : Nat :=
    match c with
    | 'r' => 4
    | 'w' => 2
    | 'x' => 1
    | 'X' => if all &&& 73 = 0 then 0 else 1
    | 'u' => all / 64 % 8
    | 'g' => all / 8 % 8
    | 'o' => all % 8
    | _ => 0
  letters.foldl (fun n c => n ||| bit c) 0

/-- Permissions changed as clauses tell: for whom, how, and which. `limit` bounds the number of
clauses. -/
def changedPermissions? (all : Nat) : (limit : Nat) → (places : Nat) → Raw → Option Nat
  | 0, _, _ => none
  | limit + 1, places, cs =>
    let whom := cs.takeWhile fun c => "augo".toList.contains c
    let cs := cs.drop whom.length
    let place (c : Char) : Nat :=
      if c = 'u' then 64 else if c = 'g' then 8 else if c = 'o' then 1 else 73
    let places := whom.foldl (fun n c => n ||| place c) places
    let places := if places = 0 then 73 else places
    match cs with
    | operation :: rest =>
      if "=+-".toList.contains operation then
        let letters := rest.takeWhile fun c => "rwxugoXs".toList.contains c
        let rest := rest.drop letters.length
        let bits := places * permissionBits all letters
        let changed := if operation = '-' then all &&& (511 - bits)
          else if operation = '+' then all ||| bits
          else (all &&& (511 - places * 7)) ||| bits
        match rest with
        | [] => some changed
        | ',' :: rest => changedPermissions? changed limit 0 rest
        | rest => changedPermissions? changed limit places rest
      else none
    | [] => none

/-- `umask`: the permissions that new files do not get. -/
def maskCommand : Builtin := fun arguments => do
  let (given, others) ← optionsOf [('S', false)] arguments
  let s ← get
  match others with
  | [] =>
    let octal := Nat.toDigits 8 s.mask
    let number := List.replicate (4 - octal.length) '0' ++ octal
    Step.print ((if given.isEmpty then number else maskText s.mask) ++ ['\n'])
  | mode :: _ =>
    if mode.isEmpty then return 0
    if mode.head?.any Char.isDigit then
      if mode.all fun c => '0' ≤ c && c ≤ '7' then set { s with mask := digitsValue 8 mode % 512 }
      else Step.fail ("Illegal number: ".toList ++ mode)
    else match changedPermissions? (511 - s.mask) (mode.length + 1) 0 mode with
      | some all => set { s with mask := 511 - all }
      | none => Step.fail ("Illegal mode: ".toList ++ mode)
  return 0

/-- The letters of the limits, with what they are called and the unit they are counted in. -/
def limitTable : List (Char × String × Nat) :=
  [('t', "time(seconds)", 1), ('f', "file(blocks)", 512), ('d', "data(kbytes)", 1024),
    ('s', "stack(kbytes)", 1024), ('c', "coredump(blocks)", 512), ('m', "memory(kbytes)", 1024),
    ('l', "locked memory(kbytes)", 1024), ('p', "process", 1), ('n', "nofiles", 1),
    ('v', "vmemory(kbytes)", 1024), ('w', "locks", 1), ('r', "rtprio", 1)]

/-- The number of values that a limit can have. The greatest of them says that there is no limit. -/
def limitValues : Nat := 18446744073709551616

/-- A value of a limit in its unit. -/
def limitText (unit value : Nat) : Raw :=
  (if value + 1 = limitValues then "unlimited" else toString (value / unit)).toList

/-- The limits as they are before a script sets any. -/
def Limit.initial (letter : Char) : Limit :=
  ⟨letter, if letter = 's' then 8388608 else if letter = 'r' then 0 else limitValues - 1,
    if letter = 'r' then 0 else limitValues - 1⟩

/-- A limit of a process. -/
def Session.limit (s : Session) (letter : Char) : Limit :=
  (s.limits.find? fun l => l.letter = letter).getD (Limit.initial letter)

/-- The value of a limit that a text stands for. -/
def limitValue? (unit : Nat) (cs : Raw) : Option Nat :=
  if cs = "unlimited".toList then some (limitValues - 1)
  else if cs.all Char.isDigit then some (digitsValue 10 cs * unit % limitValues)
  else none

/-- Sets a limit. -/
def setLimit (now most : Bool) (letter : Char) (value : Nat) : Step Unit := do
  let s ← get
  let old := s.limit letter
  let new : Limit :=
    ⟨letter, if now then value else old.value, if most then value else old.greatest⟩
  let refuse (f : Fault) : Step Unit :=
    Step.fail ("error setting limit (".toList ++ f.reason.toList ++ [')'])
  if new.greatest < new.value then refuse .invalidArgument
  else if old.greatest < new.greatest then refuse .notPermitted
  else set { s with limits := new :: s.limits.filter fun l => l.letter ≠ letter }

/-- `ulimit`: what processes may use. -/
def limitCommand : Builtin := fun arguments => do
  let known : KnownOptions := "HSatfdscmlpnvwr".toList.map (·, false)
  let (given, others) ← optionsOf known arguments
  let letters := given.map Prod.fst
  let which := (letters.filter fun c => c = 'H' || c = 'S').getLast?
  let now := which != some 'H'
  let most := which != some 'S'
  let letter := ((letters.filter fun c => !"HSa".toList.contains c).getLast?).getD 'f'
  let s ← get
  let shown (l : Limit) (unit : Nat) : Raw := limitText unit (if now then l.value else l.greatest)
  let unit := ((limitTable.lookup letter).map Prod.snd).getD 1
  match others with
  | [] =>
    if letters.contains 'a' then
      let row (r : Char × String × Nat) : Raw :=
        let title := r.2.1.toList ++ List.replicate (20 - r.2.1.length) ' '
        title ++ ' ' :: shown (s.limit r.1) r.2.2 ++ ['\n']
      Step.print (limitTable.map row).flatten
    else Step.print (shown (s.limit letter) unit ++ ['\n'])
  | value :: more =>
    if letters.contains 'a' || !more.isEmpty then Step.fail "too many arguments".toList
    match limitValue? unit value with
    | none => Step.fail "bad number".toList
    | some value => setLimit now most letter value
  return 0

end IncrementalBuild.Shell
