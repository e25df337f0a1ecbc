/-!
Reading decimal numerals as double precision numbers. A numeral is an optional sign before digits
with an optional point and an optional exponent, or before one of the words for infinity and for no
number. The number read is the nearest one; numerals beyond the range give infinity or zero.
-/

namespace IncrementalBuild.Number

/-- The value of a list of digits, the most significant first. -/
def ofDigits (ds : List Char) : Nat :=
  ds.foldl (fun n d => 10 * n + (d.toNat - '0'.toNat)) 0

/-- How many digits a number has; zero has none. -/
def digitCount (n : Nat) : Nat :=
  if n = 0 then 0 else (toString n).length

/-- The number nearest to `m * 10 ^ e`. Exponents far outside the range of doubles are decided by
the place of the first digit alone, without computing the power. -/
def scaled (m : Nat) (e : Int) : Float :=
  let top := (digitCount m : Int) + e
  if m = 0 || top < -400 then 0.0
  else if top > 400 then 1.0 / 0.0
  else if e < 0 then Float.ofScientific m true (-e).toNat
  else Float.ofScientific m false e.toNat

/-- The value of an optionally signed run of digits, which must not be empty. -/
def exponent? : List Char → Option Int
  | '-' :: ds => digits? ds |>.map fun n => -(n : Int)
  | '+' :: ds => digits? ds |>.map Int.ofNat
  | ds => digits? ds |>.map Int.ofNat
where
  /-- The value of a run of digits. -/
  digits? (ds : List Char) : Option Nat :=
    if ds ≠ [] ∧ ds.all Char.isDigit then some (ofDigits ds) else none

/-- The value of a numeral without its sign. -/
def unsigned? (cs : List Char) : Option Float :=
  let word := cs.map Char.toLower
  if word = "inf".toList || word = "infinity".toList then some (1.0 / 0.0)
  else if word = "nan".toList then some (0.0 / 0.0)
  else
    let whole := cs.takeWhile Char.isDigit
    let rest := cs.dropWhile Char.isDigit
    let (fraction, rest) := match rest with
      | '.' :: r => (r.takeWhile Char.isDigit, r.dropWhile Char.isDigit)
      | r => ([], r)
    if whole.isEmpty && fraction.isEmpty then none
    else
      let value (e : Int) := scaled (ofDigits (whole ++ fraction)) (e - fraction.length)
      match rest with
      | [] => some (value 0)
      | c :: r => if c = 'e' || c = 'E' then (exponent? r).map value else none

/-- The value of a numeral. -/
def float? : List Char → Option Float
  | '-' :: cs => (unsigned? cs).map fun x => -x
  | '+' :: cs => unsigned? cs
  | cs => unsigned? cs

/-- The value of an unsigned whole numeral below `bound`: digits, with an optional plus before
them. -/
def natBelow? (bound : Nat) (cs : List Char) : Option Nat :=
  let ds := match cs with
    | '+' :: ds => ds
    | ds => ds
  if ds ≠ [] ∧ ds.all Char.isDigit ∧ ofDigits ds < bound then some (ofDigits ds) else none

end IncrementalBuild.Number
