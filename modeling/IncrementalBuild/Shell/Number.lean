import IncrementalBuild.Number.Decimal
import IncrementalBuild.Number.Hexadecimal
import IncrementalBuild.Text.Utf8

/-!
Numbers as shells read them. Blanks and a sign can stand before the digits, which are octal behind a
zero, hexadecimal behind `0x` and binary behind `0b` where every base is allowed. What the digits
say can lie outside the range of the numbers that a shell computes with, which have 64 bits.
-/

namespace IncrementalBuild.Shell

open Number Text

/-- Whether a character is passed over before and behind numbers. -/
def isNumberGap (c : Char) : Bool :=
  c = ' ' || ('\t' ≤ c && c ≤ '\r')

/-- What was read as a number, and what follows it. -/
structure Scan where
  value : Int
  rest : Raw
  deriving Repr, Inhabited

/-- The least number. -/
def leastNumber : Int := -9223372036854775808

/-- The greatest number. -/
def greatestNumber : Int := 9223372036854775807

/-- The greatest number without a sign. -/
def greatestUnsigned : Int := 18446744073709551615

/-- A number as near to another as the range allows. -/
def clamped (n : Int) : Int :=
  max leastNumber (min greatestNumber n)

/-- Whether a number is in the range. -/
def inRange (n : Int) : Bool :=
  leastNumber ≤ n && n ≤ greatestNumber

/-- The value of digits of a base. -/
def digitsValue (base : Nat) (ds : Raw) : Nat :=
  ds.foldl (fun n d => base * n + (hexValue? d).getD 0) 0

/-- The value of the digits of a base at the front of a text, and the text behind them. -/
def scanDigits (base : Nat) (cs : Raw) : Nat × Raw :=
  let ds := cs.takeWhile fun c => (hexValue? c).any (· < base)
  (digitsValue base ds, cs.drop ds.length)

/-- Reads digits whose base is told by what they start with. -/
def scanPrefixed : Raw → Nat × Raw
  | '0' :: x :: d :: cs =>
    if (x = 'x' || x = 'X') && (hexValue? d).isSome then scanDigits 16 (d :: cs)
    else if (x = 'b' || x = 'B') && (d = '0' || d = '1') then scanDigits 2 (d :: cs)
    else scanDigits 8 ('0' :: x :: d :: cs)
  | '0' :: cs => scanDigits 8 ('0' :: cs)
  | cs => scanDigits 10 cs

/-- Reads a number, if there is one. -/
def scanInteger? (anyBase : Bool) (cs : Raw) : Option Scan :=
  let body := cs.dropWhile isNumberGap
  let (negative, body) := match body with
    | '-' :: ds => (true, ds)
    | '+' :: ds => (false, ds)
    | ds => (false, ds)
  if body.head?.any Char.isDigit then
    let (n, rest) := if anyBase then scanPrefixed body else scanDigits 10 body
    some ⟨if negative then -(n : Int) else n, rest⟩
  else none

/-- The number that a whole text stands for. Where every base is allowed, blanks alone are zero. -/
def integer? (anyBase : Bool) (cs : Raw) : Option Int :=
  match scanInteger? anyBase cs with
  | some scan => if scan.rest.all isNumberGap && inRange scan.value then some scan.value else none
  | none => if anyBase && cs.all isNumberGap then some 0 else none

/-- The greatest number that commands of a shell take. -/
def greatestCount : Int := 2147483647

/-- The number not below zero that an argument stands for. -/
def count? (cs : Raw) : Option Nat :=
  (integer? false cs).bind fun n => if 0 ≤ n && n ≤ greatestCount then some n.toNat else none

/-- The number of a result that is computed with 64 bits. -/
def wrapped (n : Int) : Int :=
  (Int64.ofInt n).toInt

end IncrementalBuild.Shell
