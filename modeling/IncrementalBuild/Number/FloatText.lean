import IncrementalBuild.Number.Hexadecimal

/-!
Writing double precision numbers. A finite number is a whole number times a power of two, so its
digits are computed exactly; where not all of them are written, the last one is rounded to the
nearest, and to the even one where two are equally near.
-/

namespace IncrementalBuild.Number

/-- What a double precision number is. -/
inductive Magnitude where
  | infinite
  | noNumber
  /-- `mantissa * 2 ^ exponent`. -/
  | finite (mantissa : Nat) (exponent : Int)
  deriving DecidableEq, Repr, Inhabited

/-- Whether a number has a minus sign, and what it is besides. -/
def parts (x : Float) : Bool × Magnitude :=
  let bits := x.toBits.toNat
  let negative := 9223372036854775808 ≤ bits
  let exponent := bits / 4503599627370496 % 2048
  let fraction := bits % 4503599627370496
  let magnitude := if exponent = 2047 then if fraction = 0 then Magnitude.infinite else .noNumber
    else if exponent = 0 then .finite fraction (-1074)
    else .finite (4503599627370496 + fraction) (exponent - 1075)
  (negative, magnitude)

/-- A fraction rounded to a whole number, and to the even one where two are equally near. -/
def roundedQuotient (n d : Nat) : Nat :=
  let q := n / d
  let r := n % d
  if 2 * r < d || (2 * r = d && q % 2 = 0) then q else q + 1

/-- A power of a base as a fraction. -/
def powerFraction (base : Nat) (e : Int) : Nat × Nat :=
  if e < 0 then (1, Nat.pow base (-e).toNat) else (Nat.pow base e.toNat, 1)

/-- `mantissa * 2 ^ exponent * 10 ^ shift`, rounded. -/
def roundedDigits (mantissa : Nat) (exponent shift : Int) : Nat :=
  let (n₂, d₂) := powerFraction 2 exponent
  let (n₁₀, d₁₀) := powerFraction 10 shift
  roundedQuotient (mantissa * n₂ * n₁₀) (d₂ * d₁₀)

/-- The digits of a number, at least as many as asked for. -/
def paddedDigits (count n : Nat) : List Char :=
  let ds := (toString n).toList
  List.replicate (count - ds.length) '0' ++ ds

/-- Digits with a point before the last `precision` of them. A point that nothing follows is only
written if it is asked for. -/
def pointed (keepsPoint : Bool) (precision : Nat) (ds : List Char) : List Char :=
  let whole := ds.take (ds.length - precision)
  let fraction := ds.drop (ds.length - precision)
  whole ++ (if fraction.isEmpty && !keepsPoint then [] else '.' :: fraction)

/-- A number with a fixed count of digits behind the point. -/
def fixedText (keepsPoint : Bool) (precision mantissa : Nat) (exponent : Int) : List Char :=
  pointed keepsPoint precision
    (paddedDigits (precision + 1) (roundedDigits mantissa exponent precision))

/-- The largest `e` with `10 ^ e ≤ n / d`, searched downwards from `e`. -/
def decimalExponent (n d : Nat) : (limit : Nat) → (e : Int) → Int
  | 0, e => e
  | limit + 1, e =>
    let (p, q) := powerFraction 10 e
    if p * d ≤ n * q then e else decimalExponent n d limit (e - 1)

/-- The first digits of a number, one more than `precision`, and the power of ten of the first. -/
def leadingDigits (precision mantissa : Nat) (exponent : Int) : Nat × Int :=
  if mantissa = 0 then (0, 0)
  else
    let (n, d) := powerFraction 2 exponent
    let n := mantissa * n
    let above : Int := ((toString n).length : Int) - ((toString d).length : Int) + 1
    let e := decimalExponent n d 4 above
    let digits := roundedDigits mantissa exponent (precision - e)
    if digits = Nat.pow 10 (precision + 1) then (Nat.pow 10 precision, e + 1) else (digits, e)

/-- The exponent of a number as it is written, with at least so many digits. -/
def exponentText (count : Nat) (e : Int) : List Char :=
  (if e < 0 then '-' else '+') :: paddedDigits count e.natAbs

/-- A number as digits with one before the point, and a power of ten. -/
def scientificText (keepsPoint : Bool) (precision mantissa : Nat) (exponent : Int) : List Char :=
  let (digits, e) := leadingDigits precision mantissa exponent
  pointed keepsPoint precision (paddedDigits (precision + 1) digits) ++ 'e' :: exponentText 2 e

/-- Digits with a point without zeros at the end. -/
def withoutZeros (cs : List Char) : List Char :=
  if cs.contains '.' then
    let kept := cs.reverse.dropWhile (· = '0')
    (if kept.head? = some '.' then kept.tail else kept).reverse
  else cs

/-- A number with so many leading digits, in the shorter of both forms. Zeros at the end are only
written if they are asked for. -/
def generalText (keepsZeros : Bool) (precision mantissa : Nat) (exponent : Int) : List Char :=
  let count := max precision 1
  let (digits, e) := leadingDigits (count - 1) mantissa exponent
  let trimmed (cs : List Char) : List Char := if keepsZeros then cs else withoutZeros cs
  if -4 ≤ e && e < count then
    trimmed (fixedText keepsZeros (count - 1 - e).toNat mantissa exponent)
  else
    trimmed (pointed keepsZeros (count - 1) (paddedDigits count digits)) ++
      'e' :: exponentText 2 e

/-- A number as hexadecimal digits and a power of two, with as many digits as it needs or with a
given count of them behind the point. -/
def hexadecimalText (keepsPoint : Bool) (precision? : Option Nat) (mantissa : Nat)
    (exponent : Int) : List Char :=
  let normal := 4503599627370496 ≤ mantissa
  let power := if mantissa = 0 then 0 else exponent + 52
  let whole := if normal then 1 else 0
  let fraction := mantissa % 4503599627370496
  let (whole, digits) := match precision? with
    | none => (whole, ((hexDigits 13 fraction).reverse.dropWhile (· = '0')).reverse)
    | some precision =>
      if 13 ≤ precision then
        (whole, hexDigits 13 fraction ++ List.replicate (precision - 13) '0')
      else
        let all := whole * 4503599627370496 + fraction
        let rounded := roundedQuotient all (Nat.pow 16 (13 - precision))
        (rounded / Nat.pow 16 precision, hexDigits precision (rounded % Nat.pow 16 precision))
  ['0', 'x', hexDigit whole] ++ (if digits.isEmpty && !keepsPoint then [] else '.' :: digits) ++
    'p' :: exponentText 1 power

end IncrementalBuild.Number
