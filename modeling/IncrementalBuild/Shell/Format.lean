import IncrementalBuild.Number.Decimal
import IncrementalBuild.Number.FloatText
import IncrementalBuild.Shell.Escape
import IncrementalBuild.Shell.Number

/-!
Formats of `printf`. A format is text with conversions, each of which takes an argument and writes
it in its own way, in a field of some width. The format is written again as long as there are
arguments that it takes.
-/

namespace IncrementalBuild.Shell

open Number Text

/-- How a conversion writes its argument. -/
structure Layout where
  /-- Whether the field is filled behind what is written. -/
  left : Bool
  /-- Whether a plus sign is written. -/
  plus : Bool
  /-- Whether a blank is written in the place of a plus sign. -/
  blank : Bool
  /-- Whether the form says more of the base, or of the point. -/
  alternate : Bool
  /-- Whether the field is filled with zeros. -/
  zeros : Bool
  width : Nat
  precision : Option Nat
  deriving DecidableEq, Repr, Inhabited

namespace Layout

/-- A text, filled up with blanks to the width. -/
def padded (l : Layout) (cs : Raw) : Raw :=
  let gap := List.replicate (l.width - cs.length) ' '
  if l.left then cs ++ gap else gap ++ cs

/-- A sign or a base before digits, filled up to the width. -/
def paddedDigits (l : Layout) (zeros : Bool) (lead digits : Raw) : Raw :=
  if zeros && !l.left then
    lead ++ List.replicate (l.width - lead.length - digits.length) '0' ++ digits
  else l.padded (lead ++ digits)

/-- A text, cut to the precision. -/
def text (l : Layout) (cs : Raw) : Raw :=
  l.padded ((l.precision.map cs.take).getD cs)

/-- The sign of a number that has one. -/
def sign (l : Layout) (negative : Bool) : Raw :=
  if negative then ['-'] else if l.plus then ['+'] else if l.blank then [' '] else []

/-- Digits of a whole number, with zeros before them as the precision asks for. Zero has no digits
if none are asked for. -/
def wholeDigits (l : Layout) (n : Nat) (digits : Raw) : Raw :=
  let digits := if n = 0 && l.precision = some 0 then [] else digits
  List.replicate (l.precision.getD 0 - digits.length) '0' ++ digits

/-- A whole number. -/
def signed (l : Layout) (n : Int) : Raw :=
  l.paddedDigits (l.zeros && l.precision.isNone) (l.sign (n < 0))
    (l.wholeDigits n.natAbs (toString n.natAbs).toList)

/-- The digits of a number in a base, at least one. -/
def digitsIn (base n : Nat) : Raw :=
  if base = 8 then Nat.toDigits 8 n
  else if base = 16 then Nat.toDigits 16 n
  else Nat.toDigits 10 n

/-- A whole number without a sign, in a base. -/
def unsigned (l : Layout) (base : Nat) (upper : Bool) (n : Nat) : Raw :=
  let digits := l.wholeDigits n (digitsIn base n)
  let digits := if base = 8 && l.alternate && digits.head? ≠ some '0' then '0' :: digits else digits
  let lead := if base = 16 && l.alternate && n ≠ 0 then ['0', 'x'] else []
  let cased (cs : Raw) : Raw := if upper then cs.map Char.toUpper else cs
  l.paddedDigits (l.zeros && l.precision.isNone) (cased lead) (cased digits)

/-- A double precision number, in the form that a letter names. -/
def float (l : Layout) (conversion : Char) (x : Float) : Raw :=
  let (negative, magnitude) := parts x
  let form := conversion.toLower
  let cased (cs : Raw) : Raw := if conversion.isUpper then cs.map Char.toUpper else cs
  let precision := l.precision.getD 6
  match magnitude with
  | .infinite => l.padded (l.sign negative ++ cased "inf".toList)
  | .noNumber => l.padded (l.sign negative ++ cased "nan".toList)
  | .finite mantissa exponent =>
    if form = 'a' then
      let cs := hexadecimalText l.alternate l.precision mantissa exponent
      l.paddedDigits l.zeros (l.sign negative ++ cased (cs.take 2)) (cased (cs.drop 2))
    else
      let digits := if form = 'f' then fixedText l.alternate precision mantissa exponent
        else if form = 'e' then scientificText l.alternate precision mantissa exponent
        else generalText l.alternate precision mantissa exponent
      l.paddedDigits l.zeros (l.sign negative) (cased digits)

end Layout

/-- What an argument is as a number, what of it is no part of the number, and whether the number is
out of range. -/
structure Numeric (α : Type) where
  value : α
  rest : Raw
  outOfRange : Bool

/-- A mantissa and a decimal exponent as digits tell them, and what follows. -/
def scanDecimal? (cs : Raw) : Option (Nat × Int × Raw) :=
  let whole := cs.takeWhile Char.isDigit
  let rest := cs.drop whole.length
  let (fraction, rest) := match rest with
    | '.' :: r =>
      let ds := r.takeWhile Char.isDigit
      (ds, r.drop ds.length)
    | r => ([], r)
  if whole.isEmpty && fraction.isEmpty then none
  else
    let mantissa := ofDigits (whole ++ fraction)
    let rest := if whole.isEmpty && fraction.isEmpty then cs else rest
    some (mantissa, -(fraction.length : Int), rest)

/-- The exponent behind a letter, and what follows it, if there are digits. -/
def scanExponent? (letter : Char) : Raw → Option (Int × Raw)
  | c :: cs =>
    if c.toLower ≠ letter then none
    else
      let body := match cs with
        | '+' :: ds | '-' :: ds => ds
        | ds => ds
      let ds := body.takeWhile Char.isDigit
      if ds.isEmpty then none
      else
        let n : Int := ofDigits ds
        some (if cs.head? = some '-' then -n else n, body.drop ds.length)
  | [] => none

/-- A mantissa and a power of two as hexadecimal digits tell them, and what follows. -/
def scanHexadecimal? (cs : Raw) : Option (Nat × Int × Raw) :=
  let isDigit (c : Char) : Bool := (hexValue? c).isSome
  let whole := cs.takeWhile isDigit
  let rest := cs.drop whole.length
  let (fraction, rest) := match rest with
    | '.' :: r =>
      let ds := r.takeWhile isDigit
      (ds, r.drop ds.length)
    | r => ([], r)
  if whole.isEmpty && fraction.isEmpty then none
  else
    let (e, rest) := (scanExponent? 'p' rest).getD (0, rest)
    some (digitsValue 16 (whole ++ fraction), e - 4 * fraction.length, rest)

/-- Whether a number is outside of the range, given whether its numeral is zero. -/
def isOutOfRange (zero : Bool) (x : Float) : Bool :=
  match (parts x).2 with
  | .infinite => true
  | .noNumber => false
  | .finite mantissa exponent =>
    !zero && (mantissa = 0 || (exponent = -1074 && mantissa < 4503599627370496))

/-- Reads a number without a sign. -/
def scanMagnitude? (cs : Raw) : Option (Numeric Float) :=
  let lower := cs.map Char.toLower
  let word (w : String) : Bool := w.toList.isPrefixOf lower
  if word "infinity" then some ⟨1.0 / 0.0, cs.drop 8, false⟩
  else if word "inf" then some ⟨1.0 / 0.0, cs.drop 3, false⟩
  else if word "nan" then some ⟨(0.0 / 0.0 : Float).abs, cs.drop 3, false⟩
  else
    let hexadecimal := if word "0x" then scanHexadecimal? (cs.drop 2) else none
    match hexadecimal with
    | some (mantissa, e, rest) =>
      let x := (Float.ofNat mantissa).scaleB e
      some ⟨x, rest, isOutOfRange (mantissa = 0) x⟩
    | none =>
      (scanDecimal? cs).map fun (mantissa, shift, rest) =>
        let (e, rest) := (scanExponent? 'e' rest).getD (0, rest)
        let x := scaled mantissa (shift + e)
        ⟨x, rest, isOutOfRange (mantissa = 0) x⟩

/-- The number whose digits an argument starts with; it is a character's where a quote stands
first. -/
def quotedNumber? : Raw → Option Nat
  | '"' :: cs | '\'' :: cs => some ((cs.head?.map Char.toNat).getD 0)
  | _ => none

/-- What an argument is as a double precision number. -/
def floatArgument (cs : Raw) : Numeric Float :=
  match quotedNumber? cs with
  | some n => ⟨Float.ofNat n, [], false⟩
  | none =>
    let body := cs.dropWhile isNumberGap
    let (negative, body) := match body with
      | '-' :: rest => (true, rest)
      | '+' :: rest => (false, rest)
      | rest => (false, rest)
    match scanMagnitude? body with
    | none => ⟨0.0, cs, false⟩
    | some n => { n with value := if negative then -n.value else n.value }

/-- What an argument is as a whole number. -/
def wholeArgument (hasSign : Bool) (cs : Raw) : Numeric Int :=
  match quotedNumber? cs with
  | some n => ⟨n, [], false⟩
  | none =>
    match scanInteger? true cs with
    | none => ⟨0, cs, false⟩
    | some scan =>
      if hasSign then ⟨clamped scan.value, scan.rest, !inRange scan.value⟩
      else if greatestUnsigned < scan.value.natAbs then ⟨greatestUnsigned, scan.rest, true⟩
      else ⟨scan.value % (greatestUnsigned + 1), scan.rest, false⟩

/-- The complaint about an argument that is no number in its entirety. -/
def Numeric.complaint? {α : Type} (n : Numeric α) (argument : Raw) : Option Raw :=
  let about (reason : String) : Raw := argument ++ ": ".toList ++ reason.toList
  if !n.rest.isEmpty then
    some (about (if n.rest.length = argument.length then "expected numeric value"
      else "not completely converted"))
  else if n.outOfRange then some (about "Numerical result out of range")
  else none

/-- What `printf` has written so far. -/
structure Printed where
  text : Raw
  /-- What is wrong with arguments. -/
  complaints : List Raw
  arguments : List Raw
  /-- What is wrong with the format, where nothing more is written. -/
  refusal : Option Raw
  /-- Whether more is written. -/
  goesOn : Bool
  deriving Inhabited

namespace Printed

/-- Adds to what is written. -/
def put (p : Printed) (cs : Raw) : Printed :=
  { p with text := p.text ++ cs }

/-- The next argument, which is empty if there is none. -/
def next (p : Printed) : Raw × Printed :=
  (p.arguments.headD [], { p with arguments := p.arguments.tail })

/-- The next argument as a number, with a complaint if it is none. -/
def nextNumber {α : Type} (p : Printed) (read : Raw → Numeric α) : α × Printed :=
  let (argument, p) := p.next
  let n := read argument
  (n.value, { p with complaints := p.complaints ++ (n.complaint? argument).toList })

/-- Stops because of the format. -/
def refuse (p : Printed) (reason : Raw) : Printed :=
  { p with refusal := some reason, goesOn := false }

/-- The next argument as a width or a precision. -/
def nextSize (p : Printed) : Int × Printed :=
  let (n, p) := p.nextNumber (wholeArgument true)
  ((Int32.ofInt n).toInt, p)

/-- Writes the next argument as a conversion asks for. -/
def convert (p : Printed) (l : Layout) (conversion : Char) : Option Printed :=
  let whole (write : Nat → Raw) : Option Printed :=
    let (n, p) := p.nextNumber (wholeArgument false)
    some (p.put (write n.toNat))
  if conversion = 's' then
    let (cs, p) := p.next
    some (p.put (l.text cs))
  else if conversion = 'c' then
    let (cs, p) := p.next
    some (p.put (l.padded [cs.headD '\x00']))
  else if conversion = 'b' then
    let (cs, p) := p.next
    let (cs, goesOn) := unescape cs
    some { p.put (l.text cs) with goesOn }
  else if conversion = 'd' || conversion = 'i' then
    let (n, p) := p.nextNumber (wholeArgument true)
    some (p.put (l.signed n))
  else if conversion = 'u' then whole (l.unsigned 10 false)
  else if conversion = 'o' then whole (l.unsigned 8 false)
  else if conversion = 'x' then whole (l.unsigned 16 false)
  else if conversion = 'X' then whole (l.unsigned 16 true)
  else if "aAeEfFgG".toList.contains conversion then
    let (x, p) := p.nextNumber floatArgument
    some (p.put (l.float conversion x))
  else none

end Printed

/-- The width at the front of a text: digits, or a star for an argument. A width below zero fills
the field behind what is written. -/
def readWidth (l : Layout) (p : Printed) : Raw → Layout × Printed × Raw
  | '*' :: cs =>
    let (n, p) := p.nextSize
    ({ l with left := l.left || n < 0, width := n.natAbs }, p, cs)
  | cs =>
    let ds := cs.takeWhile Char.isDigit
    ({ l with width := ofDigits ds }, p, cs.drop ds.length)

/-- The precision at the front of a text, behind a point, if there is one. -/
def readPrecision (l : Layout) (p : Printed) : Raw → Layout × Printed × Raw
  | '.' :: '*' :: cs =>
    let (n, p) := p.nextSize
    ({ l with precision := if n < 0 then none else some n.toNat }, p, cs)
  | '.' :: cs =>
    let ds := cs.takeWhile Char.isDigit
    ({ l with precision := some (ofDigits ds) }, p, cs.drop ds.length)
  | cs => (l, p, cs)

/-- Writes a format once. `limit` bounds the number of its pieces. -/
def printOnce : (limit : Nat) → Printed → Raw → Printed
  | 0, p, _ => p
  | limit + 1, p, format =>
    if !p.goesOn then p
    else match format with
      | [] => p
      | '\\' :: cs =>
        let (c, rest) := escape cs
        printOnce limit (p.put [c]) rest
      | '%' :: '%' :: cs => printOnce limit (p.put ['%']) cs
      | '%' :: cs =>
        let flags := cs.takeWhile fun c => "#-+ 0".toList.contains c
        let l : Layout := {
          left := flags.contains '-'
          plus := flags.contains '+'
          blank := flags.contains ' '
          alternate := flags.contains '#'
          zeros := flags.contains '0'
          width := 0
          precision := none }
        let (l, p, rest) := readWidth l p (cs.drop flags.length)
        let (l, p, rest) := readPrecision l p rest
        match rest with
        | [] => p.refuse "missing format character".toList
        | conversion :: behind =>
          match p.convert l conversion with
          | some p => printOnce limit p behind
          | none =>
            let directive := '%' :: cs.take (cs.length - behind.length)
            p.refuse (directive ++ ": invalid directive".toList)
      | c :: cs => printOnce limit (p.put [c]) cs

/-- Writes a format again and again until it has taken all arguments; a format that takes none is
written once. `limit` bounds the number of arguments. -/
def printAll (format : Raw) : (limit : Nat) → Printed → Printed
  | 0, p => p
  | limit + 1, p =>
    let after := printOnce (format.length + 1) p format
    if !after.goesOn || after.arguments.isEmpty || after.arguments.length = p.arguments.length then
      after
    else printAll format limit after

/-- What `printf` writes. -/
def printed (format : Raw) (arguments : List Raw) : Printed :=
  printAll format (arguments.length + 1) ⟨[], [], arguments, none, true⟩

end IncrementalBuild.Shell
