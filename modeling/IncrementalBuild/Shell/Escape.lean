import IncrementalBuild.Text.Utf8

/-!
Escapes in what `echo` and `printf` write. A backslash starts the name of a character or up to three
octal digits of its number; before anything else it stands for itself.
-/

namespace IncrementalBuild.Shell

open Text

/-- The character an escape names. -/
def namedEscape? : Char → Option Char
  | 'a' => some '\x07'
  | 'b' => some '\x08'
  | 'e' => some '\x1b'
  | 'f' => some '\x0c'
  | 'n' => some '\n'
  | 'r' => some '\r'
  | 't' => some '\t'
  | 'v' => some '\x0b'
  | '\\' => some '\\'
  | _ => none

/-- Whether a character is an octal digit. -/
def isOctal (c : Char) : Bool :=
  '0' ≤ c && c ≤ '7'

/-- The number that up to `limit` octal digits at the start of a text add to `n`, and the text
behind them. -/
def octal : (limit n : Nat) → Raw → Nat × Raw
  | limit + 1, n, c :: cs =>
    if isOctal c then octal limit (8 * n + (c.toNat - '0'.toNat)) cs else (n, c :: cs)
  | _, n, cs => (n, cs)

/-- Octal digits are only taken from the front. -/
theorem length_octal_le (limit n : Nat) (cs : Raw) : (octal limit n cs).2.length ≤ cs.length := by
  fun_induction octal limit n cs <;> simp_all
  omega

/-- The byte with a number. -/
def byteOf (n : Nat) : Char :=
  Char.ofNat (n % 256)

/-- What the escape behind a backslash stands for, and what follows it. -/
def escape : Raw → Char × Raw
  | [] => ('\\', [])
  | c :: cs =>
    if isOctal c then
      let read := octal 3 0 (c :: cs)
      (byteOf read.1, read.2)
    else match namedEscape? c with
      | some d => (d, cs)
      | none => ('\\', c :: cs)

/-- What an escape leaves is no longer than what stood behind the backslash. -/
theorem length_escape_le (cs : Raw) : (escape cs).2.length ≤ cs.length := by
  unfold escape
  split
  · simp
  · next c cs =>
    split
    · exact length_octal_le 3 0 (c :: cs)
    · split <;> simp

/-- What stands behind a backslash without the zero that may stand before octal digits. -/
def behindZero : Raw → Raw
  | '0' :: d :: rest => if isOctal d then d :: rest else '0' :: d :: rest
  | cs => cs

/-- No more than the zero is left out. -/
theorem length_behindZero_le (cs : Raw) : (behindZero cs).length ≤ cs.length := by
  unfold behindZero
  split
  · split <;> simp
  · simp

/-- A text with its escapes replaced, and whether what follows it is still written: `\c` ends all
output. -/
def unescape : Raw → Raw × Bool
  | [] => ([], true)
  | c :: cs =>
    if c = '\\' then
      if cs.head? = some 'c' then ([], false)
      else
        let (rest, goesOn) := unescape (escape (behindZero cs)).2
        ((escape (behindZero cs)).1 :: rest, goesOn)
    else
      let (rest, goesOn) := unescape cs
      (c :: rest, goesOn)
termination_by cs => cs.length
decreasing_by
  · have := length_escape_le (behindZero cs)
    have := length_behindZero_le cs
    simp only [List.length_cons]
    omega
  · simp only [List.length_cons]
    omega

end IncrementalBuild.Shell
