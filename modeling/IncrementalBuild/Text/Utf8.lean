/-!
Texts from bytes. Valid UTF-8 is read as what it encodes; where a sequence breaks off or cannot
start, one replacement character stands for the bytes read of it.

What programs read and write need not be text, so a sequence of bytes is kept as the characters with
their numbers, and becomes text only where it is shown.
-/

namespace IncrementalBuild.Text

/-- The character that stands for bytes which encode none. -/
def replacement : Char := '\uFFFD'

/-- What a first byte announces: how many bytes follow, the range of the first of them, and the
bits of the character that it holds itself. -/
structure Announced where
  count : Nat
  lowest : Nat
  highest : Nat
  bits : Nat
  deriving DecidableEq, Repr

/-- What a byte announces as the first of a sequence, if it can be one. The ranges leave out
characters in more bytes than they need, surrogates, and what lies above the last character. -/
def announced? (first : UInt8) : Option Announced :=
  let b := first.toNat
  if b < 0x80 then some ⟨0, 0, 0, b⟩
  else if b < 0xC2 then none
  else if b < 0xE0 then some ⟨1, 0x80, 0xBF, b % 0x20⟩
  else if b < 0xF0 then
    some ⟨2, if b = 0xE0 then 0xA0 else 0x80, if b = 0xED then 0x9F else 0xBF, b % 0x10⟩
  else if b < 0xF5 then
    some ⟨3, if b = 0xF0 then 0x90 else 0x80, if b = 0xF4 then 0x8F else 0xBF, b % 0x08⟩
  else none

/-- The bits gathered from `count` bytes that follow, the first of them in the given range, and the
bytes after them; no bits if the sequence breaks off. -/
def follow : (count lowest highest bits : Nat) → List UInt8 → Option Nat × List UInt8
  | 0, _, _, bits, bytes => (some bits, bytes)
  | _ + 1, _, _, _, [] => (none, [])
  | count + 1, lowest, highest, bits, b :: bytes =>
    if lowest ≤ b.toNat ∧ b.toNat ≤ highest then
      follow count 0x80 0xBF (0x40 * bits + b.toNat % 0x40) bytes
    else (none, b :: bytes)

/-- Following bytes are only taken from the front. -/
theorem length_follow_le (count lowest highest bits : Nat) (bytes : List UInt8) :
    (follow count lowest highest bits bytes).2.length ≤ bytes.length := by
  fun_induction follow count lowest highest bits bytes <;> simp_all
  omega

/-- The text of a sequence of bytes, with a replacement for every part that encodes no character. -/
def decode : List UInt8 → List Char
  | [] => []
  | b :: bytes =>
    match announced? b with
    | none => replacement :: decode bytes
    | some a =>
      let read := follow a.count a.lowest a.highest a.bits bytes
      (read.1.map Char.ofNat).getD replacement :: decode read.2
termination_by bytes => bytes.length
decreasing_by
  · simp
  · have := length_follow_le a.count a.lowest a.highest a.bits bytes
    simp only [List.length_cons]
    omega

/-- The text of a sequence of bytes, with replacements. -/
def decoded (bytes : ByteArray) : String :=
  match String.fromUTF8? bytes with
  | some s => s
  | none => String.ofList (decode bytes.toList)

/-- A sequence of bytes, each as the character with its number. -/
abbrev Raw := List Char

namespace Raw

/-- The bytes of a file. -/
def ofBytes (bytes : ByteArray) : Raw :=
  bytes.toList.map fun b => Char.ofNat b.toNat

/-- The bytes of a text. -/
def ofString (s : String) : Raw :=
  ofBytes s.toUTF8

/-- The bytes as they are written to a file. -/
def toBytes (r : Raw) : ByteArray :=
  ⟨(r.map fun c => UInt8.ofNat c.toNat).toArray⟩

/-- The text the bytes encode, with replacements where they encode none. -/
def shown (r : Raw) : String :=
  decoded (toBytes r)

end Raw

end IncrementalBuild.Text
