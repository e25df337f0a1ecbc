import IncrementalBuild.Number.Hexadecimal
import IncrementalBuild.Version.Info
import IncrementalBuild.Proofs.Text.Encoding
import Mathlib.Data.List.Basic

/-!
The constants of a version as a compiler reads them. A text stands in the source file as a literal
in which quotes and backslashes are escaped, and a literal ends with its line: so a text is read
back from its literal, byte by byte, just if it has no line end in it.
-/

namespace IncrementalBuild.Version

/-! ### Literals of C -/

/-- The byte that a backslash and `c` stand for, except for escapes by number. -/
def simpleEscape? : Char → Option UInt8
  | '\'' => some 0x27
  | '"' => some 0x22
  | '?' => some 0x3F
  | '\\' => some 0x5C
  | 'a' => some 0x07
  | 'b' => some 0x08
  | 'f' => some 0x0C
  | 'n' => some 0x0A
  | 'r' => some 0x0D
  | 't' => some 0x09
  | 'v' => some 0x0B
  | _ => none

/-- Whether `c` is a digit of a base up to sixteen. -/
def isDigitOf (base : Nat) (c : Char) : Bool :=
  (Number.hexValue? c).any (· < base)

/-- The number that digits of a base stand for. -/
def numberOf (base : Nat) (digits : List Char) : Nat :=
  digits.foldl (fun n c => base * n + (Number.hexValue? c).getD 0) 0

/-- The byte that an escape by number stands for, if there are digits and it is one. -/
def byteOf? (base : Nat) (digits : List Char) : Option UInt8 :=
  if digits ≠ [] ∧ numberOf base digits < 256 then some (.ofNat (numberOf base digits)) else none

/-- The bytes of the character that an escape by so many digits names. -/
def universalBytes? (width : Nat) (digits : List Char) : Option (List UInt8) :=
  let n := numberOf 16 digits
  if digits.length = width ∧ digits.all (isDigitOf 16) ∧ n.isValidChar then
    some (Text.encode [.ofNat n])
  else none

/-- The bytes that an escape stands for, from behind its backslash, and the text after it. -/
def escapeBytes : List Char → Option (List UInt8 × List Char)
  | [] => none
  | 'x' :: cs =>
    (byteOf? 16 (cs.takeWhile (isDigitOf 16))).map fun b => ([b], cs.dropWhile (isDigitOf 16))
  | 'u' :: cs => (universalBytes? 4 (cs.take 4)).map fun bs => (bs, cs.drop 4)
  | 'U' :: cs => (universalBytes? 8 (cs.take 8)).map fun bs => (bs, cs.drop 8)
  | c :: cs =>
    match simpleEscape? c with
    | some b => some ([b], cs)
    | none =>
      let digits := ((c :: cs).take 3).takeWhile (isDigitOf 8)
      (byteOf? 8 digits).map fun b => ([b], (c :: cs).drop digits.length)

theorem length_of_escapeBytes {cs rest : List Char} {bs : List UInt8}
    (h : escapeBytes cs = some (bs, rest)) : rest.length ≤ cs.length := by
  have hwhile (cs : List Char) : (cs.dropWhile (isDigitOf 16)).length ≤ cs.length :=
    (List.dropWhile_suffix _).length_le
  unfold escapeBytes at h
  split at h
  case h_1 => cases h
  case h_5 =>
    split at h
    · cases h
      simp
    · obtain ⟨b, -, hb⟩ := Option.map_eq_some_iff.1 h
      cases hb
      exact (List.drop_suffix _ _).length_le
  case h_2 cs =>
    obtain ⟨b, -, hb⟩ := Option.map_eq_some_iff.1 h
    cases hb
    exact Nat.le_succ_of_le (hwhile cs)
  all_goals
    obtain ⟨bs, -, hbs⟩ := Option.map_eq_some_iff.1 h
    cases hbs
    simp only [List.length_drop, List.length_cons]
    omega

/-- Whether a line of a source file ends at `c`: at a line feed, and for some compilers at a
carriage return as well. -/
def endsLine (returns : Bool) (c : Char) : Bool :=
  c == '\n' || returns && c == '\r'

/-- The bytes of a string literal and the text after it, from behind the opening quote. A literal is
closed in its line: a backslash does not join the line to the next one. -/
def literalBytes (returns : Bool) : List Char → Option (List UInt8 × List Char)
  | [] => none
  | c :: cs =>
    if c = '"' then some ([], cs)
    else if endsLine returns c then none
    else if c = '\\' then
      match _h : escapeBytes cs with
      | none => none
      | some (bs, rest) => (literalBytes returns rest).map fun (more, r) => (bs ++ more, r)
    else (literalBytes returns cs).map fun (more, r) => (Text.encode [c] ++ more, r)
termination_by cs => cs.length
decreasing_by
  · exact Nat.lt_succ_of_le (length_of_escapeBytes _h)
  · exact Nat.lt_succ_self _

/-- The bytes of the string literal that a text begins with, and the text after it. -/
def readLiteral (returns : Bool) : List Char → Option (List UInt8 × List Char)
  | '"' :: cs => literalBytes returns cs
  | _ => none

/-! ### Texts as literals -/

namespace Constant

variable {returns : Bool} {c : Char} {rest : List Char}

/-- A character as it is written in a literal. -/
def slashed (c : Char) : List Char :=
  if c = '\\' ∨ c = '"' then ['\\', c] else [c]

theorem toList_literal (s : String) :
    (literal s).toList = '"' :: (s.toList.flatMap slashed ++ ['"']) := by
  have hslashed (cs : List Char) :
      Text.replaceChar '"' ['\\', '"'] (Text.replaceChar '\\' ['\\', '\\'] cs) =
        cs.flatMap slashed := by
    rw [Text.replaceChar, Text.replaceChar, List.flatMap_assoc]
    refine List.flatMap_congr fun c _ => ?_
    by_cases hbackslash : c = '\\'
    · simp [slashed, hbackslash]
    · by_cases hquote : c = '"' <;> simp [slashed, hbackslash, hquote]
  simp [literal, hslashed]

theorem endsLine_backslash (returns : Bool) : endsLine returns '\\' = false := by
  cases returns <;> decide

theorem endsLine_quote (returns : Bool) : endsLine returns '"' = false := by
  cases returns <;> decide

/-- A character is read back from a literal, unless a line ends there. -/
theorem literalBytes_slashed (returns : Bool) (c : Char) (rest : List Char) :
    literalBytes returns (slashed c ++ rest) =
      if endsLine returns c then none
      else (literalBytes returns rest).map fun (more, r) => (Text.encode [c] ++ more, r) := by
  have hescape {bs : List UInt8} (hbs : escapeBytes (c :: rest) = some (bs, rest)) :
      literalBytes returns ('\\' :: c :: rest) =
        (literalBytes returns rest).map fun (more, r) => (bs ++ more, r) := by
    rw [literalBytes, if_neg (by decide), if_neg (by simp [endsLine_backslash]), if_pos rfl]
    split
    next heq => cases hbs.symm.trans heq
    next heq =>
      cases hbs.symm.trans heq
      rfl
  rw [slashed]
  split
  next hspecial =>
    rcases hspecial with rfl | rfl
    · rw [if_neg (by simp [endsLine_backslash])]
      exact hescape rfl
    · rw [if_neg (by simp [endsLine_quote])]
      exact hescape rfl
  next hplain =>
    obtain ⟨hbackslash, hquote⟩ := not_or.1 hplain
    rw [List.singleton_append, literalBytes, if_neg hquote, if_neg hbackslash]

theorem literalBytes_escaped (returns : Bool) (cs rest : List Char) :
    literalBytes returns (cs.flatMap slashed ++ '"' :: rest) =
      if cs.any (endsLine returns) then none else some (Text.encode cs, rest) := by
  induction cs with
  | nil => simp [literalBytes]
  | cons c cs ih =>
    rw [List.flatMap_cons, List.append_assoc, literalBytes_slashed, ih, List.any_cons]
    cases endsLine returns c <;> cases cs.any (endsLine returns) <;> simp

/-- A text is read back from its literal, and the literal ends where it was written to end, just if
no line ends in it. -/
theorem readLiteral_literal (returns : Bool) (s : String) (rest : List Char) :
    readLiteral returns ((literal s).toList ++ rest) =
      if s.toList.any (endsLine returns) then none else some (Text.encode s.toList, rest) := by
  rw [toList_literal, List.cons_append, List.append_assoc]
  exact literalBytes_escaped returns s.toList rest

/-- A literal has the line ends of its text. -/
theorem any_endsLine_literal (returns : Bool) (s : String) :
    (literal s).toList.any (endsLine returns) = s.toList.any (endsLine returns) := by
  have hslashed (c : Char) : (slashed c).any (endsLine returns) = endsLine returns c := by
    rw [slashed]
    split <;> simp [endsLine_backslash]
  simp [toList_literal, endsLine_quote, List.any_flatMap, hslashed]

end Constant

/-! ### Source files -/

theorem any_endsLine_toString (returns : Bool) (n : Nat) :
    (toString n).toList.any (endsLine returns) = false := by
  have hdigits : ∀ c ∈ Nat.toDigits 10 n, ¬ endsLine returns c = true := by
    intro c hc hends
    have hdigit := Nat.isDigit_of_mem_toDigits (by decide) (by decide) hc
    obtain rfl | ⟨-, rfl⟩ : c = '\n' ∨ returns = true ∧ c = '\r' := by
      simpa [endsLine] using hends
    · exact absurd hdigit (by decide)
    · exact absurd hdigit (by decide)
  simpa using hdigits

theorem any_endsLine_toString_int (returns : Bool) (i : Int) :
    (toString i).toList.any (endsLine returns) = false := by
  have hminus : endsLine returns '-' = false := by cases returns <;> decide
  cases i with
  | ofNat n => exact any_endsLine_toString returns n
  | negSucc n =>
    have hsigned : (toString (Int.negSucc n)).toList = '-' :: (toString (n + 1)).toList := by
      simp [toString, Int.repr]
    rw [hsigned, List.any_cons, hminus, any_endsLine_toString, Bool.or_false]

namespace Info

/-- What a source file begins with. -/
def preamble (headerName : String) : String :=
  banner ++ "#include \"" ++ headerName ++ "\"\n\n"

/-- The definitions of some constants. -/
def definitions (language : Workspace.Language) (constants : List (String × Constant)) : String :=
  String.join (constants.map fun (name, c) =>
    "const " ++ c.typeName ++ " " ++ qualified language name ++ " = " ++ c.initializer ++ ";\n")

theorem definitions_of_text (language : Workspace.Language) (done todo : List (String × Constant))
    (name s : String) : definitions language (done ++ (name, .text s) :: todo) =
      definitions language done ++ "const char* " ++ qualified language name ++ " = " ++
        Constant.literal s ++ ";\n" ++ definitions language todo := by
  have hkind : "const " ++ "char*" ++ " " = "const char* " := by decide
  have hjoin : definitions language (done ++ (name, .text s) :: todo) =
      definitions language done ++ ("const " ++ "char*" ++ " " ++ qualified language name ++
        " = " ++ Constant.literal s ++ ";\n" ++ definitions language todo) := by
    rw [definitions, List.map_append, List.map_cons, String.join_append, String.join_cons]
    rfl
  rw [hjoin, hkind]
  simp only [String.append_assoc]

theorem source_eq (v : Info) (language : Workspace.Language) (headerName : String) :
    v.source language headerName = preamble headerName ++ definitions language v.constants :=
  rfl

/-- The source file defines the text constants by the literals of their texts. A literal is read to
where it was written to end, and gives the text back, if no line ends in the text, and is not closed
otherwise. So all texts are read back just if no line ends in those that are given from outside. -/
theorem source_denotes (v : Info) (language : Workspace.Language) (headerName : String)
    (returns : Bool) :
    (∀ done name s todo, v.constants = done ++ (name, .text s) :: todo →
      v.source language headerName =
        preamble headerName ++ definitions language done ++ "const char* " ++
          qualified language name ++ " = " ++ Constant.literal s ++ ";\n" ++
          definitions language todo ∧
      ∀ rest, readLiteral returns ((Constant.literal s).toList ++ rest) =
        if (Constant.literal s).toList.any (endsLine returns) then none
        else some (Text.encode s.toList, rest)) ∧
    ((∀ name s, (name, .text s) ∈ v.constants →
        (Constant.literal s).toList.any (endsLine returns) = false) ↔
      v.changelist.toList.any (endsLine returns) = false ∧
        v.short.toList.any (endsLine returns) = false) := by
  constructor
  · intro done name s todo hconstants
    refine ⟨?_, fun rest => ?_⟩
    · rw [source_eq, hconstants, definitions_of_text]
      simp only [String.append_assoc]
    · rw [Constant.any_endsLine_literal, Constant.readLiteral_literal]
  · simp only [Constant.any_endsLine_literal]
    constructor
    · exact fun h => ⟨h "CHANGELIST" _ (by simp [constants]),
        h "FULLVERSION_STRING" _ (by simp [constants])⟩
    · rintro ⟨hchangelist, hshort⟩ name s hmem
      simp only [constants, List.mem_cons, Prod.mk.injEq, Constant.text.injEq, reduceCtorEq,
        and_false, List.not_mem_nil, or_false] at hmem
      obtain ⟨-, rfl⟩ | ⟨-, rfl⟩ | ⟨-, rfl⟩ | ⟨-, rfl⟩ | ⟨-, rfl⟩ | ⟨-, rfl⟩ | ⟨-, rfl⟩ |
        ⟨-, rfl⟩ := hmem
      · exact any_endsLine_toString returns _
      · exact any_endsLine_toString returns _
      · exact any_endsLine_toString_int returns _
      · exact any_endsLine_toString returns _
      · exact any_endsLine_toString returns _
      · exact any_endsLine_toString returns _
      · exact hchangelist
      · exact hshort

/-- A version whose changelist has two lines, and whose short text has quotes and backslashes. -/
def twoLines : Info where
  changelist := "1\n2"
  short := "1.0 \"a\\b\""
  lastChange := .ofSeconds 0
  total := 0

theorem twoLines_denotes :
    twoLines.constants.take 6 ++ (("CHANGELIST", .text "1\n2") :: twoLines.constants.drop 7) =
        twoLines.constants ∧
      readLiteral false ((Constant.literal "1\n2").toList ++ ";\n".toList) = none ∧
      readLiteral false ((Constant.literal "1.0 \"a\\b\"").toList ++ ";\n".toList) =
        some ("1.0 \"a\\b\"".toUTF8.data.toList, ";\n".toList) := by
  have hdenotes := (source_denotes twoLines .c "v.h" false).1
  refine ⟨rfl, ?_, ?_⟩
  · exact ((hdenotes (twoLines.constants.take 6) "CHANGELIST" _ (twoLines.constants.drop 7) rfl).2
      ";\n".toList).trans (if_pos (by decide))
  · exact ((hdenotes (twoLines.constants.take 7) "FULLVERSION_STRING" _
      (twoLines.constants.drop 8) rfl).2 ";\n".toList).trans (if_neg (by decide))

end Info

end IncrementalBuild.Version
