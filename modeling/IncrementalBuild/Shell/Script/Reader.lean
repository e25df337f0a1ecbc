import IncrementalBuild.Shell.Script.Piece

/-!
Scripts from text. What is read at once is a command line: the commands up to the first line end
that does not stand inside of one of them, so that what stands before a line that cannot be read is
run. Words are keywords only where a command can start, and aliases are replaced there.

A text in the script starts behind the line that announces it, where the command that uses it has
been read already. So a command line is read again until it knows all of its texts.
-/

namespace IncrementalBuild.Shell

open Reading Text

/-- The words that end the commands of a part of a compound command. -/
def closingWords : List String :=
  ["then", "else", "elif", "fi", "do", "done", "esac", "\x7d"]

/-- The words with a meaning of their own where a command starts. -/
def keywords : List String :=
  closingWords ++ ["if", "while", "until", "for", "case", "in", "!", "\x7b"]

/-- Whether a token ends the commands of a part of a compound command. -/
def Token.endsList : Token → Bool
  | ending => true
  | operator o => o = ")" || o = ";;"
  | keyword k => closingWords.contains k
  | _ => false

/-- What is done about the next token: line ends before it can be passed over, and a word can be
taken for a keyword or an alias. -/
structure Checks where
  lines : Bool
  keywords : Bool
  aliases : Bool
  deriving Inhabited

namespace Checks

/-- Tokens are taken as they are. -/
def none : Checks := ⟨false, false, false⟩

/-- A command goes on, or starts, on this line. -/
def here : Checks := ⟨false, true, true⟩

/-- A command starts here or on a later line. -/
def anywhere : Checks := ⟨true, true, true⟩

end Checks

/-- Where the commands of a list end. -/
inductive Extent where
  /-- At the end of the line. -/
  | line
  /-- At a closing word, behind at least one command. -/
  | body
  /-- At a closing word. -/
  | passage
  deriving DecidableEq, Repr, Inhabited

/-- The operator that starts with a character, if one does; the second character, if there is one,
is taken. -/
def readOperator? : Char → Reading (Option String)
  | '&' => do return some (if ← takeChar '&' then "&&" else "&")
  | '|' => do return some (if ← takeChar '|' then "||" else "|")
  | ';' => do return some (if ← takeChar ';' then ";;" else ";")
  | '(' => return some "("
  | ')' => return some ")"
  | _ => return none

/-- The operator that leads a stream elsewhere and starts with a character. -/
def readStreamOperator (first : Char) : Reading String := do
  if first = '>' then
    if ← takeChar '>' then return ">>"
    else if ← takeChar '|' then return ">|"
    else if ← takeChar '&' then return ">&"
    else return ">"
  else if ← takeChar '<' then return if ← takeChar '-' then "<<-" else "<<"
  else if ← takeChar '&' then return "<&"
  else if ← takeChar '>' then return "<>"
  else return "<"

/-- Reads a word, or an operator behind the number of its stream. -/
def readWordToken (nested : Nested) (limit : Nat) : Reading Token := do
  let w ← readPieces nested limit .bare
  let number : Option (Option Nat) := match w with
    | .done => some none
    | .text false [c] .done => if c.isDigit then some (some (c.toNat - '0'.toNat)) else none
    | _ => none
  match number, ← peek? with
  | some stream, some c =>
    if c = '<' || c = '>' then
      let _ ← take?
      return .redirection stream (← readStreamOperator c)
    else return .word w
  | _, _ => return .word w

/-- Reads a token behind blanks and a comment. `limit` bounds the number of blanks. -/
def readBareToken (nested : Nested) : (limit : Nat) → Reading Token
  | 0 => refuse "line too long"
  | limit + 1 => do
    match ← peek? with
    | none => return .ending
    | some c =>
      if c = '\n' then
        let _ ← take?
        return .lineEnd
      else if isGap c then
        let _ ← take?
        readBareToken nested limit
      else if c = '#' then
        modify fun s => { s with rest := s.rest.dropWhile (· ≠ '\n') }
        readBareToken nested limit
      else if "&|;()".toList.contains c then
        let _ ← take?
        return ((← readOperator? c).map Token.operator).getD .ending
      else readWordToken nested limit

/-- Reads a text in the script. -/
def readDocument (nested : Nested) (limit : Nat) (a : Awaited) : Reading Unit := do
  let text ← if a.literal then pure (.text true (← takeLines a limit) .done)
    else if ← takeEnding a then pure .done
    else readPieces nested limit (.document a)
  modify fun s => { s with documents := s.documents ++ [(a.index, text)] }

/-- Reads the texts that start here. -/
def readDocuments (nested : Nested) (limit : Nat) : Reading Unit := do
  let awaited := (← get).awaited
  modify fun s => { s with awaited := [] }
  awaited.forM (readDocument nested limit)

/-- Takes the token that was given back, or the next one. The second result is whether the value of
an alias has ended before it in a blank. -/
def nextToken (nested : Nested) (limit : Nat) : Reading (Token × Bool) := do
  let s ← get
  match s.pushed with
  | some t =>
    set { s with pushed := none }
    return (t, false)
  | none =>
    let before := if s.expanding.isEmpty then 0 else s.rest.length
    let t ← readBareToken nested limit
    let after ← get
    let left := if s.expanding.isEmpty then 0 else after.rest.length
    let opened := s.expanding.any fun e => e.opensNext && e.behind < before && left ≤ e.behind
    modify fun s => { s with expanding := s.expanding.filter fun e => e.behind ≤ left }
    return (t, opened)

/-- The value of an alias that is not being read. -/
def aliasValue? (s : Source) (name : String) : Option Raw :=
  if s.expanding.any fun e => e.name = name then none else s.aliases.lookup name

/-- Reads a token. `limit` bounds the number of line ends and aliases before it. -/
def readToken (nested : Nested) : (limit : Nat) → Checks → Reading Token
  | 0, _ => refuse "line too long"
  | limit + 1, checks => do
    let (t, opened) ← nextToken nested limit
    let checks := { checks with aliases := checks.aliases || opened }
    match t with
    | .lineEnd =>
      if checks.lines then
        readDocuments nested limit
        readToken nested limit checks
      else return t
    | .word w =>
      match w.bare?.map String.ofList with
      | none => return t
      | some name =>
        if checks.keywords && keywords.contains name then return .keyword name
        else
          let s ← get
          match if checks.aliases then aliasValue? s name else none with
          | none => return t
          | some value =>
            let e : Expanding := ⟨name, s.rest.length, value.getLast?.any isGap⟩
            set { s with
              rest := value ++ s.rest
              expanding := if value.isEmpty then s.expanding else e :: s.expanding }
            readToken nested limit checks
    | _ => return t

/-- Takes the token that has to be next. -/
def expect (nested : Nested) (limit : Nat) (checks : Checks) (expected : Token) :
    Reading Unit := do
  let t ← readToken nested limit checks
  unless t.isOperator expected.shownText || t.isKeyword expected.shownText do
    refuseToken t (some expected)

/-- Reads what an operator leads a stream to. -/
def readTarget (nested : Nested) (limit : Nat) (stream : Option Nat) (operator : String) :
    Reading Redirection := do
  let announces := operator = "<<" || operator = "<<-"
  modify fun s => { s with plain := announces }
  match ← readToken nested limit .none with
  | .word w =>
    let reading := stream.getD 0
    let writing := stream.getD 1
    match operator with
    | "<" => return .file reading .read w
    | "<>" => return .file reading .update w
    | "<&" => return .share reading w
    | ">" => return .file writing .write w
    | ">|" => return .file writing .overwrite w
    | ">>" => return .file writing .append w
    | ">&" => return .share writing w
    | _ =>
      let s ← get
      let a : Awaited := ⟨s.announced, w.literal, operator = "<<-", w.hasQuotes⟩
      set { s with
        plain := false
        announced := s.announced + 1
        awaited := s.awaited ++ [a] }
      return .document reading ((s.known.lookup a.index).getD .done)
  | t => refuseToken t none

/-- Reads the redirections that are next. A word behind a redirection is no keyword. -/
def readRedirections (nested : Nested) : (limit : Nat) → Checks → Reading (List Redirection)
  | 0, _ => return []
  | limit + 1, checks => do
    match ← readToken nested limit checks with
    | .redirection stream operator =>
      let r ← readTarget nested limit stream operator
      return r :: (← readRedirections nested limit .none)
    | t =>
      pushBack t
      return []

/-- A command with redirections, if there are any. A script of its own has no others then. -/
def Script.withRedirections (line : Nat) : Script → List Redirection → Script
  | body, [] => body
  | .subshell l body _, rs => .subshell l body rs
  | body, rs => .redirected line body rs

/-- Reads the words a loop runs through, and the token behind them. -/
def readLoopWords (nested : Nested) : (limit : Nat) → Reading (List Word × Token)
  | 0 => return ([], .ending)
  | limit + 1 => do
    match ← readToken nested limit .none with
    | .word w =>
      let (ws, t) ← readLoopWords nested limit
      return (w :: ws, t)
    | t => return ([], t)

/-- What a pattern is, given the token it consists of. -/
def Token.pattern : Token → Word
  | word w => w
  | keyword k => .text false k.toList .done
  | _ => .done

/-- Reads the patterns of a clause whose first token has been read. -/
def readPatterns (nested : Nested) : (limit : Nat) → Token → Reading (List Word)
  | 0, _ => return []
  | limit + 1, first => do
    let t ← readToken nested limit .none
    if t.isOperator "|" then
      let next ← readToken nested limit .none
      return first.pattern :: (← readPatterns nested limit next)
    else if t.isOperator ")" then return [first.pattern]
    else refuseToken t (some (.operator ")"))

/-- The parts of a simple command. -/
structure SimpleParts where
  assignments : List (String × Word)
  words : List Word
  redirections : List Redirection
  deriving Inhabited

/-- The only word of a command that has no other parts. -/
def SimpleParts.onlyWord? : SimpleParts → Option Word
  | ⟨[], [w], []⟩ => some w
  | _ => none

/-- Reads the parts of a simple command; assignments stand before the first word. The second result
is the word that a parenthesis follows, if it can be the name of a function. -/
def readSimpleParts (nested : Nested) : (limit : Nat) → SimpleParts →
    Reading (SimpleParts × Option Word)
  | 0, parts => return (parts, none)
  | limit + 1, parts => do
    match ← readToken nested limit ⟨false, false, parts.words.isEmpty⟩ with
    | .word w =>
      match if parts.words.isEmpty then w.assignment? else none with
      | some a =>
        readSimpleParts nested limit { parts with assignments := parts.assignments ++ [a] }
      | none => readSimpleParts nested limit { parts with words := parts.words ++ [w] }
    | .redirection stream operator =>
      let r ← readTarget nested limit stream operator
      readSimpleParts nested limit { parts with redirections := parts.redirections ++ [r] }
    | t =>
      if t.isOperator "(" && parts.onlyWord?.isSome then return (parts, parts.onlyWord?)
      else
        pushBack t
        return (parts, none)

/-- The name of a function that a word is. -/
def functionName (w : Word) : Reading String := do
  match w.bare? with
  | some cs =>
    let name := String.ofList cs
    if isName cs && !specialNames.contains name then return name
    else refuse "Bad function name"
  | none => refuse "Bad function name"

/-- The name of a loop's variable that a token is. -/
def loopName : Token → Reading String
  | .word w =>
    match w.bare? with
    | some cs => if isName cs then return String.ofList cs else refuse "Bad for loop variable"
    | none => refuse "Bad for loop variable"
  | _ => refuse "Bad for loop variable"

/-- How a list goes on behind a command: what the command has become, and whether a further command
may follow. -/
def closeCommand (nested : Nested) (limit : Nat) (extent : Extent) (command : Script) :
    Reading (Script × Bool) := do
  let line ← line
  let t ← readToken nested limit .none
  if t.isOperator "&" then return (.background line command, true)
  else if t.isOperator ";" then return (command, true)
  else match t with
    | .lineEnd =>
      pushBack t
      return (command, true)
    | .ending =>
      readDocuments nested limit
      pushBack t
      return (command, false)
    | _ =>
      if extent = .line then refuseToken t none
      else
        pushBack t
        return (command, false)

mutual

/-- Readers for the scripts in words. -/
def nestedReader : (limit : Nat) → Nested
  | 0 => ⟨refuse "script too deep", refuse "script too deep"⟩
  | limit + 1 => {
      enclosed := do
        let awaited := (← get).awaited
        modify fun s => { s with awaited := [] }
        let body ← readList limit .passage true
        expect (nestedReader limit) limit .none (.operator ")")
        let unread := (← get).awaited.map fun a => (a.index, Word.done)
        modify fun s => { s with awaited, documents := s.documents ++ unread }
        return body
      whole := do
        let body ← readList limit .passage true
        readDocuments (nestedReader limit) limit
        return body }

/-- Reads the commands of a list; `mayEnd` tells whether it can end before the first of them. -/
def readList : (limit : Nat) → Extent → (mayEnd : Bool) → Reading Script
  | 0, _, _ => refuse "script too long"
  | limit + 1, extent, mayEnd => do
    let parts ← readParts limit extent mayEnd
    return .ofParts parts

/-- Reads the commands of a list one after another. -/
def readParts : (limit : Nat) → Extent → (mayEnd : Bool) → Reading (List Script)
  | 0, _, _ => refuse "script too long"
  | limit + 1, extent, mayEnd => do
    let t ← readToken (nestedReader limit) limit ⟨extent ≠ .line, true, true⟩
    match t with
    | .lineEnd =>
      readDocuments (nestedReader limit) limit
      return []
    | .ending =>
      readDocuments (nestedReader limit) limit
      pushBack t
      return []
    | _ =>
      pushBack t
      if mayEnd && t.endsList then return []
      let command ← readChain limit
      let (command, goesOn) ← closeCommand (nestedReader limit) limit extent command
      if goesOn then return command :: (← readParts limit extent (extent ≠ .line))
      else return [command]

/-- Reads commands joined by `&&` and `||`. -/
def readChain : (limit : Nat) → Reading Script
  | 0 => refuse "script too long"
  | limit + 1 => do
    let first ← readPipeline limit .none
    readChainBehind limit first

/-- Reads what is joined to a command by `&&` and `||`. -/
def readChainBehind : (limit : Nat) → Script → Reading Script
  | 0, first => return first
  | limit + 1, first => do
    let t ← readToken (nestedReader limit) limit .none
    if t.isOperator "&&" then
      let second ← readPipeline limit .anywhere
      readChainBehind limit (.both first second)
    else if t.isOperator "||" then
      let second ← readPipeline limit .anywhere
      readChainBehind limit (.either first second)
    else
      pushBack t
      return first

/-- Reads commands joined by pipes, possibly negated. -/
def readPipeline : (limit : Nat) → Checks → Reading Script
  | 0, _ => refuse "script too long"
  | limit + 1, checks => do
    let t ← readToken (nestedReader limit) limit checks
    let negates := t.isKeyword "!"
    unless negates do pushBack t
    let first ← readCommand limit (if negates then .here else .none)
    let more ← readPipes limit
    let whole := if more.isEmpty then first else .pipe (first :: more)
    return if negates then .negated whole else whole

/-- Reads the commands that are joined to one by pipes. -/
def readPipes : (limit : Nat) → Reading (List Script)
  | 0 => refuse "script too long"
  | limit + 1 => do
    let t ← readToken (nestedReader limit) limit .none
    if t.isOperator "|" then
      let next ← readCommand limit .anywhere
      return next :: (← readPipes limit)
    else
      pushBack t
      return []

/-- Reads one command. -/
def readCommand : (limit : Nat) → Checks → Reading Script
  | 0, _ => refuse "script too long"
  | limit + 1, checks => do
    let line ← line
    let t ← readToken (nestedReader limit) limit checks
    let closing (expected : Token) (body : Script) : Reading Script := do
      expect (nestedReader limit) limit .none expected
      return body
    let redirectable (read : Reading Script) : Reading Script := do
      let body ← read
      return body.withRedirections line (← readRedirections (nestedReader limit) limit .here)
    match t with
    | .operator "(" =>
      redirectable do
        closing (.operator ")") (.subshell line (← readList limit .body false) [])
    | .keyword "\x7b" =>
      redirectable do
        closing (.keyword "\x7d") (← readList limit .body false)
    | .keyword "if" =>
      redirectable do
        closing (.keyword "fi") (← readChoice limit)
    | .keyword "while" =>
      redirectable do
        let test ← readList limit .body false
        return .loop false test (← readLoopBody limit .none)
    | .keyword "until" =>
      redirectable do
        let test ← readList limit .body false
        return .loop true test (← readLoopBody limit .none)
    | .keyword "for" =>
      redirectable do
        let name ← loopName (← readToken (nestedReader limit) limit .none)
        let next ← readToken (nestedReader limit) limit .anywhere
        if next.isKeyword "in" then
          let (words, last) ← readLoopWords (nestedReader limit) limit
          match last with
          | .lineEnd => pure ()
          | t => unless t.isOperator ";" do refuseToken t none
          return .each line name words (← readLoopBody limit .anywhere)
        else
          unless next.isOperator ";" do pushBack next
          return .each line name [allArguments] (← readLoopBody limit .anywhere)
    | .keyword "case" =>
      redirectable do
        match ← readToken (nestedReader limit) limit .none with
        | .word subject =>
          expect (nestedReader limit) limit .anywhere (.keyword "in")
          return .matching line subject (← readClauses limit)
        | t => refuseToken t (some (.word .done))
    | .word _ | .redirection _ _ =>
      pushBack t
      readSimple limit
    | _ => refuseToken t none

/-- Reads a simple command, or a function. -/
def readSimple : (limit : Nat) → Reading Script
  | 0 => refuse "script too long"
  | limit + 1 => do
    let start ← line
    match ← readSimpleParts (nestedReader limit) limit ⟨[], [], []⟩ with
    | (_, some w) =>
      expect (nestedReader limit) limit .none (.operator ")")
      let name ← functionName w
      return .define name (← readCommand limit .anywhere)
    | (parts, none) =>
      return .simple start parts.assignments parts.words parts.redirections

/-- Reads the body of a loop with the words around it. -/
def readLoopBody : (limit : Nat) → Checks → Reading Script
  | 0, _ => refuse "script too long"
  | limit + 1, checks => do
    expect (nestedReader limit) limit checks (.keyword "do")
    let body ← readList limit .body false
    expect (nestedReader limit) limit .none (.keyword "done")
    return body

/-- Reads a choice behind its first word, up to its last. -/
def readChoice : (limit : Nat) → Reading Script
  | 0 => refuse "script too long"
  | limit + 1 => do
    let test ← readList limit .body false
    expect (nestedReader limit) limit .none (.keyword "then")
    let yes ← readList limit .body false
    let t ← readToken (nestedReader limit) limit .none
    if t.isKeyword "elif" then return .choice test yes (← readChoice limit)
    else if t.isKeyword "else" then return .choice test yes (← readList limit .body false)
    else
      pushBack t
      return .choice test yes .nothing

/-- Reads clauses, and the word that ends them. -/
def readClauses : (limit : Nat) → Reading (List (List Word × Script))
  | 0 => refuse "script too long"
  | limit + 1 => do
    let t ← readToken (nestedReader limit) limit ⟨true, true, false⟩
    if t.isKeyword "esac" then return []
    let first ← if t.isOperator "(" then readToken (nestedReader limit) limit .none else pure t
    let patterns ← readPatterns (nestedReader limit) limit first
    let body ← readList limit .passage true
    let t ← readToken (nestedReader limit) limit ⟨true, true, false⟩
    if t.isKeyword "esac" then return [(patterns, body)]
    else if t.isOperator ";;" then return (patterns, body) :: (← readClauses limit)
    else refuseToken t (some (.operator ";;"))

end

/-- The bound for reading a text in which some aliases are replaced. -/
def readingLimit (aliases : List (String × Raw)) (text : Raw) : Nat :=
  16 * (text.length + 4) * (aliases.foldl (fun n a => n + a.2.length) 4)

/-- A text that is to be read from a line on. -/
def Source.start (aliases : List (String × Raw)) (line : Nat) (text : Raw)
    (known : List (Nat × Word)) : Source where
  rest := text
  line := line
  aliases := aliases
  expanding := []
  pushed := none
  awaited := []
  documents := []
  known := known
  announced := 0
  plain := false

/-- The word that a text is in which only parameters, scripts and expressions are replaced. -/
def quotedText (text : Raw) : Except Obstacle Word :=
  let limit := readingLimit [] text
  let never : Awaited := ⟨0, ['\x00'], false, false⟩
  let start := Source.start [] 1 text []
  ((readPieces (nestedReader limit) limit (.document never)).run start).map Prod.fst

/-- A command line: its script, and what follows it from what line on. -/
structure CommandLine where
  script : Script
  rest : Raw
  line : Nat
  deriving Inhabited

/-- Reads the first command line of a text, given the texts in it as far as they are known. There is
no script where there is nothing left to read. -/
def readCommandLine (aliases : List (String × Raw)) (line : Nat) (text : Raw)
    (known : List (Nat × Word)) : Except Obstacle (Option Script × Source) :=
  let limit := readingLimit aliases text
  let read : Reading (Option Script) := do
    let script ← readList limit .line false
    match script.isNothing, (← get).pushed with
    | true, some .ending => return none
    | _, _ => return some script
  read.run (Source.start aliases line text known)

/-- Reads the first command line of a text again and again until it knows the texts in it, which
stand inside of one another no deeper than there are texts. -/
def knowing (aliases : List (String × Raw)) (line : Nat) (text : Raw) : (depth : Nat) →
    List (Nat × Word) → Except Obstacle (Option Script × Source)
  | 0, known => readCommandLine aliases line text known
  | depth + 1, known => do
    let (_, s) ← readCommandLine aliases line text known
    knowing aliases line text depth s.documents

/-- The first command line of a text that starts on some line, if there is anything left to read.
-/
def commandLine? (aliases : List (String × Raw)) (line : Nat) (text : Raw) :
    Except Obstacle (Option CommandLine) := do
  let (first, s) ← readCommandLine aliases line text []
  let (script?, s) ← if s.announced = 0 then pure (first, s)
    else knowing aliases line text s.announced s.documents
  return script?.map fun script => ⟨script, s.rest, s.line⟩

end IncrementalBuild.Shell
