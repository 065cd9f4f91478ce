import Z80Asm.Error.Report
import Z80Asm.Scope.Basic
import Z80Asm.Expr.Builder
import Z80Asm.Line.Basic
import Z80Asm.Line.Number

/-!
# Reading lines

Source text is read character by character. A `Mode` says what is being read and holds what has
been read of it; a `Draft` holds the finished parts of the line. `Mode.onChar` takes a character
and `Mode.onEnd` the end of a physical line, which finishes every word but an open string.

What comes of a character is a `Step`. It may go on with the next character, but there are two more
outcomes, which leave the rest of the physical line unread: to go on with the next physical line, and
to finish the logical line. Only the end of a physical line ever makes use of these (`onChar_next`).

A logical line ends with a physical line, unless its expression is incomplete or a string is
open there: then it goes on with the next physical line. `Reader.next` reads one logical line.
Failures carry the physical line and the column of the character that caused them.
-/
set_option autoImplicit false

namespace Z80Asm

/-- The finished parts of a line that is being read. -/
structure Draft where
  label : Option String := none
  mnemonic : Option String := none
  comment : Option String := none
  builder : Builder := {}
  deriving Repr, Inhabited

def Draft.feed (draft : Draft) (token : Token) : Except Cause Draft :=
  match (Builder.feed token).run draft.builder with
  | .ok _ builder => .ok { draft with builder }
  | .error cause _ => .error cause

/-- What a quote opens. -/
inductive Quote where
  | string | char
  deriving DecidableEq, Repr, Inhabited

def Quote.mark : Quote → Char
  | string => '"'
  | char => '\''

/-- What is being read. Words are held as far as they have been read; the bytes of a string are
    held latest first. -/
inductive Mode where
  | labelStart
  | label (name : String)
  | afterLabel (name : String)
  | statementStart
  | statement (name : String)
  | afterStatement (name : String)
  /-- Between the words of an argument. -/
  | argument
  | ident (name : String)
  | number (text : String)
  | dollar (digits : String)
  | text (bytes : List UInt8) (quote : Quote) (escaped : Bool)
  /-- An operator that a second character may complete. -/
  | operator (first : Char)
  | comment (text : String)
  deriving Repr, Inhabited

/-- What comes of a character. -/
inductive Step where
  /-- The next character is read in this mode. -/
  | next (mode : Mode)
  /-- The logical line goes on with the next physical line, in this mode. -/
  | wrap (mode : Mode)
  /-- The logical line is finished. -/
  | done
  deriving Repr, Inhabited

instance : Coe Mode Step :=
  ⟨.next⟩

/-- What comes of a character and the draft behind it, or why there is none. -/
abbrev Reading := Except Cause (Step × Draft)

/-! ## Arguments -/

/-- Takes a token and goes on with the argument. -/
def Draft.token (draft : Draft) (token : Token) : Reading := do
  return (.next .argument, ← draft.feed token)

def unaryOf? : Char → Option UnaryOp
  | '+' => some .plus
  | '-' => some .minus
  | '~' => some .bitNot
  | '!' => some .logicNot
  | _ => none

/-- A character where an operand has to begin. -/
def startValue (draft : Draft) (c : Char) : Reading :=
  match unaryOf? c with
  | some op => draft.token (.unary op)
  | none =>
    match c with
    | '$' => .ok (.next (.dollar ""), draft)
    | '%' | '#' => .ok (.next (.number (String.singleton c)), draft)
    | '"' => .ok (.next (.text [] .string false), draft)
    | '\'' => .ok (.next (.text [] .char false), draft)
    | '(' => draft.token .openGroup
    | ')' => draft.token .closeGroup
    | _ =>
      if c.isDigit then .ok (.next (.number (String.singleton c)), draft)
      else if Text.isIdentStart c then .ok (.next (.ident (String.singleton c)), draft)
      else .error (.unexpectedChar c)

/-- The characters that may begin an operand right after another, which makes the first an
    annotation of the second. -/
def startsAnnotated (c : Char) : Bool :=
  c.isDigit || Text.isIdentStart c || c == '(' || c == '"' || c == '\'' || c == '$' || c == '#'

/-- A character where an operator has to begin. -/
def startOperator (draft : Draft) (c : Char) : Reading :=
  match c with
  | '.' => draft.token .member
  | ',' => draft.token .comma
  | '?' => draft.token .question
  | ':' => draft.token .colon
  | ')' => draft.token .closeGroup
  | '[' => draft.token .openIndex
  | ']' => draft.token .closeIndex
  | '*' => draft.token (.binary .mul)
  | '/' => draft.token (.binary .div)
  | '%' => draft.token (.binary .mod)
  | '+' => draft.token (.binary .add)
  | '-' => draft.token (.binary .sub)
  | '^' => draft.token (.binary .bitXor)
  | '<' | '>' | '=' | '!' | '&' | '|' => .ok (.next (.operator c), draft)
  | _ =>
    if startsAnnotated c then do startValue (← draft.feed .annotate) c
    else .error (.unexpectedChar c)

/-- A character between the words of an argument. -/
def argumentChar (draft : Draft) (c : Char) : Reading :=
  if c == ';' then .ok (.next (.comment ""), draft)
  else if Text.isSpace c then .ok (.next .argument, draft)
  else if draft.builder.expectsValue then startValue draft c
  else startOperator draft c

/-- A character before the statement. -/
def statementChar (draft : Draft) (c : Char) : Reading :=
  if c == ';' then .ok (.next (.comment ""), draft)
  else if Text.isSpace c then .ok (.next .statementStart, draft)
  else if Text.isIdentStart c then .ok (.next (.statement (String.singleton c)), draft)
  else .error (.unexpectedChar c)

/-- The operator that two characters spell. -/
def operatorPair? : Char → Char → Option BinaryOp
  | '<', '<' => some .shl
  | '<', '=' => some .le
  | '>', '>' => some .shr
  | '>', '=' => some .ge
  | '=', '=' => some .eq
  | '!', '=' => some .ne
  | '&', '&' => some .logicAnd
  | '|', '|' => some .logicOr
  | _, _ => none

/-- The operator that one of these characters spells alone. -/
def operatorAlone : Char → Except Cause BinaryOp
  | '<' => .ok .lt
  | '>' => .ok .gt
  | '=' => .ok .eq
  | '&' => .ok .bitAnd
  | '|' => .ok .bitOr
  | c => .error (.unexpectedChar c)

/-- The byte that an escaped character stands for. -/
def unescape : Char → Except Cause UInt8
  | '0' => .ok 0x00
  | 'a' => .ok 0x07
  | 't' => .ok 0x09
  | 'n' => .ok 0x0A
  | 'f' => .ok 0x0C
  | 'r' => .ok 0x0D
  | 'e' => .ok 0x1B
  | '"' => .ok 0x22
  | '\'' => .ok 0x27
  | '\\' => .ok 0x5C
  | c => .error (.invalidEscape c)

/-- The value of a closed literal, whose bytes are given latest first. -/
def literal : Quote → List UInt8 → Except Cause Expr
  | .string, bytes => .ok (.str bytes.reverse)
  | .char, [byte] => .ok (.chr byte)
  | .char, _ => .error .charLength

/-- A character inside a literal. -/
def textChar (draft : Draft) (bytes : List UInt8) (quote : Quote) (escaped : Bool) (c : Char) :
    Reading :=
  if escaped then do
    return (.next (.text ((← unescape c) :: bytes) quote false), draft)
  else if c == '\\' then .ok (.next (.text bytes quote true), draft)
  else if c == quote.mark then do draft.token (.value (← literal quote bytes))
  else if c.toNat < 256 then .ok (.next (.text (c.toUInt8 :: bytes) quote false), draft)
  else .error .charRange

/-! ## Words that end where the next character does not belong to them -/

/-- The token of a finished word. -/
def identToken (scope : ScopeId) (name : String) : Token :=
  .value (.ident name scope)

def numberToken (text : String) : Except Cause Token := do
  return .value (.int (← Number.parse text))

/-- A dollar sign alone is the name of the current scope; with digits it is hexadecimal. -/
def dollarToken (scope : ScopeId) (digits : String) : Except Cause Token :=
  if digits.isEmpty then .ok (identToken scope selfName)
  else do return .value (.int (← Number.ofRadix 16 digits.toList digits))

/-- Adds a comment; the comments of one logical line are separated by line feeds. -/
def Draft.addComment (draft : Draft) (text : String) : Draft :=
  match draft.comment with
  | some earlier => { draft with comment := some (earlier ++ "\n" ++ text) }
  | none => { draft with comment := some text }

namespace Mode

/-- Whether a literal is open. -/
def isText : Mode → Bool
  | text _ _ _ => true
  | _ => false

/-- Takes the next character of a physical line. Names are read in `scope`. -/
def onChar (scope : ScopeId) (c : Char) : Mode → Draft → Reading
  | labelStart, draft =>
    if c == ';' then .ok (.next (comment ""), draft)
    else if Text.isSpace c then .ok (.next statementStart, draft)
    else if Text.isIdentStart c then .ok (.next (label (String.singleton c)), draft)
    else .error (.unexpectedChar c)
  | label name, draft =>
    if Text.isIdentChar c then .ok (.next (label (name.push c)), draft)
    else if c == ':' then .ok (.next statementStart, { draft with label := some name })
    else if Text.isSpace c then .ok (.next (afterLabel name), draft)
    else statementChar { draft with label := some name } c
  | afterLabel name, draft =>
    if Text.isSpace c then .ok (.next (afterLabel name), draft)
    else if c == ':' then .ok (.next statementStart, { draft with label := some name })
    else statementChar { draft with label := some name } c
  | statementStart, draft => statementChar draft c
  | statement name, draft =>
    if Text.isIdentChar c then .ok (.next (statement (name.push c)), draft)
    else if c == ':' && draft.label.isNone then
      .ok (.next statementStart, { draft with label := some name })
    else if Text.isSpace c then .ok (.next (afterStatement name), draft)
    else argumentChar { draft with mnemonic := some name } c
  | afterStatement name, draft =>
    if Text.isSpace c then .ok (.next (afterStatement name), draft)
    else if c == ':' && draft.label.isNone then
      .ok (.next statementStart, { draft with label := some name })
    else argumentChar { draft with mnemonic := some name } c
  | argument, draft => argumentChar draft c
  | ident name, draft =>
    if Text.isIdentChar c then .ok (.next (ident (name.push c)), draft)
    else if c == '\'' && Text.lower name == "af" then
      draft.token (identToken scope (name.push '\''))
    else do argumentChar (← draft.feed (identToken scope name)) c
  | number digits, draft =>
    if c.isAlphanum then .ok (.next (number (digits.push c)), draft)
    else do argumentChar (← draft.feed (← numberToken digits)) c
  | dollar digits, draft =>
    if Text.isHexDigit c then .ok (.next (dollar (digits.push c)), draft)
    else do argumentChar (← draft.feed (← dollarToken scope digits)) c
  | text bytes quote escaped, draft => textChar draft bytes quote escaped c
  | operator first, draft =>
    match operatorPair? first c with
    | some op => draft.token (.binary op)
    | none => do argumentChar (← draft.feed (.binary (← operatorAlone first))) c
  | comment words, draft => .ok (.next (comment (words.push c)), draft)

/-- What the line is at its physical end: in need of another one, in this mode, or finished. -/
abbrev Ending := Except Cause (Option Mode × Draft)

/-- The end of a physical line between the words of an argument. -/
def endArgument (draft : Draft) : Ending :=
  .ok (if draft.builder.isIncomplete then some argument else none, draft)

/-- Takes the end of a physical line. -/
def onEnd (scope : ScopeId) : Mode → Draft → Ending
  | labelStart, draft => .ok (none, draft)
  | label name, draft => .ok (none, { draft with label := some name })
  | afterLabel name, draft => .ok (none, { draft with label := some name })
  | statementStart, draft => .ok (none, draft)
  | statement name, draft => endArgument { draft with mnemonic := some name }
  | afterStatement name, draft => endArgument { draft with mnemonic := some name }
  | argument, draft => endArgument draft
  | ident name, draft => do endArgument (← draft.feed (identToken scope name))
  | number digits, draft => do endArgument (← draft.feed (← numberToken digits))
  | dollar digits, draft => do endArgument (← draft.feed (← dollarToken scope digits))
  | text bytes .string _, draft => .ok (some (text (0x0A :: bytes) .string false), draft)
  | text _ .char _, _ => .error .unterminatedChar
  | operator first, draft => do endArgument (← draft.feed (.binary (← operatorAlone first)))
  | comment words, draft => endArgument (draft.addComment words)

/-- Reads a physical line, to its end unless a character breaks off. A failure comes with its
    column. -/
def run (scope : ScopeId) (column : Nat) (mode : Mode) (draft : Draft) :
    List Char → Except (Cause × Nat) (Option Mode × Draft)
  | [] => (mode.onEnd scope draft).mapError (·, column)
  | c :: rest =>
    match mode.onChar scope c draft with
    | .ok (.next mode, draft) => run scope (column + 1) mode draft rest
    | .ok (.wrap mode, draft) => .ok (some mode, draft)
    | .ok (.done, draft) => .ok (none, draft)
    | .error cause => .error (cause, column)

end Mode

/-! ## Logical lines -/

/-- A logical line as far as it has been read: the draft, the physical lines that make it up and
    those that follow. -/
structure Physical where
  draft : Draft
  texts : List String
  rest : List String
  deriving Repr, Inhabited

/-- Reads from the physical line `text`, which has the given number, to the end of the logical
    line. `rest` are the physical lines after it. -/
def readPhysical (scope : ScopeId) (file : Option String) (outer : List Site) (mode : Mode)
    (draft : Draft) (number : UInt32) (text : String) (rest : List String) :
    Except Failure Physical :=
  let here : Position := { here := { file, line := number, text }, outer }
  match mode.run scope 1 draft text.toList with
  | .error (cause, column) => .error (cause.at here (some column))
  | .ok (none, draft) => .ok { draft, texts := [text], rest }
  | .ok (some resume, draft) =>
    match rest with
    | [] =>
      if resume.isText then .error (Cause.unterminatedString.at here (some (text.length + 1)))
      else .ok { draft, texts := [text], rest := [] }
    | next :: rest => do
      let line ← readPhysical scope file outer resume draft (number + 1) next rest
      return { line with texts := text :: line.texts }

/-- Source text that is being read, as the physical lines that remain. -/
structure Reader where
  remaining : List String
  /-- The number of the next physical line. -/
  number : UInt32 := 1
  file : Option String
  /-- The sites that led to this text. -/
  outer : List Site
  stopped : Bool := false
  deriving Repr, Inhabited

namespace Reader

def ofText (text : String) (file : Option String) (outer : List Site) : Reader :=
  { remaining := Text.lines text, file, outer }

/-- Gives no more lines. -/
def stop (r : Reader) : Reader :=
  { r with stopped := true }

/-- Reads the next logical line into a scope; nothing at the end of the text. -/
def next (r : Reader) (scope : ScopeId) : Except Failure (Option (Line × Reader)) :=
  if r.stopped then .ok none
  else
    match r.remaining with
    | [] => .ok none
    | text :: rest => do
      let read ← readPhysical scope r.file r.outer .labelStart {} r.number text rest
      let site : Site :=
        { file := r.file, line := r.number, text := String.intercalate "\n" read.texts }
      let position : Position := { here := site, outer := r.outer }
      let arguments ← read.draft.builder.finish.mapError (·.at position none)
      let line : Line :=
        { label := read.draft.label, mnemonic := read.draft.mnemonic, arguments,
          comment := read.draft.comment, position, scope }
      let number := r.number + UInt32.ofNat read.texts.length
      return some (line, { r with remaining := read.rest, number })

end Reader

end Z80Asm
