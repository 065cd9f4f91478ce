import Z80Asm.Error.Position
import Z80Asm.Error.Cause

/-!
# Failures and their reports

A failure is a cause with the context in which it arose. Context is attached on the way out, and
only the first attachment counts: `Traced.at` leaves a failure alone that already has frames. The
frames of a position are its own site and those that led to it, so a report shows the whole chain
from the statement that failed outward.

`Traced` is generic in what it traces: the assembler traces a `Cause`, a report needs no more
than a `Summary` of it.
-/
set_option autoImplicit false

namespace Z80Asm

/-- One step of a failure's context. Columns count from one. -/
structure Frame where
  site : Site
  column : Option Nat
  deriving DecidableEq, Repr, Inhabited

/-- Where a frame points, as text. -/
def Frame.location (frame : Frame) : String :=
  match frame.site.file with
  | some file => file ++ ":" ++ toString frame.site.line
  | none => toString frame.site.line

/-- The frames of a position, innermost first. A column belongs to the innermost. -/
def Position.frames (p : Position) (column : Option Nat) : List Frame :=
  { site := p.here, column } :: p.outer.map fun site => { site, column := none }

/-- Something that went wrong, and where. -/
structure Traced (α : Type) where
  what : α
  frames : List Frame := []
  deriving Repr, Inhabited

/-- Attaches a position to a failure that has no context yet. -/
def Traced.at {α : Type} (t : Traced α) (p : Position) (column : Option Nat := none) : Traced α :=
  match t.frames with
  | [] => { t with frames := p.frames column }
  | _ => t

/-- What a report says about a failure besides its context. -/
structure Summary where
  kind : ErrorKind
  message : String
  deriving DecidableEq, Repr, Inhabited

def Cause.summary (cause : Cause) : Summary :=
  { kind := cause.kind, message := cause.message }

/-- A failure of the assembler. -/
abbrev Failure := Traced Cause

def Cause.untraced (cause : Cause) : Failure :=
  { what := cause }

def Cause.at (cause : Cause) (p : Position) (column : Option Nat := none) : Failure :=
  cause.untraced.at p column

def Failure.summary (failure : Failure) : Traced Summary :=
  { what := failure.what.summary, frames := failure.frames }

/-! ## Marking a column -/

/-- Splits text after exactly `size` bytes of its UTF-8 form; nothing if no character ends there. -/
def splitAtByte : Nat → List Char → Option (List Char × List Char)
  | 0, cs => some ([], cs)
  | _ + 1, [] => none
  | size + 1, c :: rest =>
    if c.utf8Size ≤ size + 1 then
      (splitAtByte (size + 1 - c.utf8Size) rest).map fun (front, back) => (c :: front, back)
    else none

/-- The length of the UTF-8 form of a text. -/
def byteLength (cs : List Char) : Nat :=
  cs.foldr (fun c size => c.utf8Size + size) 0

/-- How the marked character of a line is set off. -/
def mark (color : Bool) (marked : List Char) : List Char :=
  if color then "\x1b[1;31m".toList ++ marked ++ "\x1b[0m".toList
  else '[' :: marked ++ [']']

/-- The line with its character at `column` marked. Columns are taken as byte offsets plus one:
    one that lies past the end marks a blank there, and one inside a character marks nothing. -/
def highlight (line : String) (column : Option Nat) (color : Bool) : String :=
  let cs := (line.toList.reverse.dropWhile fun c => c == '\r' || c == '\n').reverse
  match column with
  | none => String.ofList cs
  | some column =>
    match splitAtByte (min (column - 1) (byteLength cs)) cs with
    | none => String.ofList cs
    | some (front, []) => String.ofList (front ++ mark color [' '])
    | some (front, c :: back) => String.ofList (front ++ mark color [c] ++ back)

/-! ## Reports -/

/-- A line number set to the right in five columns. -/
def lineNumber (line : Nat) : String :=
  let digits := toString line
  String.ofList (List.replicate (5 - digits.length) ' ') ++ digits

/-- The report of a failure: the innermost frame with its line, the message, and one line for
    each outer frame. -/
def Traced.render (t : Traced Summary) (color : Bool) : String :=
  let verdict := "ERROR: " ++ t.what.message ++ " (" ++ t.what.kind.label ++ ")"
  match t.frames with
  | [] => verdict
  | first :: outer =>
    let outerLine (frame : Frame) : String :=
      "\n  at " ++ frame.location ++ " | " ++
        String.ofList (Text.trimEnd frame.site.text.toList)
    first.location ++ ": ERROR\n" ++ lineNumber first.site.line ++ " | " ++
      highlight first.site.text first.column color ++ "\n" ++ verdict ++
      String.join (outer.map outerLine)

end Z80Asm
