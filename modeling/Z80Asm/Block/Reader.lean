import Z80Asm.Block.Basic
import Z80Asm.Expr.Eval
import Z80Asm.Files
import Z80Asm.Line.Reader

/-!
# Reading blocks

Lines are grouped into items while they are read. A statement that opens a block takes the lines
up to its terminator; a terminator that closes nothing is an error, and so is the end of the text
inside a block. `INCLUDE` splices the items of another file behind its own line, which must be
complete in themselves; `END` ends the text.

Reading a text takes one step for each line, so the number of physical lines bounds it. An inclusion
can only come back to a file whose reading is not finished after another file was included for the
first time with `ONCE`, or it goes on for ever; the number of files bounds how deep inclusions nest
(`Library.maxNesting`). Beyond that reading gives up with `includeTooDeep`, in the place of going on
for ever.
-/
set_option autoImplicit false

namespace Z80Asm

/-- Statements that end a block or a branch. -/
inductive Closer where
  | endm | endp | otherwise | endif | ends
  deriving DecidableEq, Repr, Inhabited

def Closer.key : Closer → String
  | endm => "endm" | endp => "endp" | otherwise => "else" | endif => "endif" | ends => "ends"

/-- Statements that have a meaning while source is read. -/
inductive Directive where
  | opens (kind : BlockKind)
  | choice
  | equ
  | space
  | splice
  | incbin
  | stop
  | closes (closer : Closer)
  deriving DecidableEq, Repr, Inhabited

def Directive.ofKey? : String → Option Directive
  | "macro" => some (.opens .template)
  | "rept" => some (.opens .rept)
  | "irp" => some (.opens .irp)
  | "proc" => some (.opens .proc)
  | "section" => some (.opens .segment)
  | "if" => some .choice
  | "equ" => some .equ
  | "ds" | "defs" => some .space
  | "include" => some .splice
  | "incbin" => some .incbin
  | "end" => some .stop
  | "endm" => some (.closes .endm)
  | "endp" => some (.closes .endp)
  | "else" => some (.closes .otherwise)
  | "endif" => some (.closes .endif)
  | "ends" => some (.closes .ends)
  | _ => none

def Line.directive? (line : Line) : Option Directive :=
  line.directiveKey?.bind Directive.ofKey?

namespace BlockKind

def closer : BlockKind → Closer
  | template | rept | irp => .endm
  | proc => .endp
  | segment => .ends

/-- The scope in which the body of a block is read. -/
def bodyScope (kind : BlockKind) (line : Line) (around : ScopeId) : ScopeId :=
  match kind with
  | segment => around
  | _ => line.scope

end BlockKind

/-- What reading source changes: the arena of scopes, and which files have been read. -/
structure Loading where
  scopes : Scopes
  loaded : List FilePlace := []
  deriving Repr, Inhabited

/-- Records that the file at a place was read, if it has one. -/
def Loading.remember (state : Loading) : Except FileError FilePlace → Loading
  | .ok place => { state with loaded := place :: state.loaded }
  | .error _ => state

/-- Reading, which keeps what was done when it fails. -/
abbrev Load := EStateM Failure Loading

namespace Load

def createScope (parent : ScopeId) : Load ScopeId := do
  let state ← get
  let (id, scopes) := state.scopes.create (some parent)
  set { state with scopes }
  return id

/-- Work that can fail without a context of its own, done on behalf of a line. -/
def onBehalf {α : Type} (line : Line) (result : Except Cause α) : Load α :=
  match result with
  | .ok a => pure a
  | .error cause => throw (cause.at line.position)

end Load

/-- Items up to the end of the text or to a terminator, which is kept apart. -/
structure Body where
  items : List Item
  closer : Option Line
  reader : Reader
  deriving Repr, Inhabited

/-- How the statements that refer to files are carried out. -/
structure FileStatements where
  /-- The items that an `INCLUDE` line splices in, read into a scope. -/
  splice : Line → ScopeId → Load (List Item)
  /-- The path that an `INCBIN` line names. -/
  embedded : Line → Load String

/-- The items of a finished body with its terminator as the last. -/
def Body.closed (body : Body) (closers : List Closer) (opener : Line) : Load (List Item × Line) :=
  match body.closer with
  | some line => return (body.items ++ [.plain line .instruction], line)
  | none =>
    throw ((Cause.missingTerminator (closers.map fun c => Text.upper c.key)).at opener.position)

/-- Puts items in front of those that follow. -/
def Body.prepend (items : List Item) (body : Body) : Body :=
  { body with items := items ++ body.items }

/-- Reads items into a scope until one of `closers` or the end of the text. Every line takes one
    of `fuel`. -/
def readItems (files : FileStatements) :
    Nat → ScopeId → List Closer → Reader → Load Body
  | 0, _, _, reader => return { items := [], closer := none, reader }
  | fuel + 1, scope, closers, reader => do
    let lineScope ← Load.createScope scope
    match reader.next lineScope with
    | .error failure => throw failure
    | .ok none => return { items := [], closer := none, reader }
    | .ok (some (line, reader)) =>
      match line.directive? with
      | none =>
        let rest ← readItems files fuel scope closers reader
        return rest.prepend [.plain line .instruction]
      | some .equ =>
        let rest ← readItems files fuel scope closers reader
        return rest.prepend [.plain line .equ]
      | some .space =>
        let rest ← readItems files fuel scope closers reader
        return rest.prepend [.plain line .space]
      | some .stop =>
        let rest ← readItems files fuel scope closers reader.stop
        return rest.prepend [.plain line .instruction]
      | some .splice =>
        let included ← files.splice line scope
        let rest ← readItems files fuel scope closers reader
        return rest.prepend (.plain line .instruction :: included)
      | some .incbin =>
        let path ← files.embedded line
        let rest ← readItems files fuel scope closers reader
        return rest.prepend [.plain line (.incbin path)]
      | some (.closes closer) =>
        if closers.contains closer then return { items := [], closer := some line, reader }
        else throw ((Cause.unexpectedTerminator (line.mnemonic.getD "")).at line.position)
      | some (.opens kind) =>
        let body ← readItems files fuel (kind.bodyScope line scope) [kind.closer] reader
        let (items, _) ← body.closed [kind.closer] line
        let rest ← readItems files fuel scope closers body.reader
        return rest.prepend [.block line kind items]
      | some .choice =>
        let body ← readItems files fuel scope [.otherwise, .endif] reader
        let (onTrue, last) ← body.closed [.otherwise, .endif] line
        if last.directive? = some (.closes .otherwise) then
          let second ← readItems files fuel scope [.endif] body.reader
          let (onFalse, _) ← second.closed [.endif] line
          let rest ← readItems files fuel scope closers second.reader
          return rest.prepend [.choice line onTrue onFalse]
        else
          let rest ← readItems files fuel scope closers body.reader
          return rest.prepend [.choice line onTrue []]

/-! ## Files -/

/-- Where files are looked for. -/
structure Library where
  files : FileAccess := ({} : FileSystem)
  /-- Searched in order after the directory of the including file. -/
  includeDirs : List String := []
  deriving Inhabited

namespace Library

/-- The path under which a file is found from a directory. -/
def find (lib : Library) (dir name : String) : Except Cause String :=
  match ((dir :: lib.includeDirs).map (Path.join · name)).find? lib.files.isFile with
  | some path => .ok path
  | none => .error (.fileNotFound name)

/-- How often inclusions can nest before they must go on for ever. -/
def maxNesting (lib : Library) : Nat :=
  (lib.files.places.length + 1) * (lib.files.places.length + 1) + 1

end Library

/-- The file name that an `INCLUDE` line gives, and whether with `ONCE`. -/
def includedName (scopes : Scopes) (line : Line) : Except Cause (Bool × String) := do
  let (once, name) ←
    match line.arguments with
    | some (.annotated word name) =>
      if Text.lower word == "once" then pure (true, name)
      else pure (false, .annotated word name)
    | some name => pure (false, name)
    | none => throw .missingFileName
  return (once, Text.ofBytes (← name.string scopes))

/-- The file name that an `INCBIN` line gives. -/
def embeddedName (scopes : Scopes) (line : Line) : Except Cause String := do
  match line.argumentList with
  | name :: _ => return Text.ofBytes (← name.string scopes)
  | [] => throw .missingFileName

/-- A failure while reading on behalf of a line, which gives it context if it has none. -/
def Load.tracedAt {α : Type} (line : Line) (load : Load α) : Load α :=
  EStateM.adaptExcept (·.at line.position none) load

/-- Reads a text into a scope. `dir` is the directory of its file. -/
def readItemsOf (files : FileStatements) (text : String) (file : Option String)
    (outer : List Site) (scope : ScopeId) : Load (List Item) := do
  let reader := Reader.ofText text file outer
  return (← readItems files (reader.remaining.length + 1) scope [] reader).items

/-- How the lines of a text refer to files, given its directory and how a file is read. -/
def Library.statements (lib : Library) (dir : String)
    (readFile : String → ScopeId → List Site → Load (List Item)) : FileStatements where
  splice line scope := Load.tracedAt line do
    let (once, name) ← Load.onBehalf line (includedName (← get).scopes line)
    let path ← Load.onBehalf line (lib.find dir name)
    let place ← Load.onBehalf line ((lib.files.canonicalize path).mapError (.unreadable · name))
    if once && (← get).loaded.contains place then return []
    else readFile path scope line.position.chain
  embedded line := do
    let name ← Load.onBehalf line (embeddedName (← get).scopes line)
    Load.onBehalf line (lib.find dir name)

/-- Reads a file into a scope and records that it was read. Inclusions may nest `nesting` deep. -/
def Library.readFile (lib : Library) : Nat → String → ScopeId → List Site → Load (List Item)
  | 0, path, _, _ => throw (Cause.includeTooDeep path).untraced
  | nesting + 1, path, scope, outer => do
    match lib.files.read path with
    | .error reason => throw (Cause.unreadable reason path).untraced
    | .ok bytes =>
      modify (·.remember (lib.files.canonicalize path))
      let files := lib.statements (Path.directory path) (lib.readFile nesting)
      readItemsOf files (Text.ofBytes bytes) (some path) outer scope

/-- Reads a text that is no file into a scope. -/
def Library.readText (lib : Library) (text : String) (scope : ScopeId) : Load (List Item) :=
  readItemsOf (lib.statements "" (lib.readFile lib.maxNesting)) text none [] scope

end Z80Asm
