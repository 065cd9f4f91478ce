import Z80Asm.Block.Copy
import Z80Asm.Block.Reader
import Z80Asm.Cpu.Form
import Z80Asm.Image.Basic

/-!
# Sessions

A session is everything that assembling keeps: the scopes, the files that were read, the macro
definitions, the lines that wait for a `DS` space, and the output. Its outermost scope holds the
predefined names: registers, conditions, directives and mnemonics.

A source goes through four phases, each a module of its own: its labels are bound, its blocks are
expanded into a flat list of lines, the lines are placed, and code is generated. Every phase is an
`Assembly`: it fails with a context, and keeps what was done until then.
-/
set_option autoImplicit false

namespace Z80Asm

/-- A macro: its parameters with their defaults and the body that each invocation instantiates. -/
structure Template where
  name : String
  parameters : List (String × Option Expr)
  /-- The scope in which the body was read. -/
  scope : ScopeId
  body : List Item
  deriving Repr, Inhabited

/-- The event that a `WARNING` statement raises. -/
structure Warning where
  file : Option String
  line : UInt32
  message : String
  deriving DecidableEq, Repr, Inhabited

/-- What generating code writes. -/
structure Output where
  image : Image := {}
  /-- Earliest first. -/
  warnings : List Warning := []
  deriving Inhabited

structure Session where
  library : Library := {}
  scopes : Scopes
  /-- The scope of the predefined names. -/
  builtins : ScopeId
  loaded : List FilePlace := []
  templates : Array Template := #[]
  /-- The lines that wait to be placed in each `DS` space. -/
  spaces : Array (List Item) := #[]
  output : Output := {}
  deriving Inhabited

/-! ## Predefined names -/

/-- The directives. -/
def directives : List (String × Operation) := [
  ("db", .data .byte), ("defb", .data .byte), ("dm", .data .byte), ("defm", .data .byte),
  ("dw", .data .word), ("defw", .data .word),
  ("dd", .data .long), ("defd", .data .long),
  ("ds", .space), ("defs", .space),
  ("org", .org), ("incbin", .incbin),
  ("error", .diagnostic .error), ("warning", .diagnostic .warning),
  ("macro", .marker),
  ("rept", .rept), ("irp", .irp), ("proc", .proc), ("if", .choice), ("section", .segment),
  ("equ", .marker), ("include", .marker), ("end", .marker), ("endm", .marker), ("endp", .marker),
  ("else", .marker), ("endif", .marker), ("ends", .marker)]

/-- A name in lower and upper case. -/
def spellings (name : String) : List String :=
  [name, Text.upper name]

/-- A mnemonic in lower and upper case, without and with a dot in front. -/
def dottedSpellings (name : String) : List String :=
  spellings name ++ (spellings name).map ("." ++ ·)

/-- The predefined names with their values, in the order in which they are bound. -/
def predefined : List (String × Expr) :=
  (Cpu.Register.all.flatMap fun reg => (spellings reg.name).map (·, .register reg)) ++
  (Cpu.Condition.named.flatMap fun cond => (spellings cond.name).map (·, .condition cond)) ++
  (directives.flatMap fun (name, op) => (dottedSpellings name).map (·, .operation op)) ++
  (Cpu.Form.mnemonics.flatMap fun name =>
    (dottedSpellings name).map (·, .operation (.machine name)))

/-- The arena that holds the predefined names and nothing else. -/
def predefinedScopes : Scopes :=
  let id : ScopeId := ⟨0⟩
  let own : Binding := ⟨selfName, .context id, 0⟩
  let bindings := predefined.zipIdx.map fun ((name, value), i) => (⟨name, value, i + 1⟩ : Binding)
  { nodes := #[{ parent := none, bindings := bindings.reverse ++ [own] }]
    serial := predefined.length }

/-- A session in which nothing has been read. -/
def Session.new (library : Library) : Session :=
  { library, scopes := predefinedScopes, builtins := ⟨0⟩ }

/-! ## Phases -/

/-- A phase of assembling. -/
abbrev Assembly := EStateM Failure Session

namespace Assembly

/-- Fails without a context; what is on the way out adds it. -/
def fail {α : Type} (cause : Cause) : Assembly α :=
  throw cause.untraced

/-- The outcome of work that changes nothing. -/
def ofExcept {α : Type} : Except Cause α → Assembly α
  | .ok a => pure a
  | .error cause => fail cause

/-- Gives failures that have no context yet a position. -/
def traced {α : Type} (position : Position) (x : Assembly α) : Assembly α :=
  EStateM.adaptExcept (·.at position none) x

def scopes : Assembly Scopes := do
  return (← get).scopes

def setScopes (scopes : Scopes) : Assembly Unit :=
  modify fun s => { s with scopes }

def createScope (parent : ScopeId) : Assembly ScopeId := do
  let (id, scopes) := (← get).scopes.create (some parent)
  setScopes scopes
  return id

/-- Work on the session's arena, which stays as far as it was changed when that fails. -/
def onScopes {α : Type} (x : Scopes.Action α) : Assembly α := fun session =>
  match x session.scopes with
  | .ok a scopes => .ok a { session with scopes }
  | .error cause scopes => .error cause.untraced { session with scopes }

def addSymbol (scope : ScopeId) (name : String) (value : Expr) : Assembly Unit :=
  onScopes (Scopes.addSymbol scope name value)

/-- Reads source with the session's scopes and files. -/
def load {α : Type} (x : Library → Load α) : Assembly α := fun session =>
  match x session.library { scopes := session.scopes, loaded := session.loaded } with
  | .ok a state => .ok a { session with scopes := state.scopes, loaded := state.loaded }
  | .error failure state =>
    .error failure { session with scopes := state.scopes, loaded := state.loaded }

/-- Reads source text into a new scope below the predefined names. -/
def loadText (text : String) : Assembly Source := do
  let scope ← createScope (← get).builtins
  return { scope, items := ← load fun library => library.readText text scope }

/-- Reads a source file into a new scope below the predefined names. -/
def loadFile (path : String) : Assembly Source := do
  let scope ← createScope (← get).builtins
  return { scope, items := ← load fun library => library.readFile library.maxNesting path scope [] }

end Assembly

end Z80Asm
