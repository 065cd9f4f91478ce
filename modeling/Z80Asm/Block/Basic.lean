import Z80Asm.Line.Basic

/-!
# Blocks

Source is a list of items. Most are single lines; a block statement is one item together with the
lines of its body, of which the terminator is the last.

The body of a macro, a repetition or a procedure is read in the scope of the line that opens it.
Conditionals and sections open no scope: their bodies are read in the scope around them.
-/
set_option autoImplicit false

namespace Z80Asm

/-- Block statements with one body. -/
inductive BlockKind where
  /-- `MACRO`: a template that every invocation instantiates. -/
  | template
  /-- `REPT`: a template that is instantiated a number of times. -/
  | rept
  /-- `IRP`: a template that is instantiated once for each value. -/
  | irp
  /-- `PROC`: a scope of its own. -/
  | proc
  /-- `SECTION`: lines that are placed inside a `DS` space. -/
  | segment
  deriving DecidableEq, Repr, Inhabited

/-- What a line without a body means to its label. -/
inductive Role where
  /-- The label is the address of the line. -/
  | instruction
  /-- `EQU`: the label is the argument. -/
  | equ
  /-- `DS`: the label is a space that sections can be placed into. -/
  | space
  /-- `INCBIN` of the file at this path; the label is the address of the line. -/
  | incbin (path : String)
  deriving DecidableEq, Repr, Inhabited

inductive Item where
  | plain (line : Line) (role : Role)
  | block (line : Line) (kind : BlockKind) (body : List Item)
  /-- `IF` with its two bodies. The second is empty if there is no `ELSE`. -/
  | choice (line : Line) (onTrue onFalse : List Item)
  deriving Repr, Inhabited

namespace Item

/-- The line of a statement, or the one that opens a block. -/
def line : Item → Line
  | plain line _ => line
  | block line _ _ => line
  | choice line _ _ => line

/-- The item with its mnemonic understood. -/
def withOperation (op : Operation) : Item → Item
  | plain line role => plain { line with operation := some op } role
  | block line kind body => block { line with operation := some op } kind body
  | choice line onTrue onFalse => choice { line with operation := some op } onTrue onFalse

/-- The line of a block statement once its body stands behind it on its own. -/
def marker (item : Item) : Item :=
  plain item.line .instruction

end Item

/-- Items read into one scope. -/
structure Source where
  scope : ScopeId
  items : List Item
  deriving Repr, Inhabited

end Z80Asm
