import Z80Asm.Error.Position
import Z80Asm.Expr.Basic

/-!
# Lines

One logical line of source: an optional label, an optional statement with its arguments, and a
comment. Every line owns a scope, and the address of that scope is the address of the line.
-/
set_option autoImplicit false

namespace Z80Asm

structure Line where
  label : Option String
  mnemonic : Option String
  arguments : Option Expr
  comment : Option String
  position : Position
  scope : ScopeId
  /-- What the mnemonic stands for; known once the line has been expanded. -/
  operation : Option Operation := none
  deriving Repr, Inhabited

namespace Line

/-- The comma-separated arguments. -/
def argumentList (line : Line) : List Expr :=
  (line.arguments.map Expr.elements).getD []

/-- The mnemonic in the form in which directives are recognized. -/
def directiveKey? (line : Line) : Option String :=
  line.mnemonic.map Text.directiveKey

end Line

end Z80Asm
