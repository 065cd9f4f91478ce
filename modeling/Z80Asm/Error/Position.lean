/-!
# Positions

Where a statement stands: its own site and, when it was read through an `INCLUDE` or produced by
an expansion, the sites that led to it, innermost first. Lines are numbered with 32 bits: in a text
of 2^32 lines or more the numbers start again.
-/
set_option autoImplicit false

namespace Z80Asm

/-- The number that a line number is. -/
scoped instance coeLineNumber : Coe UInt32 Nat :=
  ⟨UInt32.toNat⟩

/-- The line number for a number. -/
scoped instance coeToLineNumber : Coe Nat UInt32 :=
  ⟨UInt32.ofNat⟩

/-- A logical line of a source. -/
structure Site where
  file : Option String
  line : UInt32
  text : String
  deriving DecidableEq, Repr, Inhabited

/-- A site and the sites of the statements that caused it to be read or expanded. -/
structure Position where
  here : Site
  outer : List Site
  deriving DecidableEq, Repr, Inhabited

namespace Position

/-- The sites of a position, innermost first. -/
def chain (p : Position) : List Site :=
  p.here :: p.outer

/-- The same statement as an instance that `site` asked for. What led to the statement's own
    text is replaced by what led to `site`. -/
def expandedFrom (p site : Position) : Position :=
  { p with outer := site.chain }

end Position

end Z80Asm
