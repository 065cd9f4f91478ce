import Z80Asm.Program.Expansion
import Z80Asm.Program.Placement
import Z80Asm.Program.Generation
import Z80Asm.Scope.Listing

/-!
# Assembling a source

All phases in their order: labels are bound, blocks expanded, lines placed, code generated.
-/
set_option autoImplicit false

namespace Z80Asm.Assembly

/-- Assembles a source into the image of the session. -/
def assemble (source : Source) : Assembly Program := do
  register source.items
  let program ← resolve source.scope (← expand source.items)
  generate program
  return program

/-- The listing of the symbols of a scope. -/
def symbols (scope : ScopeId) : Assembly String := do
  return (← scopes).listing scope

/-- The warnings that have not been reported. They count as reported afterwards. -/
def takeWarnings : Assembly (List Warning) := do
  let warnings := (← get).output.warnings
  modify fun s => { s with output.warnings := [] }
  return warnings

end Z80Asm.Assembly
