import Z80Asm.Block.Basic
import Z80Asm.Scope.Basic

/-!
# Instances of a body

Instantiating a body copies its items. Every line gets a scope of its own, below the image of the
scope in which it was read, and the names in its arguments move along. The map grows as
lines are copied, so that the bodies of nested blocks follow their opening lines.
-/
set_option autoImplicit false

namespace Z80Asm

/-- Which scope stands for which, latest first. A scope that is not mentioned stays. -/
abbrev ScopeMap := List (ScopeId × ScopeId)

def ScopeMap.apply (images : ScopeMap) (id : ScopeId) : ScopeId :=
  (images.lookup id).getD id

/-- What copying changes: the map so far, and the arena in which the new scopes are. -/
structure Copying where
  images : ScopeMap
  scopes : Scopes
  deriving Repr, Inhabited

/-- Copies a line into a new scope as part of an expansion that `site` asked for. -/
def Line.copy (site : Position) (line : Line) : StateM Copying Line := do
  let state ← get
  let parent := (state.scopes.parent? line.scope).map state.images.apply
  let (scope, scopes) := state.scopes.create parent
  let images : ScopeMap := (line.scope, scope) :: state.images
  set ({ images, scopes } : Copying)
  return { line with
    arguments := line.arguments.map (·.rename images.apply)
    position := line.position.expandedFrom site
    scope
    operation := none }

mutual

def Item.copy (site : Position) : Item → StateM Copying Item
  | .plain line role => do
    let line ← line.copy site
    return .plain line role
  | .block line kind body => do
    let line ← line.copy site
    return .block line kind (← copyItems site body)
  | .choice line onTrue onFalse => do
    let line ← line.copy site
    let onTrue ← copyItems site onTrue
    return .choice line onTrue (← copyItems site onFalse)

/-- Copies items in order. -/
def copyItems (site : Position) : List Item → StateM Copying (List Item)
  | [] => return []
  | item :: rest => do
    let item ← item.copy site
    return item :: (← copyItems site rest)

end

/-- An instance of a body that was read in the scope `template`, in the scope `target`. -/
def instantiate (scopes : Scopes) (template target : ScopeId) (site : Position)
    (body : List Item) : List Item × Scopes :=
  let (items, state) := (copyItems site body).run { images := [(template, target)], scopes }
  (items, state.scopes)

end Z80Asm
