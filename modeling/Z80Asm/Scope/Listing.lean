import Z80Asm.Expr.Eval

/-!
# The symbol listing

Every symbol that can be reached from a scope and has a number, one to a line, in a form that
source text can hold. The bindings of a scope and of its body are listed together in the order of
their names, and each binding to a scope is followed by the symbols inside that, under a longer
name.
-/
set_option autoImplicit false

namespace Z80Asm.Scopes

/-- The bindings of a scope and of its body, by name. Of two bindings of one name the scope's own
    comes first. -/
def listed (s : Scopes) (id : ScopeId) : List Binding :=
  let own := ((s.get? id).map Scope.bindings).getD []
  let body := (((s.get? id).bind Scope.body).bind s.get?).map Scope.bindings
  ((own ++ body.getD []).mergeSort fun a b => a.name ≤ b.name).filter (·.name != selfName)

/-- A line of the listing. -/
def listingLine (name : String) (value : Int64) : String :=
  name ++ ": equ " ++ Text.hexLiteral value ++ "\n"

/-- The lines for a scope whose symbols are reached under `path`. -/
def listingFrom (s : Scopes) : Nat → ScopeId → String → List String
  | 0, _, _ => []
  | levels + 1, id, path =>
    (s.listed id).flatMap fun binding =>
      let name := path ++ binding.name
      let line :=
        match binding.value.integer s with
        | .ok value => [listingLine name value]
        | .error _ => []
      let inside :=
        match binding.value with
        | .context inner => if inner = id then [] else listingFrom s levels inner (name ++ ".")
        | _ => []
      line ++ inside

/-- The symbol listing of a scope. -/
def listing (s : Scopes) (id : ScopeId) : String :=
  String.join (s.listingFrom (maxDepth + 1) id "")

end Z80Asm.Scopes
