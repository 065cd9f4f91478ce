import Z80Asm.Scope.Basic

/-!
# Looking names up

Inside one scope a name is found in three ways, in this order: as it stands; as `front.rest`,
where `front` is bound here to something that is a scope and `rest` is found inside that; and in
the scope's body. From a scope outward the same is tried in the scope itself and in each parent,
where the horizons of the scopes left behind hide later bindings.

Whether a bound value is a scope may itself take an evaluation, so the lookups are given
`scopeOf`, which answers that.
-/
set_option autoImplicit false

namespace Z80Asm

/-- The number of indirections after which evaluation gives up. -/
def maxDepth : Nat := 256

/-- The splits of `back` at a dot with text on both sides, given the text before `back`, back to
    front. -/
def dotSplitsFrom (front : List Char) : List Char → List (List Char × List Char)
  | [] => []
  | c :: back =>
    let later := dotSplitsFrom (c :: front) back
    if c == '.' && !front.isEmpty && !back.isEmpty then (front.reverse, back) :: later else later

/-- The ways to read a name as `front.rest`, shortest front first. -/
def dotSplits (name : String) : List (String × String) :=
  (dotSplitsFrom [] name.toList).map fun (front, rest) => (String.ofList front, String.ofList rest)

/-- The stricter of two horizons. -/
def nearerHorizon : Option Nat → Option Nat → Option Nat
  | some a, some b => some (min a b)
  | some a, none => some a
  | none, b => b

namespace Scopes

/-- The value of a name inside one scope. `levels` bounds the dots and bodies that are followed;
    the horizon only concerns what is bound in the first scope. -/
def lookupInside (s : Scopes) (scopeOf : Expr → Option ScopeId) :
    Nat → ScopeId → String → Option Nat → Option Expr
  | 0, _, _, _ => none
  | levels + 1, id, name, horizon =>
    match s.get? id with
    | none => none
    | some scope =>
      let dotted : String × String → Option Expr := fun (front, rest) =>
        ((scope.find? front horizon).bind scopeOf).bind fun inner =>
          lookupInside s scopeOf levels inner rest none
      (scope.find? name horizon)
        <|> (dotSplits name).findSome? dotted
        <|> scope.body.bind fun body => lookupInside s scopeOf levels body name none

/-- A scope and those around it, each with the horizon that applies there. -/
def outward (s : Scopes) : Nat → ScopeId → Option Nat → List (ScopeId × Option Nat)
  | 0, _, _ => []
  | fuel + 1, id, horizon =>
    match s.get? id with
    | none => []
    | some scope =>
      (id, horizon) ::
        match scope.parent with
        | none => []
        | some parent => outward s fuel parent (nearerHorizon horizon scope.horizon)

/-- The value of a name inside one scope, without its parents. -/
def member? (s : Scopes) (scopeOf : Expr → Option ScopeId) (id : ScopeId) (name : String) :
    Option Expr :=
  s.lookupInside scopeOf (maxDepth + 1) id name none

/-- The value of a name as seen from a scope. -/
def symbol? (s : Scopes) (scopeOf : Expr → Option ScopeId) (id : ScopeId) (name : String) :
    Option Expr :=
  (s.outward s.size id none).findSome? fun (id, horizon) =>
    s.lookupInside scopeOf (maxDepth + 1) id name horizon

end Scopes

end Z80Asm
