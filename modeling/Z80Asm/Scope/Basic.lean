import Z80Asm.Error.Cause

/-!
# Scopes

Names live in scopes. All scopes of a session are held in one arena, refer to their parent by
number and are never removed. Every scope binds `$` to itself, and has a slot for an address that
is bound once.

Bindings are numbered in the order in which they are made. A scope may carry a *horizon*: a
lookup that leaves it for its parent sees only bindings made up to that number. It may also carry
a *body*, a second scope whose bindings count as its own when a name is looked up inside it.

The operations that can fail, binding a name and binding an address, work on an arena in place: they
check first and change it then, and nothing in their type keeps a failure from leaving a changed arena
behind. That it does not is a theorem (`Scopes.Action.Atomic`). `Scopes.add` and `Scopes.setAddress`
give the arena that such an operation leaves when it succeeds.
-/
set_option autoImplicit false

namespace Z80Asm

/-- A name, its value and its place in the order of all bindings. -/
structure Binding where
  name : String
  value : Expr
  serial : Nat
  deriving Repr, Inhabited

structure Scope where
  parent : Option ScopeId
  /-- Latest first; no name occurs twice. -/
  bindings : List Binding
  address : Option UInt32 := none
  /-- Searched after the scope's own bindings. -/
  body : Option ScopeId := none
  /-- Bindings with a higher serial are hidden from lookups that go outward from here. -/
  horizon : Option Nat := none
  /-- The number of bindings there were when the line that owns the scope was registered. -/
  registered : Option Nat := none
  deriving Repr, Inhabited

/-- The arena of scopes. -/
structure Scopes where
  nodes : Array Scope := #[]
  /-- The number of bindings made so far, `$` apart. -/
  serial : Nat := 0
  /-- The number of names bound to a name so far. It bounds how long a chain of names can be that
      does not come back to one of them. -/
  aliases : Nat := 0
  /-- The number of parenthesized expressions in all values bound so far. It bounds how often
      evaluation can step from one into another without coming back to the first. -/
  groups : Nat := 0
  deriving Repr, Inhabited

/-- The name that every scope binds to itself. -/
def selfName : String := "$"

/-- The value bound to a name here, unless the horizon hides it. -/
def Scope.find? (scope : Scope) (name : String) (horizon : Option Nat) : Option Expr :=
  match scope.bindings.find? (·.name == name) with
  | some binding => if horizon.all (binding.serial ≤ ·) then some binding.value else none
  | none => none

namespace Scopes

def size (s : Scopes) : Nat :=
  s.nodes.size

def get? (s : Scopes) (id : ScopeId) : Option Scope :=
  s.nodes[id.index]?

def modify (s : Scopes) (id : ScopeId) (f : Scope → Scope) : Scopes :=
  { s with nodes := s.nodes.modify id.index f }

def parent? (s : Scopes) (id : ScopeId) : Option ScopeId :=
  (s.get? id).bind Scope.parent

/-- The number of the scope that is created next. -/
def fresh (s : Scopes) : ScopeId :=
  ⟨s.size⟩

/-- Adds a scope that binds `$` to itself. -/
def create (s : Scopes) (parent : Option ScopeId) : ScopeId × Scopes :=
  let id := s.fresh
  let scope : Scope := { parent, bindings := [⟨selfName, .context id, 0⟩] }
  (id, { s with nodes := s.nodes.push scope })

/-- Work on an arena that can fail. A failure leaves the arena as far as it was changed until then. -/
abbrev Action := EStateM Cause Scopes

/-- The arena that an action leaves if it succeeds. -/
def Action.result {α : Type} (x : Action α) (s : Scopes) : Except Cause Scopes :=
  match x s with
  | .ok _ t => .ok t
  | .error cause _ => .error cause

/-- Counts a binding that is about to be made. -/
def count (s : Scopes) (value : Expr) : Scopes :=
  { s with
    serial := s.serial + 1
    aliases := s.aliases + value.aliasCount
    groups := s.groups + value.groupCount }

/-- Puts a binding with the latest number into a scope. -/
def attach (s : Scopes) (id : ScopeId) (name : String) (value : Expr) : Scopes :=
  let serial := s.serial
  s.modify id fun scope => { scope with bindings := ⟨name, value, serial⟩ :: scope.bindings }

/-- Binds a name that the scope does not bind yet. -/
def addSymbol (id : ScopeId) (name : String) (value : Expr) : Action Unit := do
  if name.isEmpty then throw .missingSymbolName
  else
    match (← get).get? id with
    | none => throw .noEnclosingScope
    | some scope =>
      if scope.bindings.any (·.name == name) then throw (.duplicateSymbol name)
      else
        set ((← get).count value)
        set ((← get).attach id name value)

/-- The arena with one more name. -/
def add (s : Scopes) (id : ScopeId) (name : String) (value : Expr) : Except Cause Scopes :=
  (addSymbol id name value).result s

def setBody (s : Scopes) (id body : ScopeId) : Scopes :=
  s.modify id fun scope => { scope with body := some body }

def setHorizon (s : Scopes) (id : ScopeId) (serial : Nat) : Scopes :=
  s.modify id fun scope => { scope with horizon := some serial }

/-- Records that the line owning a scope has been registered. -/
def markRegistered (s : Scopes) (id : ScopeId) : Scopes :=
  let serial := s.serial
  s.modify id fun scope => { scope with registered := some serial }

def registeredAt? (s : Scopes) (id : ScopeId) : Option Nat :=
  (s.get? id).bind Scope.registered

def address (s : Scopes) (id : ScopeId) : Except Cause UInt32 :=
  match (s.get? id).bind Scope.address with
  | some address => .ok address
  | none => .error .addressNotInitialized

/-- Binds the address of a scope that has none. -/
def bindAddress (id : ScopeId) (address : UInt32) : Action Unit := do
  match ((← get).get? id).bind Scope.address with
  | some bound => throw (.addressAlreadySet bound)
  | none => set ((← get).modify id fun scope => { scope with address := some address })

/-- The arena in which a scope has an address. -/
def setAddress (s : Scopes) (id : ScopeId) (address : UInt32) : Except Cause Scopes :=
  (bindAddress id address).result s

end Scopes

end Z80Asm
