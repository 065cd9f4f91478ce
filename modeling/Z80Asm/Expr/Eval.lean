import Z80Asm.Expr.Arithmetic
import Z80Asm.Scope.Lookup

/-!
# Evaluation

`Expr.resolve` follows names, members, positions and conditionals to the expression they stand
for; `Expr.integer` computes a number and is the only one to read addresses; `Expr.string` gives
the bytes of a string.

Both give up after `maxDepth` nested steps, so a definition that refers to itself is an error.
The number of steps that are left is an argument, and all recursion is on it.

Whether a bound value denotes a scope is found by resolving it, and that may look up further names.
Such a chain passes through a different name that is bound to a name at every link unless it is
circular, so the number of these bounds it (`scopeOf`). In the same way as many parentheses are
opened as there are (`unwrap`). A chain or a nest that is circular has no end to wait for:
evaluation answers with an error there, or with no scope.
-/
set_option autoImplicit false

namespace Z80Asm

/-- The index register with displacement that `left op right` denotes, if it does. The value of
    the right operand is only asked for where it matters. -/
def foldIndex (op : BinaryOp) (left right leftValue : Expr) (rightValue : Unit → Expr) :
    Option Expr :=
  let extend (reg : Cpu.Register) (offset : Expr) : Option Expr :=
    if (rightValue ()).isRegisterLike then none
    else some (.indexed reg (.binary op offset right))
  let fromRight : Option Expr :=
    match op, leftValue.isRegisterLike with
    | .add, false =>
      match rightValue () with
      | .register reg => if reg.isIndex then some (.indexed reg left) else none
      | _ => none
    | _, _ => none
  match leftValue with
  | .register reg => if reg.isIndex then extend reg (.int 0) else fromRight
  | .indexed reg offset => extend reg offset
  | _ => fromRight

/-- The element of a list or string at a position. Anything else has itself at position zero. -/
def elementAt (target : Expr) (position : Int64) : Except Cause Expr :=
  if position < 0 then .error (.indexOutOfRange position)
  else
    let i := position.toInt.toNat
    let found : Option Expr :=
      match target with
      | .seq items => items[i]?
      | .str bytes => bytes[i]?.map .chr
      | e => if i = 0 then some e else none
    match found with
    | some e => .ok e
    | none => .error (.indexOutOfRange position)

/-- Resolves what is inside a parenthesized expression, and again while the result is one. -/
def unwrap (resolve : Expr → Except Cause Expr) : Nat → Expr → Except Cause Expr
  | fuel, .group inner => do
    match fuel with
    | 0 => throw .recursiveReference
    | fuel + 1 => unwrap resolve fuel (← resolve inner)
  | _, e => .ok e

/-- What an expression stands for when parentheses around it do not count. -/
def resolveUngrouped (s : Scopes) (resolve : Expr → Except Cause Expr) (e : Expr) :
    Except Cause Expr := do
  match ← resolve e with
  | .group inner => unwrap resolve (s.groups + e.groupCount + 1) (.group inner)
  | value => return value

section

variable (s : Scopes) (scopeOf : Expr → Option ScopeId)

def symbolValue (scope : ScopeId) (name : String) : Except Cause Expr :=
  match s.symbol? scopeOf scope name with
  | some value => .ok value
  | none => .error (.symbolNotFound name)

def memberValue (scope : ScopeId) (name : String) : Except Cause Expr :=
  match s.member? scopeOf scope name with
  | some value => .ok value
  | none => .error (.symbolNotFound name)

mutual

/-- The expression that an expression stands for, with `steps` nested steps left. -/
def resolveAt : Nat → Expr → Except Cause Expr
  | 0, _ => .error .recursiveReference
  | steps + 1, .ident name scope => do
    resolveAt steps (← symbolValue s scopeOf scope name)
  | steps + 1, .member object name => do
    match (← resolveAt steps object).contextScope? with
    | none => throw (.memberOfValue name)
    | some scope => resolveAt steps (← memberValue s scopeOf scope name)
  | steps + 1, .index sequence position => do
    let position ← integerAt steps position
    let target ← resolveUngrouped s (resolveAt steps) sequence
    resolveAt steps (← elementAt target position)
  | steps + 1, .ifElse cond onTrue onFalse => do
    if (← integerAt steps cond) != 0 then resolveAt steps onTrue else resolveAt steps onFalse
  | steps + 1, .binary op left right => do
    if op = .add ∨ op = .sub then
      let leftValue ← resolveAt steps left
      let rightValue (_ : Unit) : Expr := (resolveAt steps right).toOption.getD right
      return (foldIndex op left right leftValue rightValue).getD (.binary op left right)
    else return .binary op left right
  | _ + 1, e => .ok e

/-- The number that an expression denotes, with `steps` nested steps left. -/
def integerAt : Nat → Expr → Except Cause Int64
  | 0, _ => .error .recursiveReference
  | _ + 1, .int value => .ok value
  | _ + 1, .chr byte => .ok (Int64.ofNat byte.toNat)
  | _ + 1, .str bytes =>
    match bytes.toList with
    | [byte] => .ok (Int64.ofNat byte.toNat)
    | _ => .error (.notInteger (.str bytes))
  | steps + 1, .ident name scope => do
    integerAt steps (← symbolValue s scopeOf scope name)
  | steps + 1, .unary op operand => do
    return op.apply (← integerAt steps operand)
  | steps + 1, .binary op left right => do
    let l ← integerAt steps left
    let r ← integerAt steps right
    op.apply l r
  | steps + 1, .ifElse cond onTrue onFalse => do
    if (← integerAt steps cond) != 0 then integerAt steps onTrue else integerAt steps onFalse
  | steps + 1, .group inner => integerAt steps inner
  | steps + 1, .member object name => do
    integerAt steps (← resolveAt steps (.member object name))
  | steps + 1, .index sequence position => do
    integerAt steps (← resolveAt steps (.index sequence position))
  | _ + 1, .context scope => do
    return Int64.ofNat (← s.address scope).toNat
  | _ + 1, .space _ scope => do
    return Int64.ofNat (← s.address scope).toNat
  | _ + 1, e => .error (.notInteger e)

end

end

/-- The scope that a bound value denotes, through at most `links` names. -/
def scopeThrough (s : Scopes) : Nat → Expr → Option ScopeId
  | links + 1, .ident name scope =>
    match resolveAt s (scopeThrough s links) (maxDepth + 1) (.ident name scope) with
    | .ok value => value.contextScope?
    | .error _ => none
  | _, e => e.contextScope?

/-- The scope that a bound value denotes. -/
def Scopes.scopeOf (s : Scopes) : Expr → Option ScopeId :=
  scopeThrough s (s.aliases + 1)

/-- The value of a name as seen from a scope. -/
def Scopes.symbol (s : Scopes) (scope : ScopeId) (name : String) : Except Cause Expr :=
  symbolValue s s.scopeOf scope name

/-- The value of a name inside a scope. -/
def Scopes.member (s : Scopes) (scope : ScopeId) (name : String) : Except Cause Expr :=
  memberValue s s.scopeOf scope name

namespace Expr

/-- The expression that an expression stands for. -/
def resolve (s : Scopes) (e : Expr) : Except Cause Expr :=
  resolveAt s s.scopeOf (maxDepth + 1) e

/-- The number that an expression denotes. -/
def integer (s : Scopes) (e : Expr) : Except Cause Int64 :=
  integerAt s s.scopeOf (maxDepth + 1) e

/-- The bytes of a string. -/
def string (s : Scopes) (e : Expr) : Except Cause (List UInt8) := do
  match ← resolveUngrouped s (resolve s) e with
  | .str bytes => return bytes
  | value => throw (.notString value)

/-- Whether an expression stands for a string without parentheses around it. -/
def isString (s : Scopes) (e : Expr) : Bool :=
  match e.resolve s with
  | .ok (.str _) => true
  | _ => false

/-- What an expression stands for, or the expression itself where that cannot be told. -/
def resolveOrSelf (s : Scopes) (e : Expr) : Expr :=
  (e.resolve s).toOption.getD e

end Expr

end Z80Asm
