import Z80Asm.Error.Cause

/-!
# Building expressions

Expressions are built from tokens in source order by operator precedence. A `Builder` holds the
operands and operators that are still open, innermost first; `Builder.feed` takes one token and
`Builder.finish` closes the expression.

Brackets and a pending `?` are barriers: nothing inside them is combined past them. A token that
cannot stand where it is fails, and leaves the builder as it was when the failure showed.

| binds tighter | |
|---|---|
| `.` member, `[ ]` index | |
| unary `+ - ~ !` | right to left |
| `* / %`, then `+ -`, then `<< >>` | |
| `< <= > >=`, then `= !=` | |
| `&`, then `^`, then `\|`, then `&&`, then `\|\|` | |
| `? :` | right to left |
| annotation | right to left |
| `,` | |
-/
set_option autoImplicit false

namespace Z80Asm

/-- What an expression is built from. -/
inductive Token where
  | value (e : Expr)
  | unary (op : UnaryOp)
  | binary (op : BinaryOp)
  | member
  | comma
  /-- Stands between a name and the expression that it annotates. -/
  | annotate
  | question
  | colon
  | openGroup
  | closeGroup
  | openIndex
  | closeIndex
  deriving Repr, Inhabited

namespace Builder

/-- An operator waiting for its right operand. -/
inductive Pending where
  | unary (op : UnaryOp)
  | binary (op : BinaryOp)
  | member
  /-- A `?` whose `:` has not been read. -/
  | question
  /-- A `?` and its `:`, waiting for the last operand. -/
  | ternary
  | annotate
  | comma
  | bracket (b : Bracket)
  deriving DecidableEq, Repr, Inhabited

namespace Pending

/-- How tightly an operator binds. -/
def precedence : Pending → Int
  | member => 12
  | unary _ => 11
  | binary op =>
    match op with
    | .mul | .div | .mod => 10
    | .add | .sub => 9
    | .shl | .shr => 8
    | .lt | .le | .gt | .ge => 7
    | .eq | .ne => 6
    | .bitAnd => 5
    | .bitXor => 4
    | .bitOr => 3
    | .logicAnd => 2
    | .logicOr => 1
  | ternary | question => 0
  | annotate => -1
  | comma => -2
  | bracket _ => -3

/-- Operators of one precedence that combine from the right. -/
def rightAssociative : Pending → Bool
  | unary _ | ternary | question | annotate => true
  | _ => false

def isBarrier : Pending → Bool
  | bracket _ | question => true
  | _ => false

/-- Whether `top`, the innermost open operator, takes its operands before `next` comes. -/
def yieldsTo (top next : Pending) : Bool :=
  next.precedence < top.precedence || (top.precedence == next.precedence && !next.rightAssociative)

/-- Applies an operator to the innermost operands. On failure the operands it took are gone. -/
def combine : Pending → List Expr → EStateM.Result Cause (List Expr) Expr
  | unary op, e :: rest => .ok (.unary op e) rest
  | binary op, right :: left :: rest => .ok (.binary op left right) rest
  | member, .ident name _ :: object :: rest => .ok (.member object name) rest
  | member, _ :: _ :: rest => .error .memberNotName rest
  | ternary, onFalse :: onTrue :: cond :: rest => .ok (.ifElse cond onTrue onFalse) rest
  | annotate, e :: .ident name _ :: rest => .ok (.annotated name e) rest
  | annotate, _ :: _ :: rest => .error .annotationNotName rest
  | comma, right :: .seq items :: rest => .ok (.seq (items ++ [right])) rest
  | comma, right :: left :: rest => .ok (.seq [left, right]) rest
  | question, operands => .error .questionWithoutColon operands
  | bracket _, operands => .error .unbalancedBrackets operands
  | _, _ => .error .missingOperand []

end Pending

end Builder

/-- An expression under construction. -/
structure Builder where
  /-- Finished operands, innermost first. -/
  operands : List Expr := []
  /-- Open operators, innermost first. -/
  pending : List Builder.Pending := []
  /-- Whether the last token ended an operand. -/
  afterOperand : Bool := false
  deriving Repr, Inhabited

namespace Builder

/-- Work on a builder that keeps what was done when it fails. -/
abbrev Build := EStateM Cause Builder

def isEmpty (b : Builder) : Bool :=
  b.operands.isEmpty && b.pending.isEmpty

/-- Whether the next token has to begin an operand. -/
def expectsValue (b : Builder) : Bool :=
  !b.afterOperand

/-- Whether the expression cannot end here: an operator lacks its operand, or a bracket or a `?`
    is open. -/
def isIncomplete (b : Builder) : Bool :=
  !b.isEmpty && (!b.afterOperand || b.pending.any Pending.isBarrier)

/-- Combines the innermost operators as long as `p` holds of them and no barrier is met. -/
def reduceWhile (p : Pending → Bool) :
    List Pending → List Expr → EStateM.Result Cause (List Pending × List Expr) Unit
  | [], operands => .ok () ([], operands)
  | top :: pending, operands =>
    if top.isBarrier || !p top then .ok () (top :: pending, operands)
    else
      match top.combine operands with
      | .ok e rest => reduceWhile p pending (e :: rest)
      | .error cause rest => .error cause (pending, rest)

/-- `reduceWhile` on a builder. -/
def reduce (p : Pending → Bool) : Build Unit := fun b =>
  match reduceWhile p b.pending b.operands with
  | .ok _ (pending, operands) => .ok () { b with pending, operands }
  | .error cause (pending, operands) => .error cause { b with pending, operands }

/-- Fails unless an operand has just ended. -/
def requireOperand : Build Unit := do
  unless (← get).afterOperand do throw .missingOperand

/-- Fails if an operand has just ended. -/
def requireOperator : Build Unit := do
  if (← get).afterOperand then throw .operatorExpected

/-- Opens an operator that waits for an operand. -/
def push (p : Pending) : Build Unit :=
  modify fun b => { b with pending := p :: b.pending, afterOperand := false }

/-- An operator that follows an operand. -/
def pushInfix (next : Pending) : Build Unit := do
  requireOperand
  reduce (·.yieldsTo next)
  push next

/-- Takes the innermost operand. -/
def popOperand : Build Expr := do
  match (← get).operands with
  | e :: operands =>
    modify fun b => { b with operands }
    return e
  | [] => throw .missingOperand

/-- Combines back to the bracket that `b` closes and removes it. -/
def close (b : Bracket) : Build Unit := do
  requireOperand
  reduce fun _ => true
  match (← get).pending with
  | .bracket opened :: pending =>
    if opened = b then modify fun builder => { builder with pending }
    else throw (.unexpectedClose b)
  | .question :: _ => throw .questionWithoutColon
  | _ => throw (.unexpectedClose b)

def pushOperand (e : Expr) : Build Unit :=
  modify fun b => { b with operands := e :: b.operands }

/-- Takes the next token. -/
def feed : Token → Build Unit
  | .value e => do
    requireOperator
    modify fun b => { b with operands := e :: b.operands, afterOperand := true }
  | .unary op => do
    requireOperator
    push (.unary op)
  | .binary op => pushInfix (.binary op)
  | .member => pushInfix .member
  | .comma => pushInfix .comma
  | .annotate => pushInfix .annotate
  | .question => pushInfix .question
  | .colon => do
    requireOperand
    reduce fun _ => true
    match (← get).pending with
    | .question :: pending =>
      modify fun b => { b with pending := .ternary :: pending, afterOperand := false }
    | _ => throw .colonWithoutQuestion
  | .openGroup => do
    requireOperator
    push (.bracket .paren)
  | .closeGroup => do
    close .paren
    pushOperand (.group (← popOperand))
  | .openIndex => do
    requireOperand
    reduce fun top => Pending.member.precedence ≤ top.precedence
    push (.bracket .square)
  | .closeIndex => do
    close .square
    let position ← popOperand
    let sequence ← popOperand
    pushOperand (.index sequence position)

/-- The finished expression, or nothing if there were no tokens. -/
def finish (b : Builder) : Except Cause (Option Expr) :=
  if b.isEmpty then .ok none
  else if !b.afterOperand then .error .missingOperand
  else
    match reduceWhile (fun _ => true) b.pending b.operands with
    | .error cause _ => .error cause
    | .ok _ (.bracket opened :: _, _) => .error (.missingClose opened)
    | .ok _ (_ :: _, _) => .error .questionWithoutColon
    | .ok _ ([], []) => .error .missingOperand
    | .ok _ ([], [e]) => .ok (some e)
    | .ok _ ([], _) => .error .operatorExpected

end Builder

end Z80Asm
