import Z80Asm.Text
import Z80Asm.Cpu.Register
import Z80Asm.Expr.Operator

/-!
# Expressions

The argument of a statement, the value of a symbol and everything in between is an `Expr`.
Expressions are inert: a name carries the scope in which it was read and is looked up only when
a value is asked for, so an expression may mention symbols that are bound later.

* `Expr.display` is the text under which an expression appears in messages.
* `Expr.rename` moves every name into the scopes of a new instance of a block body.
* `Expr.elements` reads a comma list as a list.

Scopes, `DS` spaces and macro definitions are owned by an assembly session; expressions refer to
them by number.
-/
set_option autoImplicit false

namespace Z80Asm

open Cpu

/-- A scope of a session. -/
structure ScopeId where
  index : Nat
  deriving DecidableEq, Repr, Inhabited

/-- A `DS` region that sections can be placed into. -/
structure SpaceId where
  index : Nat
  deriving DecidableEq, Repr, Inhabited

/-- A macro definition of a session. -/
structure TemplateId where
  index : Nat
  deriving DecidableEq, Repr, Inhabited

/-- The units of the data directives `DB`, `DW` and `DD`. -/
inductive DataWidth where
  | byte | word | long
  deriving DecidableEq, Repr, Inhabited

def DataWidth.bytes : DataWidth → Nat
  | byte => 1 | word => 2 | long => 4

/-- Whether a diagnostic directive stops the assembly. -/
inductive Severity where
  | error | warning
  deriving DecidableEq, Repr, Inhabited

/-- What a mnemonic stands for. -/
inductive Operation where
  /-- A statement without code of its own: block terminators, `EQU`, `INCLUDE`, `END`, `MACRO`. -/
  | marker
  | data (width : DataWidth)
  | space
  | org
  | incbin
  | diagnostic (severity : Severity)
  | rept
  | irp
  | proc
  | choice
  | segment
  /-- An instruction of the processor. -/
  | machine (mnemonic : String)
  /-- The invocation of a macro. -/
  | invoke (template : TemplateId)
  deriving DecidableEq, Repr, Inhabited

/-- Bytes that are given one by one, as a string has them. -/
scoped instance coeToBytes : Coe (List UInt8) (Array UInt8) :=
  ⟨List.toArray⟩

/-- The bytes of a string one by one. -/
scoped instance coeBytes : Coe (Array UInt8) (List UInt8) :=
  ⟨Array.toList⟩

inductive Expr where
  | int (value : Int64)
  /-- A string. The number of its bytes is at hand without reading them. -/
  | str (bytes : Array UInt8)
  | chr (byte : UInt8)
  | ident (name : String) (scope : ScopeId)
  | unary (op : UnaryOp) (operand : Expr)
  | binary (op : BinaryOp) (left right : Expr)
  | ifElse (cond onTrue onFalse : Expr)
  /-- A comma list of at least two items. -/
  | seq (items : List Expr)
  | member (object : Expr) (name : String)
  | index (sequence position : Expr)
  /-- A parenthesized expression; as an operand it means memory. -/
  | group (inner : Expr)
  /-- A name in front of an expression, as in `VIRTUAL 100H` or `ONCE "file.asm"`. -/
  | annotated (word : String) (inner : Expr)
  | register (reg : Register)
  | condition (cond : Condition)
  /-- A scope as a value; its integer is the scope's address. -/
  | context (scope : ScopeId)
  /-- The label of a `DS` region: an address that accepts sections. -/
  | space (space : SpaceId) (scope : ScopeId)
  | operation (op : Operation)
  /-- An index register with a displacement. -/
  | indexed (reg : Register) (offset : Expr)
  deriving Repr, Inhabited

namespace Expr

/-! ## Parts -/

/-- The items of a comma list; any other expression is a list of one. -/
def elements : Expr → List Expr
  | seq items => items
  | e => [e]

def name? : Expr → Option String
  | ident name _ => some name
  | _ => none

/-- One for a name, and nothing for any other expression. -/
def aliasCount : Expr → Nat
  | ident _ _ => 1
  | _ => 0

/-- The scope that an expression is a value for. -/
def contextScope? : Expr → Option ScopeId
  | context scope => some scope
  | space _ scope => some scope
  | _ => none

/-- Expressions that denote a register, a condition or an indexed operand. They cannot be the
    displacement of an index register. -/
def isRegisterLike : Expr → Bool
  | register _ | condition _ | indexed _ _ => true
  | _ => false

/-! ## Display -/

/-- A byte inside a displayed string. -/
def displayByte (b : UInt8) : List Char :=
  if b == 0x22 then ['\\', '"']
  else if b == 0x5C then ['\\', '\\']
  else if 0x20 ≤ b && b ≤ 0x7E then [Char.ofUInt8 b]
  else '\\' :: 'x' :: Text.hexByte b

mutual

/-- The text of an expression in messages. -/
def display : Expr → String
  | int value => toString value.toInt
  | str bytes => String.ofList ('"' :: bytes.toList.flatMap displayByte ++ ['"'])
  | chr byte => String.ofList ['\'', Char.ofUInt8 byte, '\'']
  | ident name _ => name
  | unary op operand => op.symbol ++ operand.display
  | binary op left right => left.display ++ " " ++ op.symbol ++ " " ++ right.display
  | ifElse cond onTrue onFalse =>
    cond.display ++ " ? " ++ onTrue.display ++ " : " ++ onFalse.display
  | seq items => displayItems items
  | member object name => object.display ++ "." ++ name
  | index sequence position => sequence.display ++ "[" ++ position.display ++ "]"
  | group inner => "(" ++ inner.display ++ ")"
  | annotated word inner => word ++ " " ++ inner.display
  | register reg => reg.name
  | condition cond => cond.name
  | context _ => "<context>"
  | space _ _ => "<space>"
  | operation _ => "<instruction>"
  | indexed reg offset => reg.name ++ " + (" ++ offset.display ++ ")"

/-- The items of a comma list with `, ` between them. -/
def displayItems : List Expr → String
  | [] => ""
  | [e] => e.display
  | e :: rest => e.display ++ ", " ++ displayItems rest

end

/-! ## Scopes -/

mutual

/-- The expression with every scope in it replaced. -/
def rename (f : ScopeId → ScopeId) : Expr → Expr
  | ident name scope => ident name (f scope)
  | unary op operand => unary op (operand.rename f)
  | binary op left right => binary op (left.rename f) (right.rename f)
  | ifElse cond onTrue onFalse => ifElse (cond.rename f) (onTrue.rename f) (onFalse.rename f)
  | seq items => seq (renameItems f items)
  | member object name => member (object.rename f) name
  | index sequence position => index (sequence.rename f) (position.rename f)
  | group inner => group (inner.rename f)
  | annotated word inner => annotated word (inner.rename f)
  | context scope => context (f scope)
  | space id scope => space id (f scope)
  | indexed reg offset => indexed reg (offset.rename f)
  | int value => int value
  | str bytes => str bytes
  | chr byte => chr byte
  | register reg => register reg
  | condition cond => condition cond
  | operation op => operation op

def renameItems (f : ScopeId → ScopeId) : List Expr → List Expr
  | [] => []
  | e :: rest => e.rename f :: renameItems f rest

end

theorem renameItems_eq_map (f : ScopeId → ScopeId) (items : List Expr) :
    renameItems f items = items.map (rename f) := by
  induction items with
  | nil => rfl
  | cons e rest ih => simp [renameItems, ih]

/-! ## Size -/

mutual

/-- The number of parenthesized expressions in an expression. -/
def groupCount : Expr → Nat
  | unary _ operand => operand.groupCount
  | binary _ left right => left.groupCount + right.groupCount
  | ifElse cond onTrue onFalse => cond.groupCount + onTrue.groupCount + onFalse.groupCount
  | seq items => groupCountItems items
  | member object _ => object.groupCount
  | index sequence position => sequence.groupCount + position.groupCount
  | group inner => inner.groupCount + 1
  | annotated _ inner => inner.groupCount
  | indexed _ offset => offset.groupCount
  | int _ | str _ | chr _ | ident _ _ | register _ | condition _ | context _ | space _ _
  | operation _ => 0

def groupCountItems : List Expr → Nat
  | [] => 0
  | e :: rest => e.groupCount + groupCountItems rest

end

end Expr

end Z80Asm
