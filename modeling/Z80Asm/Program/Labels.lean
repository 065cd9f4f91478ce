import Z80Asm.Program.Session

/-!
# Binding labels

A label is bound in the scope around its line. It stands for the address of the line, except that
`EQU` binds its argument, `DS` a new space and `MACRO` a template. Procedures and sections have
their bodies bound along; the bodies of templates and conditionals wait until they are expanded.
-/
set_option autoImplicit false

namespace Z80Asm

/-- A parameter of a macro, `name` or `name = default`. -/
def parameterOf : Expr → Except Cause (String × Option Expr)
  | .ident name _ => .ok (name, none)
  | .binary .eq (.ident name _) fallback => .ok (name, some fallback)
  | e => .error (.invalidParameter e)

namespace Item

/-- Whether a statement makes no sense without a label. -/
def requiresLabel : Item → Bool
  | plain _ .equ => true
  | block _ .template _ => true
  | _ => false

end Item

/-- Whether the body of a block is bound along with the lines around it. -/
def BlockKind.bindsBody : BlockKind → Bool
  | proc | segment => true
  | _ => false

namespace Assembly

/-- A new `DS` space. -/
def newSpace : Assembly SpaceId := do
  let id : SpaceId := ⟨(← get).spaces.size⟩
  modify fun s => { s with spaces := s.spaces.push [] }
  return id

/-- A new macro. -/
def newTemplate (template : Template) : Assembly TemplateId := do
  let id : TemplateId := ⟨(← get).templates.size⟩
  modify fun s => { s with templates := s.templates.push template }
  return id

/-- The value of an item's label. -/
def labelValue (label : String) : Item → Assembly Expr
  | .plain line .equ =>
    match line.arguments with
    | some value => return value
    | none => fail (.missingValue label)
  | .plain line .space => do
    return .space (← newSpace) line.scope
  | .block line .template body => do
    let parameters ← ofExcept (line.argumentList.mapM parameterOf)
    let id ← newTemplate { name := label, parameters, scope := line.scope, body }
    return .operation (.invoke id)
  | item => return .context item.line.scope

/-- Binds the label of an item and records that the item was registered. -/
def bindLabel (item : Item) : Assembly Unit := do
  match item.line.label with
  | some label =>
    let value ← labelValue label item
    match (← scopes).parent? item.line.scope with
    | some parent => addSymbol parent label value
    | none => fail .noEnclosingScope
  | none => if item.requiresLabel then fail (.missingLabel item.line.mnemonic)
  setScopes ((← scopes).markRegistered item.line.scope)

mutual

def registerItem : Item → Assembly Unit
  | .plain line role => traced line.position (bindLabel (.plain line role))
  | .choice line onTrue onFalse => traced line.position (bindLabel (.choice line onTrue onFalse))
  | .block line kind body => traced line.position do
    bindLabel (.block line kind body)
    if kind.bindsBody then register body

/-- Binds the labels of items in their order. -/
def register : List Item → Assembly Unit
  | [] => return ()
  | item :: rest => do
    registerItem item
    register rest

end

end Assembly

end Z80Asm
