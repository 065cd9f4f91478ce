import Z80Asm.Program.Labels

/-!
# Expanding blocks

Expansion replaces every item by the lines it stands for, with their mnemonics understood. A block
statement stays as a line without code in front of its lines, so that a label on it is the address
of the first of them.

* A macro invocation instantiates the template below a scope that binds the parameters. The body
  sees what is around the definition, up to what was bound when the invoking line was registered.
* `REPT` and `IRP` instantiate their body once for each value; iteration `i` is reached from
  outside as `label.i`.
* `IF` keeps one of its branches.
* `PROC` keeps its body, and `SECTION` sends it to a `DS` space.

Expansions nest at most `maxDepth` deep. The number of levels left is an argument.
-/
set_option autoImplicit false

namespace Z80Asm

/-- What a mnemonic stands for in a scope. -/
def Scopes.operation (s : Scopes) (scope : ScopeId) (mnemonic : String) :
    Except Cause Operation := do
  match s.symbol scope mnemonic with
  | .error _ => throw (.unknownInstruction mnemonic)
  | .ok value =>
    match ← value.resolve s with
    | .operation op => return op
    | _ => throw (.notInstruction mnemonic)

/-- The name of a repeat variable. -/
def variableName (e : Expr) : Except Cause String :=
  match e.name? with
  | some name => .ok name
  | none => .error (.invalidVariable e)

/-- The numbers `start`, `start + step`, ... of a repetition. -/
def repeatValues (count : Nat) (start step : Int64) : List Expr :=
  (List.range count).map fun i => .int (start + Int64.ofNat i * step)

/-- The variable and the values of a `REPT` line. -/
def reptValues (s : Scopes) (line : Line) : Except Cause (Option String × List Expr) := do
  let args := line.argumentList
  let some count := args[0]? | throw .missingCount
  let count ← count.integer s
  if count < 0 then throw (.negativeCount count)
  let var ← args[1]?.mapM variableName
  let start ← (args[2]?.map (·.integer s)).getD (.ok 0)
  let step ← (args[3]?.map (·.integer s)).getD (.ok 1)
  return (var, repeatValues count.toInt.toNat start step)

/-- The variable and the values of an `IRP` line. -/
def irpValues (line : Line) : Except Cause (Option String × List Expr) := do
  match line.argumentList with
  | [] => throw .missingVariable
  | var :: values => return (some (← variableName var), values)

/-- The space that a `SECTION` line names. -/
def segmentSpace (s : Scopes) (line : Line) : Except Cause SpaceId := do
  let some target := line.arguments | throw .missingSpace
  match ← target.resolve s with
  | .space id _ => return id
  | value => throw (.notSpace value)

namespace Assembly

/-- Expands items that are registered. -/
abbrev Expander := List Item → Assembly (List Item)

/-- Registers and expands an instance of a body. -/
def expandBody (expand : Expander) (items : List Item) : Assembly (List Item) := do
  register items
  expand items

/-- An instance of a body in a scope. -/
def instanceOf (line : Line) (template target : ScopeId) (body : List Item) :
    Assembly (List Item) := do
  let (items, scopes) := instantiate (← scopes) template target line.position body
  setScopes scopes
  return items

/-- Binds the parameters of a macro one after the other. -/
def bindParameters (scope : ScopeId) (args : List Expr) :
    List (String × Option Expr) → Assembly Unit
  | [] => return ()
  | (name, fallback) :: rest => do
    match args.head?.or fallback with
    | some value => addSymbol scope name value
    | none => fail (.missingArgument name)
    bindParameters scope args.tail rest

/-- The lines of a macro invocation. -/
def expandInvocation (expand : Expander) (line : Line) (template : Template) :
    Assembly (List Item) := do
  let args := line.argumentList
  if template.parameters.length < args.length then fail (.tooManyArguments template.name)
  let params ← createScope template.scope
  bindParameters params args template.parameters
  if let some mark := (← scopes).registeredAt? line.scope then
    setScopes ((← scopes).setHorizon params mark)
  let invocation ← createScope params
  setScopes ((← scopes).setBody line.scope invocation)
  expandBody expand (← instanceOf line template.scope invocation template.body)

/-- The lines of the iterations of a repetition, of which the first has the given number. -/
def expandIterations (expand : Expander) (line : Line) (var : Option String) (body : List Item) :
    Nat → List Expr → Assembly (List (List Item))
  | _, [] => return []
  | i, value :: rest => do
    let iteration ← createScope line.scope
    addSymbol line.scope (toString i) (.context iteration)
    if let some name := var then addSymbol iteration name value
    let lines ← expandBody expand (← instanceOf line line.scope iteration body)
    return lines :: (← expandIterations expand line var body (i + 1) rest)

/-- Sends lines to a `DS` space. -/
def park (space : SpaceId) (items : List Item) : Assembly Unit :=
  modify fun s => { s with spaces := s.spaces.modify space.index (· ++ items) }

/-- The lines that an item with a known mnemonic stands for. -/
def expandOperation (expand : Expander) (item : Item) : Operation → Assembly (List Item)
  | .invoke id => do
    match (← get).templates[id.index]? with
    | some template => return item :: (← expandInvocation expand item.line template)
    | none => return [item]
  | .rept =>
    match item with
    | .block line .rept body => do
      let (var, values) ← ofExcept (reptValues (← scopes) line)
      return item :: (← expandIterations expand line var body 0 values).flatten
    | _ => fail (.missingBody item.line.mnemonic)
  | .irp =>
    match item with
    | .block line .irp body => do
      let (var, values) ← ofExcept (irpValues line)
      return item :: (← expandIterations expand line var body 0 values).flatten
    | _ => fail (.missingBody item.line.mnemonic)
  | .choice =>
    match item with
    | .choice line onTrue onFalse => do
      let some cond := line.arguments | fail .missingCondition
      let branch := if (← ofExcept (cond.integer (← scopes))) != 0 then onTrue else onFalse
      return item.marker :: (← expandBody expand branch)
    | _ => fail (.missingBody item.line.mnemonic)
  | .proc =>
    match item with
    | .block _ .proc body => return item.marker :: (← expand body)
    | _ => fail (.missingBody item.line.mnemonic)
  | .segment =>
    match item with
    | .block line .segment body => do
      let space ← ofExcept (segmentSpace (← scopes) line)
      park space (item.marker :: (← expand body))
      return []
    | _ => fail (.missingBody item.line.mnemonic)
  | _ => return [item]

/-- The lines that an item stands for. `expand?` expands what is inside, unless expansions are
    nested too deep already. -/
def expandWith (expand? : Option Expander) (item : Item) : Assembly (List Item) :=
  match item.line.mnemonic with
  | none => return [item]
  | some mnemonic => traced item.line.position do
    let op ← ofExcept ((← scopes).operation item.line.scope mnemonic)
    match expand? with
    | none => fail (.expansionTooDeep mnemonic)
    | some expand => expandOperation expand (item.withOperation op) op

/-- Expands items, with `levels` left for expansions inside them. -/
def expandLevels : Nat → Expander
  | 0, items => do return (← items.mapM (expandWith none)).flatten
  | levels + 1, items => do
    return (← items.mapM (expandWith (some (expandLevels levels)))).flatten

/-- Expands items that are registered. -/
def expand : Expander :=
  expandLevels maxDepth

end Assembly

end Z80Asm
