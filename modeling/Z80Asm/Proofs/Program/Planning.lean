import Z80Asm.Program.Entry
import Z80Asm.Proofs.Expr.Termination

/-!
# When planning ends

To plan a line, its arguments are evaluated as far as its size depends on them: the items of a data
statement, to tell strings from numbers; the operands of an instruction, for their shape; the
numbers of `ORG`, `DS` and `INCBIN`; and the label of a `DS` line is looked up for the space that is
bound to it. `Asking.plan` is planning with these evaluations as they are without bounds. It ends
unless it is circular, and then with the plan that `Item.plan` gives (`terminates_plan`).

The text of an error is not part of this: where there is no plan, `Asking.plan` gives none, and does
not say why.
-/
set_option autoImplicit false

namespace Z80Asm

open Asking

/-! ## Planning without bounds -/

namespace Asking

/-- What a name or a number stands for, or the expression itself where that cannot be told. -/
def resolveOrSelf (s : Scopes) (e : Expr) : Asking Expr := do
  return (← attempt (resolveAt s (maxDepth + 1) e)).getD e

/-- The number of bytes that an item takes, given what it stands for. -/
def sizeOf (width : DataWidth) : Option Expr → UInt32
  | some (.str bytes) => UInt32.ofNat (if width = .byte then bytes.size else width.bytes)
  | _ => UInt32.ofNat width.bytes

def dataSize (width : DataWidth) (s : Scopes) : List Expr → Asking UInt32
  | [] => return 0
  | e :: rest => do
    let size := sizeOf width (← attempt (resolveAt s (maxDepth + 1) e))
    return size + (← dataSize width s rest)

def classify (s : Scopes) (e : Expr) : Asking Cpu.Operand := do
  match ← resolveOrSelf s e with
  | .register register => return .reg register
  | .condition condition => return .cond condition
  | .group inner => return .ofGroup inner (← resolveOrSelf s inner)
  | _ => return .immediate e

def operands (s : Scopes) : List Expr → Asking (List Cpu.Operand)
  | [] => return []
  | e :: rest => do return (← classify s e) :: (← operands s rest)

/-- The space of a line, given what its label is bound to. -/
def spaceFor (line : Line) : Option Expr → Option SpaceId
  | some (.space id scope) => if scope = line.scope then some id else none
  | _ => none

def spaceOf (s : Scopes) (line : Line) : Asking (Option SpaceId) :=
  match line.label, s.parent? line.scope with
  | some label, some parent => do
    return spaceFor line (← attempt (memberBy s scopeOf parent label))
  | _, _ => return none

def planSpace (s : Scopes) (line : Line) : Asking Plan := do
  let (isVirtual, size) ← (spaceSize? line.argumentList).getM
  let count ← numberAt s (maxDepth + 1) size
  let size ← (below? (addressSpace.toNat + 1) count).getM
  return .space { size, isVirtual, fill := line.argumentList[1]? } (← spaceOf s line)

def planOrg (s : Scopes) (line : Line) : Asking Code := do
  let value ← numberAt s (maxDepth + 1) (← line.arguments.getM)
  return .org (← (below? addressSpace.toNat value).getM)

/-- The number of an argument that may be left out. -/
def numberOr (s : Scopes) (default : Int64) : Option Expr → Asking Int64
  | some e => numberAt s (maxDepth + 1) e
  | none => return default

def planIncbin (files : FileAccess) (s : Scopes) (line : Line) (path : String) : Asking Code := do
  let bytes ← (files.read path).toOption.getM
  let offset ← numberOr s 0 line.argumentList[1]?
  let length ← numberOr s (Int64.ofNat bytes.length - offset) line.argumentList[2]?
  return .binary (← (part? bytes offset length).getM)

/-- What an expanded item contributes. -/
def plan (files : FileAccess) (s : Scopes) (item : Item) : Asking Plan :=
  let line := item.line
  match line.operation with
  | some (.data width) => do
    return .code (.data width line.argumentList (← dataSize width s line.argumentList))
  | some .space => planSpace s line
  | some .org => do return .code (← planOrg s line)
  | some .incbin =>
    match item with
    | .plain _ (.incbin path) => do return .code (← planIncbin files s line path)
    | _ => failure
  | some (.diagnostic severity) =>
    if severity = .warning ∧ line.arguments.isNone then return .code .empty
    else return .code (.diagnostic severity line.arguments)
  | some (.machine mnemonic) => do
    let operands ← operands s line.argumentList
    return .code (.machine (← (Cpu.Instruction.select mnemonic line.arguments operands).toOption.getM))
  | _ => return .code .empty

end Asking

/-! ## Agreement with planning -/

theorem enclosed_of_spaceSize? {args : List Expr} {isVirtual : Bool} {size : Expr}
    (h : spaceSize? args = some (isVirtual, size)) : size.enclosed ⊆ Expr.enclosedItems args := by
  unfold spaceSize? at h
  split at h
  · cases h
  · split at h
    · cases h
      exact List.subset_append_left _ _
    · cases h
      exact List.subset_append_left _ _
  · cases h
    exact List.subset_append_left _ _

/-- The parentheses of a line's arguments are those of the whole argument. -/
theorem enclosedItems_argumentList {line : Line} {arguments : Expr}
    (h : line.arguments = some arguments) :
    Expr.enclosedItems line.argumentList = arguments.enclosed := by
  rw [Line.argumentList, h]
  cases arguments with
  | seq items => rfl
  | _ => exact List.append_nil _

section

variable {s : Scopes} {e e' : Expr} (hs : s.Counted)

include hs

theorem mirrors_resolveOrSelf (he : e'.enclosed ⊆ s.parts e) :
    Mirrors s e (·.enclosed ⊆ s.parts e) (Asking.resolveOrSelf s e') (some (e'.resolveOrSelf s)) := by
  refine (mirrors_resolve hs he).attempt.bind (g := fun o => some (o.getD e')) fun o ho => ?_
  refine mirrors_pure ?_
  cases o with
  | none => exact he
  | some v => exact ho v rfl

theorem mirrors_dataSize (width : DataWidth) {items : List Expr}
    (hitems : ∀ item ∈ items, item.enclosed ⊆ s.parts e) :
    Mirrors s e (fun _ => True) (Asking.dataSize width s items)
      (some (items.foldr (fun item size => width.itemSize s item + size) 0)) := by
  induction items with
  | nil => exact mirrors_pure trivial
  | cons item rest ih =>
    have hrest := ih fun item hitem => hitems item (List.mem_cons_of_mem _ hitem)
    have hsize : width.itemSize s item = Asking.sizeOf width (item.resolve s).toOption := by
      unfold DataWidth.itemSize
      cases item.resolve s with
      | error cause => cases width <;> rfl
      | ok value => cases value <;> cases width <;> rfl
    rw [List.foldr_cons, hsize]
    refine (mirrors_resolve hs (hitems item List.mem_cons_self)).attempt.bind
      (g := fun o => some (Asking.sizeOf width o + _)) fun o _ => ?_
    exact hrest.bind fun _ _ => mirrors_pure trivial

theorem mirrors_classify (he : e'.enclosed ⊆ s.parts e) :
    Mirrors s e (fun _ => True) (Asking.classify s e') (some (Cpu.Operand.classify s e')) := by
  let operandFor : Expr → Cpu.Operand
    | .register register => .reg register
    | .condition condition => .cond condition
    | .group inner => .ofGroup inner (inner.resolveOrSelf s)
    | _ => .immediate e'
  refine (mirrors_resolveOrSelf hs he).bind (g := fun value => some (operandFor value))
    fun value hvalue => ?_
  cases value with
  | group inner =>
    have hinner := Scopes.parts_closed (List.cons_subset.mp hvalue).1
    exact (mirrors_resolveOrSelf hs hinner).bind fun _ _ => mirrors_pure trivial
  | _ => exact mirrors_pure trivial

theorem mirrors_operands {args : List Expr} (hargs : ∀ arg ∈ args, arg.enclosed ⊆ s.parts e) :
    Mirrors s e (fun _ => True) (Asking.operands s args)
      (some (args.map (Cpu.Operand.classify s))) := by
  induction args with
  | nil => exact mirrors_pure trivial
  | cons arg rest ih =>
    have hrest := ih fun arg harg => hargs arg (List.mem_cons_of_mem _ harg)
    exact (mirrors_classify hs (hargs arg List.mem_cons_self)).bind fun _ _ =>
      hrest.bind fun _ _ => mirrors_pure trivial

omit hs in
theorem spaceOf?_eq_spaceFor {line : Line} {label : String} {parent : ScopeId}
    (hlabel : line.label = some label) (hparent : s.parent? line.scope = some parent) :
    spaceOf? s line = Asking.spaceFor line (s.member parent label).toOption := by
  unfold spaceOf?
  rw [hlabel, hparent]
  simp only [Option.bind_eq_bind, Option.bind_some]
  cases s.member parent label with
  | error cause => rfl
  | ok value => cases value <;> rfl

theorem mirrors_spaceOf (line : Line) :
    Mirrors s e (fun _ => True) (Asking.spaceOf s line) (some (spaceOf? s line)) := by
  cases hlabel : line.label with
  | none =>
    unfold Asking.spaceOf spaceOf?
    rw [hlabel]
    exact mirrors_pure trivial
  | some label =>
    cases hparent : s.parent? line.scope with
    | none =>
      unfold Asking.spaceOf spaceOf?
      rw [hlabel, hparent]
      exact mirrors_pure trivial
    | some parent =>
      rw [spaceOf?_eq_spaceFor hlabel hparent]
      unfold Asking.spaceOf
      rw [hlabel, hparent]
      exact (mirrors_member hs parent label).attempt.bind fun _ _ => mirrors_pure trivial

theorem mirrors_planSpace {line : Line}
    (hargs : Expr.enclosedItems line.argumentList ⊆ s.parts e) :
    Mirrors s e (fun _ => True) (Asking.planSpace s line) (planSpace s line).toOption := by
  unfold Asking.planSpace planSpace
  cases hsize : spaceSize? line.argumentList with
  | none =>
    simp only [hsize]
    exact mirrors_failure
  | some size =>
    obtain ⟨isVirtual, size⟩ := size
    simp only [hsize]
    have hpart := List.Subset.trans (enclosed_of_spaceSize? hsize) hargs
    show Mirrors s e _ (numberAt s (maxDepth + 1) size >>= _) _
    simp only [toOption_bind]
    refine (mirrors_number hs hpart).bind fun count _ => ?_
    cases below? (addressSpace.toNat + 1) count with
    | none => exact mirrors_failure
    | some size => exact (mirrors_spaceOf hs line).bind fun _ _ => mirrors_pure trivial

theorem mirrors_planOrg {line : Line} (hargs : ∀ arg ∈ line.arguments, arg.enclosed ⊆ s.parts e) :
    Mirrors s e (fun _ => True) (Asking.planOrg s line) (planOrg s line).toOption := by
  unfold Asking.planOrg planOrg
  cases htarget : line.arguments with
  | none => exact mirrors_failure
  | some target =>
    show Mirrors s e _ (numberAt s (maxDepth + 1) target >>= _) _
    simp only [toOption_bind]
    refine (mirrors_number hs (hargs target htarget)).bind fun value _ => ?_
    cases below? addressSpace.toNat value with
    | none => exact mirrors_failure
    | some address => exact mirrors_pure trivial

theorem mirrors_numberOr (default : Int64) {arg : Option Expr}
    (harg : ∀ e' : Expr, e' ∈ arg → e'.enclosed ⊆ s.parts e) :
    Mirrors s e (fun _ => True) (Asking.numberOr s default arg)
      ((arg.map (Expr.integer s)).getD (.ok default)).toOption := by
  cases arg with
  | none => exact mirrors_pure trivial
  | some e' => exact mirrors_number hs (harg e' rfl)

theorem mirrors_planIncbin {line : Line} (files : FileAccess) (path : String)
    (hargs : ∀ arg ∈ line.argumentList, arg.enclosed ⊆ s.parts e) :
    Mirrors s e (fun _ => True) (Asking.planIncbin files s line path)
      (planIncbin files s line path).toOption := by
  have harg : ∀ (i : Nat) (arg : Expr), arg ∈ line.argumentList[i]? → arg.enclosed ⊆ s.parts e :=
    fun i arg h => hargs arg (List.mem_of_getElem? h)
  unfold Asking.planIncbin planIncbin
  cases files.read path with
  | error reason => exact mirrors_failure
  | ok bytes =>
    show Mirrors s e _ (Asking.numberOr s 0 line.argumentList[1]? >>= _) (Except.toOption (_ >>= _))
    simp only [toOption_bind]
    refine (mirrors_numberOr hs 0 (harg 1)).bind fun offset _ => ?_
    refine (mirrors_numberOr hs _ (harg 2)).bind fun length _ => ?_
    cases part? bytes offset length with
    | none => exact mirrors_failure
    | some part => exact mirrors_pure trivial

theorem mirrors_plan (files : FileAccess) (item : Item) :
    ∃ e, Mirrors s e (fun _ => True) (Asking.plan files s item) (item.plan files s).toOption := by
  refine ⟨.seq item.line.argumentList, ?_⟩
  have hitems : Expr.enclosedItems item.line.argumentList ⊆ s.parts (.seq item.line.argumentList) :=
    List.subset_append_left _ _
  have hargs : ∀ arg ∈ item.line.argumentList,
      arg.enclosed ⊆ s.parts (.seq item.line.argumentList) := fun arg harg =>
    List.Subset.trans (Expr.enclosed_subset_items harg) hitems
  unfold Asking.plan Item.plan
  cases hop : item.line.operation with
  | none =>
    simp only [hop]
    exact mirrors_pure trivial
  | some op =>
    simp only [hop]
    cases op with
    | data width =>
      exact (mirrors_dataSize hs width hargs).bind fun _ _ => mirrors_pure trivial
    | space => exact mirrors_planSpace hs hitems
    | org =>
      rw [toOption_bind]
      refine (mirrors_planOrg hs fun arg harg => ?_).bind fun _ _ => mirrors_pure trivial
      rw [← enclosedItems_argumentList harg]
      exact hitems
    | incbin =>
      -- Only a line that names a file has a plan, and reading gives a line that role.
      cases item with
      | plain line role =>
        cases role with
        | incbin path =>
          dsimp only
          rw [toOption_bind]
          exact (mirrors_planIncbin hs files _ hargs).bind fun _ _ => mirrors_pure trivial
        | _ => exact mirrors_failure
      | _ => exact mirrors_failure
    | diagnostic severity =>
      dsimp only
      split
      · exact mirrors_pure trivial
      · exact mirrors_pure trivial
    | machine mnemonic =>
      rw [toOption_bind]
      exact (mirrors_operands hs hargs).bind fun _ _ =>
        (mirrors_getM fun _ _ => trivial).bind fun _ _ => mirrors_pure trivial
    | _ => exact mirrors_pure trivial

/-- **Planning ends unless it is circular**, and then with the plan that there is with bounds. -/
theorem terminates_plan (files : FileAccess) (item : Item) :
    Terminates s (Asking.plan files s item).run (item.plan files s) := by
  obtain ⟨e, hplan⟩ := mirrors_plan hs files item
  exact hplan.terminates

end

/-! ## Planning without a question -/

/-- An inquiry that comes to an end without an evaluation. -/
def Quiet {α : Type} (x : Asking α) : Prop :=
  ∃ r, x.Outright r

section

variable {α β : Type} {x : Asking α}

theorem Quiet.ends (h : Quiet x) (s : Scopes) : ∃ r, Ends s x.run r :=
  h.imp fun _ => .of_outright

theorem quiet_getM (o : Option α) : Quiet o.getM :=
  ⟨o, Inquiry.outright_getM o⟩

theorem quiet_pure (a : α) : Quiet (pure a) :=
  quiet_getM (some a)

theorem Quiet.after {f : α → Asking β} {a : α} (hx : x.Outright (some a)) (hf : Quiet (f a)) :
    Quiet (x >>= f) :=
  hf.imp fun _ => hx.bind_some

theorem Quiet.bind {f : α → Asking β} (hx : Quiet x) (hf : ∀ a, Quiet (f a)) : Quiet (x >>= f) := by
  obtain ⟨r, hr⟩ := hx
  cases r with
  | none => exact ⟨none, hr.bind_none f⟩
  | some a => exact .after hr (hf a)

theorem Quiet.orElse {x' : Asking α} (hx : Quiet x) (hx' : Quiet x') : Quiet (x <|> x') := by
  obtain ⟨r, hr⟩ := hx
  cases r with
  | none =>
    obtain ⟨r, hr'⟩ := hx'
    exact ⟨r, hr.orElse_of_none hr'⟩
  | some a => exact ⟨some a, hr.orElse_of_some x'⟩

theorem Quiet.attempt (hx : Quiet x) : Quiet (Asking.attempt x) := by
  obtain ⟨r, hr⟩ := hx
  refine ⟨some r, fun known => ?_⟩
  change Dialogue.settle known (x.run >>= fun o => Dialogue.done (some o)) = _
  rw [Dialogue.settle_bind, hr known]
  rfl

end

/-- A name without dots is looked up without an evaluation. -/
theorem quiet_insideBy {s : Scopes} {name : String} (hname : dotSplits name = []) (levels : Nat)
    (id : ScopeId) (horizon : Option Nat) : Quiet (insideBy s scopeOf levels id name horizon) := by
  induction levels generalizing id horizon with
  | zero => exact quiet_getM none
  | succ levels ih =>
    rw [insideBy]
    cases s.get? id with
    | none => exact quiet_getM none
    | some scope =>
      simp only [hname]
      exact (quiet_getM _).orElse ((quiet_getM none).orElse ((quiet_getM _).bind fun body => ih body _))

/-- So is a `DS` line with a number of bytes and such a label planned. -/
theorem quiet_plan_space {files : FileAccess} {s : Scopes} {item : Item} {count : Int64}
    (hop : item.line.operation = some .space) (hargs : item.line.argumentList = [.int count])
    (hlabel : ∀ label ∈ item.line.label, dotSplits label = []) : Quiet (Asking.plan files s item) := by
  have hspace : Quiet (Asking.spaceOf s item.line) := by
    unfold Asking.spaceOf
    split
    · next label parent hsome _ =>
      exact (quiet_insideBy (hlabel label hsome) _ _ _).attempt.bind fun _ => quiet_pure _
    · exact quiet_pure _
  have hcount : Quiet (numberAt s (maxDepth + 1) (.int count)) := ⟨some count, fun _ => rfl⟩
  unfold Asking.plan
  simp only [hop]
  unfold Asking.planSpace
  rw [hargs]
  refine Quiet.after (Inquiry.outright_pure (false, Expr.int count)) ?_
  exact hcount.bind fun _ => (quiet_getM _).bind fun _ => hspace.bind fun _ => quiet_pure _

end Z80Asm
