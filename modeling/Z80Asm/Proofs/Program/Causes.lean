import Z80Asm.Proofs.Failure
import Z80Asm.Proofs.Program.Phases

/-!
# Failures that are not about placing

That a scope has an address already is noticed in one place only, where a line is placed. Whatever
else can fail, fails for other reasons: evaluating, binding a name, selecting an instruction,
planning what a line contributes and computing its bytes. `Sober` says so of a computation without a
state; the phases that are made of these are in `Program/Reports`.

The property is a negative one on purpose. A list of the causes that each function does give would
have to be kept in step with the functions, while the one cause that matters here is the one that
must not appear: a line is placed once, so nothing before or behind placing may report that it was
placed twice.
-/
set_option autoImplicit false

namespace Z80Asm

open Success

/-- Something else than an address that is set already. -/
def Cause.Sober (cause : Cause) : Prop :=
  cause.kind ≠ .addressAlreadySet

instance (cause : Cause) : Decidable cause.Sober :=
  inferInstanceAs (Decidable (_ ≠ _))

/-- Failures have other reasons than an address that is set already. -/
def Sober {α : Type} (x : Except Cause α) : Prop :=
  ∀ cause, x = .error cause → cause.Sober

namespace Sober

variable {α β : Type}

theorem ok (a : α) : Sober (.ok a) :=
  fun _ h => nomatch h

theorem pure (a : α) : Sober (Pure.pure a : Except Cause α) :=
  ok a

theorem error {cause : Cause} (h : cause.Sober) :
    Sober (.error cause : Except Cause α) := by
  rintro _ ⟨⟩
  exact h

theorem throw {cause : Cause} (h : cause.Sober) :
    Sober (MonadExcept.throw cause : Except Cause α) :=
  error h

theorem bind {x : Except Cause α} {f : α → Except Cause β} (hx : Sober x) (hf : ∀ a, Sober (f a)) :
    Sober (x >>= f) := by
  intro cause h
  rcases except_bind_eq_error.mp h with h | ⟨a, -, h⟩
  · exact hx cause h
  · exact hf a cause h

theorem map {x : Except Cause α} (hx : Sober x) (f : α → β) : Sober (f <$> x) := by
  rw [← bind_pure_comp]
  exact hx.bind fun a => pure (f a)

theorem mapM {f : α → Except Cause β} (hf : ∀ a, Sober (f a)) (as : List α) : Sober (as.mapM f) := by
  induction as with
  | nil => exact pure _
  | cons a rest ih =>
    rw [List.mapM_cons]
    exact (hf a).bind fun _ => ih.bind fun _ => pure _

theorem foldlM {f : β → α → Except Cause β} (hf : ∀ b a, Sober (f b a)) (b : β) (as : List α) :
    Sober (as.foldlM f b) := by
  induction as generalizing b with
  | nil => exact pure _
  | cons a rest ih =>
    rw [List.foldlM_cons]
    exact (hf b a).bind fun _ => ih _

theorem optionMapM {f : α → Except Cause β} (hf : ∀ a, Sober (f a)) (a? : Option α) :
    Sober (a?.mapM f) := by
  cases a? with
  | none => exact pure _
  | some a => exact (hf a).map some

end Sober

/-! ## Evaluating -/

theorem sober_apply (op : BinaryOp) (l r : Int64) : Sober (op.apply l r) := by
  unfold BinaryOp.apply
  split
  case h_4 =>
    split
    · exact .error (by decide)
    · exact .ok _
  case h_5 =>
    split
    · exact .error (by decide)
    · exact .ok _
  all_goals exact .ok _

theorem sober_elementAt (target : Expr) (position : Int64) : Sober (elementAt target position) := by
  unfold elementAt
  split
  · exact .error nofun
  · dsimp only
    split
    · exact .ok _
    · exact .error nofun

theorem sober_unwrap {resolve : Expr → Except Cause Expr} (h : ∀ e, Sober (resolve e)) (fuel : Nat)
    (e : Expr) : Sober (unwrap resolve fuel e) := by
  induction fuel generalizing e with
  | zero =>
    rw [unwrap.eq_def]
    split
    · exact .throw nofun
    · exact .ok _
  | succ fuel ih =>
    rw [unwrap.eq_def]
    split
    · exact (h _).bind fun _ => ih _
    · exact .ok _

theorem sober_resolveUngrouped (s : Scopes) {resolve : Expr → Except Cause Expr}
    (h : ∀ e, Sober (resolve e)) (e : Expr) : Sober (resolveUngrouped s resolve e) := by
  refine (h e).bind fun value => ?_
  split
  · exact sober_unwrap h _ _
  · exact .pure _

section

variable (s : Scopes) (scopeOf : Expr → Option ScopeId)

theorem sober_symbolValue (scope : ScopeId) (name : String) :
    Sober (symbolValue s scopeOf scope name) := by
  unfold symbolValue
  split
  · exact .ok _
  · exact .error nofun

theorem sober_memberValue (scope : ScopeId) (name : String) :
    Sober (memberValue s scopeOf scope name) := by
  unfold memberValue
  split
  · exact .ok _
  · exact .error nofun

theorem sober_address (scope : ScopeId) : Sober (s.address scope) := by
  unfold Scopes.address
  split
  · exact .ok _
  · exact .error nofun

variable {s scopeOf} {steps : Nat}

theorem sober_resolveAt_succ (hresolve : ∀ e, Sober (resolveAt s scopeOf steps e))
    (hinteger : ∀ e, Sober (integerAt s scopeOf steps e)) (e : Expr) :
    Sober (resolveAt s scopeOf (steps + 1) e) := by
  cases e with
  | ident name scope =>
    rw [resolveAt]
    exact (sober_symbolValue s scopeOf _ _).bind fun _ => hresolve _
  | member object name =>
    rw [resolveAt]
    refine (hresolve _).bind fun _ => ?_
    split
    · exact .throw nofun
    · exact (sober_memberValue s scopeOf _ _).bind fun _ => hresolve _
  | index sequence position =>
    rw [resolveAt]
    exact (hinteger _).bind fun _ => (sober_resolveUngrouped s hresolve _).bind fun _ =>
      (sober_elementAt _ _).bind fun _ => hresolve _
  | ifElse cond onTrue onFalse =>
    rw [resolveAt]
    refine (hinteger _).bind fun _ => ?_
    split
    · exact hresolve _
    · exact hresolve _
  | binary op left right =>
    rw [resolveAt]
    split
    · exact (hresolve _).bind fun _ => .pure _
    · exact .pure _
  | _ => exact .ok _

theorem sober_integerAt_succ (hresolve : ∀ e, Sober (resolveAt s scopeOf steps e))
    (hinteger : ∀ e, Sober (integerAt s scopeOf steps e)) (e : Expr) :
    Sober (integerAt s scopeOf (steps + 1) e) := by
  cases e with
  | int value => exact .ok _
  | chr byte => exact .ok _
  | str bytes =>
    rw [integerAt]
    split
    · exact .ok _
    · exact .error nofun
  | ident name scope =>
    rw [integerAt]
    exact (sober_symbolValue s scopeOf _ _).bind fun _ => hinteger _
  | unary op operand =>
    rw [integerAt]
    exact (hinteger _).bind fun _ => .pure _
  | binary op left right =>
    rw [integerAt]
    exact (hinteger _).bind fun _ => (hinteger _).bind fun _ => sober_apply _ _ _
  | ifElse cond onTrue onFalse =>
    rw [integerAt]
    refine (hinteger _).bind fun _ => ?_
    split
    · exact hinteger _
    · exact hinteger _
  | group inner =>
    rw [integerAt]
    exact hinteger _
  | member object name =>
    rw [integerAt]
    exact (hresolve _).bind fun _ => hinteger _
  | index sequence position =>
    rw [integerAt]
    exact (hresolve _).bind fun _ => hinteger _
  | context scope =>
    rw [integerAt]
    exact (sober_address s _).bind fun _ => .pure _
  | space id scope =>
    rw [integerAt]
    exact (sober_address s _).bind fun _ => .pure _
  | _ => exact .error nofun

theorem sober_evalAt (steps : Nat) :
    (∀ e, Sober (resolveAt s scopeOf steps e)) ∧ ∀ e, Sober (integerAt s scopeOf steps e) := by
  induction steps with
  | zero =>
    refine ⟨fun e => ?_, fun e => ?_⟩
    · rw [resolveAt]
      exact .error nofun
    · rw [integerAt]
      exact .error nofun
  | succ steps ih =>
    exact ⟨sober_resolveAt_succ ih.1 ih.2, sober_integerAt_succ ih.1 ih.2⟩

end

theorem sober_resolve (s : Scopes) (e : Expr) : Sober (e.resolve s) :=
  (sober_evalAt _).1 e

theorem sober_integer (s : Scopes) (e : Expr) : Sober (e.integer s) :=
  (sober_evalAt _).2 e

theorem sober_string (s : Scopes) (e : Expr) : Sober (e.string s) := by
  refine (sober_resolveUngrouped s (sober_resolve s) e).bind fun value => ?_
  split
  · exact .pure _
  · exact .throw nofun

/-- An argument that may be missing. -/
theorem sober_integer_getD (s : Scopes) (e? : Option Expr) (default : Int64) :
    Sober ((e?.map (·.integer s)).getD (.ok default)) := by
  cases e? with
  | none => exact .ok _
  | some e => exact sober_integer s e

/-! ## Labels and blocks -/

theorem sober_add (s : Scopes) (id : ScopeId) (name : String) (value : Expr) :
    Sober (s.add id name value) := by
  rw [Scopes.add_eq]
  split
  · exact .error nofun
  · split
    · exact .error nofun
    · split
      · exact .error nofun
      · exact .ok _

theorem sober_parameterOf (e : Expr) : Sober (parameterOf e) := by
  unfold parameterOf
  split
  · exact .ok _
  · exact .ok _
  · exact .error nofun

theorem sober_operation (s : Scopes) (scope : ScopeId) (mnemonic : String) :
    Sober (s.operation scope mnemonic) := by
  unfold Scopes.operation
  split
  · exact .throw nofun
  · refine (sober_resolve s _).bind fun value => ?_
    split
    · exact .pure _
    · exact .throw nofun

theorem sober_variableName (e : Expr) : Sober (variableName e) := by
  unfold variableName
  split
  · exact .ok _
  · exact .error nofun

theorem sober_reptValues (s : Scopes) (line : Line) : Sober (reptValues s line) := by
  unfold reptValues
  dsimp only
  split
  · refine (sober_integer s _).bind fun count => ?_
    split
    · exact .bind (.throw nofun) fun _ => .bind (.optionMapM sober_variableName _) fun _ =>
        (sober_integer_getD s _ _).bind fun _ => (sober_integer_getD s _ _).bind fun _ => .pure _
    · exact .bind (.optionMapM sober_variableName _) fun _ =>
        (sober_integer_getD s _ _).bind fun _ => (sober_integer_getD s _ _).bind fun _ => .pure _
  · exact .throw nofun

theorem sober_irpValues (line : Line) : Sober (irpValues line) := by
  unfold irpValues
  split
  · exact .throw (by intro h; cases h)
  · exact (sober_variableName _).bind fun _ => .pure _

theorem sober_segmentSpace (s : Scopes) (line : Line) : Sober (segmentSpace s line) := by
  unfold segmentSpace
  split
  · refine (sober_resolve s _).bind fun value => ?_
    split
    · exact .pure _
    · exact .throw nofun
  · exact .throw nofun

/-! ## Instructions -/

namespace Cpu

theorem sober_note (use : IndexUse) (mnemonic : String) (base : Register) :
    Sober (use.note mnemonic base) := by
  unfold IndexUse.note
  split
  · exact .error nofun
  · exact .ok _

theorem sober_addUse (mnemonic : String) (use : IndexUse) (operand : Operand) :
    Sober (use.add mnemonic operand) := by
  unfold IndexUse.add
  split
  · split
    · exact sober_note _ _ _
    · exact .ok _
  · exact sober_note _ _ _
  · exact .ok _
  · exact .ok _

theorem sober_indexRegister (form : Form) (operands : List Operand) :
    Sober (indexRegister form operands) := by
  refine (Sober.foldlM (sober_addUse _) _ _).bind fun use => ?_
  split
  · exact .pure _
  · dsimp only
    split
    · exact .bind (.throw nofun) fun _ => by
        split
        · exact .bind (.throw nofun) fun _ => .pure _
        · exact .pure _
    · split
      · exact .bind (.throw nofun) fun _ => .pure _
      · exact .pure _

theorem sober_select (mnemonic : String) (arguments : Option Expr) (operands : List Operand) :
    Sober (Instruction.select mnemonic arguments operands) := by
  unfold Instruction.select
  split
  · exact .throw nofun
  · refine (sober_indexRegister _ _).bind fun _ => .bind ?_ fun _ => .pure _
    unfold checkMemory
    split
    · exact .error nofun
    · exact .ok _

variable (s : Scopes) (instr : Instruction)

theorem sober_value (operand : Nat) : Sober (instr.value s operand) := by
  unfold Instruction.value
  split
  · exact sober_integer s _
  · exact .error nofun

theorem sober_code8 (operand : Nat) : Sober (instr.code8 operand) := by
  unfold Instruction.code8
  dsimp only
  split
  · exact .ok _
  · exact .error nofun

theorem sober_code16 (operand : Nat) : Sober (instr.code16 operand) := by
  unfold Instruction.code16
  split
  · exact .ok _
  · exact .error nofun

theorem sober_conditionCode (operand : Nat) : Sober (instr.conditionCode operand) := by
  unfold Instruction.conditionCode
  split
  · exact .ok _
  · exact .error nofun

/-- A check of a value that was computed. -/
theorem sober_check {α : Type} {x : Except Cause Int64} (hx : Sober x) {bad : Int64 → Bool}
    {cause : Int64 → Cause} (hcause : ∀ v, (cause v).Sober) {f : Int64 → α} :
    Sober (do
      let v ← x
      if bad v then throw (cause v)
      return f v) := by
  refine hx.bind fun v => ?_
  split
  · exact .bind (.throw (hcause v)) fun _ => .pure _
  · exact .pure _

theorem sober_merge (opcode : UInt8) (field : Field) : Sober (instr.merge s opcode field) := by
  cases field with
  | high operand => exact (sober_code8 instr operand).bind fun _ => .pure _
  | low operand => exact (sober_code8 instr operand).bind fun _ => .pure _
  | pair operand => exact (sober_code16 instr operand).bind fun _ => .pure _
  | cond operand => exact (sober_conditionCode instr operand).bind fun _ => .pure _
  | bit operand => exact sober_check (sober_value s instr operand) (by nofun)
  | rst operand => exact sober_check (sober_value s instr operand) (by nofun)
  | mode operand =>
    refine (sober_value s instr operand).bind fun mode => ?_
    split
    · exact .pure _
    · split
      · exact .pure _
      · split
        · exact .pure _
        · exact .throw nofun
  | zero operand => exact sober_check (sober_value s instr operand) (by nofun)

theorem sober_encode (address : UInt32) : Sober (instr.encode s address) := by
  refine .bind (.foldlM (sober_merge s instr) _ _) fun opcode => .bind ?_ fun displacement =>
    .bind ?_ fun _ => .pure _
  · unfold Instruction.displacementByte
    split
    · exact .pure _
    · exact sober_check (sober_integer s _) (by nofun)
  · unfold Instruction.tailBytes
    split
    · exact .pure _
    · exact sober_check (sober_value s instr _) (by nofun)
    · exact sober_check (sober_value s instr _) (by nofun)
    · exact sober_check (sober_value s instr _) (by nofun)

end Cpu

/-! ## What a line contributes -/

theorem sober_planSpace (s : Scopes) (line : Line) : Sober (planSpace s line) := by
  unfold planSpace
  dsimp only
  split
  · refine (sober_integer s _).bind fun count => ?_
    split
    · exact .pure _
    · exact .throw nofun
  · exact .throw nofun

theorem sober_planOrg (s : Scopes) (line : Line) : Sober (planOrg s line) := by
  unfold planOrg
  split
  · refine (sober_integer s _).bind fun value => ?_
    split
    · exact .pure _
    · exact .throw nofun
  · exact .throw nofun

theorem sober_planIncbin (files : FileAccess) (s : Scopes) (line : Line) (path : String) :
    Sober (planIncbin files s line path) := by
  unfold planIncbin
  refine .bind ?_ fun bytes => (sober_integer_getD s _ _).bind fun offset =>
    (sober_integer_getD s _ _).bind fun length => ?_
  · cases files.read path with
    | ok bytes => exact .ok _
    | error reason => exact .error nofun
  · split
    · exact .pure _
    · exact .throw nofun

theorem sober_plan (files : FileAccess) (s : Scopes) (item : Item) : Sober (item.plan files s) := by
  unfold Item.plan
  dsimp only
  split
  · exact .pure _
  · exact sober_planSpace s _
  · exact (sober_planOrg s _).bind fun _ => .pure _
  · split
    · exact (sober_planIncbin files s _ _).bind fun _ => .pure _
    · exact .throw nofun
  · split
    · exact .pure _
    · exact .pure _
  · exact (Cpu.sober_select _ _ _).bind fun _ => .pure _
  · exact .pure _

/-! ## Bytes -/

theorem sober_itemBytes (width : DataWidth) (s : Scopes) (item : Expr) :
    Sober (width.itemBytes s item) := by
  unfold DataWidth.itemBytes
  split
  · exact sober_string s _
  · refine (sober_integer s _).bind fun value => ?_
    split
    · exact .pure _
    · exact .throw nofun

theorem sober_dataBytes (s : Scopes) (width : DataWidth) (items : List Expr) (size : UInt32) :
    Sober (dataBytes s width items size) := by
  refine .bind (.mapM (sober_itemBytes width s) items) fun parts => ?_
  dsimp only
  split
  · exact .bind (.throw nofun) fun _ => .pure _
  · exact .pure _

theorem sober_machineBytes (s : Scopes) (address : UInt32) (instruction : Cpu.Instruction) :
    Sober (machineBytes s address instruction) := by
  refine (Cpu.sober_encode s instruction address).bind fun bytes => ?_
  split
  · exact .bind (.throw nofun) fun _ => .pure _
  · exact .pure _

theorem sober_fillByte (s : Scopes) (region : Region) : Sober (region.fillByte s) := by
  unfold Region.fillByte
  split
  · refine (sober_integer s _).bind fun value => ?_
    split
    · exact .pure _
    · exact .throw nofun
  · exact .pure _

theorem sober_messageText (s : Scopes) (message : Option Expr) : Sober (messageText s message) :=
  .optionMapM (fun e => (sober_string s e).bind fun _ => .pure _) message

end Z80Asm
