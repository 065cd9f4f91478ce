import Mathlib.Data.List.Forall2
import Z80Asm.Cpu.Encode
import Z80Asm.Proofs.Expr.Bytes
import Z80Asm.Proofs.Success

/-!
# What an opcode says of the operands

An opcode fixes some of its operands and leaves others to the bytes around it: the index register,
the displacement and what follows. `Template` is what it fixes of one operand. A form has finitely
many lists of templates (`Form.templateLists`), each with its opcode (`Form.byte`).

The operands of an instruction that can be encoded fit one of the lists of its form, and its opcode
is the one of that list (`Instruction.exists_templates`). What has to be true of a form for that is
checked of the whole table (`Form.sound_of_mem`).

Operands hold expressions, of which there are infinitely many; templates are what is left of them in
an opcode, and these can be listed and checked.

The table is checked by computation, form by form, and not proved: it is data, and what has to be
true of it is decidable.
-/
set_option autoImplicit false

namespace Z80Asm.Cpu

open Success

/-- What an opcode says of an operand. -/
inductive Template where
  /-- Exactly this register. -/
  | reg (register : Register)
  /-- An eight-bit register by its code, or memory by the code six. -/
  | eight (code : UInt8)
  /-- `(HL)`, or the index register that takes its place. -/
  | atHl
  | indirect (register : Register)
  /-- A register pair, or the index register that takes the place of `HL`. -/
  | pair (register : Register)
  | cond (condition : Condition)
  /-- An immediate value that the opcode depends on. -/
  | value (v : Int64)
  | address
  | immediate
  deriving DecidableEq, Repr

namespace Template

/-- The code that is merged into the opcode. -/
def code : Template → UInt8
  | eight c => c
  | pair register => register.code16?.getD 0
  | cond condition => condition.code
  | value v => lowByte v
  | _ => 0

/-- An operand is what a template says. -/
inductive Fits (s : Scopes) : Operand → Template → Prop
  | reg (register : Register) : Fits s (.reg register) (.reg register)
  | eight {register : Register} {code : UInt8} : register.code8? = some code →
    Fits s (.reg register) (.eight code)
  | memory {operand : Operand} : operand.isMemory = true → Fits s operand (.eight 6)
  | atHl : Fits s (.indirect .hl) .atHl
  | atIndex (register : Register) : Fits s (.indexed register (.int 0)) .atHl
  | indirect (register : Register) : Fits s (.indirect register) (.indirect register)
  | pair {register : Register} {code : UInt8} : register.code16? = some code →
    Fits s (.reg register) (.pair (if register.isIndex then .hl else register))
  | cond {operand : Operand} {condition : Condition} : operand.condition? = some condition →
    Fits s operand (.cond condition)
  | value {e : Expr} {v : Int64} : e.integer s = .ok v → Fits s (.immediate e) (.value v)
  | address (e : Expr) : Fits s (.address e) .address
  | immediate (e : Expr) : Fits s (.immediate e) .immediate

end Template

namespace Field

def operand : Field → Nat
  | high operand | low operand | pair operand | cond operand | bit operand | rst operand
  | mode operand | zero operand => operand

/-- The values that a field accepts, if it takes the value of its operand. -/
def values? : Field → Option (List Int64)
  | bit _ => some [0, 1, 2, 3, 4, 5, 6, 7]
  | rst _ => some [0x00, 0x08, 0x10, 0x18, 0x20, 0x28, 0x30, 0x38]
  | mode _ => some [0, 1, 2]
  | zero _ => some [0]
  | _ => none

/-- Merges what a template says into an opcode. -/
def put (templates : List Template) (opcode : UInt8) (field : Field) : UInt8 :=
  let code := ((templates[field.operand]?).map Template.code).getD 0
  match field with
  | high _ | cond _ | bit _ => opcode ||| (code <<< 3)
  | low _ | rst _ => opcode ||| code
  | pair _ => opcode ||| (code <<< 4)
  | mode _ => if code = 0 then 0x46 else if code = 1 then 0x56 else 0x5E
  | zero _ => opcode

end Field

namespace Form

/-- The values to which a form restricts an operand. -/
def values? (form : Form) (operand : Nat) : Option (List Int64) :=
  (form.fields.find? fun field => field.values?.isSome && field.operand == operand).bind Field.values?

/-- The templates of an operand that has a pattern. -/
def templatesAt (form : Form) (operand : Nat) : Pattern → List Template
  | .reg register => [.reg register]
  | .reg8 => [0, 1, 2, 3, 4, 5, 7].map .eight
  | .mem8 => [0, 1, 2, 3, 4, 5, 6, 7].map .eight
  | .indirect register => [if register = .hl then .atHl else .indirect register]
  | .bareIndex => [.atHl]
  | .pair => [.bc, .de, .hl, .sp].map .pair
  | .pairAf => [.bc, .de, .hl, .af].map .pair
  | .hlIndex => [.hl].map .pair
  | .cond => [.nz, .z, .nc, .c, .po, .pe, .p, .m].map .cond
  | .condShort => [.nz, .z, .nc, .c].map .cond
  | .address => [.address]
  | .immediate => ((form.values? operand).map (·.map .value)).getD [.immediate]

/-- The lists of templates of the operands from one on. -/
def templatesFrom (form : Form) : Nat → List Pattern → List (List Template)
  | _, [] => [[]]
  | operand, pattern :: patterns =>
    (form.templatesAt operand pattern).flatMap fun template =>
      (form.templatesFrom (operand + 1) patterns).map (template :: ·)

/-- The lists of templates of a form. At most one operand is memory. -/
def templateLists (form : Form) : List (List Template) :=
  (form.templatesFrom 0 form.operands).filter (·.count (.eight 6) ≤ 1)

/-- The opcode for a list of templates. -/
def byte (form : Form) (templates : List Template) : UInt8 :=
  form.fields.foldl (Field.put templates) form.opcode

/-- A field merges an operand that has a pattern of its kind. -/
def fieldFits (form : Form) (field : Field) : Bool :=
  match field with
  | .high i | .low i => form.operands[i]? == some .reg8 || form.operands[i]? == some .mem8
  | .pair i => form.operands[i]? == some .pair || form.operands[i]? == some .pairAf
  | .cond i => form.operands[i]? == some .cond || form.operands[i]? == some .condShort
  | .bit i | .rst i | .mode i | .zero i =>
    form.operands[i]? == some .immediate && form.values? i == field.values?

/-- Where the pattern of an operand leaves a choice, it is merged or follows the opcode, and an index
    register in the place of `HL` is not needed for another operand as well. -/
def operandKept (form : Form) (operand : Nat) : Pattern → Bool
  | .mem8 => (form.fields.filterMap Field.mem8?).contains operand
  | .pair | .pairAf | .hlIndex =>
    !form.operands.contains .mem8 && !form.operands.contains .bareIndex
  | .bareIndex => form.operands.length == 1 && form.page == .main
  | .indirect register => register != .hl || form.operands.length == 1 && form.page == .main
  | .immediate =>
    match form.values? operand with
    | some _ => form.tail == .none
    | none => form.tail == .imm8 operand || form.tail == .imm16 operand || form.tail == .rel operand
  | .address => form.tail == .imm8 operand || form.tail == .imm16 operand
  | _ => true

/-- At most one operand can be memory, or both are merged. -/
def memoryChecked (form : Form) : Bool :=
  form.operands.count .mem8 ≤ 1 ||
    form.operands == [.mem8, .mem8] && form.fields == [.high 0, .low 1]

/-- What is true of all forms of the table. -/
def sound (form : Form) : Bool :=
  form.memoryChecked && form.fields.all form.fieldFits &&
    (List.range form.operands.length).all fun operand =>
      form.operands[operand]?.all (form.operandKept operand)

theorem sound_of_mem {form : Form} (h : form ∈ table) : form.sound = true := by
  have hall : ∀ form ∈ table, form.sound = true := by decide +kernel
  exact hall form h

theorem fieldFits_of_sound {form : Form} {field : Field} (h : form.sound = true)
    (hfield : field ∈ form.fields) : form.fieldFits field = true := by
  rw [sound, Bool.and_eq_true, Bool.and_eq_true, List.all_eq_true] at h
  exact h.1.2 field hfield

theorem memoryChecked_of_sound {form : Form} (h : form.sound = true) :
    form.memoryChecked = true := by
  rw [sound, Bool.and_eq_true, Bool.and_eq_true] at h
  exact h.1.1

theorem operandKept_of_sound {form : Form} {operand : Nat} {pattern : Pattern}
    (h : form.sound = true) (hpattern : form.operands[operand]? = some pattern) :
    form.operandKept operand pattern = true := by
  rw [sound, Bool.and_eq_true, List.all_eq_true] at h
  have hlt := (List.getElem?_eq_some_iff.mp hpattern).1
  have hkept := h.2 operand (List.mem_range.mpr hlt)
  rwa [hpattern] at hkept

end Form

/-! ## Every operand has a template -/

theorem Register.code8?_mem {register : Register} {code : UInt8}
    (h : register.code8? = some code) : code ∈ [0, 1, 2, 3, 4, 5, 7] := by
  cases register <;> cases h <;> decide

theorem Pattern.exists_reg8 {s : Scopes} {operand : Operand}
    (h : (operand.register?.bind Register.code8?).isSome = true) :
    ∃ code ∈ [0, 1, 2, 3, 4, 5, 7], Template.Fits s operand (.eight code) := by
  obtain ⟨code, hcode⟩ := Option.isSome_iff_exists.mp h
  obtain ⟨register, hregister, hcode⟩ := Option.bind_eq_some_iff.mp hcode
  cases operand with
  | reg other =>
    cases hregister
    exact ⟨code, Register.code8?_mem hcode, .eight hcode⟩
  | _ => cases hregister

theorem Pattern.exists_pair {s : Scopes} {accepted : Register → Bool} {registers : List Register}
    {operand : Operand}
    (haccepted : ∀ register, accepted register = true →
      (if register.isIndex then .hl else register) ∈ registers ∧ register.code16?.isSome = true)
    (h : operand.register?.any accepted = true) :
    ∃ template ∈ registers.map Template.pair, Template.Fits s operand template := by
  obtain ⟨register, hregister, h⟩ := (Option.any_eq_true _ _).mp h
  obtain ⟨hmem, hcode⟩ := haccepted register h
  obtain ⟨code, hcode⟩ := Option.isSome_iff_exists.mp hcode
  cases operand with
  | reg other =>
    cases hregister
    exact ⟨_, List.mem_map_of_mem hmem, .pair hcode⟩
  | _ => cases hregister

theorem Pattern.exists_cond {s : Scopes} {operand : Operand} {condition : Condition}
    (h : operand.condition? = some condition) :
    Template.cond condition ∈ [.nz, .z, .nc, .c, .po, .pe, .p, .m].map Template.cond ∧
      Template.Fits s operand (.cond condition) := by
  refine ⟨?_, .cond h⟩
  cases condition <;> simp

theorem Form.exists_templateAt {s : Scopes} {form : Form} {i : Nat} {pattern : Pattern}
    {operand : Operand} (h : pattern.accepts operand = true)
    (hvalue : ∀ values ∈ form.values? i, ∀ e, operand = .immediate e →
      ∃ v ∈ values, e.integer s = .ok v) :
    ∃ template ∈ form.templatesAt i pattern, Template.Fits s operand template := by
  cases pattern with
  | reg register =>
    cases operand with
    | reg other =>
      have heq : other = register := by simpa [Pattern.accepts, Operand.register?] using h
      exact ⟨.reg register, List.mem_singleton.mpr rfl, heq ▸ .reg other⟩
    | _ => cases h
  | reg8 =>
    obtain ⟨code, hcode, hfits⟩ := Pattern.exists_reg8 (s := s) h
    exact ⟨_, List.mem_map_of_mem hcode, hfits⟩
  | mem8 =>
    rcases (Bool.or_eq_true _ _).mp h with h | h
    · obtain ⟨code, hcode, hfits⟩ := Pattern.exists_reg8 (s := s) h
      refine ⟨_, List.mem_map_of_mem (f := Template.eight) (a := code) ?_, hfits⟩
      simp only [List.mem_cons, List.not_mem_nil, or_false] at hcode ⊢
      grind
    · exact ⟨.eight 6, by simp [templatesAt], .memory h⟩
  | indirect register =>
    cases operand with
    | indirect other =>
      obtain rfl : other = register := by simpa [Pattern.accepts] using h
      refine ⟨_, List.mem_singleton.mpr rfl, ?_⟩
      split
      next heq =>
        subst heq
        exact .atHl
      next => exact .indirect other
    | _ => cases h
  | bareIndex =>
    cases operand with
    | indexed register displacement =>
      cases displacement with
      | int v =>
        obtain rfl : v = 0 := by simpa [Pattern.accepts] using h
        exact ⟨.atHl, List.mem_singleton.mpr rfl, .atIndex register⟩
      | _ => cases h
    | _ => cases h
  | pair => exact Pattern.exists_pair (by intro register; cases register <;> decide) h
  | pairAf => exact Pattern.exists_pair (by intro register; cases register <;> decide) h
  | hlIndex => exact Pattern.exists_pair (by intro register; cases register <;> decide) h
  | cond =>
    obtain ⟨condition, hcondition⟩ := Option.isSome_iff_exists.mp h
    exact ⟨_, Pattern.exists_cond (s := s) hcondition⟩
  | condShort =>
    obtain ⟨condition, hcondition, hshort⟩ := (Option.any_eq_true _ _).mp h
    refine ⟨.cond condition, ?_, .cond hcondition⟩
    revert hshort
    cases condition <;> simp [templatesAt, Pattern.isShort]
  | address =>
    cases operand with
    | address e => exact ⟨.address, List.mem_singleton.mpr rfl, .address e⟩
    | _ => cases h
  | immediate =>
    cases operand with
    | immediate e =>
      rw [templatesAt]
      cases hvalues : form.values? i with
      | none => exact ⟨.immediate, List.mem_singleton.mpr rfl, .immediate e⟩
      | some values =>
        obtain ⟨v, hmem, hv⟩ := hvalue values hvalues e rfl
        exact ⟨.value v, List.mem_map_of_mem hmem, .value hv⟩
    | _ => cases h

theorem Form.exists_templatesFrom {s : Scopes} {form : Form} {i : Nat} {patterns : List Pattern}
    {operands : List Operand} (h : acceptsAll patterns operands = true)
    (hvalue : ∀ j e, operands[j]? = some (.immediate e) → ∀ values ∈ form.values? (i + j),
      ∃ v ∈ values, e.integer s = .ok v) :
    ∃ templates ∈ form.templatesFrom i patterns,
      List.Forall₂ (Template.Fits s) operands templates := by
  induction patterns generalizing i operands with
  | nil =>
    cases operands with
    | nil => exact ⟨[], List.mem_singleton.mpr rfl, .nil⟩
    | cons operand operands => cases h
  | cons pattern patterns ih =>
    cases operands with
    | nil => cases h
    | cons operand operands =>
      rw [acceptsAll, Bool.and_eq_true] at h
      obtain ⟨template, htemplate, hfits⟩ :=
        Form.exists_templateAt (i := i) (s := s) h.1 fun values hvalues e he =>
          hvalue 0 e (congrArg some he) values hvalues
      obtain ⟨templates, htemplates, hall⟩ := ih (i := i + 1) h.2 fun j e he values hvalues =>
        hvalue (j + 1) e he values (by rwa [Nat.add_right_comm] at hvalues)
      refine ⟨template :: templates, ?_, .cons hfits hall⟩
      exact List.mem_flatMap_of_mem htemplate (List.mem_map_of_mem htemplates)

theorem Form.length_templatesFrom {form : Form} {i : Nat} {patterns : List Pattern}
    {templates : List Template} (h : templates ∈ form.templatesFrom i patterns) :
    templates.length = patterns.length := by
  induction patterns generalizing i templates with
  | nil =>
    cases List.mem_singleton.mp h
    rfl
  | cons pattern patterns ih =>
    obtain ⟨template, -, h⟩ := List.mem_flatMap.mp h
    obtain ⟨rest, hrest, rfl⟩ := List.mem_map.mp h
    exact congrArg (· + 1) (ih hrest)

/-- Each template of a list is one of those for its pattern. -/
theorem Form.getElem?_templatesFrom {form : Form} {i j : Nat} {patterns : List Pattern}
    {pattern : Pattern} {templates : List Template} (h : templates ∈ form.templatesFrom i patterns)
    (hpattern : patterns[j]? = some pattern) :
    ∃ template ∈ form.templatesAt (i + j) pattern, templates[j]? = some template := by
  induction patterns generalizing i j templates with
  | nil => cases hpattern
  | cons first patterns ih =>
    obtain ⟨template, htemplate, h⟩ := List.mem_flatMap.mp h
    obtain ⟨rest, hrest, rfl⟩ := List.mem_map.mp h
    cases j with
    | zero =>
      cases hpattern
      exact ⟨template, htemplate, rfl⟩
    | succ j =>
      obtain ⟨other, hother, hj⟩ := ih hrest hpattern
      rw [Nat.add_right_comm] at hother
      exact ⟨other, hother, hj⟩

/-! ## The values that an opcode depends on -/

/-- Merging the value of an operand needs one of the values of the field, and the template with it
    gives the same opcode. -/
theorem merge_value {s : Scopes} {instr : Instruction} {field : Field} {opcode merged : UInt8}
    {values : List Int64} (h : instr.merge s opcode field = .ok merged)
    (hvalues : field.values? = some values) :
    ∃ v ∈ values, instr.value s field.operand = .ok v ∧
      ∀ templates : List Template, templates[field.operand]? = some (.value v) →
        field.put templates opcode = merged := by
  cases field with
  | bit i =>
    cases hvalues
    obtain ⟨v, hv, h⟩ := except_bind_eq_ok.mp h
    split at h
    · cases h
    next hrange =>
      cases h
      have hwithin : Int64.within 0 7 v = true := by simpa using hrange
      obtain ⟨n, hn, rfl⟩ := Int64.exists_ofNat_of_within hwithin
      have hall : ∀ n ≤ 7, Int64.ofNat n ∈ [0, 1, 2, 3, 4, 5, 6, 7] := by decide
      refine ⟨_, hall n hn, hv, fun templates ht => ?_⟩
      simp only [Field.put, ht]
      rfl
  | rst i =>
    cases hvalues
    obtain ⟨v, hv, h⟩ := except_bind_eq_ok.mp h
    split at h
    · cases h
    next hrange =>
      cases h
      have hboth : Int64.within 0 0x38 v = true ∧ v % 8 = 0 := by simpa using hrange
      obtain ⟨n, hn, rfl⟩ := Int64.exists_ofNat_of_within hboth.1
      have hall : ∀ n ≤ 0x38, Int64.ofNat n % 8 = 0 →
          Int64.ofNat n ∈ [0x00, 0x08, 0x10, 0x18, 0x20, 0x28, 0x30, 0x38] := by decide
      refine ⟨_, hall n hn hboth.2, hv, fun templates ht => ?_⟩
      simp only [Field.put, ht]
      rfl
  | mode i =>
    cases hvalues
    obtain ⟨v, hv, h⟩ := except_bind_eq_ok.mp h
    split at h
    next h0 =>
      cases h
      obtain rfl := eq_of_beq h0
      refine ⟨0, by decide, hv, fun templates ht => ?_⟩
      simp only [Field.put, ht]
      rfl
    · split at h
      next h1 =>
        cases h
        obtain rfl := eq_of_beq h1
        refine ⟨1, by decide, hv, fun templates ht => ?_⟩
        simp only [Field.put, ht]
        rfl
      · split at h
        next h2 =>
          cases h
          obtain rfl := eq_of_beq h2
          refine ⟨2, by decide, hv, fun templates ht => ?_⟩
          simp only [Field.put, ht]
          rfl
        · cases h
  | zero i =>
    cases hvalues
    obtain ⟨v, hv, h⟩ := except_bind_eq_ok.mp h
    split at h
    · cases h
    next hzero =>
      cases h
      obtain rfl : v = 0 := by simpa using hzero
      exact ⟨0, List.mem_singleton.mpr rfl, hv, fun templates ht => rfl⟩
  | _ => cases hvalues

theorem exists_of_forall₂ {α β : Type} {r : α → β → Prop} {as : List α} {bs : List β} {i : Nat}
    {b : β} (h : List.Forall₂ r as bs) (hb : bs[i]? = some b) : ∃ a, as[i]? = some a ∧ r a b := by
  induction h generalizing i with
  | nil => cases hb
  | @cons a b' as bs hab _ ih =>
    cases i with
    | zero =>
      cases hb
      exact ⟨a, rfl, hab⟩
    | succ i => exact ih hb

section Codes

variable {s : Scopes} {instr : Instruction} {i : Nat} {operand : Operand} {code : UInt8}

theorem code8_of_fits {c : UInt8} (hoperand : instr.operands[i]? = some operand)
    (hfits : Template.Fits s operand (.eight c)) (h : instr.code8 i = .ok code) : code = c := by
  rw [Instruction.code8, hoperand] at h
  cases hfits with
  | eight hregister =>
    simp only [hregister] at h
    exact (Except.ok.inj h).symm
  | memory hmemory =>
    cases operand with
    | reg register => cases hmemory
    | _ =>
      simp only [hmemory, if_true] at h
      exact (Except.ok.inj h).symm

theorem code16_of_fits {register : Register} (hoperand : instr.operands[i]? = some operand)
    (hfits : Template.Fits s operand (.pair register)) (h : instr.code16 i = .ok code) :
    code = (Template.pair register).code := by
  rw [Instruction.code16, hoperand] at h
  cases hfits with
  | @pair other c hother =>
    simp only [Option.bind_some, Operand.register?, hother] at h
    cases h
    revert hother
    cases other <;> simp [Template.code, Register.code16?, Register.isIndex] <;> exact Eq.symm

theorem conditionCode_of_fits {condition : Condition} (hoperand : instr.operands[i]? = some operand)
    (hfits : Template.Fits s operand (.cond condition)) (h : instr.conditionCode i = .ok code) :
    code = condition.code := by
  rw [Instruction.conditionCode, hoperand] at h
  cases hfits with
  | cond hcondition =>
    simp only [Option.bind_some, hcondition] at h
    exact (Except.ok.inj h).symm

theorem value_of_fits {v w : Int64} (hoperand : instr.operands[i]? = some operand)
    (hfits : Template.Fits s operand (.value v)) (h : instr.value s i = .ok w) : w = v := by
  rw [Instruction.value, hoperand] at h
  cases hfits with
  | value hv =>
    simp only [Option.bind_some, Operand.value?, hv] at h
    exact (Except.ok.inj h).symm

end Codes

/-! ## Opcodes -/

section Opcodes

variable {s : Scopes} {instr : Instruction} {templates : List Template}

theorem eight_at {form : Form} {i : Nat} (hmem : templates ∈ form.templatesFrom 0 form.operands)
    (h : form.operands[i]? = some .reg8 ∨ form.operands[i]? = some .mem8) :
    ∃ code, templates[i]? = some (.eight code) := by
  rcases h with h | h
  all_goals
    obtain ⟨template, htemplate, hget⟩ := Form.getElem?_templatesFrom hmem h
    obtain ⟨code, -, rfl⟩ := List.mem_map.mp htemplate
    exact ⟨code, hget⟩

theorem pair_at {form : Form} {i : Nat} (hmem : templates ∈ form.templatesFrom 0 form.operands)
    (h : form.operands[i]? = some .pair ∨ form.operands[i]? = some .pairAf) :
    ∃ register, templates[i]? = some (.pair register) := by
  rcases h with h | h
  all_goals
    obtain ⟨template, htemplate, hget⟩ := Form.getElem?_templatesFrom hmem h
    obtain ⟨register, -, rfl⟩ := List.mem_map.mp htemplate
    exact ⟨register, hget⟩

theorem cond_at {form : Form} {i : Nat} (hmem : templates ∈ form.templatesFrom 0 form.operands)
    (h : form.operands[i]? = some .cond ∨ form.operands[i]? = some .condShort) :
    ∃ condition, templates[i]? = some (.cond condition) := by
  rcases h with h | h
  all_goals
    obtain ⟨template, htemplate, hget⟩ := Form.getElem?_templatesFrom hmem h
    obtain ⟨condition, -, rfl⟩ := List.mem_map.mp htemplate
    exact ⟨condition, hget⟩

theorem value_at {form : Form} {i : Nat} {values : List Int64}
    (hmem : templates ∈ form.templatesFrom 0 form.operands)
    (h : form.operands[i]? = some .immediate) (hvalues : form.values? i = some values) :
    ∃ v, templates[i]? = some (.value v) := by
  obtain ⟨template, htemplate, hget⟩ := Form.getElem?_templatesFrom hmem h
  rw [Form.templatesAt, Nat.zero_add, hvalues] at htemplate
  obtain ⟨v, -, rfl⟩ := List.mem_map.mp htemplate
  exact ⟨v, hget⟩

variable (hsound : instr.form.sound = true)
  (hmem : templates ∈ instr.form.templatesFrom 0 instr.form.operands)
  (hfits : List.Forall₂ (Template.Fits s) instr.operands templates)

include hsound hmem hfits

theorem put_of_merge {field : Field} {opcode merged : UInt8} (hfield : field ∈ instr.form.fields)
    (h : instr.merge s opcode field = .ok merged) : field.put templates opcode = merged := by
  have hfit := Form.fieldFits_of_sound hsound hfield
  have hvalue (i : Nat) (values : List Int64) (hi : field.operand = i)
      (hvalues : field.values? = some values)
      (hfit : instr.form.operands[i]? = some .immediate ∧ instr.form.values? i = field.values?) :
      field.put templates opcode = merged := by
    subst hi
    obtain ⟨v, hget⟩ := value_at hmem hfit.1 (hfit.2.trans hvalues)
    obtain ⟨operand, hoperand, hoperandFits⟩ := exists_of_forall₂ hfits hget
    obtain ⟨w, -, hw, hput⟩ := merge_value h hvalues
    rw [value_of_fits hoperand hoperandFits hw] at hput
    exact hput templates hget
  cases field with
  | high i =>
    obtain ⟨code, hget⟩ := eight_at hmem (i := i) (by simpa [Form.fieldFits] using hfit)
    obtain ⟨operand, hoperand, hoperandFits⟩ := exists_of_forall₂ hfits hget
    obtain ⟨c, hc, h⟩ := except_bind_eq_ok.mp h
    cases h
    rw [code8_of_fits hoperand hoperandFits hc]
    simp [Field.put, Field.operand, hget, Template.code]
  | low i =>
    obtain ⟨code, hget⟩ := eight_at hmem (i := i) (by simpa [Form.fieldFits] using hfit)
    obtain ⟨operand, hoperand, hoperandFits⟩ := exists_of_forall₂ hfits hget
    obtain ⟨c, hc, h⟩ := except_bind_eq_ok.mp h
    cases h
    rw [code8_of_fits hoperand hoperandFits hc]
    simp [Field.put, Field.operand, hget, Template.code]
  | pair i =>
    obtain ⟨register, hget⟩ := pair_at hmem (i := i) (by simpa [Form.fieldFits] using hfit)
    obtain ⟨operand, hoperand, hoperandFits⟩ := exists_of_forall₂ hfits hget
    obtain ⟨c, hc, h⟩ := except_bind_eq_ok.mp h
    cases h
    rw [code16_of_fits hoperand hoperandFits hc]
    simp [Field.put, Field.operand, hget]
  | cond i =>
    obtain ⟨condition, hget⟩ := cond_at hmem (i := i) (by simpa [Form.fieldFits] using hfit)
    obtain ⟨operand, hoperand, hoperandFits⟩ := exists_of_forall₂ hfits hget
    obtain ⟨c, hc, h⟩ := except_bind_eq_ok.mp h
    cases h
    rw [conditionCode_of_fits hoperand hoperandFits hc]
    simp [Field.put, Field.operand, hget, Template.code]
  | bit i => exact hvalue i _ rfl rfl (by simpa [Form.fieldFits] using hfit)
  | rst i => exact hvalue i _ rfl rfl (by simpa [Form.fieldFits] using hfit)
  | mode i => exact hvalue i _ rfl rfl (by simpa [Form.fieldFits] using hfit)
  | zero i => exact hvalue i _ rfl rfl (by simpa [Form.fieldFits] using hfit)

/-- The opcode of an instruction is the one of the templates that its operands fit. -/
theorem byte_of_opcode {opcode : UInt8} (h : instr.opcode s = .ok opcode) :
    instr.form.byte templates = opcode := by
  have hfold (fields : List Field) (hsub : ∀ field ∈ fields, field ∈ instr.form.fields)
      (start opcode : UInt8) (h : fields.foldlM (instr.merge s) start = .ok opcode) :
      fields.foldl (Field.put templates) start = opcode := by
    induction fields generalizing start with
    | nil => exact Except.ok.inj h
    | cons field fields ih =>
      obtain ⟨hfield, hsub⟩ := List.forall_mem_cons.mp hsub
      rw [List.foldlM_cons] at h
      obtain ⟨merged, hmerged, h⟩ := except_bind_eq_ok.mp h
      rw [List.foldl_cons, put_of_merge hsound hmem hfits hfield hmerged]
      exact ih hsub merged h
  exact hfold instr.form.fields (fun _ h => h) _ _ h

end Opcodes

theorem merge_of_opcode {s : Scopes} {instr : Instruction} {opcode : UInt8} {field : Field}
    (h : instr.opcode s = .ok opcode) (hfield : field ∈ instr.form.fields) :
    ∃ start merged, instr.merge s start field = .ok merged := by
  have hfold (fields : List Field) (start : UInt8)
      (h : fields.foldlM (instr.merge s) start = .ok opcode) (hfield : field ∈ fields) :
      ∃ start merged, instr.merge s start field = .ok merged := by
    induction fields generalizing start with
    | nil => cases hfield
    | cons first fields ih =>
      rw [List.foldlM_cons] at h
      obtain ⟨merged, hmerged, h⟩ := except_bind_eq_ok.mp h
      cases hfield with
      | head => exact ⟨start, merged, hmerged⟩
      | tail _ hfield => exact ih merged h hfield
  exact hfold instr.form.fields _ h hfield

/-- The patterns that a template can come from. -/
def Form.Origin (form : Form) (i : Nat) (pattern : Pattern) : Template → Prop
  | .eight code => code = 6 → pattern = .mem8
  | .atHl => pattern = .bareIndex ∨ pattern = .indirect .hl
  | .pair _ => pattern = .pair ∨ pattern = .pairAf ∨ pattern = .hlIndex
  | .value _ => pattern = .immediate ∧ form.values? i ≠ none
  | .immediate => pattern = .immediate ∧ form.values? i = none
  | .address => pattern = .address
  | _ => True

theorem Form.origin_of_mem {form : Form} {i : Nat} {pattern : Pattern} {template : Template}
    (h : template ∈ form.templatesAt i pattern) : form.Origin i pattern template := by
  cases pattern with
  | reg8 | mem8 =>
    obtain ⟨code, hcode, rfl⟩ := List.mem_map.mp h
    rintro rfl
    simp_all
  | pair =>
    obtain ⟨_, -, rfl⟩ := List.mem_map.mp h
    exact .inl rfl
  | pairAf =>
    obtain ⟨_, -, rfl⟩ := List.mem_map.mp h
    exact .inr (.inl rfl)
  | hlIndex =>
    obtain ⟨_, -, rfl⟩ := List.mem_map.mp h
    exact .inr (.inr rfl)
  | cond | condShort =>
    obtain ⟨_, -, rfl⟩ := List.mem_map.mp h
    trivial
  | indirect register =>
    rw [List.mem_singleton.mp h]
    split
    next heq =>
      rw [heq]
      exact .inr rfl
    next => trivial
  | immediate =>
    rw [templatesAt] at h
    cases hvalues : form.values? i with
    | none =>
      rw [hvalues] at h
      cases List.mem_singleton.mp h
      exact ⟨rfl, hvalues⟩
    | some values =>
      rw [hvalues] at h
      obtain ⟨v, -, rfl⟩ := List.mem_map.mp h
      exact ⟨rfl, by simp [hvalues]⟩
  | bareIndex =>
    rw [List.mem_singleton.mp h]
    exact .inl rfl
  | address =>
    rw [List.mem_singleton.mp h]
    rfl
  | reg =>
    rw [List.mem_singleton.mp h]
    trivial

theorem Form.count_templatesFrom {form : Form} {i : Nat} {patterns : List Pattern}
    {templates : List Template} (h : templates ∈ form.templatesFrom i patterns) :
    templates.count (.eight 6) ≤ patterns.count .mem8 := by
  induction patterns generalizing i templates with
  | nil =>
    cases List.mem_singleton.mp h
    exact Nat.le_refl _
  | cons pattern patterns ih =>
    obtain ⟨template, htemplate, h⟩ := List.mem_flatMap.mp h
    obtain ⟨rest, hrest, rfl⟩ := List.mem_map.mp h
    have hle := ih hrest
    rw [List.count_cons, List.count_cons]
    by_cases hpattern : pattern = .mem8
    · simp only [hpattern, beq_self_eq_true, if_true]
      split <;> omega
    · have hne : template ≠ .eight 6 := by
        intro heq
        rw [heq] at htemplate
        exact hpattern (Form.origin_of_mem htemplate rfl)
      simp only [beq_iff_eq, hne, hpattern, if_false]
      exact hle

theorem Template.Fits.isMemory {s : Scopes} {operand : Operand}
    (h : Template.Fits s operand (.eight 6)) : operand.isMemory = true := by
  cases h with
  | eight hcode => exact absurd (Register.code8?_mem hcode) (by decide)
  | memory hmemory => exact hmemory

/-- At most one operand of a selected instruction is memory. -/
theorem count_memory_le {s : Scopes} {form : Form} {operands : List Operand}
    {templates : List Template} (hsound : form.sound = true)
    (hchecked : checkMemory form operands = .ok ())
    (hmem : templates ∈ form.templatesFrom 0 form.operands)
    (hfits : List.Forall₂ (Template.Fits s) operands templates) :
    templates.count (.eight 6) ≤ 1 := by
  have hform := Form.memoryChecked_of_sound hsound
  rw [Form.memoryChecked, Bool.or_eq_true, decide_eq_true_iff, Bool.and_eq_true] at hform
  rcases hform with hone | ⟨hoperands, hfields⟩
  · exact Nat.le_trans (Form.count_templatesFrom hmem) hone
  · rw [eq_of_beq hoperands] at hmem
    obtain ⟨first, -, h⟩ := List.mem_flatMap.mp hmem
    obtain ⟨rest, hrest, rfl⟩ := List.mem_map.mp h
    obtain ⟨second, -, h⟩ := List.mem_flatMap.mp hrest
    obtain ⟨last, hlast, rfl⟩ := List.mem_map.mp h
    cases List.mem_singleton.mp hlast
    cases hfits with
    | cons hfirst hfits =>
      cases hfits with
      | cons hsecond hfits =>
        cases hfits
        by_cases hboth : first = .eight 6 ∧ second = .eight 6
        · rw [hboth.1] at hfirst
          rw [hboth.2] at hsecond
          simp [checkMemory, mergedOperands, eq_of_beq hfields, Field.mem8?, hfirst.isMemory,
            hsecond.isMemory] at hchecked
        · rw [List.count_cons, List.count_cons, List.count_nil]
          simp only [beq_iff_eq]
          split <;> split <;> first | omega | exact absurd ⟨‹_›, ‹_›⟩ hboth

/-- **The operands of an instruction that can be encoded fit a list of templates of its form.** -/
theorem exists_templates {s : Scopes} {instr : Instruction} {opcode : UInt8}
    (hsound : instr.form.sound = true)
    (haccepts : acceptsAll instr.form.operands instr.operands = true)
    (hchecked : checkMemory instr.form instr.operands = .ok ())
    (hopcode : instr.opcode s = .ok opcode) :
    ∃ templates ∈ instr.form.templateLists,
      List.Forall₂ (Template.Fits s) instr.operands templates ∧
      instr.form.byte templates = opcode := by
  have hvalue (j : Nat) (e : Expr) (he : instr.operands[j]? = some (.immediate e))
      (values : List Int64) (hvalues : values ∈ instr.form.values? (0 + j)) :
      ∃ v ∈ values, e.integer s = .ok v := by
    rw [Nat.zero_add] at hvalues
    obtain ⟨field, hfield, hvalues⟩ := Option.bind_eq_some_iff.mp hvalues
    obtain ⟨start, merged, hmerged⟩ := merge_of_opcode hopcode (List.mem_of_find?_eq_some hfield)
    have hfound := List.find?_some hfield
    rw [Bool.and_eq_true, beq_iff_eq] at hfound
    obtain ⟨v, hv, hvalue, -⟩ := merge_value hmerged hvalues
    rw [hfound.2, Instruction.value, he] at hvalue
    exact ⟨v, hv, hvalue⟩
  obtain ⟨templates, hmem, hfits⟩ := Form.exists_templatesFrom haccepts hvalue
  refine ⟨templates, List.mem_filter.mpr ⟨hmem, ?_⟩, hfits, byte_of_opcode hsound hmem hfits hopcode⟩
  exact decide_eq_true (count_memory_le hsound hchecked hmem hfits)

end Z80Asm.Cpu
