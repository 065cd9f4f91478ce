import Z80Asm.Program.Generation
import Z80Asm.Proofs.Cpu.Decoding

/-!
# The values that code can hold

A value goes into machine code at one of few places: behind the opcode as a byte, a word or a
distance, beside it as a displacement, or into it as a bit number, a restart address or an interrupt
mode. `Slot` names them, `Instruction.slots` lists those of an instruction with the expressions that
are stored there, and `Slot.Admits` says which values have room.

Encoding asks for these values in order and for nothing else, so it fails exactly if one of them
cannot be had or has no room (`Guarded`). Operands of the wrong shape are gone by then: the forms of
the table merge only what their patterns accept. `Slot.read` finds every value again in the bytes.

Where the value of a slot comes from, and whether addresses are known by then, is left to
evaluation: all statements are about one arena.
-/
set_option autoImplicit false

namespace Z80Asm.Cpu

open Success

/-- A place in machine code for the value of an operand. -/
inductive Slot where
  | byte | word
  /-- The distance from the end of the instruction to a target. -/
  | distance
  | displacement | bit | restart | mode
  /-- No place at all: the value has to be zero. -/
  | zero
  deriving DecidableEq, Repr

namespace Slot

/-- The values that a place can hold, in an instruction that ends at an address. Only distances
    depend on the address. -/
def Admits (next : Int) : Slot → Int → Prop
  | byte, v => -0x80 ≤ v ∧ v ≤ 0xFF
  | word, v => -0x8000 ≤ v ∧ v ≤ 0xFFFF
  | distance, v => -0x80 ≤ v - next ∧ v - next ≤ 0x7F
  | displacement, v => -0x80 ≤ v ∧ v ≤ 0x7F
  | bit, v => 0 ≤ v ∧ v ≤ 7
  | restart, v => 0 ≤ v ∧ v ≤ 0x38 ∧ v % 8 = 0
  | mode, v => 0 ≤ v ∧ v ≤ 2
  | zero, v => v = 0

/-- How a value without room is reported. -/
def refusal (next : Nat) : Slot → Int64 → Cause
  | byte, v | word, v => .valueRange v
  | distance, v => .jumpRange (v - Int64.ofNat next)
  | displacement, v => .displacementRange v
  | bit, v => .bitRange v
  | restart, v => .restartAddress v
  | mode, v => .interruptMode v
  | zero, v => .notZero v

/-- What is kept of a value. -/
def residue : Slot → Int → Int
  | byte, v => v % 0x100
  | word, v => v % 0x10000
  | _, v => v

/-- The value in the opcode. -/
def readOpcode (opcode : UInt8) : Slot → Option Int
  | bit => some (opcode.toNat / 8 % 8 : Nat)
  | restart => some (opcode.toNat / 8 % 8 * 8 : Nat)
  | mode =>
    if opcode = 0x46 then some 0 else if opcode = 0x56 then some 1
    else if opcode = 0x5E then some 2 else none
  | zero => some 0
  | _ => none

/-- What is kept of a value, read from the bytes of an instruction that ends at an address. -/
def read (next : Int) (bytes : List UInt8) : Slot → Option Int
  | byte => bytes.getLast?.map fun b => b.toNat
  | word =>
    match bytes.reverse with
    | high :: low :: _ => some (low.toNat + 0x100 * high.toNat)
    | _ => none
  | distance => bytes.getLast?.map fun b => next + (signedByte b).toInt
  | displacement => bytes[2]?.map fun b => (signedByte b).toInt
  | slot => bytes.getLast?.bind slot.readOpcode

end Slot

/-- The place where a field puts a value. -/
def Field.slot? : Field → Option Slot
  | bit _ => some .bit
  | rst _ => some .restart
  | mode _ => some .mode
  | zero _ => some .zero
  | _ => none

/-- The place behind the opcode, and the operand whose value is there. -/
def Tail.slot? : Tail → Option (Slot × Nat)
  | none => Option.none
  | imm8 operand => some (.byte, operand)
  | imm16 operand => some (.word, operand)
  | rel operand => some (.distance, operand)

theorem Field.read_slot {field : Field} {slot : Slot} (h : field.slot? = some slot) (next : Int)
    (bytes : List UInt8) : slot.read next bytes = bytes.getLast?.bind slot.readOpcode := by
  cases field <;> cases h <;> rfl

theorem Field.residue_slot {field : Field} {slot : Slot} (h : field.slot? = some slot) (v : Int) :
    slot.residue v = v := by
  cases field <;> cases h <;> rfl

namespace Instruction

/-- The expression whose value an operand carries. -/
def carried? (instr : Instruction) (operand : Nat) : Option Expr :=
  instr.operands[operand]?.bind Operand.value?

def fieldSlots (instr : Instruction) (field : Field) : List (Slot × Expr) :=
  (field.slot?.bind fun slot => (instr.carried? field.operand).map (slot, ·)).toList

def tailSlots (instr : Instruction) : List (Slot × Expr) :=
  (instr.form.tail.slot?.bind fun place => (instr.carried? place.2).map (place.1, ·)).toList

/-- The places for values in the code of an instruction, with what is stored there. -/
def slots (instr : Instruction) : List (Slot × Expr) :=
  instr.form.fields.flatMap instr.fieldSlots ++
    (instr.displacement?.map (Slot.displacement, ·)).toList ++ instr.tailSlots

end Instruction

/-! ## Computations that only fail for values -/

/-- The value for a place cannot be had, or there is no room for it. -/
def Refused (s : Scopes) (next : Nat) (slot : Slot) (e : Expr) (cause : Cause) : Prop :=
  e.integer s = .error cause ∨
    ∃ v, e.integer s = .ok v ∧ ¬ slot.Admits next v.toInt ∧ cause = slot.refusal next v

/-- A computation succeeds if all values have room, and fails with the trouble of one of them. -/
def Guarded (s : Scopes) (next : Nat) (slots : List (Slot × Expr)) {α : Type} :
    Except Cause α → Prop
  | .ok _ => ∀ slot e, (slot, e) ∈ slots → ∃ v, e.integer s = .ok v ∧ slot.Admits next v.toInt
  | .error cause => ∃ slot e, (slot, e) ∈ slots ∧ Refused s next slot e cause

namespace Guarded

variable {s : Scopes} {next : Nat} {slots slots' : List (Slot × Expr)} {α β : Type}

theorem pure (a : α) : Guarded s next [] (.ok a) := by
  intro slot e h
  cases h

theorem bind {x : Except Cause α} {f : α → Except Cause β} (hx : Guarded s next slots x)
    (hf : ∀ a, x = .ok a → Guarded s next slots' (f a)) :
    Guarded s next (slots ++ slots') (x >>= f) := by
  cases x with
  | error cause =>
    obtain ⟨slot, e, hmem, h⟩ := hx
    exact ⟨slot, e, List.mem_append_left _ hmem, h⟩
  | ok a =>
    show Guarded s next (slots ++ slots') (f a)
    have hfa := hf a rfl
    cases hresult : f a with
    | error cause =>
      rw [hresult] at hfa
      obtain ⟨slot, e, hmem, h⟩ := hfa
      exact ⟨slot, e, List.mem_append_right _ hmem, h⟩
    | ok b =>
      rw [hresult] at hfa
      intro slot e hmem
      rcases List.mem_append.mp hmem with hmem | hmem
      · exact hx slot e hmem
      · exact hfa slot e hmem

/-- A value is asked for and then used or refused. -/
theorem value {slot : Slot} {e : Expr} {use : Int64 → Except Cause α}
    (hroom : ∀ v : Int64, slot.Admits next v.toInt → ∃ a, use v = .ok a)
    (hnone : ∀ v : Int64, ¬ slot.Admits next v.toInt → use v = .error (slot.refusal next v)) :
    Guarded s next [(slot, e)] (e.integer s >>= use) := by
  cases he : e.integer s with
  | error cause => exact ⟨slot, e, List.mem_singleton.mpr rfl, .inl he⟩
  | ok v =>
    show Guarded s next _ (use v)
    by_cases hv : slot.Admits next v.toInt
    · obtain ⟨a, ha⟩ := hroom v hv
      rw [ha]
      intro slot' e' hmem
      cases List.mem_singleton.mp hmem
      exact ⟨v, he, hv⟩
    · rw [hnone v hv]
      exact ⟨slot, e, List.mem_singleton.mpr rfl, .inr ⟨v, he, hv, rfl⟩⟩

/-- A value is used if it passes a test for room. -/
theorem checked {slot : Slot} {e : Expr} {fits : Int64 → Bool}
    (hfits : ∀ v : Int64, fits v = true ↔ slot.Admits next v.toInt) (use : Int64 → α) :
    Guarded s next [(slot, e)] (e.integer s >>= fun v =>
      if !fits v then throw (slot.refusal next v) else return use v) := by
  refine .value (fun v hv => ?_) fun v hv => ?_
  · rw [(hfits v).mpr hv]
    exact ⟨use v, rfl⟩
  · rw [Bool.eq_false_iff.mpr (mt (hfits v).mp hv)]
    rfl

theorem foldlM {γ : Type} {f : α → γ → Except Cause α} {slotsOf : γ → List (Slot × Expr)}
    {items : List γ} (h : ∀ item ∈ items, ∀ a, Guarded s next (slotsOf item) (f a item)) (a : α) :
    Guarded s next (items.flatMap slotsOf) (items.foldlM f a) := by
  induction items generalizing a with
  | nil => exact Guarded.pure a
  | cons item rest ih =>
    rw [List.foldlM_cons, List.flatMap_cons]
    refine (h item List.mem_cons_self a).bind fun b _ => ?_
    exact ih (fun other hother => h other (List.mem_cons_of_mem _ hother)) b

end Guarded

/-! ## Ranges -/

theorem within_iff {lo hi v : Int64} :
    Int64.within lo hi v = true ↔ lo.toInt ≤ v.toInt ∧ v.toInt ≤ hi.toInt := by
  rw [Int64.within, Bool.and_eq_true, decide_eq_true_iff, decide_eq_true_iff,
    Int64.le_iff_toInt_le, Int64.le_iff_toInt_le]

section

variable {next : Nat} (hnext : next < 0x200000000) (target : Int64)

include hnext

/-- The distance to a target, which wraps around only far from where it started. -/
theorem toInt_sub_ofNat : (target - Int64.ofNat next).toInt = target.toInt - next ∨
    (target - Int64.ofNat next).toInt = target.toInt - next + 0x10000000000000000 ∧
      target.toInt - next < -0x8000000000000000 := by
  have hofNat : (Int64.ofNat next).toInt = next := Int64.toInt_ofNat_of_lt (by omega)
  have hlo := target.le_toInt
  have hhi := target.toInt_lt
  rw [Int64.toInt_sub, hofNat, Int.bmod_def]
  split <;> omega

theorem fitsDisplacement_sub_iff :
    fitsDisplacement (target - Int64.ofNat next) = true ↔ Slot.distance.Admits next target.toInt := by
  rw [fitsDisplacement, within_iff, show (-0x80 : Int64).toInt = -0x80 from rfl,
    show (0x7F : Int64).toInt = 0x7F from rfl]
  simp only [Slot.Admits]
  rcases toInt_sub_ofNat hnext target with h | ⟨h, hfar⟩
  · rw [h]
  · have := target.le_toInt
    omega

end

/-! ## What the forms accept -/

/-- Operands that are accepted have the patterns one by one. -/
theorem exists_accepted {patterns : List Pattern} {operands : List Operand} {i : Nat}
    {pattern : Pattern} (h : acceptsAll patterns operands = true) (hi : patterns[i]? = some pattern) :
    ∃ operand, operands[i]? = some operand ∧ pattern.accepts operand = true := by
  induction patterns generalizing operands i with
  | nil => cases hi
  | cons first patterns ih =>
    cases operands with
    | nil => cases h
    | cons operand rest =>
      rw [acceptsAll, Bool.and_eq_true] at h
      cases i with
      | zero =>
        cases hi
        exact ⟨operand, rfl, h.1⟩
      | succ i =>
        obtain ⟨other, hother, hother'⟩ := ih h.2 hi
        exact ⟨other, hother, hother'⟩

namespace Form

/-- What follows the opcode is an immediate value or an address. -/
def tailFits (form : Form) : Bool :=
  form.tail.slot?.all fun place =>
    form.operands[place.2]? == some .immediate || form.operands[place.2]? == some .address

/-- An opcode with a value in it ends the instruction. -/
def valueLast (form : Form) : Bool :=
  form.fields.all (·.slot?.isNone) ||
    form.tail == .none && (form.page == .cb || form.fields.all (·.mem8?.isNone))

/-- The value in an opcode can be read back, whatever else is merged. -/
def valueLegible (form : Form) (field : Field) (slot : Slot) : Bool :=
  form.templateLists.all fun templates =>
    match templates[field.operand]? with
    | some (.value v) => slot.readOpcode (form.byte templates) == some v.toInt
    | _ => true

theorem tailFits_of_mem {form : Form} (h : form ∈ table) : form.tailFits = true := by
  have hall : ∀ form ∈ table, form.tailFits = true := by decide +kernel
  exact hall form h

theorem valueLast_of_mem {form : Form} (h : form ∈ table) : form.valueLast = true := by
  have hall : ∀ form ∈ table, form.valueLast = true := by decide +kernel
  exact hall form h

theorem valueLegible_of_mem {form : Form} (h : form ∈ table) {field : Field}
    (hfield : field ∈ form.fields) {slot : Slot} (hslot : field.slot? = some slot) :
    form.valueLegible field slot = true := by
  have hall : ∀ form ∈ table, ∀ field ∈ form.fields,
      field.slot?.all (form.valueLegible field) = true := by decide +kernel
  have hfound := hall form h field hfield
  rwa [hslot] at hfound

end Form

namespace Instruction

variable {s : Scopes} {instr : Instruction} {i : Nat}

theorem value_eq {e : Expr} (h : instr.carried? i = some e) : instr.value s i = e.integer s := by
  unfold Instruction.value
  rw [show instr.operands[i]?.bind Operand.value? = some e from h]

theorem exists_code8 (haccepts : acceptsAll instr.form.operands instr.operands = true)
    (hpattern : instr.form.operands[i]? = some .reg8 ∨ instr.form.operands[i]? = some .mem8) :
    ∃ code, instr.code8 i = .ok code := by
  have hmem8 : ∃ operand, instr.operands[i]? = some operand ∧ Pattern.mem8.accepts operand = true := by
    rcases hpattern with hpattern | hpattern
    · obtain ⟨operand, hoperand, h⟩ := exists_accepted haccepts hpattern
      exact ⟨operand, hoperand, Bool.or_eq_true_iff.mpr (.inl h)⟩
    · exact exists_accepted haccepts hpattern
  obtain ⟨operand, hoperand, h⟩ := hmem8
  unfold Instruction.code8
  rw [hoperand]
  cases operand with
  | reg register => cases register <;> first | exact ⟨_, rfl⟩ | cases h
  | indirect register => cases register <;> first | exact ⟨_, rfl⟩ | cases h
  | indexed register displacement => exact ⟨_, rfl⟩
  | _ => cases h

theorem exists_code16 (haccepts : acceptsAll instr.form.operands instr.operands = true)
    (hpattern : instr.form.operands[i]? = some .pair ∨ instr.form.operands[i]? = some .pairAf) :
    ∃ code, instr.code16 i = .ok code := by
  have hregister : ∃ register, instr.operands[i]?.bind Operand.register? = some register ∧
      (Pattern.isPair register || Pattern.isPairAf register) = true := by
    rcases hpattern with hpattern | hpattern
    all_goals
      obtain ⟨operand, hoperand, h⟩ := exists_accepted haccepts hpattern
      obtain ⟨register, hregister, h⟩ := (Option.any_eq_true _ _).mp h
      exact ⟨register, by rw [hoperand]; exact hregister, by simp [h]⟩
  obtain ⟨register, hregister, hpair⟩ := hregister
  unfold Instruction.code16
  rw [hregister]
  cases register <;> first | exact ⟨_, rfl⟩ | cases hpair

theorem exists_conditionCode (haccepts : acceptsAll instr.form.operands instr.operands = true)
    (hpattern : instr.form.operands[i]? = some .cond ∨ instr.form.operands[i]? = some .condShort) :
    ∃ code, instr.conditionCode i = .ok code := by
  have hcondition : ∃ condition, instr.operands[i]?.bind Operand.condition? = some condition := by
    rcases hpattern with hpattern | hpattern
    all_goals
      obtain ⟨operand, hoperand, h⟩ := exists_accepted haccepts hpattern
      rw [hoperand]
    · exact Option.isSome_iff_exists.mp h
    · obtain ⟨condition, hcondition, -⟩ := (Option.any_eq_true _ _).mp h
      exact ⟨condition, hcondition⟩
  obtain ⟨condition, hcondition⟩ := hcondition
  exact ⟨condition.code, by rw [Instruction.conditionCode, hcondition]⟩

/-- An immediate value or an address is carried. -/
theorem exists_carried (haccepts : acceptsAll instr.form.operands instr.operands = true)
    (hpattern : instr.form.operands[i]? = some .immediate ∨ instr.form.operands[i]? = some .address) :
    ∃ e, instr.carried? i = some e := by
  rcases hpattern with hpattern | hpattern
  all_goals
    obtain ⟨operand, hoperand, h⟩ := exists_accepted haccepts hpattern
    unfold Instruction.carried?
    rw [hoperand]
    cases operand <;> first | exact ⟨_, rfl⟩ | cases h

/-! ## Encoding asks for the values and nothing else -/

/-- The restart addresses are the multiples of eight. -/
theorem fitsRestart_iff (next : Nat) (v : Int64) :
    (Int64.within 0 0x38 v && v % 8 == 0) = true ↔ Slot.restart.Admits next v.toInt := by
  have hmod : v % 8 = 0 ↔ v.toInt.tmod 8 = 0 := by
    rw [← Int64.toInt_inj, Int64.toInt_mod]
    rfl
  rw [Bool.and_eq_true, within_iff, beq_iff_eq, hmod]
  constructor
  · rintro ⟨⟨hlo, hhi⟩, hzero⟩
    rw [Int.tmod_eq_emod_of_nonneg hlo] at hzero
    exact ⟨hlo, hhi, hzero⟩
  · rintro ⟨hlo, hhi, hzero⟩
    rw [Int.tmod_eq_emod_of_nonneg hlo]
    exact ⟨⟨hlo, hhi⟩, hzero⟩

/-- Merging a field fails only for its value. -/
theorem guarded_merge (hsound : instr.form.sound = true)
    (haccepts : acceptsAll instr.form.operands instr.operands = true) {field : Field}
    (hfield : field ∈ instr.form.fields) (next : Nat) (opcode : UInt8) :
    Guarded s next (instr.fieldSlots field) (instr.merge s opcode field) := by
  have hfit := Form.fieldFits_of_sound hsound hfield
  -- A field that merges the value of an operand has an immediate one.
  have hvalue {slot : Slot} {use : Int64 → Except Cause UInt8} (hslot : field.slot? = some slot)
      (hfit : (instr.form.operands[field.operand]? == some .immediate) = true)
      (huse : ∀ e : Expr, Guarded s next [(slot, e)] (e.integer s >>= use)) :
      Guarded s next (instr.fieldSlots field) (instr.value s field.operand >>= use) := by
    obtain ⟨e, he⟩ := exists_carried haccepts (.inl (eq_of_beq hfit))
    rw [Instruction.fieldSlots, hslot, Option.bind_some, he, value_eq he]
    exact huse e
  cases field with
  | high i | low i =>
    obtain ⟨code, hcode⟩ := exists_code8 haccepts (by simpa [Form.fieldFits] using hfit)
    rw [Instruction.merge, hcode]
    exact .pure _
  | pair i =>
    obtain ⟨code, hcode⟩ := exists_code16 haccepts (by simpa [Form.fieldFits] using hfit)
    rw [Instruction.merge, hcode]
    exact .pure _
  | cond i =>
    obtain ⟨code, hcode⟩ := exists_conditionCode haccepts (by simpa [Form.fieldFits] using hfit)
    rw [Instruction.merge, hcode]
    exact .pure _
  | bit i =>
    exact hvalue rfl (Bool.and_eq_true_iff.mp hfit).1 fun e => .checked (fun v => within_iff) _
  | rst i =>
    refine hvalue rfl (Bool.and_eq_true_iff.mp hfit).1 fun e => ?_
    have hchecked := Guarded.checked (s := s) (e := e) (fitsRestart_iff next)
      fun v => opcode ||| lowByte v
    simp only [Bool.not_and] at hchecked
    exact hchecked
  | mode i =>
    refine hvalue rfl (Bool.and_eq_true_iff.mp hfit).1 fun e => .value (fun v hv => ?_) fun v hv => ?_
    · obtain ⟨hlo, hhi⟩ := hv
      obtain h | h | h : v.toInt = 0 ∨ v.toInt = 1 ∨ v.toInt = 2 := by omega
      · cases Int64.toInt_inj.mp (h.trans (show 0 = (0 : Int64).toInt from rfl))
        exact ⟨_, rfl⟩
      · cases Int64.toInt_inj.mp (h.trans (show 1 = (1 : Int64).toInt from rfl))
        exact ⟨_, rfl⟩
      · cases Int64.toInt_inj.mp (h.trans (show 2 = (2 : Int64).toInt from rfl))
        exact ⟨_, rfl⟩
    · have hne {w : Int64} (hw : 0 ≤ w.toInt ∧ w.toInt ≤ 2) : ¬ (v == w) = true := by
        intro h
        cases eq_of_beq h
        exact hv hw
      refine (if_neg (hne ?_)).trans ((if_neg (hne ?_)).trans (if_neg (hne ?_))) <;> decide
  | zero i =>
    refine hvalue rfl (Bool.and_eq_true_iff.mp hfit).1 fun e => .checked (fun v => ?_) _
    exact beq_iff_eq.trans Int64.toInt_inj.symm

theorem guarded_displacementByte (next : Nat) :
    Guarded s next (instr.displacement?.map (Slot.displacement, ·)).toList
      (instr.displacementByte s) := by
  unfold Instruction.displacementByte
  cases instr.displacement? with
  | none => exact .pure _
  | some e => exact .checked (fun v => within_iff) _

theorem size_le (instr : Instruction) : instr.size ≤ 6 := by
  have htail : instr.form.tail.size ≤ 2 := by cases instr.form.tail <;> simp [Tail.size]
  unfold Instruction.size
  split <;> split <;> split <;> omega

theorem next_lt (instr : Instruction) (address : UInt32) :
    address.toNat + instr.size < 0x200000000 := by
  have := address.toNat_lt
  have := instr.size_le
  omega

theorem guarded_tailBytes (hform : instr.form ∈ Form.table)
    (haccepts : acceptsAll instr.form.operands instr.operands = true) (address : UInt32) :
    Guarded s (address.toNat + instr.size) instr.tailSlots (instr.tailBytes s address) := by
  have hfits := Form.tailFits_of_mem hform
  have hvalue {i : Nat} {slot : Slot} {use : Int64 → Except Cause (List UInt8)}
      (hslot : instr.form.tail.slot? = some (slot, i))
      (huse : ∀ e : Expr,
        Guarded s (address.toNat + instr.size) [(slot, e)] (e.integer s >>= use)) :
      Guarded s (address.toNat + instr.size) instr.tailSlots (instr.value s i >>= use) := by
    rw [Form.tailFits, hslot] at hfits
    obtain ⟨e, he⟩ := exists_carried haccepts (by simpa using hfits)
    rw [Instruction.tailSlots, hslot, Option.bind_some, he, value_eq he]
    exact huse e
  unfold Instruction.tailBytes
  cases htail : instr.form.tail with
  | none =>
    rw [Instruction.tailSlots, htail]
    exact .pure _
  | imm8 i => exact hvalue (by rw [htail]; rfl) fun e => .checked (fun v => within_iff) _
  | imm16 i => exact hvalue (by rw [htail]; rfl) fun e => .checked (fun v => within_iff) _
  | rel i =>
    refine hvalue (by rw [htail]; rfl) fun e => ?_
    exact .checked (fitsDisplacement_sub_iff (next_lt instr address)) _

/-- Encoding fails only for a value that has no room in the code. -/
theorem guarded_encode (hform : instr.form ∈ Form.table)
    (haccepts : acceptsAll instr.form.operands instr.operands = true) (address : UInt32) :
    Guarded s (address.toNat + instr.size) instr.slots (instr.encode s address) := by
  have hsound := Form.sound_of_mem hform
  have hopcode : Guarded s (address.toNat + instr.size)
      (instr.form.fields.flatMap instr.fieldSlots) (instr.opcode s) :=
    .foldlM (fun field hfield opcode => guarded_merge hsound haccepts hfield _ opcode) _
  have htail := guarded_tailBytes (s := s) hform haccepts address
  unfold Instruction.encode
  rw [Instruction.slots, List.append_assoc]
  refine hopcode.bind fun opcode _ => (guarded_displacementByte _).bind fun displacement _ => ?_
  rw [← List.append_nil instr.tailSlots]
  exact htail.bind fun tail _ => .pure _

/-! ## Values in the bytes -/

theorem Selected.accepted (h : instr.Selected) : instr.form ∈ Form.table ∧
    acceptsAll instr.form.operands instr.operands = true := by
  obtain ⟨mnemonic, arguments, operands, -, hselect⟩ := h
  unfold Instruction.select at hselect
  split at hselect
  · cases hselect
  next form hfound =>
    obtain ⟨index, -, hselect⟩ := except_bind_eq_ok.mp hselect
    obtain ⟨_, -, hselect⟩ := except_bind_eq_ok.mp hselect
    cases hselect
    have haccepts : acceptsAll form.operands operands = true := by
      simpa using List.find?_some hfound
    exact ⟨(List.mem_filter.mp (List.mem_of_find?_eq_some hfound)).1, haccepts⟩

section

variable {templates : List Template}

/-- The opcode holds the value that a field merges. -/
theorem readOpcode_eq (hmatches : instr.Matches s templates) (hform : instr.form ∈ Form.table)
    {field : Field} (hfield : field ∈ instr.form.fields) {slot : Slot}
    (hslot : field.slot? = some slot) {e : Expr} (he : instr.carried? field.operand = some e)
    {v : Int64} (hv : e.integer s = .ok v) :
    slot.readOpcode (instr.form.byte templates) = some v.toInt := by
  have himmediate : instr.form.operands[field.operand]? = some .immediate ∧
      ∃ values, instr.form.values? field.operand = some values := by
    have hfit := Form.fieldFits_of_sound hmatches.sound hfield
    cases field <;> cases hslot <;>
      exact ⟨eq_of_beq (Bool.and_eq_true_iff.mp hfit).1, _,
        eq_of_beq (Bool.and_eq_true_iff.mp hfit).2⟩
  obtain ⟨hpattern, values, hvalues⟩ := himmediate
  obtain ⟨w, hw⟩ := value_at hmatches.from_mem hpattern hvalues
  obtain ⟨_, operand, -, -, hoperand, hfits⟩ := hmatches.at_template hw
  cases hfits with
  | value hinteger =>
    rw [Instruction.carried?, hoperand] at he
    cases he
    cases hinteger.symm.trans hv
    have hlegible := Form.valueLegible_of_mem hform hfield hslot
    have hread := List.all_eq_true.mp hlegible templates hmatches.templates_mem
    rw [hw] at hread
    exact eq_of_beq hread

/-- Nothing follows an opcode that holds a value. -/
theorem getLast?_eq (hform : instr.form ∈ Form.table) {field : Field}
    (hfield : field ∈ instr.form.fields) {slot : Slot} (hslot : field.slot? = some slot)
    {address : UInt32} {displacement : Option UInt8} {tail : List UInt8}
    (hdisplacement : instr.displacementByte s = .ok displacement)
    (htail : instr.tailBytes s address = .ok tail) (front : List UInt8) (opcode : UInt8) :
    (front ++ (coreBytes instr.form.page opcode displacement ++ tail)).getLast? = some opcode := by
  have hlast := Form.valueLast_of_mem hform
  have hsome : instr.form.fields.all (·.slot?.isNone) = false := by
    rw [List.all_eq_false]
    exact ⟨field, hfield, by simp [hslot]⟩
  rw [Form.valueLast, hsome, Bool.false_or, Bool.and_eq_true, beq_iff_eq, Bool.or_eq_true,
    beq_iff_eq] at hlast
  obtain ⟨hnone, hlast⟩ := hlast
  have htail : tail = [] := by
    rw [Instruction.tailBytes, hnone] at htail
    exact (Except.ok.inj htail).symm
  rw [htail, List.append_nil]
  rcases hlast with hcb | hplain
  · rw [hcb]
    cases displacement <;> simp [coreBytes]
  · have hmerged : mergedOperands instr.form instr.operands = [] := by
      rw [mergedOperands, List.filterMap_eq_nil_iff]
      intro other hother
      rw [Option.isNone_iff_eq_none.mp (List.all_eq_true.mp hplain other hother)]
      rfl
    rcases displacementByte_eq_ok hdisplacement with ⟨-, rfl⟩ | ⟨e, v, he, -⟩
    · simp [coreBytes]
    · rw [Instruction.displacement?, hmerged] at he
      cases he

/-- The displacement is the third byte. -/
theorem getElem?_displacement (hmatches : instr.Matches s templates) {e : Expr}
    (he : instr.displacement? = some e) {opcode byte : UInt8} (tail : List UInt8) :
    ((instr.index.bind Register.indexByte?).toList ++ (instr.form.page.byte?.toList ++
      (coreBytes instr.form.page opcode (some byte) ++ tail)))[2]? = some byte := by
  have hindex := (hmatches.isSome_displacement?_iff.mp (by rw [he]; rfl)).1
  have hlength := @length_front _ .main hmatches.addressing.isIndex
  rw [hindex] at hlength
  obtain ⟨first, hfirst⟩ := List.length_eq_one_iff.mp
    (show (instr.index.bind Register.indexByte?).toList.length = 1 by simpa [Page.byte?] using hlength)
  rw [hfirst]
  cases hpage : instr.form.page with
  | main => rfl
  | cb => rfl
  | ed => exact absurd hpage (hmatches.not_ed hindex)

end

/-- The value behind the opcode is read from the last bytes. -/
theorem read_tailBytes {address : UInt32} {tail : List UInt8}
    (htail : instr.tailBytes s address = .ok tail) {slot : Slot}
    (hslot : instr.form.tail.slot? = some (slot, i)) {e : Expr} (he : instr.carried? i = some e)
    {v : Int64} (hv : e.integer s = .ok v) (front : List UInt8) :
    slot.read (address.toNat + instr.size : Nat) (front ++ tail) = some (slot.residue v.toInt) := by
  have hvalue : instr.value s i = .ok v := (value_eq he).trans hv
  unfold Instruction.tailBytes at htail
  cases hkind : instr.form.tail with
  | none =>
    rw [hkind] at hslot
    cases hslot
  | imm8 j =>
    rw [hkind] at hslot htail
    cases hslot
    simp only [hvalue, except_bind_eq_ok, Except.ok.injEq, exists_eq_left'] at htail
    split at htail
    · cases htail
    · cases htail
      rw [Slot.read, List.getLast?_concat, Option.map_some, toNat_lowByte]
      rfl
  | imm16 j =>
    rw [hkind] at hslot htail
    cases hslot
    simp only [hvalue, except_bind_eq_ok, Except.ok.injEq, exists_eq_left'] at htail
    split at htail
    · cases htail
    · cases htail
      rw [Slot.read, List.reverse_append]
      exact congrArg some (toNat_lowBytes v)
  | rel j =>
    rw [hkind] at hslot htail
    cases hslot
    simp only [hvalue, except_bind_eq_ok, Except.ok.injEq, exists_eq_left'] at htail
    split at htail
    · cases htail
    next hfits =>
      cases htail
      have hfits : fitsDisplacement (v - Int64.ofNat (address.toNat + instr.size)) = true := by
        simpa using hfits
      have hroom := (fitsDisplacement_sub_iff (next_lt instr address) _).mp hfits
      have hdistance : (v - Int64.ofNat (address.toNat + instr.size)).toInt =
          v.toInt - (address.toNat + instr.size : Nat) := by
        refine (toInt_sub_ofNat (next_lt instr address) _).resolve_right fun hfar => ?_
        simp only [Slot.Admits] at hroom
        omega
      rw [Slot.read, List.getLast?_concat, Option.map_some, signedByte_lowByte hfits, hdistance]
      exact congrArg some (by simp only [Slot.residue]; omega)

/-- Every value in the code of an instruction is read back, as far as it is kept. -/
theorem Selected.read_eq (h : instr.Selected) {address : UInt32} {bytes : List UInt8}
    (hencode : instr.encode s address = .ok bytes) {slot : Slot} {e : Expr}
    (hmem : (slot, e) ∈ instr.slots) {v : Int64} (hv : e.integer s = .ok v) :
    slot.read (address.toNat + instr.size : Nat) bytes = some (slot.residue v.toInt) := by
  obtain ⟨opcode, displacement, tail, hopcode, hdisplacement, htail, rfl⟩ := encode_eq_ok hencode
  obtain ⟨hform, templates, hmatches, rfl⟩ := h.exists_matches hopcode
  rw [Instruction.slots, List.mem_append, List.mem_append] at hmem
  rcases hmem with (hmem | hmem) | hmem
  · obtain ⟨field, hfield, hmem⟩ := List.mem_flatMap.mp hmem
    obtain ⟨slot', hslot, hmem⟩ := Option.bind_eq_some_iff.mp (Option.mem_toList.mp hmem)
    obtain ⟨e', he, heq⟩ := Option.map_eq_some_iff.mp hmem
    cases heq
    have hlast := getLast?_eq hform hfield hslot hdisplacement htail
      ((instr.index.bind Register.indexByte?).toList ++ instr.form.page.byte?.toList)
      (instr.form.byte templates)
    rw [List.append_assoc] at hlast
    rw [Field.read_slot hslot, hlast, Option.bind_some, Field.residue_slot hslot]
    exact readOpcode_eq hmatches hform hfield hslot he hv
  · obtain ⟨e', he, heq⟩ := Option.map_eq_some_iff.mp (Option.mem_toList.mp hmem)
    cases heq
    rcases displacementByte_eq_ok hdisplacement with ⟨hnone, -⟩ | ⟨e', w, he', hw, rfl, hsigned⟩
    · cases hnone.symm.trans he
    · cases he.symm.trans he'
      cases hv.symm.trans hw
      rw [Slot.read, getElem?_displacement hmatches he, Option.map_some, hsigned]
      rfl
  · obtain ⟨⟨slot', i⟩, hslot, hmem⟩ := Option.bind_eq_some_iff.mp (Option.mem_toList.mp hmem)
    obtain ⟨e', he, heq⟩ := Option.map_eq_some_iff.mp hmem
    cases heq
    rw [← List.append_assoc, ← List.append_assoc]
    generalize (instr.index.bind Register.indexByte?).toList ++ instr.form.page.byte?.toList ++
      coreBytes instr.form.page (instr.form.byte templates) displacement = front
    exact read_tailBytes htail hslot he hv front

/-- The value of every operand has a place, but for a displacement that is left out. -/
theorem Matches.exists_slot {templates : List Template} (hmatches : instr.Matches s templates)
    {operand : Operand} (hmem : operand ∈ instr.operands) {e : Expr} (he : operand.value? = some e) :
    (∃ slot, (slot, e) ∈ instr.slots) ∨ e = .int 0 := by
  obtain ⟨i, hi⟩ := List.getElem?_of_mem hmem
  obtain ⟨pattern, template, hpattern, htemplate, hget, hfits⟩ := hmatches.at_operand hi
  have hcarried : instr.carried? i = some e := by
    rw [Instruction.carried?, hi]
    exact he
  have hkept := Form.operandKept_of_sound hmatches.sound hpattern
  have horigin := Form.origin_of_mem htemplate
  have htail {slot : Slot} (hslot : instr.form.tail.slot? = some (slot, i)) :
      (slot, e) ∈ instr.slots := by
    refine List.mem_append_right _ ?_
    rw [Instruction.tailSlots, hslot, Option.bind_some, hcarried]
    exact List.mem_singleton.mpr rfl
  cases hfits with
  | address e' =>
    rw [show pattern = .address from horigin] at hkept
    rcases Bool.or_eq_true_iff.mp hkept with h | h
    · exact .inl ⟨.byte, htail (by rw [eq_of_beq h]; rfl)⟩
    · exact .inl ⟨.word, htail (by rw [eq_of_beq h]; rfl)⟩
  | value hinteger =>
    obtain ⟨values, hvalues⟩ := Option.ne_none_iff_exists'.mp horigin.2
    obtain ⟨field, hfield, hvalues⟩ := Option.bind_eq_some_iff.mp hvalues
    have hfound := List.find?_some hfield
    rw [Bool.and_eq_true, beq_iff_eq] at hfound
    have hslot : ∃ slot, field.slot? = some slot := by
      cases field <;> first | exact ⟨_, rfl⟩ | cases hvalues
    obtain ⟨slot, hslot⟩ := hslot
    refine .inl ⟨slot, List.mem_append_left _ (List.mem_append_left _ (List.mem_flatMap.mpr ?_))⟩
    refine ⟨field, List.mem_of_find?_eq_some hfield, ?_⟩
    rw [Instruction.fieldSlots, hslot, Option.bind_some, hfound.2, hcarried]
    exact List.mem_singleton.mpr rfl
  | immediate e' =>
    obtain ⟨rfl, hnone⟩ := horigin
    simp only [Form.operandKept, hnone, Bool.or_eq_true, beq_iff_eq] at hkept
    rcases hkept with (h | h) | h
    · exact .inl ⟨.byte, htail (by rw [h]; rfl)⟩
    · exact .inl ⟨.word, htail (by rw [h]; rfl)⟩
    · exact .inl ⟨.distance, htail (by rw [h]; rfl)⟩
  | memory hmemory =>
    cases operand with
    | indexed base displacement =>
      cases he
      have hdisplacement := hmatches.displacement?_eq_some_iff.mpr ⟨i, base, hi, hget⟩
      refine .inl ⟨.displacement, List.mem_append_left _ (List.mem_append_right _ ?_)⟩
      rw [hdisplacement]
      exact List.mem_singleton.mpr rfl
    | indirect register => cases he
    | _ => cases hmemory
  | atIndex register =>
    cases he
    exact .inr rfl
  | cond hcondition =>
    cases operand with
    | reg | cond => cases he
    | _ => cases hcondition
  | _ => cases he

/-- What has a place is the value of an operand. -/
theorem exists_operand_of_slot {slot : Slot} {e : Expr} (h : (slot, e) ∈ instr.slots) :
    ∃ operand ∈ instr.operands, operand.value? = some e := by
  have hcarried {i : Nat} (h : instr.carried? i = some e) :
      ∃ operand ∈ instr.operands, operand.value? = some e := by
    obtain ⟨operand, hoperand, he⟩ := Option.bind_eq_some_iff.mp h
    exact ⟨operand, List.mem_of_getElem? hoperand, he⟩
  rw [Instruction.slots, List.mem_append, List.mem_append] at h
  rcases h with (h | h) | h
  · obtain ⟨field, -, h⟩ := List.mem_flatMap.mp h
    obtain ⟨slot', -, h⟩ := Option.bind_eq_some_iff.mp (Option.mem_toList.mp h)
    obtain ⟨e', he, heq⟩ := Option.map_eq_some_iff.mp h
    cases heq
    exact hcarried he
  · obtain ⟨e', he, heq⟩ := Option.map_eq_some_iff.mp (Option.mem_toList.mp h)
    cases heq
    obtain ⟨operand, hmem, hoperand⟩ := List.exists_of_findSome?_eq_some he
    obtain ⟨field, -, hfield⟩ := List.mem_filterMap.mp hmem
    obtain ⟨i, -, hi⟩ := Option.bind_eq_some_iff.mp hfield
    cases operand with
    | indexed base displacement =>
      cases hoperand
      exact ⟨_, List.mem_of_getElem? hi, rfl⟩
    | _ => cases hoperand
  · obtain ⟨place, -, h⟩ := Option.bind_eq_some_iff.mp (Option.mem_toList.mp h)
    obtain ⟨e', he, heq⟩ := Option.map_eq_some_iff.mp h
    cases heq
    exact hcarried he

/-- The size of the code is the one that was planned. -/
theorem Selected.machineBytes_eq (h : instr.Selected) (address : UInt32) :
    machineBytes s address instr = instr.encode s address := by
  unfold machineBytes
  cases hencode : instr.encode s address with
  | error cause => rfl
  | ok bytes =>
    have hsize : (bytes.length != instr.size) = false := by
      rw [(h.decode_encode hencode).1]
      exact bne_self_eq_false _
    show (if (bytes.length != instr.size) = true then _ else _) = _
    rw [hsize]
    rfl

end Instruction

/-- **Code can be generated for an instruction exactly if every value has room where it is stored.**
    Whatever fails is a value that cannot be had or has no room. The code has the size that was
    planned, and all values are read back from it. In the first part all operands have values, so
    that room is all that is left to ask for; the second part is about operands that have none as
    well. -/
theorem encode_iff_admitted {instr : Instruction} (h : instr.Selected) (s : Scopes)
    (address : UInt32) :
    ((∀ operand ∈ instr.operands, ∀ e, operand.value? = some e → ∃ v, e.integer s = .ok v) →
      ((∃ bytes, machineBytes s address instr = .ok bytes) ↔
        ∀ slot e v, (slot, e) ∈ instr.slots → e.integer s = .ok v →
          slot.Admits (address.toNat + instr.size : Nat) v.toInt)) ∧
    (∀ cause, machineBytes s address instr = .error cause →
      ∃ slot e, (slot, e) ∈ instr.slots ∧
        Refused s (address.toNat + instr.size) slot e cause) ∧
    (∀ bytes, machineBytes s address instr = .ok bytes →
      bytes.length = instr.size ∧
      (∀ slot e v, (slot, e) ∈ instr.slots → e.integer s = .ok v →
        slot.read (address.toNat + instr.size : Nat) bytes = some (slot.residue v.toInt)) ∧
      ∀ operand ∈ instr.operands, ∀ e, operand.value? = some e →
        (∃ slot, (slot, e) ∈ instr.slots) ∨ e = .int 0) := by
  obtain ⟨hform, haccepts⟩ := h.accepted
  have hguard := Instruction.guarded_encode (s := s) hform haccepts address
  rw [h.machineBytes_eq]
  refine ⟨fun hvalues => ⟨?_, ?_⟩, ?_, ?_⟩
  · rintro ⟨bytes, hencode⟩ slot e v hmem hv
    rw [hencode] at hguard
    obtain ⟨w, hw, hroom⟩ := hguard slot e hmem
    cases hv.symm.trans hw
    exact hroom
  · intro hroom
    cases hencode : instr.encode s address with
    | ok bytes => exact ⟨bytes, rfl⟩
    | error cause =>
      rw [hencode] at hguard
      obtain ⟨slot, e, hmem, hfails | ⟨v, hv, hnone, -⟩⟩ := hguard
      · obtain ⟨operand, hoperand, he⟩ := Instruction.exists_operand_of_slot hmem
        obtain ⟨v, hv⟩ := hvalues operand hoperand e he
        cases hfails.symm.trans hv
      · exact absurd (hroom slot e v hmem hv) hnone
  · intro cause hencode
    rw [hencode] at hguard
    exact hguard
  · intro bytes hencode
    obtain ⟨opcode, _, _, hopcode, -⟩ := encode_eq_ok hencode
    obtain ⟨-, templates, hmatches, -⟩ := h.exists_matches hopcode
    refine ⟨(h.decode_encode hencode).1, ?_, ?_⟩
    · intro slot e v hmem hv
      exact h.read_eq hencode hmem hv
    · intro operand hoperand e he
      exact hmatches.exists_slot hoperand he

/-- The operands `3,(IY-2)`. -/
def bitOfMemory : List Expr :=
  [.int 3, .group (.binary .sub (.register .iy) (.int 2))]

theorem encode_iff_admitted_set : ∃ instr : Instruction,
    Instruction.select "set" none (bitOfMemory.map (Operand.classify {})) = .ok instr ∧
    instr.slots.map Prod.fst = [.bit, .displacement] ∧
    machineBytes {} 0 instr = .ok [0xFD, 0xCB, 0xFE, 0xDE] ∧
    ∀ slot e v, (slot, e) ∈ instr.slots → e.integer {} = .ok v →
      slot.Admits (0 + instr.size : Nat) v.toInt ∧
        slot.read (0 + instr.size : Nat) [0xFD, 0xCB, 0xFE, 0xDE] = some (slot.residue v.toInt) := by
  have hempty : Scopes.Proper {} := by
    intro value hvalue
    cases hvalue
  have harguments : ∀ e ∈ bitOfMemory, e.Proper := by
    simp [bitOfMemory, Expr.Proper]
  have hselected {instr : Instruction}
      (h : Instruction.select "set" none (bitOfMemory.map (Operand.classify {})) = .ok instr) :
      instr.Selected :=
    .of_classify hempty harguments h
  refine ⟨_, rfl, rfl, rfl, fun slot e v hmem hv => ?_⟩
  obtain ⟨hiff, -, hread⟩ := encode_iff_admitted (hselected rfl) {} 0
  constructor
  · refine (hiff ?_).mp ⟨_, rfl⟩ slot e v hmem hv
    intro operand hoperand e he
    obtain ⟨argument, hargument, rfl⟩ := List.mem_map.mp hoperand
    simp only [bitOfMemory, List.mem_cons, List.not_mem_nil, or_false] at hargument
    rcases hargument with rfl | rfl
    · cases he
      exact ⟨3, rfl⟩
    · cases he
      exact ⟨-2, rfl⟩
  · exact (hread _ rfl).2.1 slot e v hmem hv

end Z80Asm.Cpu
