import Z80Asm.Proofs.Cpu.Addressing

/-!
# What an instruction says

Two instructions are spelled differently and still the same in a few cases: `A` may be left out as
the first operand of eight-bit arithmetic, `IN F,(C)` is also `IN (C)`, an index register in
parentheses has the displacement zero, the carry condition is spelled like register `C`, and of an
immediate value only as many bits count as are encoded. `Instruction.reading` is what is left when
these are not told apart; everything else of an instruction is kept.

An opcode with the index register, the displacement and the value behind it tells the reading of its
operands (`Instruction.Matches.meaning_eq`).

A reading is a value of its own and not a class of instructions, so that two instructions can be
compared by computing it, also when they are evaluated in different arenas.
-/
set_option autoImplicit false

namespace Z80Asm.Cpu

open Success

/-- What an operand says, once its value is known. -/
inductive Meaning where
  | reg (register : Register)
  | cond (condition : Condition)
  | indirect (register : Register)
  | indexed (register : Register) (displacement : Int64)
  | address (value : Int)
  | immediate (value : Int)
  deriving DecidableEq, Repr

/-- What counts of a value that follows an opcode. -/
def Tail.residue : Tail → Int64 → Int
  | imm8 _, v => v.toInt % 0x100
  | imm16 _, v => v.toInt % 0x10000
  | _, v => v.toInt

/-- The carry condition is spelled like the register. -/
def Condition.meaning : Condition → Meaning
  | c => .reg .c
  | condition => .cond condition

def Operand.meaning (s : Scopes) (tail : Tail) : Operand → Except Cause Meaning
  | reg register => .ok (.reg register)
  | cond condition => .ok condition.meaning
  | indirect register => .ok (.indirect register)
  | indexed register displacement => do return .indexed register (← displacement.integer s)
  | address e => do return .address (tail.residue (← e.integer s))
  | immediate e => do return .immediate (tail.residue (← e.integer s))

/-- The mnemonics whose first operand `A` may be left out. -/
def accumulating : List String :=
  ["add", "adc", "sub", "sbc", "and", "xor", "or", "cp"]

/-- How many operands of a form may be left out: `A` in front of another operand of eight-bit
    arithmetic, and `F` of `IN F,(C)`. -/
def Form.omitted (form : Form) : Nat :=
  match form.operands with
  | [.reg .a, _] => if accumulating.contains form.mnemonic then 1 else 0
  | [.reg .f, .indirect .c] => if form.mnemonic == "in" then 1 else 0
  | _ => 0

/-- An instruction, up to the ways in which it can be spelled. -/
structure Reading where
  mnemonic : String
  operands : List Meaning
  deriving DecidableEq, Repr

def Instruction.reading (s : Scopes) (instr : Instruction) : Except Cause Reading := do
  let meanings ← instr.operands.mapM (·.meaning s instr.form.tail)
  return ⟨instr.form.mnemonic, meanings.drop instr.form.omitted⟩

/-! ## Readings of templates -/

/-- An eight-bit register. A half of an index register takes the place of `H` and `L`. -/
def Register.ofCode8 (half : Option Register) (code : UInt8) : Register :=
  match code.toNat, half with
  | 0, _ => b
  | 1, _ => c
  | 2, _ => d
  | 3, _ => e
  | 4, none => h
  | 4, some ix => ixh
  | 4, some _ => iyh
  | 5, none => l
  | 5, some ix => ixl
  | 5, some _ => iyl
  | _, _ => a

/-- What is known of an instruction besides its opcode. -/
structure Surroundings where
  index : Option Register
  /-- The displacement, if there is one. -/
  displacement : Option Int64
  /-- The value that follows. -/
  value : Int

namespace Surroundings

/-- The index register whose halves are meant by `H` and `L`. -/
def half (around : Surroundings) : Option Register :=
  if around.displacement.isSome then none else around.index

end Surroundings

def Template.meaning (around : Surroundings) : Template → Meaning
  | reg register => .reg register
  | eight code =>
    if code = 6 then
      match around.index, around.displacement with
      | some index, some displacement => .indexed index displacement
      | _, _ => .indirect .hl
    else .reg (.ofCode8 around.half code)
  | atHl =>
    match around.index with
    | some index => .indexed index 0
    | none => .indirect .hl
  | indirect register => .indirect register
  | pair register => .reg (if register = .hl then around.index.getD .hl else register)
  | cond condition => condition.meaning
  | value v => .immediate v.toInt
  | address => .address around.value
  | immediate => .immediate around.value

theorem Register.ofCode8_plain {register : Register} {code : UInt8}
    (hcode : register.code8? = some code) (hbase : register.indexBase? = none) :
    ofCode8 none code = register := by
  cases register <;> cases hcode <;> first | rfl | cases hbase

theorem Register.ofCode8_half {register index : Register} {code : UInt8}
    (hindex : index.isIndex = true) (hcode : register.code8? = some code)
    (hplain : isPlainHl register = false) (hbase : ∀ base ∈ register.indexBase?, base = index) :
    ofCode8 (some index) code = register := by
  cases index <;> cases hindex <;> cases register <;> cases hcode <;>
    first | rfl | cases hbase _ rfl | cases hplain

/-- The surroundings of an instruction are as its operands say. -/
structure Instruction.Within (s : Scopes) (instr : Instruction) (around : Surroundings) : Prop where
  index : around.index = instr.index
  displaced : ∀ e ∈ instr.displacement?, ∃ d, e.integer s = .ok d ∧ around.displacement = some d
  not_displaced : instr.displacement? = none → around.displacement = none
  value : ∀ i e, instr.operands[i]?.bind Operand.value? = some e →
    instr.form.tail = .imm8 i ∨ instr.form.tail = .imm16 i ∨ instr.form.tail = .rel i →
    ∃ v, e.integer s = .ok v ∧ instr.form.tail.residue v = around.value

theorem mapM_eq_ok {α β γ ε : Type} {f : α → Except ε β} {g : γ → β} {as : List α} {cs : List γ}
    (hlength : as.length = cs.length)
    (h : ∀ (i : Nat) (a : α) (c : γ), as[i]? = some a → cs[i]? = some c → f a = .ok (g c)) :
    as.mapM f = .ok (cs.map g) := by
  induction as generalizing cs with
  | nil =>
    cases List.length_eq_zero_iff.mp hlength.symm
    rfl
  | cons a as ih =>
    cases cs with
    | nil => cases hlength
    | cons c cs =>
      rw [List.mapM_cons, h 0 a c rfl rfl,
        ih (Nat.succ.inj hlength) fun i a c ha hc => h (i + 1) a c ha hc]
      rfl

namespace Instruction.Matches

variable {s : Scopes} {instr : Instruction} {templates : List Template} {around : Surroundings}
  {i : Nat}

/-- An eight-bit register is the one that its code means where it stands. -/
theorem ofCode8_eq {register : Register} {code : UInt8} (h : instr.Matches s templates)
    (hwithin : instr.Within s around) (hoperand : instr.operands[i]? = some (.reg register))
    (htemplate : templates[i]? = some (.eight code)) (hcode : register.code8? = some code) :
    .ofCode8 around.half code = register := by
  have hmem := List.mem_of_getElem? hoperand
  have haddressing := h.addressing
  generalize hindex : instr.index = index at haddressing
  cases haddressing with
  | plain hnone =>
    have hhalf : around.half = none := by
      rw [Surroundings.half, hwithin.index, hindex]
      split <;> rfl
    rw [hhalf]
    exact Register.ofCode8_plain hcode (hnone _ hmem)
  | @register index hisIndex _ hall =>
    have hnone : instr.displacement? = none := by
      rw [← Option.not_isSome_iff_eq_none, h.isSome_displacement?_iff]
      rintro ⟨-, hmemory⟩
      obtain ⟨j, hj⟩ := List.getElem?_of_mem hmemory
      obtain ⟨_, operand, -, -, hoperand', -⟩ := h.at_template hj
      rcases h.memory_at hj hoperand' with ⟨hno, -⟩ | ⟨_, _, -, rfl⟩
      · cases hno.symm.trans hindex
      · cases (hall _ (List.mem_of_getElem? hoperand')).1
    have hhalf : around.half = some index := by
      rw [Surroundings.half, hwithin.not_displaced hnone, hwithin.index, hindex]
      rfl
    rw [hhalf]
    obtain ⟨-, hplain, hbase⟩ := hall _ hmem
    exact Register.ofCode8_half hisIndex hcode hplain hbase
  | @memory index _ hexists hall =>
    obtain ⟨displacement, hindexed⟩ := hexists
    obtain ⟨j, hj⟩ := List.getElem?_of_mem hindexed
    rcases h.indexed_at hj with hj' | ⟨hatHl, -⟩
    · obtain ⟨d, -, hd⟩ :=
        hwithin.displaced displacement (h.displacement?_eq_some_iff.mpr ⟨j, index, hj, hj'⟩)
      have hhalf : around.half = none := by
        rw [Surroundings.half, hd]
        rfl
      rw [hhalf]
      refine Register.ofCode8_plain hcode (Option.not_isSome_iff_eq_none.mp ?_)
      rw [Bool.not_eq_true]
      exact (hall _ hmem).1
    · rw [hatHl] at htemplate
      cases i <;> cases htemplate

/-- No memory at an index register stands beside a register pair. -/
theorem not_indexed_of_pair {register : Register} (h : instr.Matches s templates)
    (htemplate : templates[i]? = some (.pair register)) {base : Register} {displacement : Expr} :
    .indexed base displacement ∉ instr.operands := by
  intro hindexed
  obtain ⟨j, hj⟩ := List.getElem?_of_mem hindexed
  rcases h.indexed_at hj with hj' | ⟨hatHl, -⟩
  · obtain ⟨_, _, hmem8, hmem, -, -⟩ := h.at_template hj'
    rw [Form.origin_of_mem hmem rfl] at hmem8
    have hmem8 := List.mem_of_getElem? hmem8
    obtain ⟨pattern, _, hpattern, hmem, -, -⟩ := h.at_template htemplate
    have hkept := Form.operandKept_of_sound h.sound hpattern
    rcases Form.origin_of_mem hmem with rfl | rfl | rfl <;>
      simp [Form.operandKept, hmem8] at hkept
  · rw [hatHl] at htemplate
    cases i <;> cases htemplate

/-- A register pair is the one that its template means where it stands. -/
theorem pair_eq {register : Register} (h : instr.Matches s templates)
    (hwithin : instr.Within s around) (hoperand : instr.operands[i]? = some (.reg register))
    (htemplate : templates[i]? = some (.pair (if register.isIndex then .hl else register))) :
    (Template.pair (if register.isIndex then .hl else register)).meaning around =
      .reg register := by
  have hmem := List.mem_of_getElem? hoperand
  have haddressing := h.addressing
  generalize hindex : instr.index = index at haddressing
  have haround := hwithin.index.trans hindex
  cases haddressing with
  | plain hnone =>
    have hbase := hnone _ hmem
    rw [Template.meaning, haround]
    cases register <;> first | rfl | cases hbase
  | register _ _ hall =>
    obtain ⟨-, hplain, hbase⟩ := hall _ hmem
    rw [Template.meaning, haround]
    cases register <;> first | rfl | (cases hbase _ rfl; rfl) | cases hplain
  | memory _ hexists _ =>
    obtain ⟨displacement, hindexed⟩ := hexists
    exact absurd hindexed (h.not_indexed_of_pair htemplate)

/-- The only operand in the place of `(HL)` tells the index register. -/
theorem index_of_atHl {operand : Operand} (h : instr.Matches s templates)
    (htemplate : templates[i]? = some .atHl) (hoperand : instr.operands[i]? = some operand) :
    instr.index = operand.base? := by
  have hmem := List.mem_of_getElem? hoperand
  obtain ⟨_, _, -, -, hget, hfits⟩ := h.at_operand hoperand
  cases hget.symm.trans htemplate
  have haddressing := h.addressing
  generalize instr.index = index at haddressing
  cases haddressing with
  | plain hnone => exact (hnone operand hmem).symm
  | register _ _ hall =>
    cases hfits with
    | atHl => cases (hall _ hmem).2.1
    | atIndex register => cases (hall _ hmem).1
  | memory _ hexists hall =>
    obtain ⟨displacement, hindexed⟩ := hexists
    obtain ⟨j, hj⟩ := List.getElem?_of_mem hindexed
    have hlength := h.fits.length_eq
    rw [(h.eq_atHl htemplate).1, List.length_singleton] at hlength
    have hi := (List.getElem?_eq_some_iff.mp hoperand).1
    have hj' := (List.getElem?_eq_some_iff.mp hj).1
    obtain rfl : i = j := by omega
    cases hoperand.symm.trans hj
    rfl

/-- An operand says what its template means where it stands. -/
theorem meaning_at {operand : Operand} {template : Template} (h : instr.Matches s templates)
    (hwithin : instr.Within s around) (hoperand : instr.operands[i]? = some operand)
    (htemplate : templates[i]? = some template) :
    operand.meaning s instr.form.tail = .ok (template.meaning around) := by
  have hoperandMem := List.mem_of_getElem? hoperand
  obtain ⟨pattern, _, hpattern, hmem, hget, hfits⟩ := h.at_operand hoperand
  cases hget.symm.trans htemplate
  have hkept := Form.operandKept_of_sound h.sound hpattern
  have horigin := Form.origin_of_mem hmem
  cases hfits with
  | reg register => rfl
  | @eight register code hcode =>
    have hne : code ≠ 6 := by
      rintro rfl
      exact absurd (Register.code8?_mem hcode) (by decide)
    rw [Template.meaning, if_neg hne, h.ofCode8_eq hwithin hoperand htemplate hcode]
    rfl
  | memory _ =>
    rw [Template.meaning, if_pos rfl, hwithin.index]
    rcases h.memory_at htemplate hoperand with ⟨hindex, rfl⟩ | ⟨index, displacement, hindex, rfl⟩
    · rw [hindex]
      rfl
    · obtain ⟨d, hd, haround⟩ := hwithin.displaced displacement
        (h.displacement?_eq_some_iff.mpr ⟨i, index, hoperand, htemplate⟩)
      rw [hindex, haround, Operand.meaning, hd]
      rfl
  | atHl =>
    rw [Template.meaning, hwithin.index, h.index_of_atHl htemplate hoperand]
    rfl
  | atIndex register =>
    rw [Template.meaning, hwithin.index, h.index_of_atHl htemplate hoperand]
    rfl
  | indirect register => rfl
  | pair hcode =>
    rw [h.pair_eq hwithin hoperand htemplate]
    rfl
  | @cond operand condition hcondition =>
    cases operand with
    | reg register =>
      cases register <;> cases hcondition
      rfl
    | cond other =>
      cases hcondition
      rfl
    | _ => cases hcondition
  | @value e v hv =>
    obtain ⟨rfl, hvalues⟩ := horigin
    have htail : instr.form.tail = .none := by
      cases hlist : instr.form.values? i with
      | none => exact absurd hlist hvalues
      | some values => simpa [Form.operandKept, hlist] using hkept
    rw [Operand.meaning, hv, htail]
    rfl
  | address e =>
    obtain rfl := horigin
    have htail : instr.form.tail = .imm8 i ∨ instr.form.tail = .imm16 i := by
      simpa [Form.operandKept] using hkept
    obtain ⟨v, hv, hvalue⟩ := hwithin.value i e (by rw [hoperand]; rfl)
      (htail.imp_right .inl)
    rw [Operand.meaning, hv, Template.meaning, ← hvalue]
    rfl
  | immediate e =>
    obtain ⟨rfl, hvalues⟩ := horigin
    have htail : instr.form.tail = .imm8 i ∨ instr.form.tail = .imm16 i ∨
        instr.form.tail = .rel i := by
      simpa [Form.operandKept, hvalues, or_assoc] using hkept
    obtain ⟨v, hv, hvalue⟩ := hwithin.value i e (by rw [hoperand]; rfl) htail
    rw [Operand.meaning, hv, Template.meaning, ← hvalue]
    rfl

/-- **An instruction says what the templates of its operands mean where they stand.** -/
theorem reading_eq (h : instr.Matches s templates) (hwithin : instr.Within s around) :
    instr.reading s = .ok ⟨instr.form.mnemonic,
      (templates.drop instr.form.omitted).map (Template.meaning around)⟩ := by
  have hmeanings : instr.operands.mapM (·.meaning s instr.form.tail) =
      .ok (templates.map (Template.meaning around)) :=
    mapM_eq_ok h.fits.length_eq fun _ _ _ hoperand htemplate =>
      h.meaning_at hwithin hoperand htemplate
  rw [reading, hmeanings, List.map_drop]
  rfl

end Instruction.Matches

end Z80Asm.Cpu
