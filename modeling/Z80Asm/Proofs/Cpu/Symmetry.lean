import Mathlib.Data.List.Find
import Z80Asm.Proofs.Cpu.Decoding

/-!
# `IX` and `IY` are interchangeable

The two index registers have the same instructions. `exchange` puts each in the place of the other,
in registers, operands and instructions, and every function on the way from operands to machine code
commutes with it: which patterns accept an operand, how operands share an index register, the codes
that are merged into the opcode. No form of the table names an index register (`Form.keptApart`), so
the first form that accepts is the same one.

Only the byte in front of an instruction tells the registers apart (`Twins`).

Nothing is checked form by form but that patterns name no index register. The rest follows the
functions on operands, so it survives a change of the table.
-/
set_option autoImplicit false

namespace Z80Asm.Cpu

open Success

/-! ## Registers and operands -/

namespace Register

/-- `IX` and `IY` in each other's place, and so their halves. -/
def exchange : Register → Register
  | ix => iy | ixh => iyh | ixl => iyl
  | iy => ix | iyh => ixh | iyl => ixl
  | register => register

@[simp] theorem exchange_exchange (register : Register) : register.exchange.exchange = register := by
  cases register <;> rfl

theorem exchange_inj {register other : Register} (h : register.exchange = other.exchange) :
    register = other := by
  rw [← exchange_exchange register, h, exchange_exchange]

@[simp] theorem code16?_exchange (register : Register) :
    register.exchange.code16? = register.code16? := by
  cases register <;> rfl

@[simp] theorem indexBase?_exchange (register : Register) :
    register.exchange.indexBase? = register.indexBase?.map exchange := by
  cases register <;> rfl

@[simp] theorem isPlainHl_exchange (register : Register) :
    isPlainHl register.exchange = isPlainHl register := by
  cases register <;> rfl

end Register

namespace Operand

/-- The operand with the index registers exchanged. What it carries as a value stays. -/
def exchange : Operand → Operand
  | reg register => reg register.exchange
  | indirect register => indirect register.exchange
  | indexed register displacement => indexed register.exchange displacement
  | operand => operand

@[simp] theorem exchange_exchange (operand : Operand) : operand.exchange.exchange = operand := by
  cases operand <;> simp [exchange]

@[simp] theorem condition?_exchange (operand : Operand) :
    operand.exchange.condition? = operand.condition? := by
  cases operand with
  | reg register => cases register <;> rfl
  | _ => rfl

@[simp] theorem value?_exchange (operand : Operand) : operand.exchange.value? = operand.value? := by
  cases operand <;> rfl

@[simp] theorem isMemory_exchange (operand : Operand) :
    operand.exchange.isMemory = operand.isMemory := by
  cases operand with
  | indirect register => cases register <;> rfl
  | _ => rfl

/-- Whether an operand uses an index register or a half of it. -/
def Uses (index : Register) (operand : Operand) : Prop :=
  operand.base?.bind Register.indexBase? = some index

end Operand

/-! ## Forms -/

/-- Whether a pattern names no index register. -/
def Pattern.isApart : Pattern → Bool
  | reg register | indirect register => register.indexBase?.isNone
  | _ => true

theorem Register.exchange_eq_self {register : Register} (h : register.indexBase?.isNone = true) :
    register.exchange = register := by
  cases register <;> first | rfl | cases h

theorem Register.exchange_beq {register : Register} (h : register.indexBase?.isNone = true)
    (other : Register) : (other.exchange == register) = (other == register) := by
  have hself := Register.exchange_eq_self h
  rw [Bool.eq_iff_iff, beq_iff_eq, beq_iff_eq]
  constructor
  · intro heq
    exact Register.exchange_inj (heq.trans hself.symm)
  · rintro rfl
    exact hself

/-- A pattern that names no index register accepts both or none. -/
theorem Pattern.accepts_exchange {pattern : Pattern} (h : pattern.isApart = true) (operand : Operand) :
    pattern.accepts operand.exchange = pattern.accepts operand := by
  cases pattern with
  | reg register =>
    cases operand with
    | reg other => exact Register.exchange_beq h other
    | _ => rfl
  | indirect register =>
    cases operand with
    | indirect other => exact Register.exchange_beq h other
    | _ => rfl
  | bareIndex =>
    cases operand with
    | indexed register displacement => cases displacement <;> rfl
    | _ => rfl
  | address => cases operand <;> rfl
  | immediate => cases operand <;> rfl
  | reg8 | mem8 | cond | condShort =>
    cases operand with
    | reg register => cases register <;> rfl
    | indirect register => cases register <;> rfl
    | _ => rfl
  | pair | pairAf | hlIndex =>
    cases operand with
    | reg register => cases register <;> rfl
    | _ => rfl

theorem acceptsAll_exchange {patterns : List Pattern}
    (h : ∀ pattern ∈ patterns, pattern.isApart = true) (operands : List Operand) :
    acceptsAll patterns (operands.map Operand.exchange) = acceptsAll patterns operands := by
  induction patterns generalizing operands with
  | nil => cases operands <;> rfl
  | cons pattern patterns ih =>
    obtain ⟨hpattern, hpatterns⟩ := List.forall_mem_cons.mp h
    cases operands with
    | nil => rfl
    | cons operand operands =>
      rw [List.map_cons, acceptsAll, acceptsAll, Pattern.accepts_exchange hpattern, ih hpatterns]

/-- No form names an index register. -/
theorem Form.keptApart : ∀ form ∈ Form.table, ∀ pattern ∈ form.operands, pattern.isApart = true := by
  have h : (Form.table.all fun form => form.operands.all Pattern.isApart) = true := by
    decide +kernel
  intro form hform
  exact List.all_eq_true.mp (List.all_eq_true.mp h form hform)

/-! ## Sharing an index register -/

/-- The use with the index registers exchanged. -/
def IndexUse.exchange (use : IndexUse) : IndexUse :=
  { use with index := use.index.map Register.exchange }

theorem IndexUse.note_exchange (use : IndexUse) (mnemonic : String) (base : Register) :
    use.exchange.note mnemonic base.exchange = (use.note mnemonic base).map exchange := by
  have hany : (use.index.map Register.exchange).any (· != base.exchange) =
      use.index.any (· != base) := by
    cases use.index with
    | none => rfl
    | some other =>
      show (other.exchange != base.exchange) = (other != base)
      by_cases heq : other = base
      · rw [heq, bne_self_eq_false, bne_self_eq_false]
      · rw [bne_iff_ne.mpr heq, bne_iff_ne.mpr fun h => heq (Register.exchange_inj h)]
  rw [IndexUse.note, IndexUse.note]
  show (if (use.index.map Register.exchange).any _ then _ else _) = _
  rw [hany]
  split <;> rfl

theorem IndexUse.add_exchange (mnemonic : String) (use : IndexUse) (operand : Operand) :
    use.exchange.add mnemonic operand.exchange = (use.add mnemonic operand).map exchange := by
  cases operand with
  | reg register =>
    rw [Operand.exchange, IndexUse.add, IndexUse.add, Register.indexBase?_exchange,
      Register.isPlainHl_exchange]
    cases register.indexBase? with
    | none => rfl
    | some base => exact IndexUse.note_exchange { use with asRegister := true } mnemonic base
  | indexed register displacement =>
    exact IndexUse.note_exchange { use with asMemory := true } mnemonic register
  | indirect register => cases register <;> rfl
  | _ => rfl

theorem IndexUse.foldlM_exchange (mnemonic : String) (operands : List Operand) (use : IndexUse) :
    (operands.map Operand.exchange).foldlM (IndexUse.add mnemonic) use.exchange =
      (operands.foldlM (IndexUse.add mnemonic) use).map exchange := by
  induction operands generalizing use with
  | nil => rfl
  | cons operand operands ih =>
    rw [List.map_cons, List.foldlM_cons, List.foldlM_cons, IndexUse.add_exchange]
    cases use.add mnemonic operand with
    | error cause => rfl
    | ok next => exact ih next

/-- What a form makes of the index register that its operands use. -/
def IndexUse.settle (form : Form) (use : IndexUse) : Except Cause (Option Register) := do
  if use.index.isNone then return none
  if form.page == .ed || (form.page == .cb && use.asRegister) then
    throw (.indexNotAllowed form.mnemonic)
  if use.asRegister && (use.plain || use.asMemory) then
    throw (.registerCombination form.mnemonic)
  return use.index

theorem indexRegister_eq (form : Form) (operands : List Operand) :
    indexRegister form operands =
      operands.foldlM (IndexUse.add form.mnemonic) {} >>= IndexUse.settle form :=
  rfl

/-- The page and the kinds of operands decide, and they stay. -/
theorem IndexUse.settle_exchange (form : Form) (use : IndexUse) :
    use.exchange.settle form = (use.settle form).map (Option.map Register.exchange) := by
  obtain ⟨mnemonic, patterns, page, opcode, fields, tail⟩ := form
  obtain ⟨index, asRegister, asMemory, plain⟩ := use
  cases index with
  | none => rfl
  | some base => cases page <;> cases asRegister <;> cases asMemory <;> cases plain <;> rfl

theorem indexRegister_exchange (form : Form) (operands : List Operand) :
    indexRegister form (operands.map Operand.exchange) =
      (indexRegister form operands).map (Option.map Register.exchange) := by
  have huse := IndexUse.foldlM_exchange form.mnemonic operands {}
  rw [show IndexUse.exchange {} = {} from rfl] at huse
  rw [indexRegister_eq, indexRegister_eq, huse]
  cases operands.foldlM (IndexUse.add form.mnemonic) {} with
  | error cause => rfl
  | ok use => exact use.settle_exchange form

theorem IndexUse.eq_of_settle {form : Form} {use : IndexUse} {index : Option Register}
    (h : use.settle form = .ok index) : index = use.index := by
  obtain ⟨mnemonic, patterns, page, opcode, fields, tail⟩ := form
  obtain ⟨own, asRegister, asMemory, plain⟩ := use
  cases own with
  | none =>
    cases h
    rfl
  | some base =>
    cases page <;> cases asRegister <;> cases asMemory <;> cases plain <;> cases h <;> rfl

/-- The index register of an instruction is the one that an operand of it uses. -/
theorem indexBase?_eq_some_iff {form : Form} {operands : List Operand} {index : Option Register}
    (h : indexRegister form operands = .ok index) {used : Register} :
    index.bind Register.indexBase? = some used ↔ ∃ operand ∈ operands, operand.Uses used := by
  obtain ⟨use, huse, hsettle⟩ := except_bind_eq_ok.mp h
  obtain ⟨-, -, -, -, hbases, hfrom⟩ := IndexUse.foldlM_eq_ok huse
  cases IndexUse.eq_of_settle hsettle
  constructor
  · intro hused
    rcases hfrom with hnone | ⟨operand, hoperand, hbase⟩
    · rw [hnone] at hused
      cases hused
    · exact ⟨operand, hoperand, by rwa [Operand.Uses, hbase]⟩
  · rintro ⟨operand, hoperand, huses⟩
    obtain ⟨base, hbase, hused⟩ := Option.bind_eq_some_iff.mp huses
    rw [hbases operand hoperand base hbase]
    exact hused

/-! ## Instructions -/

theorem mergedOperands_exchange (form : Form) (operands : List Operand) :
    mergedOperands form (operands.map Operand.exchange) =
      (mergedOperands form operands).map Operand.exchange := by
  rw [mergedOperands, mergedOperands, List.map_filterMap]
  congr 1
  funext field
  cases field.mem8? with
  | none => rfl
  | some i =>
    show (operands.map Operand.exchange)[i]? = (operands[i]?).map Operand.exchange
    rw [List.getElem?_map]

theorem checkMemory_exchange (form : Form) (operands : List Operand) :
    checkMemory form (operands.map Operand.exchange) = checkMemory form operands := by
  have hcount : ((mergedOperands form operands).map Operand.exchange).countP Operand.isMemory =
      (mergedOperands form operands).countP Operand.isMemory := by
    rw [List.countP_map]
    congr 1
    funext operand
    exact operand.isMemory_exchange
  rw [checkMemory, checkMemory, mergedOperands_exchange, hcount]

namespace Instruction

/-- The instruction with the index registers exchanged. -/
def exchange (instr : Instruction) : Instruction where
  form := instr.form
  operands := instr.operands.map Operand.exchange
  index := instr.index.map Register.exchange

@[simp] theorem exchange_exchange (instr : Instruction) : instr.exchange.exchange = instr := by
  obtain ⟨form, operands, index⟩ := instr
  simp [exchange, Function.comp_def]

theorem indexRegister_of_select {mnemonic : String} {arguments : Option Expr}
    {operands : List Operand} {instr : Instruction}
    (h : select mnemonic arguments operands = .ok instr) :
    indexRegister instr.form instr.operands = .ok instr.index ∧ instr.operands = operands := by
  unfold select at h
  split at h
  · cases h
  · obtain ⟨index, hindex, h⟩ := except_bind_eq_ok.mp h
    obtain ⟨_, -, h⟩ := except_bind_eq_ok.mp h
    cases h
    exact ⟨hindex, rfl⟩

/-- Exchanged operands select the exchanged instruction, whatever a failure would show. -/
theorem select_exchange {mnemonic : String} {arguments : Option Expr} {operands : List Operand}
    {instr : Instruction} (arguments' : Option Expr)
    (h : select mnemonic arguments operands = .ok instr) :
    select mnemonic arguments' (operands.map Operand.exchange) = .ok instr.exchange := by
  have hfind : ((Form.ofMnemonic mnemonic).find? fun form =>
        acceptsAll form.operands (operands.map Operand.exchange)) =
      (Form.ofMnemonic mnemonic).find? fun form => acceptsAll form.operands operands := by
    refine List.find?_congr fun form hform => acceptsAll_exchange ?_ operands
    exact Form.keptApart form (List.mem_filter.mp hform).1
  unfold select at h ⊢
  rw [hfind]
  cases hform : (Form.ofMnemonic mnemonic).find? fun form => acceptsAll form.operands operands with
  | none =>
    rw [hform] at h
    cases h
  | some form =>
    rw [hform] at h
    obtain ⟨index, hindex, h⟩ := except_bind_eq_ok.mp h
    obtain ⟨_, hchecked, h⟩ := except_bind_eq_ok.mp h
    cases h
    simp only [except_bind_eq_ok, indexRegister_exchange, hindex, checkMemory_exchange, hchecked]
    exact ⟨_, rfl, (), trivial, rfl⟩

variable (s : Scopes) (instr : Instruction)

theorem displacement?_exchange : instr.exchange.displacement? = instr.displacement? := by
  show (mergedOperands instr.form (instr.operands.map Operand.exchange)).findSome? _ = _
  rw [mergedOperands_exchange, List.findSome?_map, displacement?]
  congr 1
  funext operand
  cases operand <;> rfl

theorem size_exchange : instr.exchange.size = instr.size := by
  rw [size, size, displacement?_exchange]
  show 1 + instr.form.tail.size +
    (if (instr.index.map Register.exchange).isSome then 1 else 0) + _ + _ = _
  rw [Option.isSome_map]
  rfl

theorem operand_exchange (operand : Nat) :
    instr.exchange.operands[operand]? = instr.operands[operand]?.map Operand.exchange :=
  List.getElem?_map

theorem value?_exchange (operand : Nat) :
    instr.exchange.operands[operand]?.bind Operand.value? =
      instr.operands[operand]?.bind Operand.value? := by
  rw [operand_exchange]
  cases instr.operands[operand]? <;> simp

theorem value_exchange (operand : Nat) : instr.exchange.value s operand = instr.value s operand := by
  rw [value, value, value?_exchange]
  rfl

theorem code8_exchange (operand : Nat) : instr.exchange.code8 operand = instr.code8 operand := by
  rw [code8, code8, operand_exchange]
  cases instr.operands[operand]? with
  | none => rfl
  | some other =>
    cases other with
    | reg register => cases register <;> rfl
    | indirect register => cases register <;> rfl
    | _ => rfl

theorem code16_exchange (operand : Nat) : instr.exchange.code16 operand = instr.code16 operand := by
  have hcode : (instr.exchange.operands[operand]?.bind Operand.register?).bind Register.code16? =
      (instr.operands[operand]?.bind Operand.register?).bind Register.code16? := by
    rw [operand_exchange]
    cases instr.operands[operand]? with
    | none => rfl
    | some other => cases other <;> simp [Operand.exchange, Operand.register?]
  rw [code16, code16, hcode]
  rfl

theorem conditionCode_exchange (operand : Nat) :
    instr.exchange.conditionCode operand = instr.conditionCode operand := by
  have hcondition : instr.exchange.operands[operand]?.bind Operand.condition? =
      instr.operands[operand]?.bind Operand.condition? := by
    rw [operand_exchange]
    cases instr.operands[operand]? <;> simp
  rw [conditionCode, conditionCode, hcondition]
  rfl

theorem opcode_exchange : instr.exchange.opcode s = instr.opcode s := by
  have hmerge : instr.exchange.merge s = instr.merge s := by
    funext opcode field
    cases field <;>
      simp only [merge, value_exchange, code8_exchange, code16_exchange, conditionCode_exchange]
  rw [opcode, opcode, hmerge]
  rfl

theorem displacementByte_exchange : instr.exchange.displacementByte s = instr.displacementByte s := by
  rw [displacementByte, displacementByte, displacement?_exchange]

theorem tailBytes_exchange (address : UInt32) :
    instr.exchange.tailBytes s address = instr.tailBytes s address := by
  simp only [tailBytes, value_exchange, size_exchange]
  rfl

variable {s instr} {address : UInt32} {bytes : List UInt8}

theorem encode_of_parts {opcode : UInt8} {displacement : Option UInt8} {tail : List UInt8}
    (hopcode : instr.opcode s = .ok opcode)
    (hdisplacement : instr.displacementByte s = .ok displacement)
    (htail : instr.tailBytes s address = .ok tail) :
    instr.encode s address = .ok ((instr.index.bind Register.indexByte?).toList ++
      (instr.form.page.byte?.toList ++ (coreBytes instr.form.page opcode displacement ++ tail))) := by
  simp only [encode, except_bind_eq_ok, except_pure_eq_ok]
  refine ⟨opcode, hopcode, displacement, hdisplacement, tail, htail, ?_⟩
  cases hpage : instr.form.page <;> cases displacement <;> simp [coreBytes]

/-- The codes of an instruction and of the exchanged one agree behind the byte of the index
    register. -/
theorem encode_exchange (h : instr.encode s address = .ok bytes) :
    ∃ rest, bytes = (instr.index.bind Register.indexByte?).toList ++ rest ∧
      instr.exchange.encode s address =
        .ok ((instr.exchange.index.bind Register.indexByte?).toList ++ rest) := by
  obtain ⟨opcode, displacement, tail, hopcode, hdisplacement, htail, hbytes⟩ := encode_eq_ok h
  refine ⟨_, hbytes, encode_of_parts ?_ ?_ ?_⟩
  · rw [opcode_exchange, hopcode]
  · rw [displacementByte_exchange, hdisplacement]
  · rw [tailBytes_exchange, htail]

theorem encode_exchange_iff : (∃ bytes, instr.exchange.encode s address = .ok bytes) ↔
    ∃ bytes, instr.encode s address = .ok bytes := by
  constructor
  · rintro ⟨bytes, h⟩
    obtain ⟨rest, -, hback⟩ := encode_exchange h
    rw [exchange_exchange] at hback
    exact ⟨_, hback⟩
  · rintro ⟨bytes, h⟩
    obtain ⟨rest, -, hthere⟩ := encode_exchange h
    exact ⟨_, hthere⟩

end Instruction

/-! ## Both registers at once -/

/-- The codes of two instructions that differ in the index register only: they are equal if these
    operands use none, and else they differ in the byte in front. -/
structure Twins (operands : List Operand) (bytes bytes' : List UInt8) : Prop where
  plain : (∀ operand ∈ operands, ¬operand.Uses .ix ∧ ¬operand.Uses .iy) → bytes' = bytes
  ix : (∃ operand ∈ operands, operand.Uses .ix) →
    ∃ rest, bytes = 0xDD :: rest ∧ bytes' = 0xFD :: rest
  iy : (∃ operand ∈ operands, operand.Uses .iy) →
    ∃ rest, bytes = 0xFD :: rest ∧ bytes' = 0xDD :: rest

/-- The byte in front of an instruction goes by the index register. -/
theorem Register.bind_indexByte? (index : Option Register) :
    index.bind Register.indexByte? =
      (index.bind Register.indexBase?).map fun base => if base = .ix then 0xDD else 0xFD := by
  cases index <;> rfl

theorem Register.bind_indexBase?_exchange (index : Option Register) :
    (index.map Register.exchange).bind Register.indexBase? =
      (index.bind Register.indexBase?).map Register.exchange := by
  cases index with
  | none => rfl
  | some base => exact base.indexBase?_exchange

theorem Register.eq_of_indexBase? {register base : Register} (h : register.indexBase? = some base) :
    base = .ix ∨ base = .iy := by
  cases register <;> cases h <;> simp

theorem twins_of_indexRegister {form : Form} {operands : List Operand} {index : Option Register}
    (h : indexRegister form operands = .ok index) (rest : List UInt8) :
    Twins operands ((index.bind Register.indexByte?).toList ++ rest)
      (((index.map Register.exchange).bind Register.indexByte?).toList ++ rest) := by
  have hbase {used : Register} : index.bind Register.indexBase? = some used ↔
      ∃ operand ∈ operands, operand.Uses used := indexBase?_eq_some_iff h
  rw [Register.bind_indexByte?, Register.bind_indexByte?, Register.bind_indexBase?_exchange]
  refine ⟨fun hnone => ?_, fun huses => ?_, fun huses => ?_⟩
  · cases hindex : index.bind Register.indexBase? with
    | none => rfl
    | some used =>
      -- Some operand uses it then, and there are only these two.
      obtain ⟨operand, hoperand, huses⟩ := hbase.mp hindex
      obtain ⟨base, -, hused⟩ := Option.bind_eq_some_iff.mp huses
      rcases Register.eq_of_indexBase? hused with rfl | rfl
      · exact absurd huses (hnone operand hoperand).1
      · exact absurd huses (hnone operand hoperand).2
  · rw [hbase.mpr huses]
    exact ⟨rest, rfl, rfl⟩
  · rw [hbase.mpr huses]
    exact ⟨rest, rfl, rfl⟩

/-- **`IX` and `IY` are interchangeable.** Exchanging `IX` and `IY` in all operands of an
    instruction changes the byte in front of its code and nothing else. The exchanged operands are
    accepted if the operands are, by the same form and with the same size, whatever a failure would
    show of the line; and there is code for both or for none. -/
theorem select_encode_symmetric (mnemonic : String) (arguments arguments' : Option Expr)
    (operands : List Operand) (s : Scopes) (address : UInt32) :
    (∀ instr, Instruction.select mnemonic arguments' (operands.map Operand.exchange) =
        .ok instr.exchange ↔ Instruction.select mnemonic arguments operands = .ok instr) ∧
    ∀ instr, Instruction.select mnemonic arguments operands = .ok instr →
      instr.exchange.form = instr.form ∧ instr.exchange.size = instr.size ∧
      ((∃ bytes, instr.exchange.encode s address = .ok bytes) ↔
        ∃ bytes, instr.encode s address = .ok bytes) ∧
      ∀ bytes bytes', instr.encode s address = .ok bytes →
        instr.exchange.encode s address = .ok bytes' → Twins operands bytes bytes' := by
  refine ⟨fun instr => ⟨fun h => ?_, Instruction.select_exchange _⟩, fun instr hselect => ?_⟩
  · have hback := Instruction.select_exchange arguments h
    rw [List.map_map, Instruction.exchange_exchange] at hback
    simpa [Function.comp_def] using hback
  · refine ⟨rfl, instr.size_exchange, Instruction.encode_exchange_iff, ?_⟩
    intro bytes bytes' hencode hencode'
    obtain ⟨rest, rfl, hthere⟩ := Instruction.encode_exchange hencode
    cases hthere.symm.trans hencode'
    obtain ⟨hindex, hoperands⟩ := Instruction.indexRegister_of_select hselect
    rw [← hoperands]
    exact twins_of_indexRegister hindex rest

/-- `SET 1,(IX+2)` and `SET 1,(IY+2)`. -/
theorem select_encode_symmetric_set : ∃ instr,
    Instruction.select "set" none [.immediate (.int 1), .indexed .ix (.int 2)] = .ok instr ∧
    Instruction.select "set" none [.immediate (.int 1), .indexed .iy (.int 2)] = .ok instr.exchange ∧
    instr.exchange.size = 4 ∧ instr.encode {} 0 = .ok [0xDD, 0xCB, 0x02, 0xCE] ∧
    instr.exchange.encode {} 0 = .ok [0xFD, 0xCB, 0x02, 0xCE] ∧
    Twins [.immediate (.int 1), .indexed .ix (.int 2)] [0xDD, 0xCB, 0x02, 0xCE]
      [0xFD, 0xCB, 0x02, 0xCE] := by
  obtain ⟨hselect, hencode⟩ := select_encode_symmetric "set" none none
    [.immediate (.int 1), .indexed .ix (.int 2)] {} 0
  refine ⟨_, rfl, (hselect _).mpr rfl, ?_, rfl, rfl, ?_⟩
  · exact (hencode _ rfl).2.1
  · exact (hencode _ rfl).2.2.2 _ _ rfl rfl

end Z80Asm.Cpu
