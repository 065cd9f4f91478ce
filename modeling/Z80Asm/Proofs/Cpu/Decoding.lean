import Z80Asm.Proofs.Cpu.Classification
import Z80Asm.Proofs.Cpu.Reading

/-!
# Machine code determines the instruction

`decode` reads an instruction back from its bytes: the byte of an index register, the byte of the
opcode's page, the opcode with the displacement, and the value behind it. The opcode is looked up
among the opcodes of all forms with all their templates. That it cannot mean two different things is
checked once for the whole table (`entryAt?_of_mem`).

The bytes of an instruction, with anything behind them, are read back as what the instruction says
(`decode_encode`). So no code is the beginning of another code, and a list of instructions is read
back from its code.

`decode` is not part of the program, which never reads machine code. It is the specification,
written as a function: an inverse that can be run says more than that codes differ.
-/
set_option autoImplicit false

namespace Z80Asm.Cpu

open Success

/-! ## Opcodes -/

/-- What an opcode says: a mnemonic, templates of the operands that cannot be left out, and what
    kind of value follows. -/
structure Skeleton where
  mnemonic : String
  operands : List Template
  tail : Tail
  deriving DecidableEq, Repr

/-- What follows, without the operand that it belongs to. -/
def Tail.kind : Tail → Tail
  | .none => .none
  | .imm8 _ => .imm8 0
  | .imm16 _ => .imm16 0
  | .rel _ => .rel 0

def Form.skeleton (form : Form) (templates : List Template) : Skeleton :=
  ⟨form.mnemonic, templates.drop form.omitted, form.tail.kind⟩

/-- The opcodes on a quarter of a page, with what they say. -/
def entries (page : Page) (quarter : Nat) : List (UInt8 × Skeleton) :=
  ((Form.table.filter (·.page == page)).flatMap fun form =>
    form.templateLists.map fun templates => (form.byte templates, form.skeleton templates)).filter
      fun entry => Nat.beq (entry.1.toNat / 64) quarter

def entryAt? (page : Page) (quarter : Nat) (opcode : UInt8) : Option (UInt8 × Skeleton) :=
  (entries page quarter).find? fun entry => Nat.beq entry.1.toNat opcode.toNat

def skeleton? (page : Page) (opcode : UInt8) : Option Skeleton :=
  (entryAt? page (opcode.toNat / 64) opcode).map Prod.snd

/-- An opcode says one thing only. -/
theorem entryAt?_of_mem : ∀ page ∈ [Page.main, Page.cb, Page.ed], ∀ quarter ∈ [0, 1, 2, 3],
    ∀ entry ∈ entries page quarter, entryAt? page quarter entry.1 = some entry := by
  decide +kernel

/-- The bytes in front of an opcode are no opcodes of the main page. -/
theorem not_mark_of_mem : ∀ quarter ∈ [0, 1, 2, 3], ∀ entry ∈ entries .main quarter,
    entry.1 ∉ [0xDD, 0xFD, 0xCB, 0xED] := by
  decide +kernel

theorem mem_entries {form : Form} {templates : List Template} (hform : form ∈ Form.table)
    (h : templates ∈ form.templateLists) :
    (form.byte templates, form.skeleton templates) ∈
      entries form.page ((form.byte templates).toNat / 64) := by
  refine List.mem_filter.mpr ⟨?_, Nat.beq_refl _⟩
  refine List.mem_flatMap.mpr ⟨form, List.mem_filter.mpr ⟨hform, beq_self_eq_true _⟩, ?_⟩
  exact List.mem_map.mpr ⟨templates, h, rfl⟩

theorem quarter_mem (opcode : UInt8) : opcode.toNat / 64 ∈ [0, 1, 2, 3] := by
  have hlt := opcode.toNat_lt
  simp only [List.mem_cons, List.not_mem_nil, or_false]
  omega

theorem skeleton?_byte {form : Form} {templates : List Template} (hform : form ∈ Form.table)
    (h : templates ∈ form.templateLists) :
    skeleton? form.page (form.byte templates) = some (form.skeleton templates) := by
  have hpage : form.page ∈ [Page.main, Page.cb, Page.ed] := by
    cases form.page <;> decide
  rw [skeleton?, entryAt?_of_mem _ hpage _ (quarter_mem _) _ (mem_entries hform h)]
  rfl

theorem byte_not_mark {form : Form} {templates : List Template} (hform : form ∈ Form.table)
    (h : templates ∈ form.templateLists) (hmain : form.page = .main) :
    form.byte templates ∉ [0xDD, 0xFD, 0xCB, 0xED] := by
  have hmem := mem_entries hform h
  rw [hmain] at hmem
  exact not_mark_of_mem _ (quarter_mem _) _ hmem

/-! ## Reading bytes -/

/-- Takes the byte of an index register, if there is one. -/
def takeIndex : List UInt8 → Option Register × List UInt8
  | [] => (none, [])
  | byte :: rest =>
    if byte = 0xDD then (some .ix, rest)
    else if byte = 0xFD then (some .iy, rest)
    else (none, byte :: rest)

/-- Takes the byte of a page, if there is one. -/
def takePage : List UInt8 → Page × List UInt8
  | [] => (.main, [])
  | byte :: rest =>
    if byte = 0xCB then (.cb, rest)
    else if byte = 0xED then (.ed, rest)
    else (.main, byte :: rest)

/-- Takes a byte where there has to be one. -/
def takeByteIf (wanted : Bool) (bytes : List UInt8) : Option (Option UInt8 × List UInt8) :=
  match wanted, bytes with
  | false, bytes => some (none, bytes)
  | true, byte :: rest => some (some byte, rest)
  | true, [] => none

@[simp] theorem takeByteIf_false (bytes : List UInt8) :
    takeByteIf false bytes = some (none, bytes) := rfl

@[simp] theorem takeByteIf_true (byte : UInt8) (rest : List UInt8) :
    takeByteIf true (byte :: rest) = some (some byte, rest) := rfl

/-- Takes the value that follows. A distance counts from where the rest begins. -/
def Tail.take (start : List UInt8 → Nat) : Tail → List UInt8 → Option (Int × List UInt8)
  | .none, bytes => some (0, bytes)
  | .imm8 _, byte :: rest => some (byte.toNat, rest)
  | .imm16 _, low :: high :: rest => some (low.toNat + 0x100 * high.toNat, rest)
  | .rel _, byte :: rest => some ((Int64.ofNat (start rest) + signedByte byte).toInt, rest)
  | _, _ => Option.none

/-- Reads an instruction from where its opcode and displacement stand. -/
def decodeOpcode (start : List UInt8 → Nat) (index : Option Register) (page : Page)
    (bytes : List UInt8) : Option (Reading × List UInt8) := do
  let (early, rest) ← takeByteIf (page == .cb && index.isSome) bytes
  let (opcode, rest) ← rest.head?.map (·, rest.tail)
  let skeleton ← skeleton? page opcode
  let (late, rest) ←
    takeByteIf (page != .cb && index.isSome && skeleton.operands.contains (.eight 6)) rest
  let (value, rest) ← skeleton.tail.take start rest
  let around : Surroundings := { index, displacement := (early.or late).map signedByte, value }
  return (⟨skeleton.mnemonic, skeleton.operands.map (Template.meaning around)⟩, rest)

/-- Reads an instruction at an address, and gives what follows it. -/
def decode (address : UInt32) (bytes : List UInt8) : Option (Reading × List UInt8) :=
  let (index, rest) := takeIndex bytes
  let (page, rest) := takePage rest
  decodeOpcode (fun rest => address.toNat + (bytes.length - rest.length)) index page rest

/-! ## The stages of decoding -/

theorem decode_eq {address : UInt32} {bytes rest rest' : List UInt8} {index : Option Register}
    {page : Page} (hindex : takeIndex bytes = (index, rest))
    (hpage : takePage rest = (page, rest')) :
    decode address bytes = decodeOpcode
      (fun more => address.toNat + (bytes.length - more.length)) index page rest' := by
  simp only [decode, hindex, hpage]

theorem takeIndex_append {index : Option Register} {bytes : List UInt8}
    (hindex : ∀ register ∈ index, register.isIndex = true)
    (hfirst : ∀ byte ∈ bytes.head?, byte ≠ 0xDD ∧ byte ≠ 0xFD) :
    takeIndex ((index.bind Register.indexByte?).toList ++ bytes) = (index, bytes) := by
  cases index with
  | none =>
    cases bytes with
    | nil => rfl
    | cons byte rest =>
      obtain ⟨hix, hiy⟩ := hfirst byte rfl
      simp only [Option.bind_none, Option.toList_none, List.nil_append, takeIndex, if_neg hix,
        if_neg hiy]
  | some register =>
    have h := hindex register rfl
    cases register <;> first | rfl | cases h

theorem takePage_append {page : Page} {bytes : List UInt8}
    (hfirst : page = .main → ∀ byte ∈ bytes.head?, byte ≠ 0xCB ∧ byte ≠ 0xED) :
    takePage (page.byte?.toList ++ bytes) = (page, bytes) := by
  cases page with
  | main =>
    cases bytes with
    | nil => rfl
    | cons byte rest =>
      obtain ⟨hcb, hed⟩ := hfirst rfl byte rfl
      simp only [Page.byte?, Option.toList_none, List.nil_append, takePage, if_neg hcb, if_neg hed]
  | cb => rfl
  | ed => rfl

section Encoded

variable {s : Scopes} {instr : Instruction} {address : UInt32}

theorem value_eq_ok {i : Nat} {v : Int64} {e : Expr} (h : instr.value s i = .ok v)
    (he : instr.operands[i]?.bind Operand.value? = some e) : e.integer s = .ok v := by
  rw [Instruction.value, he] at h
  exact h

/-- The value behind an opcode is read back, as far as it counts. -/
theorem take_tailBytes {tail : List UInt8} (h : instr.tailBytes s address = .ok tail) :
    tail.length = instr.form.tail.size ∧
    ∃ value, (∀ start rest, start rest = address.toNat + instr.size →
        instr.form.tail.kind.take start (tail ++ rest) = some (value, rest)) ∧
      ∀ i e, instr.operands[i]?.bind Operand.value? = some e →
        instr.form.tail = .imm8 i ∨ instr.form.tail = .imm16 i ∨ instr.form.tail = .rel i →
        ∃ v, e.integer s = .ok v ∧ instr.form.tail.residue v = value := by
  unfold Instruction.tailBytes at h
  cases htail : instr.form.tail with
  | none =>
    rw [htail] at h
    cases h
    refine ⟨rfl, 0, fun _ _ _ => rfl, ?_⟩
    rintro i e - (h | h | h) <;> cases h
  | imm8 i =>
    simp only [htail, except_bind_eq_ok] at h
    obtain ⟨v, hv, h⟩ := h
    split at h
    · cases h
    · cases h
      refine ⟨rfl, _, fun _ _ _ => rfl, ?_⟩
      rintro j e he (h | h | h) <;> cases h
      exact ⟨v, value_eq_ok hv he, (toNat_lowByte v).symm⟩
  | imm16 i =>
    simp only [htail, except_bind_eq_ok] at h
    obtain ⟨v, hv, h⟩ := h
    split at h
    · cases h
    · cases h
      refine ⟨rfl, _, fun _ _ _ => rfl, ?_⟩
      rintro j e he (h | h | h) <;> cases h
      exact ⟨v, value_eq_ok hv he, (toNat_lowBytes v).symm⟩
  | rel i =>
    simp only [htail, except_bind_eq_ok] at h
    obtain ⟨target, htarget, h⟩ := h
    split at h
    · cases h
    next hfits =>
      cases h
      have hfits : fitsDisplacement (target - Int64.ofNat (address.toNat + instr.size)) = true := by
        simpa using hfits
      refine ⟨rfl, target.toInt, fun start rest hstart => ?_, ?_⟩
      · simp only [Tail.kind, Tail.take, List.cons_append, List.nil_append, hstart,
          signedByte_lowByte hfits, Int64.add_comm (Int64.ofNat _), Int64.sub_add_cancel]
      · rintro j e he (h | h | h) <;> cases h
        exact ⟨target, value_eq_ok htarget he, rfl⟩

/-- The displacement byte gives the displacement. -/
theorem displacementByte_eq_ok {byte : Option UInt8} (h : instr.displacementByte s = .ok byte) :
    (instr.displacement? = none ∧ byte = none) ∨
      ∃ e v, instr.displacement? = some e ∧ e.integer s = .ok v ∧ byte = some (lowByte v) ∧
        signedByte (lowByte v) = v := by
  unfold Instruction.displacementByte at h
  cases hdisplacement : instr.displacement? with
  | none =>
    rw [hdisplacement] at h
    cases h
    exact .inl ⟨rfl, rfl⟩
  | some e =>
    simp only [hdisplacement, except_bind_eq_ok] at h
    obtain ⟨v, hv, h⟩ := h
    split at h
    · cases h
    next hfits =>
      cases h
      exact .inr ⟨e, v, rfl, hv, rfl, signedByte_lowByte (by simpa using hfits)⟩

theorem length_front {index : Option Register} {page : Page}
    (hindex : ∀ register ∈ index, register.isIndex = true) :
    ((index.bind Register.indexByte?).toList ++ page.byte?.toList).length =
      (if index.isSome then 1 else 0) + if page != .main then 1 else 0 := by
  rw [List.length_append]
  congr 1
  · cases index with
    | none => rfl
    | some register =>
      have h := hindex register rfl
      cases register <;> first | rfl | cases h
  · cases page <;> rfl

end Encoded

/-! ## Instructions read back -/

/-- The opcode of an instruction and the displacement beside it. -/
def coreBytes (page : Page) (opcode : UInt8) : Option UInt8 → List UInt8
  | none => [opcode]
  | some displacement => if page = .cb then [displacement, opcode] else [opcode, displacement]

theorem encode_eq_ok {s : Scopes} {instr : Instruction} {address : UInt32} {bytes : List UInt8}
    (h : instr.encode s address = .ok bytes) :
    ∃ opcode displacement tail, instr.opcode s = .ok opcode ∧
      instr.displacementByte s = .ok displacement ∧ instr.tailBytes s address = .ok tail ∧
      bytes = (instr.index.bind Register.indexByte?).toList ++ (instr.form.page.byte?.toList ++
        (coreBytes instr.form.page opcode displacement ++ tail)) := by
  simp only [Instruction.encode, except_bind_eq_ok, except_pure_eq_ok] at h
  obtain ⟨opcode, hopcode, displacement, hdisplacement, tail, htail, rfl⟩ := h
  refine ⟨opcode, displacement, tail, hopcode, hdisplacement, htail, ?_⟩
  cases hpage : instr.form.page <;> cases displacement <;> simp [coreBytes]

theorem mem_drop_omitted {form : Form} {templates : List Template}
    (h : templates ∈ form.templatesFrom 0 form.operands) :
    .eight 6 ∈ templates.drop form.omitted ↔ .eight 6 ∈ templates := by
  have hfirst {register : Register} {patterns : List Pattern}
      (hoperands : form.operands = .reg register :: patterns) :
      .eight 6 ∈ templates.drop 1 ↔ .eight 6 ∈ templates := by
    rw [hoperands] at h
    obtain ⟨template, htemplate, h⟩ := List.mem_flatMap.mp h
    obtain ⟨rest, -, rfl⟩ := List.mem_map.mp h
    cases List.mem_singleton.mp htemplate
    simp
  unfold Form.omitted
  split
  next hoperands =>
    split
    · exact hfirst hoperands
    · rfl
  next hoperands =>
    split
    · exact hfirst hoperands
    · rfl
  · rfl

theorem Addressing.isIndex {operands : List Operand} {index : Option Register}
    (h : Addressing operands index) : ∀ register ∈ index, register.isIndex = true := by
  intro register hregister
  cases h with
  | plain _ => cases hregister
  | register hindex _ _ =>
    cases hregister
    exact hindex
  | memory hindex _ _ =>
    cases hregister
    exact hindex

namespace Instruction.Matches

variable {s : Scopes} {instr : Instruction} {templates : List Template} {address : UInt32}

/-- Behind the bytes in front, the opcode is read with its displacement and what follows. -/
theorem decodeOpcode_core {start : List UInt8 → Nat} {displacement : Option UInt8}
    {bytes rest : List UInt8} {value : Int} (h : instr.Matches s templates)
    (hform : instr.form ∈ Form.table)
    (hdisplacement : displacement.isSome = instr.displacement?.isSome)
    (htail : instr.form.tail.kind.take start bytes = some (value, rest)) :
    decodeOpcode start instr.index instr.form.page
        (coreBytes instr.form.page (instr.form.byte templates) displacement ++ bytes) =
      some (⟨instr.form.mnemonic, (templates.drop instr.form.omitted).map
        (Template.meaning ⟨instr.index, displacement.map signedByte, value⟩)⟩, rest) := by
  have hskeleton := skeleton?_byte hform h.templates_mem
  have hmemory := mem_drop_omitted h.from_mem
  have hiff := h.isSome_displacement?_iff
  rw [← hdisplacement] at hiff
  cases displacement with
  | none =>
    have hearly : (instr.form.page == .cb && instr.index.isSome) = false := by
      rw [Bool.and_eq_false_imp]
      intro hpage
      rw [Bool.eq_false_iff]
      intro hindex
      rw [h.isSome_displacement?_of_cb hindex (eq_of_beq hpage)] at hdisplacement
      cases hdisplacement
    have hlate : (instr.form.page != .cb && instr.index.isSome &&
        (templates.drop instr.form.omitted).contains (.eight 6)) = false := by
      rw [Bool.eq_false_iff]
      intro hall
      simp only [Bool.and_eq_true, List.contains_iff_mem, hmemory] at hall
      cases hiff.mpr ⟨hall.1.2, hall.2⟩
    simp only [decodeOpcode, coreBytes, hearly, takeByteIf_false, Option.bind_eq_bind,
      Option.bind_some, List.singleton_append, List.head?_cons, Option.map_some, List.tail_cons,
      hskeleton, Form.skeleton, hlate, htail]
    rfl
  | some byte =>
    obtain ⟨hindex, hmem⟩ := hiff.mp rfl
    by_cases hpage : instr.form.page = .cb
    · rw [hpage] at hskeleton
      simp [decodeOpcode, coreBytes, hpage, hindex, hskeleton, Form.skeleton, htail]
    · have hearly : (instr.form.page == .cb) = false := beq_eq_false_iff_ne.mpr hpage
      have hlate : (instr.form.page != .cb) = true := bne_iff_ne.mpr hpage
      simp [decodeOpcode, coreBytes, hpage, hearly, hlate, hindex, hskeleton, Form.skeleton,
        hmemory, hmem, htail]

theorem within_of_bytes {displacement : Option UInt8} {value : Int}
    (hdisplacement : instr.displacementByte s = .ok displacement)
    (hvalue : ∀ i e, instr.operands[i]?.bind Operand.value? = some e →
      instr.form.tail = .imm8 i ∨ instr.form.tail = .imm16 i ∨ instr.form.tail = .rel i →
      ∃ v, e.integer s = .ok v ∧ instr.form.tail.residue v = value) :
    instr.Within s ⟨instr.index, displacement.map signedByte, value⟩ ∧
      displacement.isSome = instr.displacement?.isSome := by
  rcases displacementByte_eq_ok hdisplacement with ⟨hnone, rfl⟩ | ⟨e, v, he, hv, rfl, hsigned⟩
  · refine ⟨⟨rfl, ?_, fun _ => rfl, hvalue⟩, by rw [hnone]; rfl⟩
    intro e he
    cases hnone.symm.trans he
  · refine ⟨⟨rfl, ?_, ?_, hvalue⟩, by rw [he]; rfl⟩
    · intro e' he'
      cases he.symm.trans he'
      exact ⟨v, hv, congrArg some hsigned⟩
    · intro hnone
      cases hnone.symm.trans he

/-- The bytes in front are told apart from what follows. -/
theorem take_front {displacement : Option UInt8} {bytes : List UInt8}
    (h : instr.Matches s templates) (hform : instr.form ∈ Form.table) :
    let core := coreBytes instr.form.page (instr.form.byte templates) displacement ++ bytes
    takeIndex ((instr.index.bind Register.indexByte?).toList ++
        (instr.form.page.byte?.toList ++ core)) =
        (instr.index, instr.form.page.byte?.toList ++ core) ∧
      takePage (instr.form.page.byte?.toList ++ core) = (instr.form.page, core) := by
  intro core
  have hmain (hpage : instr.form.page = .main) : ∀ byte ∈ core.head?,
      byte ∉ [0xDD, 0xFD, 0xCB, 0xED] := by
    intro byte hbyte
    have hhead : core.head? = some (instr.form.byte templates) := by
      simp only [core, hpage]
      cases displacement <;> rfl
    cases hhead.symm.trans hbyte
    exact byte_not_mark hform h.templates_mem hpage
  refine ⟨takeIndex_append h.addressing.isIndex ?_, takePage_append ?_⟩
  · cases hpage : instr.form.page with
    | main =>
      intro byte hbyte
      have hnot := hmain hpage byte hbyte
      simp only [List.mem_cons, not_or] at hnot
      exact ⟨hnot.1, hnot.2.1⟩
    | cb =>
      rintro byte ⟨⟩
      decide
    | ed =>
      rintro byte ⟨⟩
      decide
  · intro hpage byte hbyte
    have hnot := hmain hpage byte hbyte
    simp only [List.mem_cons, not_or] at hnot
    exact ⟨hnot.2.2.1, hnot.2.2.2.1⟩

/-- **The code of an instruction, with anything behind it, is read back as what the instruction
    says.** -/
theorem decode_encode {bytes : List UInt8} (h : instr.Matches s templates)
    (hform : instr.form ∈ Form.table)
    (hopcode : instr.opcode s = .ok (instr.form.byte templates))
    (hencode : instr.encode s address = .ok bytes) :
    bytes.length = instr.size ∧ ∃ reading, instr.reading s = .ok reading ∧
      ∀ rest, decode address (bytes ++ rest) = some (reading, rest) := by
  obtain ⟨opcode, displacement, tail, hopcode', hdisplacement, htail, hbytes⟩ :=
    encode_eq_ok hencode
  cases hopcode'.symm.trans hopcode
  obtain ⟨hlength, value, htake, hvalue⟩ := take_tailBytes htail
  obtain ⟨hwithin, hsome⟩ := within_of_bytes hdisplacement hvalue
  have hsize : bytes.length = instr.size := by
    have hcore : (coreBytes instr.form.page (instr.form.byte templates) displacement).length =
        1 + if instr.displacement?.isSome then 1 else 0 := by
      rw [← hsome]
      cases displacement with
      | none => rfl
      | some byte =>
        rw [coreBytes]
        split <;> rfl
    rw [hbytes, ← List.append_assoc, List.length_append, length_front h.addressing.isIndex,
      List.length_append, hcore, hlength, Instruction.size]
    omega
  refine ⟨hsize, _, h.reading_eq hwithin, fun rest => ?_⟩
  have hall : bytes ++ rest = (instr.index.bind Register.indexByte?).toList ++
      (instr.form.page.byte?.toList ++
        (coreBytes instr.form.page (instr.form.byte templates) displacement ++ (tail ++ rest))) := by
    rw [hbytes]
    simp only [List.append_assoc]
  obtain ⟨hindex, hpage⟩ := h.take_front hform
  rw [← hall] at hindex
  rw [decode_eq hindex hpage]
  refine h.decodeOpcode_core hform hsome (htake _ rest ?_)
  rw [List.length_append, Nat.add_sub_cancel, hsize]

end Instruction.Matches

/-! ## Instructions as they are written -/

/-- An instruction that a mnemonic selects for operands. Where the operands come from is left open
    but for being proper, so that encoding can be treated without a session. -/
def Instruction.Selected (instr : Instruction) : Prop :=
  ∃ mnemonic arguments operands, (∀ operand ∈ operands, operand.Proper) ∧
    Instruction.select mnemonic arguments operands = .ok instr

/-- A mnemonic with classified operands selects such an instruction. -/
theorem Instruction.Selected.of_classify {t : Scopes} {mnemonic : String} {line : Option Expr}
    {arguments : List Expr} {instr : Instruction} (ht : t.Proper)
    (harguments : ∀ e ∈ arguments, e.Proper)
    (h : Instruction.select mnemonic line (arguments.map (Operand.classify t)) = .ok instr) :
    instr.Selected := by
  refine ⟨mnemonic, line, _, ?_, h⟩
  intro operand hoperand
  obtain ⟨e, he, rfl⟩ := List.mem_map.mp hoperand
  exact Operand.classify_proper ht (harguments e he)

theorem Instruction.Selected.exists_matches {instr : Instruction} {s : Scopes} {opcode : UInt8}
    (h : instr.Selected) (hopcode : instr.opcode s = .ok opcode) :
    instr.form ∈ Form.table ∧
      ∃ templates, instr.Matches s templates ∧ instr.form.byte templates = opcode := by
  obtain ⟨mnemonic, arguments, operands, hproper, hselect⟩ := h
  unfold Instruction.select at hselect
  split at hselect
  · cases hselect
  next form hfound =>
    obtain ⟨index, hindex, hselect⟩ := except_bind_eq_ok.mp hselect
    obtain ⟨_, hchecked, hselect⟩ := except_bind_eq_ok.mp hselect
    cases hselect
    have hform := (List.mem_filter.mp (List.mem_of_find?_eq_some hfound)).1
    have hsound := Form.sound_of_mem hform
    obtain ⟨haddressing, hpage⟩ := addressing_of_indexRegister hproper hindex
    have haccepts : acceptsAll form.operands operands = true := by
      simpa using List.find?_some hfound
    obtain ⟨templates, hmem, hfits, hbyte⟩ := exists_templates hsound haccepts hchecked hopcode
    exact ⟨hform, templates, ⟨hsound, hmem, hfits, haddressing, fun h => (hpage h).1,
      fun h => (hpage h).2⟩, hbyte⟩

theorem Instruction.Selected.decode_encode {instr : Instruction} {s : Scopes} {address : UInt32}
    {bytes : List UInt8} (h : instr.Selected) (hencode : instr.encode s address = .ok bytes) :
    bytes.length = instr.size ∧ ∃ reading, instr.reading s = .ok reading ∧
      ∀ rest, decode address (bytes ++ rest) = some (reading, rest) := by
  obtain ⟨opcode, _, _, hopcode, -⟩ := encode_eq_ok hencode
  obtain ⟨hform, templates, hmatches, rfl⟩ := h.exists_matches hopcode
  exact hmatches.decode_encode hform hopcode hencode

/-- No code is the beginning of another one. -/
theorem eq_of_isPrefix {instr instr' : Instruction} {s s' : Scopes} {address : UInt32}
    {bytes bytes' : List UInt8} (h : instr.Selected) (h' : instr'.Selected)
    (hencode : instr.encode s address = .ok bytes) (hencode' : instr'.encode s' address = .ok bytes')
    (hfront : bytes <+: bytes') :
    bytes = bytes' ∧
      ∃ reading, instr.reading s = .ok reading ∧ instr'.reading s' = .ok reading := by
  obtain ⟨-, reading, hreading, hdecode⟩ := h.decode_encode hencode
  obtain ⟨-, reading', hreading', hdecode'⟩ := h'.decode_encode hencode'
  obtain ⟨more, rfl⟩ := hfront
  have hsame := hdecode more
  have hwhole := hdecode' []
  rw [List.append_nil, hsame] at hwhole
  cases hwhole
  exact ⟨(List.append_nil _).symm, reading, hreading, hreading'⟩

/-! ## Lists of instructions -/

/-- The code of instructions one behind the other, the first at an address. -/
def encodeAll (s : Scopes) : UInt32 → List Instruction → Except Cause (List UInt8)
  | _, [] => .ok []
  | address, instr :: instrs => do
    let bytes ← instr.encode s address
    let rest ← encodeAll s (address + UInt32.ofNat instr.size) instrs
    return bytes ++ rest

/-- Reads at most so many instructions, the first at an address, up to the end of the code. -/
def decodeAll : Nat → UInt32 → List UInt8 → Option (List Reading)
  | _, _, [] => some []
  | 0, _, _ :: _ => none
  | count + 1, address, byte :: more => do
    let (reading, rest) ← decode address (byte :: more)
    let size := (byte :: more).length - rest.length
    let readings ← decodeAll count (address + UInt32.ofNat size) rest
    return reading :: readings

/-- The code of instructions is read back as what they say. -/
theorem decodeAll_encodeAll {s : Scopes} {instrs : List Instruction} {address : UInt32}
    {bytes : List UInt8} (hselected : ∀ instr ∈ instrs, instr.Selected)
    (hencode : encodeAll s address instrs = .ok bytes) {count : Nat}
    (hcount : bytes.length ≤ count) :
    ∃ readings, instrs.mapM (·.reading s) = .ok readings ∧
      decodeAll count address bytes = some readings := by
  induction instrs generalizing address bytes count with
  | nil =>
    cases hencode
    refine ⟨[], rfl, ?_⟩
    cases count <;> rfl
  | cons instr instrs ih =>
    obtain ⟨hinstr, hselected⟩ := List.forall_mem_cons.mp hselected
    obtain ⟨code, hcode, hencode⟩ := except_bind_eq_ok.mp hencode
    obtain ⟨rest, hrest, hencode⟩ := except_bind_eq_ok.mp hencode
    cases hencode
    obtain ⟨hsize, reading, hreading, hdecode⟩ := hinstr.decode_encode hcode
    have hpos : 0 < instr.size := by
      rw [Instruction.size]
      omega
    rw [List.length_append] at hcount
    cases count with
    | zero => omega
    | succ count =>
      obtain ⟨readings, hreadings, hdecodeAll⟩ := ih hselected hrest (show rest.length ≤ count by omega)
      refine ⟨reading :: readings, ?_, ?_⟩
      · rw [List.mapM_cons, hreading, hreadings]
        rfl
      · cases hbytes : code ++ rest with
        | nil =>
          rw [List.append_eq_nil_iff] at hbytes
          rw [hbytes.1] at hsize
          simp only [List.length_nil] at hsize
          omega
        | cons byte more =>
          have hlength : (byte :: more).length - rest.length = instr.size := by
            rw [← hbytes, List.length_append, Nat.add_sub_cancel, hsize]
          have hfirst := hdecode rest
          rw [hbytes] at hfirst
          simp only [decodeAll, hfirst, Option.bind_eq_bind, Option.bind_some, hlength, hdecodeAll]
          rfl

/-- **Machine code determines the instruction.** If the code of one instruction is the beginning of
    the code of another one at the same address, the two codes are equal and the instructions say
    the same; and the code of a list of instructions is read back as what the instructions say. Both
    have to be at the same address because a relative jump holds a distance. What is read back is
    the `reading`, since some instructions can be spelled in two ways. -/
theorem encode_determines (address : UInt32) :
    (∀ (s s' : Scopes) (instr instr' : Instruction) (bytes bytes' : List UInt8),
      instr.Selected → instr'.Selected → instr.encode s address = .ok bytes →
      instr'.encode s' address = .ok bytes' → bytes <+: bytes' →
      bytes = bytes' ∧
        ∃ reading, instr.reading s = .ok reading ∧ instr'.reading s' = .ok reading) ∧
    (∀ (s : Scopes) (instrs : List Instruction) (bytes : List UInt8),
      (∀ instr ∈ instrs, instr.Selected) → encodeAll s address instrs = .ok bytes →
      ∃ readings, instrs.mapM (·.reading s) = .ok readings ∧
        decodeAll bytes.length address bytes = some readings) := by
  refine ⟨?_, ?_⟩
  · intro s s' instr instr' bytes bytes' h h' hencode hencode' hfront
    exact eq_of_isPrefix h h' hencode hencode' hfront
  · intro s instrs bytes hselected hencode
    exact decodeAll_encodeAll hselected hencode (Nat.le_refl _)

/-- The operands `A,(IX)` and `(IX+0)`, as they are read. -/
def accumulatorAndIndex : List Expr :=
  [.register .a, .group (.register .ix)]

def indexAlone : List Expr :=
  [.group (.binary .add (.register .ix) (.int 0))]

/-- `ADD A,(IX)` and `ADD (IX+0)` have the same code, alone and one behind the other. -/
theorem encode_determines_add : ∃ instr instr' : Instruction,
    Instruction.select "add" none (accumulatorAndIndex.map (Operand.classify {})) = .ok instr ∧
    Instruction.select "add" none (indexAlone.map (Operand.classify {})) = .ok instr' ∧
    instr.encode {} 0 = .ok [0xDD, 0x86, 0x00] ∧ instr'.encode {} 0 = .ok [0xDD, 0x86, 0x00] ∧
    (∃ reading, instr.reading {} = .ok reading ∧ instr'.reading {} = .ok reading) ∧
    ∃ readings, [instr, instr'].mapM (·.reading {}) = .ok readings ∧
      decodeAll 6 0 [0xDD, 0x86, 0x00, 0xDD, 0x86, 0x00] = some readings := by
  obtain ⟨hpair, hlist⟩ := encode_determines 0
  have hempty : Scopes.Proper {} := by
    intro value hvalue
    cases hvalue
  have hselected {arguments : List Expr} {instr : Instruction}
      (harguments : ∀ e ∈ arguments, e.Proper)
      (h : Instruction.select "add" none (arguments.map (Operand.classify {})) = .ok instr) :
      instr.Selected :=
    .of_classify hempty harguments h
  have hlong : ∀ e ∈ accumulatorAndIndex, e.Proper := by
    simp [accumulatorAndIndex, Expr.Proper]
  have hshort : ∀ e ∈ indexAlone, e.Proper := by
    simp [indexAlone, Expr.Proper]
  refine ⟨_, _, rfl, rfl, rfl, rfl, ?_, ?_⟩
  · exact (hpair {} {} _ _ _ _ (hselected hlong rfl) (hselected hshort rfl) rfl rfl
      (List.prefix_refl _)).2
  · refine hlist {} _ [0xDD, 0x86, 0x00, 0xDD, 0x86, 0x00] ?_ rfl
    intro instr h
    simp only [List.mem_cons, List.not_mem_nil, or_false] at h
    rcases h with rfl | rfl
    · exact hselected hlong rfl
    · exact hselected hshort rfl

end Z80Asm.Cpu
