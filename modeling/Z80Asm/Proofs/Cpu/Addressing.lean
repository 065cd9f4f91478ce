import Z80Asm.Proofs.Cpu.Templates

/-!
# How operands share an index register

One byte in front of an instruction puts an index register in the place of `HL` in all its
operands. So the operands of an instruction use no index register, or one as a register and then
neither memory nor `H` and `L` for themselves, or one to address memory and then `H` and `L` for
themselves (`Addressing`). Which of the three it is can be told from the byte and from whether an
operand is memory.

Decoding needs this because the byte alone does not say what the register is used for: with `H` as
an operand it may stand for a half of the register, or the register may address memory beside it.
-/
set_option autoImplicit false

namespace Z80Asm.Cpu

open Success

namespace Operand

/-- The index register that an operand uses. -/
def base? : Operand → Option Register
  | reg register => register.indexBase?
  | indexed register _ => some register
  | _ => none

/-- An index register or a half of one. -/
def isIndexRegister : Operand → Bool
  | reg register => register.indexBase?.isSome
  | _ => false

/-- Memory at an index register. -/
def isIndexed : Operand → Bool
  | indexed _ _ => true
  | _ => false

/-- `HL`, `H`, `L` or `(HL)`. -/
def isPlain : Operand → Bool
  | reg register => isPlainHl register
  | indirect .hl => true
  | _ => false

/-- Only index registers have a displacement. -/
def Proper : Operand → Prop
  | indexed register _ => register.isIndex = true
  | _ => True

end Operand

theorem IndexUse.note_eq_ok {mnemonic : String} {use use' : IndexUse} {base : Register}
    (h : use.note mnemonic base = .ok use') :
    use' = { use with index := some base } ∧ ∀ other ∈ use.index, other = base := by
  unfold IndexUse.note at h
  split at h
  · cases h
  next hany =>
    cases h
    refine ⟨rfl, fun other hother => ?_⟩
    rw [hother] at hany
    simpa using hany

/-- What an operand adds to the use of index registers. -/
theorem IndexUse.add_eq_ok {mnemonic : String} {use use' : IndexUse} {operand : Operand}
    (h : use.add mnemonic operand = .ok use') :
    use'.asRegister = (use.asRegister || operand.isIndexRegister) ∧
    use'.asMemory = (use.asMemory || operand.isIndexed) ∧
    use'.plain = (use.plain || operand.isPlain) ∧
    use'.index = operand.base?.or use.index ∧
    ∀ base ∈ operand.base?, ∀ other ∈ use.index, other = base := by
  cases operand with
  | reg register =>
    cases hbase : register.indexBase? with
    | none =>
      simp only [IndexUse.add, hbase] at h
      cases h
      simp [Operand.isIndexRegister, Operand.isIndexed, Operand.isPlain, Operand.base?, hbase]
    | some base =>
      simp only [IndexUse.add, hbase] at h
      obtain ⟨rfl, hsame⟩ := IndexUse.note_eq_ok h
      have hplain : isPlainHl register = false := by
        cases register <;> first | rfl | cases hbase
      simp [Operand.isIndexRegister, Operand.isIndexed, Operand.isPlain, Operand.base?, hbase,
        hplain]
      exact hsame
  | indexed register displacement =>
    obtain ⟨rfl, hsame⟩ := IndexUse.note_eq_ok h
    simp [Operand.isIndexRegister, Operand.isIndexed, Operand.isPlain, Operand.base?]
    exact hsame
  | indirect register =>
    cases register <;> cases h <;>
      simp [Operand.isIndexRegister, Operand.isIndexed, Operand.isPlain, Operand.base?]
  | _ =>
    cases h
    simp [Operand.isIndexRegister, Operand.isIndexed, Operand.isPlain, Operand.base?]

/-- The use of index registers that operands come to. -/
theorem IndexUse.foldlM_eq_ok {mnemonic : String} {operands : List Operand} {use use' : IndexUse}
    (h : operands.foldlM (IndexUse.add mnemonic) use = .ok use') :
    use'.asRegister = (use.asRegister || operands.any Operand.isIndexRegister) ∧
    use'.asMemory = (use.asMemory || operands.any Operand.isIndexed) ∧
    use'.plain = (use.plain || operands.any Operand.isPlain) ∧
    (∀ base ∈ use.index, use'.index = some base) ∧
    (∀ operand ∈ operands, ∀ base ∈ operand.base?, use'.index = some base) ∧
    (use'.index = use.index ∨ ∃ operand ∈ operands, operand.base? = use'.index) := by
  induction operands generalizing use with
  | nil =>
    cases h
    simp
  | cons operand operands ih =>
    rw [List.foldlM_cons] at h
    obtain ⟨next, hnext, h⟩ := except_bind_eq_ok.mp h
    obtain ⟨hregister, hmemory, hplain, hindex, hsame⟩ := IndexUse.add_eq_ok hnext
    obtain ⟨ihregister, ihmemory, ihplain, ihkeeps, ihbases, ihfrom⟩ := ih h
    refine ⟨?_, ?_, ?_, ?_, ?_, ?_⟩
    · rw [ihregister, hregister, List.any_cons, Bool.or_assoc]
    · rw [ihmemory, hmemory, List.any_cons, Bool.or_assoc]
    · rw [ihplain, hplain, List.any_cons, Bool.or_assoc]
    · intro base hbase
      refine ihkeeps base ?_
      rw [hindex]
      cases hown : operand.base? with
      | none => exact hbase
      | some own =>
        rw [hsame own hown base hbase]
        rfl
    · intro other hother base hbase
      cases hother with
      | head =>
        refine ihkeeps base ?_
        rw [hindex, hbase]
        rfl
      | tail _ hother => exact ihbases other hother base hbase
    · rcases ihfrom with hfrom | ⟨other, hother, hfrom⟩
      · cases hown : operand.base? with
        | none =>
          left
          rw [hfrom, hindex, hown]
          rfl
        | some own =>
          right
          refine ⟨operand, List.mem_cons_self, ?_⟩
          rw [hfrom, hindex, hown]
          rfl
      · exact .inr ⟨other, List.mem_cons_of_mem _ hother, hfrom⟩

/-- How operands use an index register, if they do. -/
inductive Addressing (operands : List Operand) : Option Register → Prop
  | plain : (∀ operand ∈ operands, operand.base? = none) → Addressing operands none
  | register {index : Register} : index.isIndex = true →
    (∃ operand ∈ operands, operand.isIndexRegister = true) →
    (∀ operand ∈ operands, operand.isIndexed = false ∧ operand.isPlain = false ∧
      ∀ base ∈ operand.base?, base = index) → Addressing operands (some index)
  | memory {index : Register} : index.isIndex = true →
    (∃ displacement, .indexed index displacement ∈ operands) →
    (∀ operand ∈ operands, operand.isIndexRegister = false ∧ ∀ base ∈ operand.base?, base = index) →
    Addressing operands (some index)

theorem Operand.isIndex_of_base? {operand : Operand} {base : Register} (hproper : operand.Proper)
    (h : operand.base? = some base) : base.isIndex = true := by
  cases operand with
  | reg register => cases register <;> cases h <;> rfl
  | indexed register displacement =>
    cases h
    exact hproper
  | _ => cases h

/-- The index register of operands that go together, and on which pages it can be used. -/
theorem addressing_of_indexRegister {form : Form} {operands : List Operand}
    {index : Option Register} (hproper : ∀ operand ∈ operands, operand.Proper)
    (h : indexRegister form operands = .ok index) :
    Addressing operands index ∧ (index.isSome = true → form.page ≠ .ed ∧
      (form.page = .cb → ∀ operand ∈ operands, operand.isIndexRegister = false)) := by
  obtain ⟨use, huse, h⟩ := except_bind_eq_ok.mp h
  obtain ⟨hregister, hmemory, hplain, -, hbases, hfrom⟩ := IndexUse.foldlM_eq_ok huse
  simp only [Bool.false_or] at hregister hmemory hplain
  cases hindex : use.index with
  | none =>
    rw [hindex] at h
    cases h
    refine ⟨.plain fun operand hoperand => ?_, fun h => absurd h (by decide)⟩
    cases hbase : operand.base? with
    | none => rfl
    | some base => cases (hbases operand hoperand base hbase).symm.trans hindex
  | some base =>
    rw [hindex] at h hfrom
    obtain ⟨user, huser, hbase⟩ := hfrom.resolve_left (fun h => by cases h)
    have hisIndex := Operand.isIndex_of_base? (hproper user huser) hbase
    have hsame (operand : Operand) (hoperand : operand ∈ operands) :
        ∀ other ∈ operand.base?, other = base := by
      intro other hother
      exact Option.some.inj ((hbases operand hoperand other hother).symm.trans hindex)
    simp only [Option.isNone_some, Bool.false_eq_true, if_false] at h
    split at h
    · cases h
    next hpage =>
      split at h
      · cases h
      next htogether =>
        cases h
        simp only [Bool.or_eq_true, Bool.and_eq_true, beq_iff_eq, not_or, not_and] at hpage htogether
        refine ⟨?_, fun _ => ⟨hpage.1, fun hcb => ?_⟩⟩
        · by_cases hused : use.asRegister = true
          · obtain ⟨hnoplain, hnomemory⟩ := htogether hused
            rw [hplain, Bool.not_eq_true, List.any_eq_false] at hnoplain
            rw [hmemory, Bool.not_eq_true, List.any_eq_false] at hnomemory
            refine .register hisIndex (List.any_eq_true.mp (hregister ▸ hused))
              fun operand hoperand => ⟨?_, ?_, hsame operand hoperand⟩
            · exact Bool.eq_false_iff.mpr (hnomemory operand hoperand)
            · exact Bool.eq_false_iff.mpr (hnoplain operand hoperand)
          · rw [hregister, Bool.not_eq_true, List.any_eq_false] at hused
            have hnone (operand : Operand) (hoperand : operand ∈ operands) :=
              Bool.eq_false_iff.mpr (hused operand hoperand)
            refine .memory hisIndex ?_ fun operand hoperand =>
              ⟨hnone operand hoperand, hsame operand hoperand⟩
            cases user with
            | indexed register displacement =>
              cases hbase
              exact ⟨displacement, huser⟩
            | reg register =>
              have hnot := hnone _ huser
              rw [Operand.isIndexRegister, show register.indexBase? = some base from hbase] at hnot
              cases hnot
            | _ => cases hbase
        · have hused := hpage.2 hcb
          rw [hregister, Bool.not_eq_true, List.any_eq_false] at hused
          exact fun operand hoperand => Bool.eq_false_iff.mpr (hused operand hoperand)

/-! ## Selected instructions -/

/-- The operands of an instruction go together and fit templates of its form. -/
structure Instruction.Matches (s : Scopes) (instr : Instruction) (templates : List Template) :
    Prop where
  sound : instr.form.sound = true
  templates_mem : templates ∈ instr.form.templateLists
  fits : List.Forall₂ (Template.Fits s) instr.operands templates
  addressing : Addressing instr.operands instr.index
  not_ed : instr.index.isSome = true → instr.form.page ≠ .ed
  cb : instr.index.isSome = true → instr.form.page = .cb →
    ∀ operand ∈ instr.operands, operand.isIndexRegister = false

theorem eq_of_count_le_one {α : Type} [BEq α] [LawfulBEq α] {a : α} {as : List α} {i j : Nat}
    (h : as.count a ≤ 1) (hi : as[i]? = some a) (hj : as[j]? = some a) : i = j := by
  induction as generalizing i j with
  | nil => cases hi
  | cons b as ih =>
    rw [List.count_cons] at h
    have hnone {k : Nat} (hb : b = a) (hk : as[k]? = some a) : False := by
      have hpos := List.count_pos_iff.mpr (List.mem_of_getElem? hk)
      simp only [hb, beq_self_eq_true, if_true] at h
      omega
    cases i with
    | zero =>
      cases j with
      | zero => rfl
      | succ j => exact (hnone (Option.some.inj hi) hj).elim
    | succ i =>
      cases j with
      | zero => exact (hnone (Option.some.inj hj) hi).elim
      | succ j => rw [ih (by omega) hi hj]

namespace Instruction.Matches

variable {s : Scopes} {instr : Instruction} {templates : List Template}

theorem from_mem (h : instr.Matches s templates) :
    templates ∈ instr.form.templatesFrom 0 instr.form.operands :=
  (List.mem_filter.mp h.templates_mem).1

/-- At most one operand is memory that is merged. -/
theorem memory_unique (h : instr.Matches s templates) {i j : Nat}
    (hi : templates[i]? = some (.eight 6)) (hj : templates[j]? = some (.eight 6)) : i = j :=
  eq_of_count_le_one (of_decide_eq_true (List.mem_filter.mp h.templates_mem).2) hi hj

/-- Pattern, template and operand at a position. -/
theorem at_operand (h : instr.Matches s templates) {i : Nat} {operand : Operand}
    (hoperand : instr.operands[i]? = some operand) :
    ∃ pattern template, instr.form.operands[i]? = some pattern ∧
      template ∈ instr.form.templatesAt i pattern ∧ templates[i]? = some template ∧
      Template.Fits s operand template := by
  have hlt := (List.getElem?_eq_some_iff.mp hoperand).1
  rw [h.fits.length_eq, Form.length_templatesFrom h.from_mem] at hlt
  have hpattern := List.getElem?_eq_getElem hlt
  obtain ⟨template, htemplate, hget⟩ := Form.getElem?_templatesFrom h.from_mem hpattern
  rw [Nat.zero_add] at htemplate
  obtain ⟨other, hother, hfits⟩ := exists_of_forall₂ h.fits hget
  cases hother.symm.trans hoperand
  exact ⟨_, template, hpattern, htemplate, hget, hfits⟩

theorem at_template (h : instr.Matches s templates) {i : Nat} {template : Template}
    (htemplate : templates[i]? = some template) :
    ∃ pattern operand, instr.form.operands[i]? = some pattern ∧
      template ∈ instr.form.templatesAt i pattern ∧ instr.operands[i]? = some operand ∧
      Template.Fits s operand template := by
  obtain ⟨operand, hoperand, hfits⟩ := exists_of_forall₂ h.fits htemplate
  obtain ⟨pattern, other, hpattern, hmem, hget, -⟩ := h.at_operand hoperand
  cases hget.symm.trans htemplate
  exact ⟨pattern, operand, hpattern, hmem, hoperand, hfits⟩

/-- `(HL)` outside the opcode is the only operand, and not one of an extended page. -/
theorem eq_atHl (h : instr.Matches s templates) {i : Nat} (hi : templates[i]? = some .atHl) :
    templates = [.atHl] ∧ instr.form.page = .main := by
  obtain ⟨pattern, operand, hpattern, hmem, -⟩ := h.at_template hi
  have hkept := Form.operandKept_of_sound h.sound hpattern
  have halone : instr.form.operands.length = 1 ∧ instr.form.page = .main := by
    rcases Form.origin_of_mem hmem with rfl | rfl <;> simpa [Form.operandKept] using hkept
  refine ⟨?_, halone.2⟩
  have hlength := halone.1
  rw [← Form.length_templatesFrom h.from_mem] at hlength
  obtain ⟨template, rfl⟩ := List.length_eq_one_iff.mp hlength
  cases i with
  | zero => exact congrArg (fun t => [t]) (Option.some.inj hi)
  | succ i => cases hi

/-- Memory at an index register is merged by its code, or it is the only operand. -/
theorem indexed_at (h : instr.Matches s templates) {i : Nat} {base : Register}
    {displacement : Expr} (hi : instr.operands[i]? = some (.indexed base displacement)) :
    templates[i]? = some (.eight 6) ∨ templates = [.atHl] ∧ instr.form.page = .main := by
  obtain ⟨pattern, template, -, -, hget, hfits⟩ := h.at_operand hi
  cases hfits with
  | memory _ => exact .inl hget
  | atIndex _ => exact .inr (h.eq_atHl hget)
  | cond hcondition => cases hcondition

theorem mem_merged_iff (h : instr.Matches s templates) {base : Register} {displacement : Expr} :
    .indexed base displacement ∈ mergedOperands instr.form instr.operands ↔
      ∃ i : Nat, instr.operands[i]? = some (.indexed base displacement) ∧
        templates[i]? = some (.eight 6) := by
  constructor
  · intro hmem
    obtain ⟨field, hfield, hoperand⟩ := List.mem_filterMap.mp hmem
    obtain ⟨i, hi, hoperand⟩ := Option.bind_eq_some_iff.mp hoperand
    have hfit := Form.fieldFits_of_sound h.sound hfield
    have height : ∃ code, templates[i]? = some (.eight code) := by
      refine eight_at h.from_mem ?_
      cases field <;> cases hi <;> simpa [Form.fieldFits] using hfit
    obtain ⟨code, hcode⟩ := height
    obtain ⟨_, _, -, -, hget, hfits⟩ := h.at_operand hoperand
    cases hget.symm.trans hcode
    cases hfits with
    | memory _ => exact ⟨i, hoperand, hcode⟩
  · rintro ⟨i, hoperand, htemplate⟩
    obtain ⟨pattern, _, hpattern, hmem, -, -⟩ := h.at_template htemplate
    have hkept := Form.operandKept_of_sound h.sound hpattern
    rw [Form.origin_of_mem hmem rfl] at hkept
    obtain ⟨field, hfield, hi⟩ := List.mem_filterMap.mp (List.contains_iff_mem.mp hkept)
    exact List.mem_filterMap.mpr ⟨field, hfield, by rw [hi]; exact hoperand⟩

theorem displacement?_eq_some_iff (h : instr.Matches s templates) {displacement : Expr} :
    instr.displacement? = some displacement ↔
      ∃ (i : Nat) (base : Register), instr.operands[i]? = some (.indexed base displacement) ∧
        templates[i]? = some (.eight 6) := by
  have hfound {e : Expr} (he : instr.displacement? = some e) :
      ∃ (i : Nat) (base : Register), instr.operands[i]? = some (.indexed base e) ∧
        templates[i]? = some (.eight 6) := by
    obtain ⟨operand, hmem, hoperand⟩ := List.exists_of_findSome?_eq_some he
    cases operand with
    | indexed base e' =>
      cases hoperand
      obtain ⟨i, hi⟩ := h.mem_merged_iff.mp hmem
      exact ⟨i, base, hi⟩
    | _ => cases hoperand
  refine ⟨hfound, ?_⟩
  rintro ⟨i, base, hoperand, htemplate⟩
  cases hdisplacement : instr.displacement? with
  | none =>
    have hmem := h.mem_merged_iff.mpr ⟨i, hoperand, htemplate⟩
    cases List.findSome?_eq_none_iff.mp hdisplacement _ hmem
  | some e =>
    obtain ⟨j, other, hoperand', htemplate'⟩ := hfound hdisplacement
    cases h.memory_unique htemplate htemplate'
    cases hoperand.symm.trans hoperand'
    rfl

/-- Memory that is merged is at `HL` or, with an index register, at that. -/
theorem memory_at (h : instr.Matches s templates) {i : Nat} {operand : Operand}
    (hi : templates[i]? = some (.eight 6)) (hoperand : instr.operands[i]? = some operand) :
    (instr.index = none ∧ operand = .indirect .hl) ∨
      ∃ index displacement, instr.index = some index ∧ operand = .indexed index displacement := by
  have hmem := List.mem_of_getElem? hoperand
  obtain ⟨_, _, -, -, hget, hfits⟩ := h.at_operand hoperand
  cases hget.symm.trans hi
  have hmemory := hfits.isMemory
  have hcases : operand = .indirect .hl ∨ ∃ base displacement, operand = .indexed base displacement := by
    cases operand with
    | indirect register => cases register <;> first | exact .inl rfl | cases hmemory
    | indexed base displacement => exact .inr ⟨base, displacement, rfl⟩
    | _ => cases hmemory
  generalize hindex : instr.index = index
  have haddressing := h.addressing
  rw [hindex] at haddressing
  cases haddressing with
  | plain hnone =>
    rcases hcases with rfl | ⟨base, displacement, rfl⟩
    · exact .inl ⟨rfl, rfl⟩
    · cases hnone _ hmem
  | register _ _ hall =>
    rcases hcases with rfl | ⟨base, displacement, rfl⟩
    · cases (hall _ hmem).2.1
    · cases (hall _ hmem).1
  | @memory index _ hexists hall =>
    rcases hcases with rfl | ⟨base, displacement, rfl⟩
    · -- The operand at the index register would be a second one that is merged.
      obtain ⟨displacement, hindexed⟩ := hexists
      obtain ⟨j, hj⟩ := List.getElem?_of_mem hindexed
      rcases h.indexed_at hj with hj' | ⟨hatHl, -⟩
      · cases h.memory_unique hi hj'
        cases hoperand.symm.trans hj
      · rw [hatHl] at hi
        cases i <;> cases hi
    · obtain rfl := (hall _ hmem).2 base rfl
      exact .inr ⟨base, displacement, rfl, rfl⟩

/-- There is a displacement exactly if an index register addresses memory that is merged. -/
theorem isSome_displacement?_iff (h : instr.Matches s templates) :
    instr.displacement?.isSome = true ↔ instr.index.isSome = true ∧ .eight 6 ∈ templates := by
  constructor
  · intro hsome
    obtain ⟨displacement, hdisplacement⟩ := Option.isSome_iff_exists.mp hsome
    obtain ⟨i, base, hoperand, htemplate⟩ := h.displacement?_eq_some_iff.mp hdisplacement
    refine ⟨?_, List.mem_of_getElem? htemplate⟩
    rcases h.memory_at htemplate hoperand with ⟨_, heq⟩ | ⟨index, _, hindex, _⟩
    · cases heq
    · rw [hindex]
      rfl
  · rintro ⟨hindex, hmem⟩
    obtain ⟨i, hi⟩ := List.getElem?_of_mem hmem
    obtain ⟨_, operand, -, -, hoperand, -⟩ := h.at_template hi
    rcases h.memory_at hi hoperand with ⟨hnone, _⟩ | ⟨index, displacement, _, rfl⟩
    · rw [hnone] at hindex
      cases hindex
    · rw [h.displacement?_eq_some_iff.mpr ⟨i, index, hoperand, hi⟩]
      rfl

/-- On page `CB` an index register only addresses memory. -/
theorem isSome_displacement?_of_cb (h : instr.Matches s templates)
    (hindex : instr.index.isSome = true) (hpage : instr.form.page = .cb) :
    instr.displacement?.isSome = true := by
  have hnone := h.cb hindex hpage
  have haddressing := h.addressing
  obtain ⟨index, heq⟩ := Option.isSome_iff_exists.mp hindex
  rw [heq] at haddressing
  cases haddressing with
  | register _ hexists _ =>
    obtain ⟨operand, hmem, hregister⟩ := hexists
    rw [hnone operand hmem] at hregister
    cases hregister
  | memory _ hexists _ =>
    obtain ⟨displacement, hindexed⟩ := hexists
    obtain ⟨j, hj⟩ := List.getElem?_of_mem hindexed
    rcases h.indexed_at hj with hj' | ⟨-, hmain⟩
    · rw [h.displacement?_eq_some_iff.mpr ⟨j, index, hj, hj'⟩]
      rfl
    · rw [hpage] at hmain
      cases hmain

end Instruction.Matches

end Z80Asm.Cpu
