import Z80Asm.Proofs.Cpu.Decoding
import Z80Asm.Proofs.Program.Addresses
import Z80Asm.Proofs.Program.Lineage
import Z80Asm.Proofs.Program.Sections

/-!
# The instructions of a program

The theorems about encoding and decoding ask of an instruction that a mnemonic selects it for
operands that are proper: only `IX` and `IY` have a displacement (`Instruction.Selected`).
Expressions of another kind exist, but they cannot be written, and the values that a program binds
are written ones, spaces, scopes and macros (`Scopes.Prepared`). So every instruction of a program
that comes out of a source is `Selected`, whether its line was written in the source, in a file that
is included or in a macro, and whether it is placed in its order or inside a region.

`assemble_decodes` is for a source that is loaded into a new session. A session in which more than one
source has been assembled keeps what the first of them bound, and nothing is said about it here.
-/
set_option autoImplicit false

namespace Z80Asm

open Success

theorem Line.textual_written {line : Line} : line.written.Textual ↔ line.Textual := by
  constructor
  · intro h e he
    exact (Expr.textual_rename _ e).mp (h _ (Option.mem_map_of_mem _ he))
  · intro h e he
    obtain ⟨original, horiginal, rfl⟩ := Option.map_eq_some_iff.mp he
    exact (Expr.textual_rename _ original).mpr (h original horiginal)

section

variable {files : FileAccess} {s : Scopes} {line : Line} {code : Code} {instr : Cpu.Instruction}

theorem planSpace_ne_code (h : planSpace s line = .ok (.code code)) : False := by
  unfold planSpace at h
  dsimp only at h
  split at h
  · obtain ⟨count, -, h⟩ := except_bind_eq_ok.mp h
    split at h <;> cases h
  · cases h

theorem planOrg_ne_machine (h : planOrg s line = .ok (.machine instr)) : False := by
  unfold planOrg at h
  split at h
  · obtain ⟨value, -, h⟩ := except_bind_eq_ok.mp h
    split at h <;> cases h
  · cases h

theorem planIncbin_ne_machine {path : String}
    (h : planIncbin files s line path = .ok (.machine instr)) : False := by
  unfold planIncbin at h
  obtain ⟨bytes, -, h⟩ := except_bind_eq_ok.mp h
  obtain ⟨offset, -, h⟩ := except_bind_eq_ok.mp h
  obtain ⟨length, -, h⟩ := except_bind_eq_ok.mp h
  split at h <;> cases h

/-- A machine instruction is planned for the operands of its line. -/
theorem select_of_plan {item : Item}
    (h : item.plan files s = .ok (.code (.machine instr))) :
    ∃ mnemonic, Cpu.Instruction.select mnemonic item.line.arguments
      (item.line.argumentList.map (Cpu.Operand.classify s)) = .ok instr := by
  unfold Item.plan at h
  simp only at h
  split at h
  case h_2 => exact (planSpace_ne_code h).elim
  case h_3 =>
    obtain ⟨_, horg, h⟩ := except_bind_eq_ok.mp h
    cases h
    exact (planOrg_ne_machine horg).elim
  case h_4 =>
    split at h
    · obtain ⟨_, hincbin, h⟩ := except_bind_eq_ok.mp h
      cases h
      exact (planIncbin_ne_machine hincbin).elim
    · cases h
  case h_5 => split at h <;> cases h
  case h_6 mnemonic _ =>
    obtain ⟨selected, hselect, h⟩ := except_bind_eq_ok.mp h
    cases h
    exact ⟨mnemonic, hselect⟩
  all_goals cases h

end

namespace Assembly

variable {s t : Session} {source : Source} {program : Program}

/-- The line of every entry is as it can be written, and its code is planned with such values. -/
theorem textual_of_assemble {library : Library} {origin : Origin} {entry : Entry}
    (hload : origin.load (Session.new library) = .ok source s)
    (h : assemble source s = .ok program t) (hentry : entry ∈ entriesOf program.entries) :
    entry.line.Textual ∧ ∃ u : Session, u.scopes.Proper ∧ TakesFrom u entry := by
  obtain ⟨hs, htextual⟩ := Origin.load_prepared hload (Session.prepared_new library)
  obtain ⟨hdistinct, hknown⟩ := Origin.load_distinct hload
  obtain ⟨lines, sent, s₁, s₂, hregister, hexpand, hexpands, -, hplaces⟩ :=
    (assemble_once hs htextual hdistinct hknown).post h
  have hs₁ := prepares_register _ htextual hregister hs
  obtain ⟨_, products, others, _, hunfolds, rfl, rfl⟩ := hexpands
  obtain ⟨-, hwritten⟩ := hunfolds.written
    (fun template htemplate line hline =>
      Line.textual_written.mpr ((hs₁.templates template htemplate).1 line hline))
    fun line hline => Line.textual_written.mpr (htextual line hline)
  constructor
  · have hmem : entry.line ∈ (products.map Product.item ++ others.map Product.item).map Item.line :=
      hplaces.entries.mem_iff.mp (List.mem_map_of_mem hentry)
    rw [← List.map_append, List.map_map] at hmem
    obtain ⟨product, hproduct, hline⟩ := List.mem_map.mp hmem
    exact hline ▸ Line.textual_written.mp (hwritten product hproduct)
  · obtain ⟨_, _, _, _, hregister', hexpand', hplace, -⟩ := phases_of_assemble h
    rw [hregister] at hregister'
    cases hregister'
    rw [hexpand] at hexpand'
    cases hexpand'
    have hs₂ := hunfolds.prepared htextual hs₁
    exact ⟨s₂, hs₂.scopes.proper, (placeLines_takes hs₂.scopes (.refl s₂) hplace).2 entry hentry⟩

/-- **The code of a program can be read back.** Every machine instruction of a program that is
    assembled from a source has code, as long as was planned, and whatever follows the code in the
    memory, decoding it at the address of its line gives the instruction with its operands, and
    leaves what follows. -/
theorem assemble_decodes {library : Library} {origin : Origin} {line : Line} {address : UInt32}
    {instr : Cpu.Instruction} (hload : origin.load (Session.new library) = .ok source s)
    (h : assemble source s = .ok program t)
    (hentry : .code line address (.machine instr) ∈ entriesOf program.entries) :
    instr.Selected ∧ ∃ bytes reading, instr.encode t.scopes address = .ok bytes ∧
      bytes.length = instr.size ∧ instr.reading t.scopes = .ok reading ∧
      ∀ rest, Cpu.decode address (bytes ++ rest) = some (reading, rest) := by
  obtain ⟨htextual, u, hproper, item, files, scopes, rfl, hvalues, hplan⟩ :=
    textual_of_assemble hload h hentry
  obtain ⟨mnemonic, hselect⟩ := select_of_plan hplan
  have hscopes : scopes.Proper := by
    rw [Scopes.Proper, hvalues]
    exact hproper
  have hselected : instr.Selected :=
    .of_classify hscopes (fun e he => (htextual.argumentList e he).2) hselect
  obtain ⟨_, _, _, v, -, -, -, -, -, hemit, ht⟩ := phases_of_assemble h
  obtain ⟨ws, hstores⟩ := storesOf_of_emitAll hemit
  obtain ⟨vs, hvs, -⟩ := generatedAt_of_storesOf hstores _ hentry
  have hscopes' : v.scopes = t.scopes := by rw [ht]
  rw [hscopes'] at hvs
  obtain ⟨bytes, hbytes, -⟩ := except_bind_eq_ok.mp hvs
  obtain ⟨encoded, hencode, -⟩ := except_bind_eq_ok.mp hbytes
  obtain ⟨hsize, reading, hreading, hdecode⟩ := hselected.decode_encode hencode
  exact ⟨hselected, encoded, reading, hencode, hsize, hreading, hdecode⟩

end Assembly

end Z80Asm
