import Z80Asm.Program.Generation
import Z80Asm.Proofs.Success
import Z80Asm.Proofs.Image.Stores

/-!
# What generating code writes

Generating an entry is a list of stores, `Entry.stores`, which does not depend on what is in the
image already: the entry is generated if and only if the list exists, and the image afterwards is
the one before with the stores made. A piece of code is one store, as long as its size says. A
region is what its sections store, and then its fill bytes. A virtual region stores nothing.

Stores are a list and not an image, for which bytes came last is lost in an image. Failures are not
followed here; they are in `Program/Reports`.
-/
set_option autoImplicit false

namespace Z80Asm

open Success

/-! ## Steps of a generation -/

namespace Emit

variable {α : Type} {out out' : Output}

@[simp] theorem ofExcept_eq_ok {x : Except Cause α} {a : α} :
    Emit.ofExcept x out = .ok a out' ↔ x = .ok a ∧ out = out' := by
  cases x with
  | ok b => simp [Emit.ofExcept]
  | error cause => simp [Emit.ofExcept]

@[simp] theorem traced_eq_ok {position : Position} {x : Emit α} {a : α} :
    Emit.traced position x out = .ok a out' ↔ x out = .ok a out' := by
  simp [Emit.traced]

@[simp] theorem onScratch_eq_ok {x : Emit Unit} :
    Emit.onScratch x out = .ok () out' ↔
      ∃ after, x { out with image := {} } = .ok () after ∧
        { after with image := out.image } = out' := by
  unfold Emit.onScratch
  cases x { out with image := {} } with
  | ok u after => simp
  | error failure after => simp

/-- Whatever was written before, the generation succeeds and makes the stores. -/
def Makes (x : Emit Unit) (ws : List Store) : Prop :=
  ∀ out, ∃ out', x out = .ok () out' ∧ out'.image = out.image.storeAll ws

theorem Makes.image_eq {x : Emit Unit} {ws : List Store} (hx : x.Makes ws)
    (h : x out = .ok () out') : out'.image = out.image.storeAll ws := by
  obtain ⟨after, hafter, himage⟩ := hx out
  rw [h] at hafter
  cases hafter
  exact himage

theorem Makes.traced {x : Emit Unit} {ws : List Store} (hx : x.Makes ws) (position : Position) :
    (Emit.traced position x).Makes ws := by
  intro out
  obtain ⟨after, hafter, himage⟩ := hx out
  exact ⟨after, traced_eq_ok.mpr hafter, himage⟩

theorem Makes.append {x y : Emit Unit} {ws vs : List Store} (hx : x.Makes ws) (hy : y.Makes vs) :
    Emit.Makes (do x; y) (ws ++ vs) := by
  intro out
  obtain ⟨between, hbetween, himage⟩ := hx out
  obtain ⟨after, hafter, himage'⟩ := hy between
  refine ⟨after, bind_eq_ok.mpr ⟨(), between, hbetween, hafter⟩, ?_⟩
  rw [himage', himage, Image.storeAll_append]

theorem Makes.onScratch {x : Emit Unit} {ws : List Store} (hx : x.Makes ws) :
    (Emit.onScratch x).Makes [] := by
  intro out
  obtain ⟨after, hafter, _⟩ := hx { out with image := {} }
  exact ⟨_, onScratch_eq_ok.mpr ⟨after, hafter, rfl⟩, rfl⟩

theorem makes_nothing : Emit.Makes (return ()) [] :=
  fun out => ⟨out, rfl, rfl⟩

theorem makes_storeBytes (address : UInt32) (bytes : List UInt8) :
    (Emit.storeBytes address bytes).Makes [⟨address, bytes⟩] :=
  fun _ => ⟨_, rfl, rfl⟩

end Emit

/-! ## Code -/

namespace Code

/-- The bytes of a piece of code at an address. A diagnostic has none; an error is never
    generated. -/
def bytes (s : Scopes) (address : UInt32) : Code → Except Cause (List UInt8)
  | empty | org _ => return []
  | data width items size => dataBytes s width items size
  | binary bytes => return bytes
  | machine instruction => machineBytes s address instruction
  | diagnostic .error message => do throw (.directive (← messageText s message))
  | diagnostic .warning message => do
    let _ ← messageText s message
    return []

variable {s : Scopes} {address : UInt32} {code : Code} {out : List UInt8}

theorem ofNat_length_dataBytes {width : DataWidth} {items : List Expr} {size : UInt32}
    (h : dataBytes s width items size = .ok out) : UInt32.ofNat out.length = size := by
  simp only [dataBytes, except_bind_eq_ok] at h
  obtain ⟨pieces, -, h⟩ := h
  split at h
  · simp at h
  · next hsize =>
    simp only [except_pure_eq_ok] at h
    subst h
    simpa using hsize

theorem length_machineBytes {instruction : Cpu.Instruction}
    (h : machineBytes s address instruction = .ok out) : out.length = instruction.size := by
  simp only [machineBytes, except_bind_eq_ok] at h
  obtain ⟨encoded, -, h⟩ := h
  split at h
  · simp at h
  · next hsize =>
    simp only [except_pure_eq_ok] at h
    subst h
    simpa using hsize

/-- Code has as many bytes as were planned for it. -/
theorem ofNat_length_bytes (h : code.bytes s address = .ok out) :
    UInt32.ofNat out.length = code.size := by
  cases code with
  | empty | org _ | binary _ =>
    simp only [bytes, except_pure_eq_ok] at h
    subst h
    rfl
  | data width items size => exact ofNat_length_dataBytes h
  | machine instruction => rw [length_machineBytes h, size]
  | diagnostic severity message =>
    cases severity with
    | error => simp [bytes] at h
    | warning =>
      simp only [bytes, except_bind_eq_ok, except_pure_eq_ok] at h
      obtain ⟨-, -, rfl⟩ := h
      rfl

/-- Unless it fills the memory, code has its size in bytes. -/
theorem length_bytes (h : code.bytes s address = .ok out) (hlen : out.length < 0x100000000) :
    out.length = code.size.toNat := by
  rw [← ofNat_length_bytes h, UInt32.toNat_ofNat_of_lt' hlen]

theorem bytes_of_emit {line : Line} {before after : Output}
    (h : code.emit s line address before = .ok () after) :
    ∃ out, code.bytes s address = .ok out := by
  cases code with
  | empty | org _ | binary _ => exact ⟨_, rfl⟩
  | data width items size =>
    simp only [emit, bind_eq_ok, Emit.ofExcept_eq_ok] at h
    obtain ⟨out, -, ⟨hout, -⟩, -⟩ := h
    exact ⟨out, hout⟩
  | machine instruction =>
    simp only [emit, bind_eq_ok, Emit.ofExcept_eq_ok] at h
    obtain ⟨out, -, ⟨hout, -⟩, -⟩ := h
    exact ⟨out, hout⟩
  | diagnostic severity message =>
    cases severity with
    | error => simp [emit] at h
    | warning =>
      simp only [emit, bind_eq_ok, Emit.ofExcept_eq_ok] at h
      obtain ⟨text, -, ⟨htext, -⟩, -⟩ := h
      exact ⟨[], by simp [bytes, htext]⟩

theorem emit_makes (line : Line) (h : code.bytes s address = .ok out) :
    (code.emit s line address).Makes [⟨address, out⟩] := by
  intro before
  cases code with
  | empty | org _ | binary _ =>
    simp only [bytes, except_pure_eq_ok] at h
    subst h
    exact ⟨_, rfl, rfl⟩
  | data width items size =>
    rw [bytes] at h
    exact ⟨_, by simp only [emit, h]; rfl, rfl⟩
  | machine instruction =>
    rw [bytes] at h
    exact ⟨_, by simp only [emit, h]; rfl, rfl⟩
  | diagnostic severity message =>
    cases severity with
    | error => simp [bytes] at h
    | warning =>
      simp only [bytes, except_bind_eq_ok, except_pure_eq_ok] at h
      obtain ⟨text, htext, rfl⟩ := h
      simp only [emit, htext, bind_eq_ok, Emit.ofExcept_eq_ok, modify_eq_ok]
      exact ⟨_, ⟨text, before, ⟨rfl, rfl⟩, rfl⟩, rfl⟩

end Code

/-! ## Entries -/

mutual

/-- The stores of an entry, in their order. -/
def Entry.stores (s : Scopes) : Entry → Except Cause (List Store)
  | .code _ address code => do return [⟨address, ← code.bytes s address⟩]
  | .space _ address region parts => do
    let inner ← storesOf s parts
    if region.isVirtual then return []
    else
      let fill ← region.fillByte s
      let rest := List.replicate (region.size.toNat - region.used.toNat) fill
      return inner ++ [⟨address + region.used, rest⟩]

def storesOf (s : Scopes) : List Entry → Except Cause (List Store)
  | [] => return []
  | entry :: rest => do return (← entry.stores s) ++ (← storesOf s rest)

end

mutual

theorem Entry.emit_makes {s : Scopes} : ∀ {entry : Entry} {ws : List Store},
    entry.stores s = .ok ws → (entry.emit s).Makes ws
  | .code line address code, ws, h => by
    simp only [Entry.stores, except_bind_eq_ok, except_pure_eq_ok] at h
    obtain ⟨out, hout, rfl⟩ := h
    exact Code.emit_makes line hout
  | .space line address region parts, ws, h => by
    simp only [Entry.stores, except_bind_eq_ok] at h
    obtain ⟨inner, hinner, h⟩ := h
    rw [Entry.emit]
    by_cases hv : region.isVirtual
    · simp only [hv, if_true, except_pure_eq_ok] at h ⊢
      subst h
      exact (emitAll_makes hinner).onScratch
    · simp only [hv, Bool.false_eq_true, if_false, except_bind_eq_ok, except_pure_eq_ok] at h ⊢
      obtain ⟨fill, hfill, rfl⟩ := h
      rw [hfill]
      exact (emitAll_makes hinner).append (Emit.makes_storeBytes _ _)

theorem emitAll_makes {s : Scopes} : ∀ {entries : List Entry} {ws : List Store},
    storesOf s entries = .ok ws → (emitAll s entries).Makes ws
  | [], ws, h => by
    simp only [storesOf, except_pure_eq_ok] at h
    subst h
    exact Emit.makes_nothing
  | entry :: rest, ws, h => by
    simp only [storesOf, except_bind_eq_ok, except_pure_eq_ok] at h
    obtain ⟨vs, hvs, us, hus, rfl⟩ := h
    rw [emitAll]
    exact ((Entry.emit_makes hvs).traced _).append (emitAll_makes hus)

end

mutual

/-- What was generated has stores. -/
theorem Entry.stores_of_emit {s : Scopes} : ∀ {entry : Entry} {out out' : Output},
    entry.emit s out = .ok () out' → ∃ ws, entry.stores s = .ok ws
  | .code line address code, out, out', h => by
    rw [Entry.emit] at h
    obtain ⟨bytes, hbytes⟩ := Code.bytes_of_emit h
    exact ⟨[⟨address, bytes⟩], by simp [Entry.stores, hbytes]⟩
  | .space line address region parts, out, out', h => by
    rw [Entry.emit] at h
    by_cases hv : region.isVirtual
    · simp only [hv, if_true, Emit.onScratch_eq_ok] at h
      obtain ⟨after, hafter, -⟩ := h
      obtain ⟨inner, hinner⟩ := storesOf_of_emitAll hafter
      exact ⟨[], by simp [Entry.stores, hinner, hv]⟩
    · simp only [hv, Bool.false_eq_true, if_false, bind_eq_ok, Emit.ofExcept_eq_ok] at h
      obtain ⟨_, between, hbetween, fill, _, ⟨hfill, -⟩, -⟩ := h
      obtain ⟨inner, hinner⟩ := storesOf_of_emitAll hbetween
      exact ⟨_, by simp only [Entry.stores, hinner, hfill, hv]; rfl⟩

theorem storesOf_of_emitAll {s : Scopes} : ∀ {entries : List Entry} {out out' : Output},
    emitAll s entries out = .ok () out' → ∃ ws, storesOf s entries = .ok ws
  | [], out, out', h => ⟨[], rfl⟩
  | entry :: rest, out, out', h => by
    simp only [emitAll, bind_eq_ok, Emit.traced_eq_ok] at h
    obtain ⟨_, between, hentry, hrest⟩ := h
    obtain ⟨vs, hvs⟩ := Entry.stores_of_emit hentry
    obtain ⟨us, hus⟩ := storesOf_of_emitAll hrest
    exact ⟨vs ++ us, by simp [storesOf, hvs, hus]⟩

end

theorem Entry.stores_of_mem {s : Scopes} {entries : List Entry} {ws : List Store} {entry : Entry}
    (h : storesOf s entries = .ok ws) (hmem : entry ∈ entries) :
    ∃ vs, entry.stores s = .ok vs ∧ ∀ w ∈ vs, w ∈ ws := by
  induction entries generalizing ws with
  | nil => cases hmem
  | cons e rest ih =>
    simp only [storesOf, except_bind_eq_ok, except_pure_eq_ok] at h
    obtain ⟨vs, hvs, us, hus, rfl⟩ := h
    cases hmem with
    | head => exact ⟨vs, hvs, fun w hw => List.mem_append_left us hw⟩
    | tail _ hmem =>
      obtain ⟨vs', hvs', hsub⟩ := ih hus hmem
      exact ⟨vs', hvs', fun w hw => List.mem_append_right vs (hsub w hw)⟩

theorem Entry.exists_of_mem_storesOf {s : Scopes} {entries : List Entry} {ws : List Store}
    {w : Store}
    (h : storesOf s entries = .ok ws) (hw : w ∈ ws) :
    ∃ entry ∈ entries, ∃ vs, entry.stores s = .ok vs ∧ w ∈ vs := by
  induction entries generalizing ws with
  | nil =>
    simp only [storesOf, except_pure_eq_ok] at h
    subst h
    cases hw
  | cons e rest ih =>
    simp only [storesOf, except_bind_eq_ok, except_pure_eq_ok] at h
    obtain ⟨vs, hvs, us, hus, rfl⟩ := h
    rcases List.mem_append.mp hw with hw | hw
    · exact ⟨e, List.mem_cons_self, vs, hvs, hw⟩
    · obtain ⟨entry, hentry, vs', hvs', hw'⟩ := ih hus hw
      exact ⟨entry, List.mem_cons_of_mem e hentry, vs', hvs', hw'⟩

/-- Everything that an entry stores at once has fewer bytes than the limit. -/
def Entry.ShorterThan (s : Scopes) (limit : Nat) (entry : Entry) : Prop :=
  ∀ ws, entry.stores s = .ok ws → ∀ w ∈ ws, w.bytes.length < limit

instance (s : Scopes) (limit : Nat) (entry : Entry) : Decidable (entry.ShorterThan s limit) :=
  match h : entry.stores s with
  | .ok ws => decidable_of_iff (∀ w ∈ ws, w.bytes.length < limit) (by simp [Entry.ShorterThan, h])
  | .error _ => .isTrue (by simp [Entry.ShorterThan, h])

theorem Entry.ShorterThan.length_lt {s : Scopes} {limit : Nat} {line : Line} {address : UInt32}
    {code : Code} {bytes : List UInt8} (h : (Entry.code line address code).ShorterThan s limit)
    (hbytes : code.bytes s address = .ok bytes) : bytes.length < limit :=
  h [⟨address, bytes⟩] (by simp [Entry.stores, hbytes]) _ (List.mem_singleton.mpr rfl)

end Z80Asm
