import Z80Asm.Proofs.Line.Rescoping
import Z80Asm.Proofs.Success

/-!
# The same text elsewhere

Where a text stands, in which file and behind how many lines, is only noted in the positions of its
lines and in failures. Two readers with the same text to read give the same lines but for their
positions (`Reader.Alike.next_eq_some`), and come to the end or to a failure at the same lines.

Positions are compared by leaving them out. What they say is in `Block/Sites` and `Program/Routes`.
-/
set_option autoImplicit false

namespace Z80Asm

open Success

/-- What is read of a logical line does not depend on where it stands. -/
theorem readPhysical_elsewhere {scope : ScopeId} {file file' : Option String} {outer outer' : List Site}
    {mode : Mode} {draft : Draft} {number number' : UInt32} {text : String} {rest : List String}
    {read : Physical} (h : readPhysical scope file outer mode draft number text rest = .ok read) :
    readPhysical scope file' outer' mode draft number' text rest = .ok read := by
  induction rest generalizing mode draft number number' text read with
  | nil =>
    unfold readPhysical at h ⊢
    split at h
    · cases h
    · next hrun => simpa only [hrun] using h
    · dsimp only at h ⊢
      split at h
      · cases h
      · next hmode =>
        rw [if_neg hmode]
        exact h
  | cons next rest ih =>
    unfold readPhysical at h ⊢
    split at h
    · cases h
    · next hrun => simpa only [hrun] using h
    · simp only [except_bind_eq_ok, except_pure_eq_ok] at h ⊢
      obtain ⟨line, hline, hread⟩ := h
      exact ⟨line, ih hline, hread⟩

namespace Reader

/-- Both have the same text to read. -/
structure Alike (reader other : Reader) : Prop where
  remaining : reader.remaining = other.remaining
  stopped : reader.stopped = other.stopped

variable {reader other rest : Reader} {scope : ScopeId} {line : Line}

theorem Alike.symm (h : reader.Alike other) : other.Alike reader :=
  ⟨h.remaining.symm, h.stopped.symm⟩

theorem Alike.stop (h : reader.Alike other) : reader.stop.Alike other.stop :=
  ⟨h.remaining, rfl⟩

theorem alike_ofText (text : String) (file file' : Option String) (outer outer' : List Site) :
    (ofText text file outer).Alike (ofText text file' outer') :=
  ⟨rfl, rfl⟩

/-- **The other reader gives the line too, at another position.** -/
theorem Alike.next_eq_some (h : reader.Alike other)
    (hnext : reader.next scope = .ok (some (line, rest))) :
    ∃ position rest', other.next scope = .ok (some ({ line with position }, rest')) ∧
      rest.Alike rest' := by
  unfold Reader.next at hnext ⊢
  rw [← h.stopped, ← h.remaining]
  split at hnext
  · cases hnext
  · next hstopped =>
    rw [if_neg hstopped]
    split at hnext
    · cases hnext
    · simp only [except_bind_eq_ok, except_pure_eq_ok, Option.some.injEq, Prod.mk.injEq] at hnext
      obtain ⟨read, hread, arguments, harguments, rfl, rfl⟩ := hnext
      have hfinish : read.draft.builder.finish = .ok arguments := by
        cases hbuilder : read.draft.builder.finish with
        | ok e =>
          rw [hbuilder] at harguments
          exact congrArg Except.ok (Except.ok.inj harguments)
        | error cause =>
          rw [hbuilder] at harguments
          cases harguments
      let site : Site :=
        { file := other.file, line := other.number, text := String.intercalate "\n" read.texts }
      refine ⟨⟨site, other.outer⟩, { other with
        remaining := read.rest, number := other.number + read.texts.length }, ?_, rfl, h.stopped⟩
      rw [h.stopped, readPhysical_elsewhere hread]
      show (do
        let arguments ← read.draft.builder.finish.mapError _
        return _) = _
      rw [hfinish]
      rfl

end Reader

end Z80Asm
