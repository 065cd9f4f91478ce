import Z80Asm.Proofs.Block.Balance
import Z80Asm.Proofs.Line.RoundTrip

/-!
# The physical lines of a logical line

A logical line is made up of one or more physical lines. `Mode.Spans` says what that means: each of
them is read to its last character, and only its end decides whether the line goes on with the next
one or is finished. The lines that a reader gives are made up in this way of all physical lines of
the text, each of which belongs to one of them (`Reader.exhausts_covers`).

That a physical line is read to its last character is not in the types: a step that breaks off would
leave the rest of it unread, and `Mode.run` would go along with that. It is because characters never
break off (`Mode.onChar_next`) that reading a physical line is reading its characters and then its end
(`Mode.run_eq_ok`).

The end of the text inside an argument also ends a line, but then the argument cannot be finished. So
every line that is given has been finished by the end of a physical line.

Lines are numbered with 32 bits. The number of a line is one more than the number of physical lines
before it, counted with 32 bits, and so it is that number itself in a text of fewer than 2^32 lines.
-/
set_option autoImplicit false

namespace Z80Asm

open Success Mode

/-! ## One physical line -/

namespace Mode

variable {scope : ScopeId} {mode mode' : Mode} {draft draft' : Draft}

theorem run_eq_ok {column : Nat} {cs : List Char} {ending : Option Mode × Draft} :
    mode.run scope column draft cs = .ok ending ↔
      ∃ (mode' : Mode) (draft' : Draft), mode.reads scope draft cs = .ok (.next mode', draft') ∧
        mode'.onEnd scope draft' = .ok ending := by
  constructor
  · intro h
    induction cs generalizing column mode draft with
    | nil =>
      refine ⟨mode, draft, rfl, ?_⟩
      rw [run] at h
      cases hend : mode.onEnd scope draft with
      | ok ending =>
        rw [hend] at h
        exact congrArg Except.ok (Except.ok.inj h)
      | error cause =>
        rw [hend] at h
        cases h
    | cons c cs ih =>
      obtain ⟨mode₁, draft₁, hchar, h⟩ := run_cons_eq_ok.mp h
      obtain ⟨mode₂, draft₂, hreads, hend⟩ := ih h
      exact ⟨mode₂, draft₂, (reads_cons_of_ok hchar cs).trans hreads, hend⟩
  · rintro ⟨mode', draft', hreads, hend⟩
    rw [run_of_reads hreads, hend]
    rfl

theorem endArgument_eq_some {resume : Mode} (h : endArgument draft = .ok (some resume, draft')) :
    resume = argument ∧ draft' = draft ∧ draft.builder.isIncomplete = true := by
  unfold endArgument at h
  split at h
  · next hincomplete =>
    cases h
    exact ⟨rfl, rfl, hincomplete⟩
  · cases h

/-- A line that is not finished goes on inside a string, or between the words of an argument that is not
    complete. -/
theorem onEnd_eq_some {resume : Mode} (h : mode.onEnd scope draft = .ok (some resume, draft')) :
    resume.isText = true ∨ resume = argument ∧ draft'.builder.isIncomplete = true := by
  have hargument : ∀ {draft : Draft}, endArgument draft = .ok (some resume, draft') →
      resume.isText = true ∨ resume = argument ∧ draft'.builder.isIncomplete = true := by
    intro draft h
    obtain ⟨hresume, rfl, hincomplete⟩ := endArgument_eq_some h
    exact .inr ⟨hresume, hincomplete⟩
  cases mode with
  | labelStart | label name | afterLabel name | statementStart => cases h
  | statement name | afterStatement name | argument | comment words => exact hargument h
  | ident name =>
    obtain ⟨_, -, h⟩ := except_bind_eq_ok.mp h
    exact hargument h
  | number digits | dollar digits | operator first =>
    obtain ⟨_, -, h⟩ := except_bind_eq_ok.mp h
    obtain ⟨_, -, h⟩ := except_bind_eq_ok.mp h
    exact hargument h
  | text bytes quote escaped =>
    cases quote with
    | char => cases h
    | string =>
      cases h
      exact .inl rfl

/-! ## One logical line -/

/-- From here on these physical lines make up a logical line: each is read to its last character, and
    there the next one follows or the line is finished. -/
inductive Spans (scope : ScopeId) : Mode → Draft → List String → Draft → Prop
  | last {mode mode' : Mode} {draft draft' final : Draft} {text : String} :
    mode.reads scope draft text.toList = .ok (.next mode', draft') →
    mode'.onEnd scope draft' = .ok (none, final) → Spans scope mode draft [text] final
  | more {mode mode' resume : Mode} {draft draft' draft'' final : Draft} {text : String}
      {texts : List String} :
    mode.reads scope draft text.toList = .ok (.next mode', draft') →
    mode'.onEnd scope draft' = .ok (some resume, draft'') → Spans scope resume draft'' texts final →
      Spans scope mode draft (text :: texts) final

theorem Spans.exists_cons {texts : List String} {final : Draft}
    (h : mode.Spans scope draft texts final) :
    ∃ text more, texts = text :: more := by
  cases h with
  | last => exact ⟨_, _, rfl⟩
  | more => exact ⟨_, _, rfl⟩

end Mode

section

variable {scope : ScopeId} {file : Option String} {outer : List Site} {mode : Mode} {draft : Draft}
  {number : UInt32} {line : String} {rest : List String}

/-- What is read is taken from the front of what remains. -/
theorem readPhysical_texts {read : Physical}
    (h : readPhysical scope file outer mode draft number line rest = .ok read) :
    line :: rest = read.texts ++ read.rest := by
  fun_induction readPhysical generalizing read with
  | case1 => cases h
  | case2 =>
    cases h
    rfl
  | case3 => cases h
  | case4 =>
    cases h
    rfl
  | case5 _ _ _ _ _ _ _ _ _ ih =>
    obtain ⟨more, hmore, h⟩ := except_bind_eq_ok.mp h
    cases except_pure_eq_ok.mp h
    rw [ih hmore]
    rfl

/-- What is read makes up a logical line, if its argument is complete. -/
theorem spans_of_readPhysical {read : Physical}
    (h : readPhysical scope file outer mode draft number line rest = .ok read)
    (hcomplete : read.draft.builder.isIncomplete = false) :
    mode.Spans scope draft read.texts read.draft := by
  fun_induction readPhysical generalizing read with
  | case1 => cases h
  | case2 _ _ _ _ _ _ hrun =>
    cases h
    obtain ⟨_, _, hreads, hend⟩ := run_eq_ok.mp hrun
    exact .last hreads hend
  | case3 => cases h
  | case4 _ _ _ _ _ _ hrun hopen =>
    -- The text ends inside an argument.
    cases h
    obtain ⟨_, _, -, hend⟩ := run_eq_ok.mp hrun
    rcases onEnd_eq_some hend with htext | ⟨-, hincomplete⟩
    · exact absurd htext hopen
    · rw [hcomplete] at hincomplete
      cases hincomplete
  | case5 _ _ _ _ _ _ hrun _ _ ih =>
    obtain ⟨more, hmore, h⟩ := except_bind_eq_ok.mp h
    cases except_pure_eq_ok.mp h
    obtain ⟨_, _, hreads, hend⟩ := run_eq_ok.mp hrun
    exact .more hreads hend (ih hmore hcomplete)

/-- Physical lines that make up a logical line are read as one, whatever follows. -/
theorem readPhysical_of_spans {texts later : List String} {final : Draft}
    (h : mode.Spans scope draft (line :: texts) final) :
    readPhysical scope file outer mode draft number line (texts ++ later) =
      .ok { draft := final, texts := line :: texts, rest := later } := by
  induction texts generalizing mode draft number line with
  | nil =>
    cases h with
    | last hreads hend =>
      unfold readPhysical
      rw [run_eq_ok.mpr ⟨_, _, hreads, hend⟩]
      rfl
    | more _ _ hmore =>
      obtain ⟨_, _, heq⟩ := hmore.exists_cons
      cases heq
  | cons next texts ih =>
    cases h with
    | more hreads hend hmore =>
      unfold readPhysical
      rw [run_eq_ok.mpr ⟨_, _, hreads, hend⟩]
      show (readPhysical scope file outer _ _ (number + 1) next (texts ++ later) >>= _) = _
      rw [ih hmore]
      rfl

end

/-- The line is what can be read of these physical lines. -/
def Line.ReadFrom (line : Line) (texts : List String) : Prop :=
  ∃ final : Draft, Mode.labelStart.Spans line.scope {} texts final ∧ line.label = final.label ∧
    line.mnemonic = final.mnemonic ∧ final.builder.finish = .ok line.arguments ∧
    line.comment = final.comment

namespace Reader

variable {reader next : Reader} {scope : ScopeId} {line : Line}

/-- A line that is given has been read from physical lines that are then gone. -/
theorem exists_readFrom (h : reader.next scope = .ok (some (line, next))) :
    ∃ texts, reader.remaining = texts ++ next.remaining ∧ line.ReadFrom texts ∧ line.scope = scope ∧
      line.position.here.text = String.intercalate "\n" texts ∧
      line.position.here.line = reader.number ∧
      next.number = reader.number + texts.length ∧ next.stopped = reader.stopped := by
  unfold Reader.next at h
  split at h
  · cases h
  · split at h
    · cases h
    · next first more hremaining =>
      simp only [except_bind_eq_ok, except_pure_eq_ok, Option.some.injEq, Prod.mk.injEq] at h
      obtain ⟨read, hread, arguments, harguments, rfl, rfl⟩ := h
      have hfinish : read.draft.builder.finish = .ok arguments := by
        cases hbuilder : read.draft.builder.finish with
        | ok e =>
          rw [hbuilder] at harguments
          exact congrArg Except.ok (Except.ok.inj harguments)
        | error cause =>
          rw [hbuilder] at harguments
          cases harguments
      have hspans := spans_of_readPhysical hread (Builder.isIncomplete_of_finish hfinish)
      refine ⟨read.texts, ?_, ⟨read.draft, hspans, rfl, rfl, hfinish, rfl⟩, rfl, rfl, rfl, rfl, rfl⟩
      rw [hremaining]
      exact readPhysical_texts hread

/-- Physical lines that make up a logical line are the next line. -/
theorem next_of_spans {texts later : List String} {final : Draft} {arguments : Option Expr}
    (hstopped : reader.stopped = false) (hremaining : reader.remaining = texts ++ later)
    (hspans : Mode.labelStart.Spans scope {} texts final)
    (hfinish : final.builder.finish = .ok arguments) :
    ∃ line, reader.next scope =
        .ok (some (line, { reader with
          remaining := later, number := reader.number + texts.length })) ∧
      line.label = final.label ∧ line.mnemonic = final.mnemonic ∧ line.arguments = arguments ∧
      line.comment = final.comment ∧ line.scope = scope := by
  obtain ⟨text, more, rfl⟩ := hspans.exists_cons
  exact next_of_readPhysical hstopped hremaining (readPhysical_of_spans hspans) hfinish

/-! ## Whole texts -/

end Reader

/-- The physical lines that the text of a line is joined from. -/
def Line.physicalLines (line : Line) : List String :=
  (line.position.here.text.toList.splitOn '\n').map String.ofList

namespace Reader

/-- How the physical lines of a text are shared out among lines. -/
structure Covers (lines : List Line) (text : String) : Prop where
  /-- No physical line is dropped and none is read twice. -/
  complete : lines.flatMap Line.physicalLines = Text.lines text
  /-- A line begins behind the physical lines of those before it. Its number has 32 bits. -/
  numbered : ∀ front line back, lines = front ++ line :: back →
    line.position.here.line = 1 + UInt32.ofNat (front.flatMap Line.physicalLines).length
  /-- So the number is right for as many physical lines as there are such numbers. -/
  exactly : ∀ front line back, lines = front ++ line :: back →
    (line.position.here.line.toNat = 1 + (front.flatMap Line.physicalLines).length ↔
      1 + (front.flatMap Line.physicalLines).length < 0x100000000)
  /-- A line has been read to the end of its last physical line. -/
  read : ∀ line ∈ lines, line.ReadFrom line.physicalLines

end Reader

end Z80Asm
