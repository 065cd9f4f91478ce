import Z80Asm.Proofs.Error.Tracing
import Z80Asm.Proofs.Line.Physical
import Z80Asm.Proofs.Program.Reading

/-!
# The sites that reading makes

Positions are made by the reader only. A line gets the site that it starts at, with the text of all
its physical lines, and a physical line that cannot be read is named on its own. Both are sites of
the program: the file that is named there can be read, and the text is what stands there
(`Library.Written`).

So the lines of a text, and those of the files that it includes, stand at sites of the program, and
if reading fails, it fails at one (`tells_readText`). A file is read on behalf of the line that
includes it, and may fail without a context when it cannot be opened. That line then gives it one,
which is why a file only hints where it failed and the `INCLUDE` line tells.

The statements leave out which file a site belongs to when a file is included twice; the chain of
`INCLUDE` lines that led to a line is in its position, and `Program/Routes` is about that.
-/
set_option autoImplicit false

namespace Z80Asm

open Success

/-- The text that goes by a name: without a name the program's own, else that of a file. -/
inductive Library.Holds (library : Library) (text : String) : Option String → String → Prop
  | own : library.Holds text none text
  | file {path : String} {bytes : List UInt8} : library.files.read path = .ok bytes →
      library.Holds text (some path) (Text.ofBytes bytes)

/-- The sites of a program: those of its physical lines, and those of the logical lines that start
    at one of them. -/
inductive Library.Written (library : Library) (text : String) : Site → Prop
  | physical {file : Option String} {contents line : String} {before after : List String} :
    library.Holds text file contents → Text.lines contents = before ++ line :: after →
      library.Written text ⟨file, 1 + UInt32.ofNat before.length, line⟩
  | logical {file : Option String} {contents line : String} {before after : List String}
      {scope : ScopeId} {outer : List Site} {read : Physical} :
    library.Holds text file contents → Text.lines contents = before ++ line :: after →
      readPhysical scope file outer .labelStart {} (1 + UInt32.ofNat before.length) line after =
        .ok read →
      library.Written text
        ⟨file, 1 + UInt32.ofNat before.length, String.intercalate "\n" read.texts⟩

/-- What remains to be read is the rest of a text of the program. -/
structure Reader.Inside (library : Library) (text : String) (reader : Reader) : Prop where
  rest : ∃ contents before, library.Holds text reader.file contents ∧
    Text.lines contents = before ++ reader.remaining ∧ reader.number = 1 + UInt32.ofNat before.length

theorem Reader.inside_ofText {library : Library} {text contents : String} {file : Option String}
    (h : library.Holds text file contents) (outer : List Site) :
    (Reader.ofText contents file outer).Inside library text :=
  ⟨contents, [], h, rfl, rfl⟩

section

variable {scope : ScopeId} {file : Option String} {outer : List Site} {mode : Mode} {draft : Draft}
  {number : UInt32} {line : String} {rest : List String}

/-- A physical line that cannot be read is named. -/
theorem readPhysical_error {failure : Failure}
    (h : readPhysical scope file outer mode draft number line rest = .error failure) :
    ∃ before last after, line :: rest = before ++ last :: after ∧
      failure.StartsAt (· = ⟨file, number + UInt32.ofNat before.length, last⟩) := by
  fun_induction readPhysical with
  | case1 _ _ number =>
    cases h
    refine ⟨[], _, _, rfl, Cause.startsAt_at _ ?_⟩
    exact congrArg (Site.mk file · _) (UInt32.add_zero _).symm
  | case2 => cases h
  | case3 =>
    cases h
    refine ⟨[], _, _, rfl, Cause.startsAt_at _ ?_⟩
    exact congrArg (Site.mk file · _) (UInt32.add_zero _).symm
  | case4 => cases h
  | case5 _ _ _ _ _ _ _ _ _ ih =>
    rcases except_bind_eq_error.mp h with h | ⟨more, -, h⟩
    · obtain ⟨before, last, after, hlines, hstarts⟩ := ih h
      refine ⟨_ :: before, last, after, by rw [hlines]; rfl, hstarts.mono ?_⟩
      rintro site rfl
      rw [List.length_cons, Nat.add_comm, UInt32.ofNat_add, UInt32.add_assoc]
      rfl
    · cases h

end

namespace Reader

variable {library : Library} {text : String} {reader rest : Reader} {scope : ScopeId}

/-- The reader gives lines of the program. -/
theorem Inside.next_eq_some {line : Line} (hreader : reader.Inside library text)
    (h : reader.next scope = .ok (some (line, rest))) :
    library.Written text line.position.here ∧ rest.Inside library text := by
  obtain ⟨contents, before, hholds, hlines, hnumber⟩ := hreader.rest
  unfold Reader.next at h
  split at h
  · cases h
  · split at h
    · cases h
    · next first more hremaining =>
      simp only [except_bind_eq_ok, except_pure_eq_ok, Option.some.injEq, Prod.mk.injEq] at h
      obtain ⟨read, hread, arguments, -, rfl, rfl⟩ := h
      rw [hremaining] at hlines
      rw [hnumber] at hread ⊢
      refine ⟨.logical hholds hlines hread, contents, before ++ read.texts, hholds, ?_, ?_⟩
      · rw [hlines, readPhysical_texts hread, List.append_assoc]
      · rw [List.length_append, UInt32.ofNat_add, ← UInt32.add_assoc]

/-- A line that cannot be read is a line of the program. -/
theorem Inside.next_eq_error {failure : Failure} (hreader : reader.Inside library text)
    (h : reader.next scope = .error failure) : failure.StartsAt (library.Written text) := by
  obtain ⟨contents, before, hholds, hlines, hnumber⟩ := hreader.rest
  unfold Reader.next at h
  split at h
  · cases h
  · split at h
    · cases h
    · next first more hremaining =>
      rw [hremaining] at hlines
      rw [hnumber] at h
      rcases except_bind_eq_error.mp h with h | ⟨read, hread, h⟩
      · obtain ⟨skipped, last, after, hskipped, hstarts⟩ := readPhysical_error h
        refine hstarts.mono ?_
        rintro site rfl
        have hlast : Text.lines contents = (before ++ skipped) ++ last :: after := by
          rw [hlines, hskipped, List.append_assoc]
        have hwritten := Library.Written.physical hholds hlast
        rwa [List.length_append, UInt32.ofNat_add, ← UInt32.add_assoc] at hwritten
      · rcases except_bind_eq_error.mp h with h | ⟨arguments, -, h⟩
        · obtain ⟨cause, -, rfl⟩ : ∃ cause, read.draft.builder.finish = .error cause ∧ _ = failure := by
            cases hfinish : read.draft.builder.finish with
            | ok e =>
              rw [hfinish] at h
              cases h
            | error cause =>
              rw [hfinish] at h
              exact ⟨cause, rfl, Except.error.inj h⟩
          exact cause.startsAt_at (.logical hholds hlines hread)
        · cases h

theorem Inside.stop (hreader : reader.Inside library text) : reader.stop.Inside library text :=
  ⟨hreader.rest⟩

end Reader

/-- All lines of these items stand at such sites. -/
def StandAt (sites : Site → Prop) (items : List Item) : Prop :=
  ∀ line ∈ linesOf items, sites line.position.here

theorem standAt_nil (sites : Site → Prop) : StandAt sites [] :=
  fun _ h => nomatch h

theorem StandAt.append {sites : Site → Prop} {items others : List Item} (h : StandAt sites items)
    (h' : StandAt sites others) : StandAt sites (items ++ others) := by
  intro line hline
  rw [linesOf_append] at hline
  rcases List.mem_append.mp hline with hline | hline
  · exact h line hline
  · exact h' line hline

theorem StandAt.opened {sites : Site → Prop} {item : Item} {inside : List Item}
    (h : StandAt sites inside) (hline : sites item.line.position.here)
    (hlines : item.lines = item.line :: linesOf inside) : StandAt sites [item] := by
  intro line hmem
  rw [linesOf, hlines, linesOf, List.append_nil] at hmem
  rcases List.mem_cons.mp hmem with rfl | hmem
  · exact hline
  · exact h line hmem

/-- Reading that gives items of the program, or fails at a line of it. -/
abbrev Load.Tells (library : Library) (text : String) {α : Type} (good : α → Prop) (x : Load α) : Prop :=
  Ensures (fun _ => True) (·.Tells (fun _ => True) (library.Written text)) good x

/-- On behalf of lines of the program, files are read as they should. -/
structure FileStatements.Tell (library : Library) (text : String) (files : FileStatements) : Prop where
  splice : ∀ line scope, library.Written text line.position.here →
    Load.Tells library text (StandAt (library.Written text)) (files.splice line scope)
  embedded : ∀ line, library.Written text line.position.here →
    Load.Tells library text (fun _ => True) (files.embedded line)

section

variable {library : Library} {text : String}

theorem Load.tells_createScope (scope : ScopeId) :
    Load.Tells library text (fun _ => True) (Load.createScope scope) where
  ok _ _ _ _ _ := ⟨trivial, trivial⟩
  error _ _ _ hrun := nomatch hrun

theorem Load.tells_onBehalf {α : Type} {line : Line} (hline : library.Written text line.position.here)
    (result : Except Cause α) :
    Load.Tells library text (fun _ => True) (Load.onBehalf line result) := by
  cases result with
  | ok a => exact .pure trivial
  | error cause => exact .throw (Cause.tells trivial hline _)

/-- What a body holds stands in the program, and so does what is read behind it. -/
structure Body.Tells (library : Library) (text : String) (body : Body) : Prop where
  lines : ∀ line ∈ body.lines, library.Written text line.position.here
  reader : body.reader.Inside library text

theorem Body.Tells.closed {body : Body} (hbody : body.Tells library text) (closers : List Closer)
    {opener : Line} (hopener : library.Written text opener.position.here) :
    Load.Tells library text (fun read => StandAt (library.Written text) read.1)
      (body.closed closers opener) := by
  have hlines := hbody.lines
  unfold Body.closed
  cases hcloser : body.closer with
  | none => exact .throw (Cause.tells trivial hopener _)
  | some line =>
    rw [Body.lines, hcloser] at hlines
    refine .pure fun line hline => hlines line ?_
    rwa [linesOf_append, linesOf_plain] at hline

/-- What is read behind items comes behind these. -/
theorem Load.Tells.behind {x : Load Body} (hx : Load.Tells library text (·.Tells library text) x)
    {items : List Item} (hitems : StandAt (library.Written text) items) :
    Load.Tells library text (·.Tells library text) (do let rest ← x; return rest.prepend items) := by
  refine hx.bind fun rest hrest => .pure ⟨fun line hline => ?_, hrest.reader⟩
  rw [Body.lines_prepend] at hline
  rcases List.mem_append.mp hline with hline | hline
  · exact hitems line hline
  · exact hrest.lines line hline

variable {files : FileStatements}

theorem tells_readItems (hfiles : files.Tell library text) (fuel : Nat) (scope : ScopeId)
    (closers : List Closer) {reader : Reader} (hreader : reader.Inside library text) :
    Load.Tells library text (·.Tells library text) (readItems files fuel scope closers reader) := by
  induction fuel generalizing scope closers reader with
  | zero => exact .pure ⟨fun _ h => (List.not_mem_nil h).elim, hreader⟩
  | succ fuel ih =>
    rw [readItems]
    refine (Load.tells_createScope scope).bind fun lineScope _ => ?_
    cases hnext : reader.next lineScope with
    | error failure => exact .throw ⟨trivial, hreader.next_eq_error hnext⟩
    | ok read =>
      cases read with
      | none => exact .pure ⟨fun _ h => (List.not_mem_nil h).elim, hreader⟩
      | some read =>
        obtain ⟨line, reader⟩ := read
        obtain ⟨hline, hreader⟩ := hreader.next_eq_some hnext
        have hplain : ∀ role, StandAt (library.Written text) [.plain line role] := fun role =>
          (standAt_nil _).opened hline rfl
        dsimp only
        cases line.directive? with
        | none => exact (ih scope closers hreader).behind (hplain _)
        | some directive =>
          cases directive with
          | equ => exact (ih scope closers hreader).behind (hplain _)
          | space => exact (ih scope closers hreader).behind (hplain _)
          | stop => exact (ih scope closers hreader.stop).behind (hplain _)
          | splice =>
            refine (hfiles.splice line scope hline).bind fun included hincluded => ?_
            exact (ih scope closers hreader).behind ((hplain _).append hincluded)
          | incbin =>
            refine (hfiles.embedded line hline).bind fun path _ => ?_
            exact (ih scope closers hreader).behind (hplain _)
          | closes closer =>
            dsimp only
            split
            · refine .pure ⟨fun other hother => ?_, hreader⟩
              exact List.mem_singleton.mp hother ▸ hline
            · exact .throw (Cause.tells trivial hline _)
          | opens kind =>
            refine (ih _ _ hreader).bind fun body hbody => ?_
            refine (hbody.closed _ hline).bind fun read hitems => ?_
            obtain ⟨items, last⟩ := read
            exact (ih scope closers hbody.reader).behind (hitems.opened hline rfl)
          | choice =>
            refine (ih _ _ hreader).bind fun body hbody => ?_
            refine (hbody.closed _ hline).bind fun read htrue => ?_
            obtain ⟨onTrue, last⟩ := read
            have hchoice : ∀ {onFalse}, StandAt (library.Written text) onFalse →
                StandAt (library.Written text) [.choice line onTrue onFalse] := fun hfalse =>
              (htrue.append hfalse).opened hline (by rw [Item.lines, linesOf_append]; rfl)
            dsimp only
            split
            · refine (ih _ _ hbody.reader).bind fun second hsecond => ?_
              refine (hsecond.closed _ hline).bind fun read hfalse => ?_
              exact (ih scope closers hsecond.reader).behind (hchoice hfalse)
            · exact (ih scope closers hbody.reader).behind (hchoice (standAt_nil _))

theorem tells_readItemsOf (hfiles : files.Tell library text) {contents : String}
    {file : Option String} (hholds : library.Holds text file contents) (outer : List Site)
    (scope : ScopeId) : Load.Tells library text (StandAt (library.Written text))
      (readItemsOf files contents file outer scope) := by
  refine (tells_readItems hfiles _ scope [] (Reader.inside_ofText hholds outer)).bind
    fun body hbody => .pure fun line hline => ?_
  exact hbody.lines line (List.mem_append_left _ hline)

/-- A file that is read on behalf of a line may fail without a context: the line gives it one. -/
abbrev Load.Hints (library : Library) (text : String) {α : Type} (good : α → Prop) (x : Load α) : Prop :=
  Ensures (fun _ => True) (·.Hints (fun _ => True) (library.Written text)) good x

theorem tell_statements (dir : String)
    {readFile : String → ScopeId → List Site → Load (List Item)}
    (hread : ∀ path scope outer, Load.Hints library text (StandAt (library.Written text))
      (readFile path scope outer)) :
    (library.statements dir readFile).Tell library text where
  splice line scope hline := by
    refine Ensures.traced ?_ hline
    refine Ensures.get.bind fun _ _ => ?_
    refine (Load.tells_onBehalf hline _).hints.bind fun named _ => ?_
    obtain ⟨once, name⟩ := named
    refine (Load.tells_onBehalf hline _).hints.bind fun path _ => ?_
    refine (Load.tells_onBehalf hline _).hints.bind fun place _ => ?_
    refine Ensures.get.bind fun _ _ => ?_
    split
    · exact .pure (standAt_nil _)
    · exact hread _ _ _
  embedded line hline := by
    refine Ensures.get.bind fun _ _ => ?_
    refine (Load.tells_onBehalf hline _).bind fun name _ => ?_
    exact Load.tells_onBehalf hline _

theorem hints_readFile (nesting : Nat) (path : String) (scope : ScopeId) (outer : List Site) :
    Load.Hints library text (StandAt (library.Written text))
      (library.readFile nesting path scope outer) := by
  induction nesting generalizing path scope outer with
  | zero => exact .throw (Cause.hints trivial)
  | succ nesting ih =>
    rw [Library.readFile]
    cases hbytes : library.files.read path with
    | error reason => exact .throw (Cause.hints trivial)
    | ok bytes =>
      refine (Ensures.update fun _ _ => trivial).bind fun _ _ => ?_
      exact (tells_readItemsOf (tell_statements _ ih) (.file hbytes) _ _).hints

/-- **A text is read into lines of the program, or fails at one.** -/
theorem tells_readText (scope : ScopeId) : Load.Tells library text (StandAt (library.Written text))
    (library.readText text scope) :=
  tells_readItemsOf (tell_statements "" (hints_readFile library.maxNesting)) .own [] scope

end

end Z80Asm
