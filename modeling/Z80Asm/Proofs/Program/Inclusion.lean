import Z80Asm.Proofs.Block.Balance
import Z80Asm.Proofs.Failure
import Z80Asm.Proofs.Line.Elsewhere
import Z80Asm.Proofs.Program.Reading
import Z80Asm.Proofs.Scope.Steps

/-!
# Including files once

If every `INCLUDE` is marked with `ONCE`, reading a file comes to an end and reads no file twice, no
matter how the files include each other: also in circles, also themselves, and also if paths that are
spelled differently lead to one file. For a file is only read if it has not been read yet, and reading
it leaves one file less for the inclusions inside it.

Nothing is known of the files but what `FileAccess` gives: which file a path leads to, whether there
is one, and what it holds. The one assumption is that the files that can be read are finitely many
(`FileAccess.Finite`). So links are covered, and so is a path that leads somewhere and cannot be
read.

The bounds of `readFile` therefore play no part. `readFileWith` has other ones: more steps for the
lines of a text, and at the bound of inclusions it does something else, anything at all. Both
readings are compared step by step (`Load.Agrees`), with what holds of every state between the steps
as the invariant: no file was read twice, and there are fewer unread files than inclusions that may
nest.

What is left out is what happens without `ONCE`. There a file can include itself for ever, and the
bound stands in for that: reading gives up with `includeTooDeep`.
-/
set_option autoImplicit false

namespace Z80Asm

open Success

/-! ## Statements that include a file once -/

/-- The argument of the line is marked with `ONCE`. -/
def Line.isOnce (line : Line) : Bool :=
  match line.arguments with
  | some (.annotated word _) => Text.lower word == "once"
  | _ => false

/-- If the line is an `INCLUDE`, it is marked with `ONCE`. -/
def Line.IncludesOnce (line : Line) : Prop :=
  line.directive? = some .splice → line.isOnce = true

instance (line : Line) : Decidable line.IncludesOnce :=
  inferInstanceAs (Decidable (_ → _))

theorem Line.isOnce_inScope (line : Line) (scope : ScopeId) :
    (line.inScope scope).isOnce = line.isOnce := by
  have harguments : (line.inScope scope).arguments =
      line.arguments.map (Expr.rename fun _ => scope) := rfl
  rw [Line.isOnce, Line.isOnce, harguments]
  cases line.arguments with
  | none => rfl
  | some e => cases e <;> rfl

namespace Reader

/-- What is left to read behind a line: nothing if the line is an `END`. -/
def behind (line : Line) (reader : Reader) : Reader :=
  if line.directive? = some .stop then reader.stop else reader

/-- The lines that are read one after the other. -/
inductive Yields : Reader → Line → Prop
  | first {reader rest : Reader} {scope : ScopeId} {line : Line}
      (h : reader.next scope = .ok (some (line, rest))) : Yields reader line
  | later {reader rest : Reader} {scope : ScopeId} {line other : Line}
      (h : reader.next scope = .ok (some (line, rest))) (hother : Yields (rest.behind line) other) :
      Yields reader other

def IncludesOnce (reader : Reader) : Prop :=
  ∀ line, reader.Yields line → line.IncludesOnce

variable {reader rest other : Reader} {scope : ScopeId} {line : Line}

theorem Alike.behind (h : reader.Alike other) (line : Line) :
    (reader.behind line).Alike (other.behind line) := by
  unfold Reader.behind
  split
  · exact h.stop
  · exact h

theorem Yields.elsewhere (h : reader.Yields line) (halike : reader.Alike other) :
    ∃ position, other.Yields { line with position } := by
  induction h generalizing other with
  | first hnext =>
    obtain ⟨position, rest', hnext', -⟩ := halike.next_eq_some hnext
    exact ⟨position, .first hnext'⟩
  | @later _ _ _ line _ hnext _ ih =>
    obtain ⟨position, rest', hnext', hrest⟩ := halike.next_eq_some hnext
    obtain ⟨position', hother⟩ := ih (hrest.behind line)
    exact ⟨position', .later hnext' hother⟩

theorem IncludesOnce.elsewhere (h : reader.IncludesOnce) (halike : reader.Alike other) :
    other.IncludesOnce := by
  intro line hline
  obtain ⟨position, hyields⟩ := hline.elsewhere halike.symm
  have honce := h _ hyields
  exact honce

/-- The lines that are read are those that the reader gives, whatever scopes they are read into. -/
theorem Gives.includesOnce {base : ScopeId} {lines : List Line} (h : reader.Gives base lines)
    (hstop : ∀ line ∈ lines, line.directive? ≠ some .stop)
    (honce : ∀ line ∈ lines, line.IncludesOnce) : reader.IncludesOnce := by
  have hnext_eq : ∀ {reader next : Reader} {line other : Line} {rest : Reader} {scope : ScopeId},
      reader.next base = .ok (some (line, next)) → reader.next scope = .ok (some (other, rest)) →
      other = line.inScope scope ∧ rest = next := by
    intro reader next line other rest scope hnext hother
    rw [Reader.next_rescope reader base scope, hnext] at hother
    cases hother
    exact ⟨rfl, rfl⟩
  intro line hline
  induction hline generalizing lines with
  | @first reader rest scope other hnext =>
    cases h with
    | nil hnone =>
      rw [Reader.next_rescope reader scope base, hnext] at hnone
      cases hnone
    | cons hfirst _ =>
      obtain ⟨rfl, -⟩ := hnext_eq hfirst hnext
      intro hdirective
      rw [Line.isOnce_inScope]
      exact honce _ List.mem_cons_self hdirective
  | @later reader rest scope other _ hnext _ ih =>
    cases h with
    | nil hnone =>
      rw [Reader.next_rescope reader scope base, hnext] at hnone
      cases hnone
    | cons hfirst hgives =>
      obtain ⟨rfl, rfl⟩ := hnext_eq hfirst hnext
      rw [Reader.behind, Line.directive?_inScope, if_neg (hstop _ List.mem_cons_self)] at ih
      exact ih hgives (fun l hl => hstop l (List.mem_cons_of_mem _ hl))
        fun l hl => honce l (List.mem_cons_of_mem _ hl)

theorem IncludesOnce.behind (h : reader.IncludesOnce)
    (hnext : reader.next scope = .ok (some (line, rest))) : (rest.behind line).IncludesOnce :=
  fun other hother => h other (.later hnext hother)

theorem IncludesOnce.of_next (h : reader.IncludesOnce)
    (hnext : reader.next scope = .ok (some (line, rest))) (hline : line.directive? ≠ some .stop) :
    rest.IncludesOnce := by
  have hbehind := h.behind hnext
  rw [Reader.behind, if_neg hline] at hbehind
  exact hbehind

end Reader

/-- Every `INCLUDE` in a file is marked with `ONCE`. -/
def Library.IncludesOnce (lib : Library) : Prop :=
  ∀ path bytes, lib.files.read path = .ok bytes →
    (Reader.ofText (Text.ofBytes bytes) none []).IncludesOnce

/-! ## Finitely many files -/

namespace FileAccess

/-- A path that can be read leads to one of finitely many files. The paths need not be finitely
    many: a file can have any number of spellings. -/
def Finite (files : FileAccess) : Prop :=
  ∀ path bytes, files.read path = .ok bytes →
    ∃ place ∈ files.places, files.canonicalize path = .ok place

/-- The files with one more path, which leads where another does. -/
def link (files : FileAccess) (path target : String) : FileAccess where
  canonicalize other := files.canonicalize (if other = path then target else other)
  isFile other := files.isFile (if other = path then target else other)
  read other := files.read (if other = path then target else other)
  places := files.places

theorem Finite.link {files : FileAccess} (h : files.Finite) (path target : String) :
    (files.link path target).Finite :=
  fun other => h (if other = path then target else other)

end FileAccess

theorem FileSystem.contents?_of_read {fs : FileSystem} {path : String} {bytes : List UInt8}
    (h : fs.read path = .ok bytes) :
    ∃ place, fs.locate path = .ok place ∧ (place, bytes) ∈ fs.files := by
  obtain ⟨place, hplace, h⟩ := except_bind_eq_ok.mp h
  split at h
  · next found hfound =>
    cases h
    obtain ⟨before, after, hfiles, -⟩ := List.lookup_eq_some_iff.mp hfound
    rw [hfiles]
    exact ⟨place, hplace, List.mem_append_right _ List.mem_cons_self⟩
  · cases h

theorem FileSystem.finite_access (fs : FileSystem) : fs.access.Finite := by
  intro path bytes h
  obtain ⟨place, hplace, hmem⟩ := FileSystem.contents?_of_read h
  exact ⟨place, List.mem_map_of_mem hmem, hplace⟩

/-! ## Readings that do the same -/

/-- From states with `pre` on, two readings do the same. They leave states with `inv`, also when they
    fail, and what they give has `post`. -/
structure Load.Agrees {α : Type} (pre inv : Loading → Prop) (post : α → Prop) (x y : Load α) :
    Prop where
  eq : ∀ st, pre st → x st = y st
  ok : ∀ st a st', pre st → x st = .ok a st' → inv st' ∧ post a
  error : ∀ st failure st', pre st → x st = .error failure st' → inv st'

namespace Load.Agrees

variable {α β : Type} {pre inv : Loading → Prop} {post : α → Prop} {post' : β → Prop}

theorem bind {x y : Load α} {f g : α → Load β} (h : Agrees pre inv post x y)
    (hf : ∀ a, post a → Agrees inv inv post' (f a) (g a)) :
    Agrees pre inv post' (x >>= f) (y >>= g) where
  eq st hst := by
    have hxy := h.eq st hst
    show EStateM.bind x f st = EStateM.bind y g st
    unfold EStateM.bind
    rw [← hxy]
    cases hx : x st with
    | ok a st₁ =>
      obtain ⟨hst₁, ha⟩ := h.ok st a st₁ hst hx
      exact (hf a ha).eq st₁ hst₁
    | error failure st₁ => rfl
  ok st b st' hst hb := by
    obtain ⟨a, st₁, hx, hfb⟩ := bind_eq_ok.mp hb
    obtain ⟨hst₁, ha⟩ := h.ok st a st₁ hst hx
    exact (hf a ha).ok st₁ b st' hst₁ hfb
  error st failure st' hst he := by
    rcases bind_eq_error.mp he with hx | ⟨a, st₁, hx, hfe⟩
    · exact h.error st failure st' hst hx
    · obtain ⟨hst₁, ha⟩ := h.ok st a st₁ hst hx
      exact (hf a ha).error st₁ failure st' hst₁ hfe

theorem pure {a : α} (h : post a) : Agrees inv inv post (Pure.pure a) (Pure.pure a) where
  eq _ _ := rfl
  ok st b st' hst hb := by
    obtain ⟨rfl, rfl⟩ := pure_eq_ok.mp hb
    exact ⟨hst, h⟩
  error st failure st' _ he := (pure_eq_error.mp he).elim

theorem throw (failure : Failure) :
    Agrees inv inv post (MonadExcept.throw failure : Load α) (MonadExcept.throw failure) where
  eq _ _ := rfl
  ok st a st' _ h := (throw_eq_ok.mp h).elim
  error st failure st' hst he := by
    obtain ⟨-, rfl⟩ := throw_eq_error.mp he
    exact hst

theorem mono {strong : α → Prop} {x y : Load α} (h : Agrees pre inv strong x y)
    (hpost : ∀ a, strong a → post a) : Agrees pre inv post x y where
  eq := h.eq
  ok st a st' hst hx := (h.ok st a st' hst hx).imp_right (hpost a)
  error := h.error

theorem onBehalf (line : Line) (x : Except Cause α) :
    Agrees inv inv (x = .ok ·) (Load.onBehalf line x) (Load.onBehalf line x) := by
  cases x with
  | ok a => exact pure rfl
  | error cause => exact throw _

/-- What comes next may depend on the state. -/
theorem get_bind {f g : Loading → Load β}
    (h : ∀ st, pre st → Agrees (· = st) inv post' (f st) (g st)) :
    Agrees pre inv post' (get >>= f) (get >>= g) where
  eq st hst := (h st hst).eq st rfl
  ok st b st' hst hb := (h st hst).ok st b st' rfl hb
  error st failure st' hst he := (h st hst).error st failure st' rfl he

theorem modify_bind {mid : Loading → Prop} {change : Loading → Loading} {x y : Load β}
    (h : Agrees mid inv post' x y) (hchange : ∀ st, pre st → mid (change st)) :
    Agrees pre inv post' (do modify change; x) (do modify change; y) where
  eq st hst := h.eq (change st) (hchange st hst)
  ok st b st' hst hb := h.ok (change st) b st' (hchange st hst) hb
  error st failure st' hst he := h.error (change st) failure st' (hchange st hst) he

/-- Less may be assumed of the states before, and more of those after. -/
theorem weaken {weak strong : Loading → Prop} {x y : Load α} (h : Agrees weak strong post x y)
    (hpre : ∀ st, pre st → weak st) (hinv : ∀ st, strong st → inv st) : Agrees pre inv post x y where
  eq st hst := h.eq st (hpre st hst)
  ok st a st' hst hx := (h.ok st a st' (hpre st hst) hx).imp_left (hinv st')
  error st failure st' hst he := hinv st' (h.error st failure st' (hpre st hst) he)

theorem createScope (hscopes : ∀ st scopes, inv st → inv { st with scopes }) (parent : ScopeId) :
    Agrees inv inv (fun _ => True) (Load.createScope parent) (Load.createScope parent) where
  eq _ _ := rfl
  ok st id st' hst h := by
    obtain ⟨-, rfl⟩ := Load.createScope_eq_ok.mp h
    exact ⟨hscopes st _ hst, trivial⟩
  error st failure st' _ he := by cases he

theorem tracedAt (line : Line) {x y : Load α} (h : Agrees pre inv post x y) :
    Agrees pre inv post (Load.tracedAt line x) (Load.tracedAt line y) where
  eq st hst := by
    show EStateM.adaptExcept _ x st = EStateM.adaptExcept _ y st
    unfold EStateM.adaptExcept
    rw [h.eq st hst]
  ok st a st' hst hx := h.ok st a st' hst (adaptExcept_eq_ok.mp hx)
  error st failure st' hst he := by
    obtain ⟨_, hx, -⟩ := adaptExcept_eq_error.mp he
    exact h.error st _ st' hst hx

end Load.Agrees

/-! ## Reading lines -/

/-- What is left to read when a body has been read. -/
def Body.LeavesOnce (limit : Nat) (body : Body) : Prop :=
  body.reader.remaining.length ≤ limit ∧ body.reader.IncludesOnce

section

variable {inv : Loading → Prop} {files files' : FileStatements}

/-- Both carry out statements that refer to files in the same way. -/
structure FileStatements.Agree (inv : Loading → Prop) (files files' : FileStatements) : Prop where
  splice : ∀ line scope, line.directive? = some .splice → line.IncludesOnce →
    Load.Agrees inv inv (fun _ => True) (files.splice line scope) (files'.splice line scope)
  embedded : ∀ line,
    Load.Agrees inv inv (fun _ => True) (files.embedded line) (files'.embedded line)

theorem Load.Agrees.closed {limit : Nat} {body : Body} (hbody : body.LeavesOnce limit)
    (closers : List Closer) (opener : Line) {β : Type} {post : β → Prop}
    {f g : List Item × Line → Load β}
    (hf : ∀ a, body.LeavesOnce limit → Agrees inv inv post (f a) (g a)) :
    Agrees inv inv post (body.closed closers opener >>= f) (body.closed closers opener >>= g) := by
  have hclosed : Agrees inv inv (fun _ => True) (body.closed closers opener)
      (body.closed closers opener) := by
    unfold Body.closed
    cases body.closer with
    | some line => exact Agrees.pure trivial
    | none => exact Agrees.throw _
  exact hclosed.bind fun a _ => hf a hbody

/-- Readings that read on do the same. -/
theorem Load.Agrees.prepended {limit bound : Nat} {x y : Load Body}
    (h : Agrees inv inv (Body.LeavesOnce limit) x y) (hle : limit ≤ bound) (items : List Item) :
    Agrees inv inv (Body.LeavesOnce bound) (do let rest ← x; return rest.prepend items)
      (do let rest ← y; return rest.prepend items) :=
  h.bind fun rest hrest =>
    Agrees.pure (show (rest.prepend items).LeavesOnce bound from ⟨Nat.le_trans hrest.1 hle, hrest.2⟩)

/-- How many steps there are for the lines plays no part, as long as they are enough. -/
theorem readItems_agrees (hscopes : ∀ st scopes, inv st → inv { st with scopes })
    (hfiles : files.Agree inv files') {fuel fuel' : Nat} {scope : ScopeId} {closers : List Closer}
    {reader : Reader} (hfuel : reader.remaining.length < fuel)
    (hfuel' : reader.remaining.length < fuel') (honce : reader.IncludesOnce) :
    Load.Agrees inv inv (Body.LeavesOnce reader.remaining.length)
      (readItems files fuel scope closers reader) (readItems files' fuel' scope closers reader) := by
  induction fuel generalizing fuel' scope closers reader with
  | zero => exact absurd hfuel (Nat.not_lt_zero _)
  | succ fuel ih =>
    obtain ⟨fuel', rfl⟩ := Nat.exists_eq_add_one.mpr (Nat.zero_lt_of_lt hfuel')
    rw [readItems, readItems]
    refine (Load.Agrees.createScope hscopes scope).bind fun lineScope _ => ?_
    cases hnext : reader.next lineScope with
    | error failure => exact Load.Agrees.throw failure
    | ok read =>
      cases read with
      | none => exact Load.Agrees.pure ⟨Nat.le_refl _, honce⟩
      | some read =>
        obtain ⟨line, rest⟩ := read
        have hshorter := Reader.next_remaining hnext
        have hle : rest.remaining.length ≤ reader.remaining.length := Nat.le_of_lt hshorter
        have hrest : line.directive? ≠ some .stop → ∀ {scope closers},
            Load.Agrees inv inv (Body.LeavesOnce rest.remaining.length)
              (readItems files fuel scope closers rest)
              (readItems files' fuel' scope closers rest) :=
          fun hline => ih (by omega) (by omega) (honce.of_next hnext hline)
        -- What is read behind a body has less to read than the body had.
        have hbehind : ∀ {body : Body} {scope closers},
            body.LeavesOnce rest.remaining.length →
            Load.Agrees inv inv (Body.LeavesOnce body.reader.remaining.length)
              (readItems files fuel scope closers body.reader)
              (readItems files' fuel' scope closers body.reader) :=
          fun hbody => ih (by have := hbody.1; omega) (by have := hbody.1; omega) hbody.2
        dsimp only
        cases hdirective : line.directive? with
        | none => exact (hrest (by simp [hdirective])).prepended hle _
        | some directive =>
          cases directive with
          | equ => exact (hrest (by simp [hdirective])).prepended hle _
          | space => exact (hrest (by simp [hdirective])).prepended hle _
          | stop =>
            have hstop : rest.stop.IncludesOnce := by
              have hbehind := honce.behind hnext
              rw [Reader.behind, if_pos hdirective] at hbehind
              exact hbehind
            have hlt : rest.stop.remaining.length < reader.remaining.length := hshorter
            have hread : Load.Agrees inv inv (Body.LeavesOnce rest.stop.remaining.length)
                (readItems files fuel scope closers rest.stop)
                (readItems files' fuel' scope closers rest.stop) :=
              ih (by omega) (by omega) hstop
            exact hread.prepended hle _
          | splice =>
            refine (hfiles.splice line scope hdirective (honce line (.first hnext))).bind
              fun included _ => ?_
            exact (hrest (by simp [hdirective])).prepended hle _
          | incbin =>
            refine (hfiles.embedded line).bind fun path _ => ?_
            exact (hrest (by simp [hdirective])).prepended hle _
          | closes closer =>
            dsimp only
            split
            · exact Load.Agrees.pure ⟨hle, honce.of_next hnext (by simp [hdirective])⟩
            · exact Load.Agrees.throw _
          | opens kind =>
            refine (hrest (by simp [hdirective])).bind fun body hbody => ?_
            refine Load.Agrees.closed hbody _ _ fun _ hbody => ?_
            exact (hbehind hbody).prepended (Nat.le_trans hbody.1 hle) _
          | choice =>
            refine (hrest (by simp [hdirective])).bind fun body hbody => ?_
            refine Load.Agrees.closed hbody _ _ fun closed hbody => ?_
            split
            · refine (hbehind hbody).bind fun second hsecond => ?_
              have hsecond : second.LeavesOnce rest.remaining.length :=
                ⟨Nat.le_trans hsecond.1 hbody.1, hsecond.2⟩
              refine Load.Agrees.closed hsecond _ _ fun _ hsecond => ?_
              exact (hbehind hsecond).prepended (Nat.le_trans hsecond.1 hle) _
            · exact (hbehind hbody).prepended (Nat.le_trans hbody.1 hle) _

theorem readItems_agrees_of_extra (hscopes : ∀ st scopes, inv st → inv { st with scopes })
    (hfiles : files.Agree inv files') {reader : Reader} (honce : reader.IncludesOnce)
    (extra extra' : Nat) (scope : ScopeId) :
    Load.Agrees inv inv (fun _ => True)
      (do return (← readItems files (reader.remaining.length + 1 + extra) scope [] reader).items)
      (do return (← readItems files' (reader.remaining.length + 1 + extra') scope [] reader).items) := by
  have hread : Load.Agrees inv inv (Body.LeavesOnce reader.remaining.length)
      (readItems files (reader.remaining.length + 1 + extra) scope [] reader)
      (readItems files' (reader.remaining.length + 1 + extra') scope [] reader) :=
    readItems_agrees hscopes hfiles (by omega) (by omega) honce
  exact hread.bind fun _ _ => Load.Agrees.pure trivial

end

/-! ## Reading files -/

namespace Library

/-- How many files have not been read. -/
def unread (lib : Library) (loaded : List FilePlace) : Nat :=
  lib.files.places.countP fun place => !loaded.contains place

/-- No file was read twice, and at most so many were not read. -/
structure Remembers (lib : Library) (bound : Nat) (st : Loading) : Prop where
  distinct : st.loaded.Nodup
  unread : lib.unread st.loaded ≤ bound

variable {lib : Library} {place : FilePlace} {loaded : List FilePlace}

/-- A file that is read is one less that is not. -/
theorem unread_cons_lt (hlisted : place ∈ lib.files.places) (hplace : place ∉ loaded) :
    lib.unread (place :: loaded) < lib.unread loaded := by
  refine countP_lt (fun other _ hother => ?_) hlisted (by simp) (by simpa using hplace)
  simp only [List.contains_cons, Bool.not_eq_true', Bool.or_eq_false_iff] at hother ⊢
  exact hother.2

/-- Reads a file as `readFile` does, with more steps for the lines of each text. Inclusions that nest
    deeper than `nesting` are left to `deeper`. -/
def readFileWith (lib : Library) (extra : Nat)
    (deeper : String → ScopeId → List Site → Load (List Item)) :
    Nat → String → ScopeId → List Site → Load (List Item)
  | 0, path, scope, outer => deeper path scope outer
  | nesting + 1, path, scope, outer => do
    match lib.files.read path with
    | .error reason => throw (Cause.unreadable reason path).untraced
    | .ok bytes =>
      modify (·.remember (lib.files.canonicalize path))
      let files := lib.statements (Path.directory path) (lib.readFileWith extra deeper nesting)
      let reader := Reader.ofText (Text.ofBytes bytes) (some path) outer
      return (← readItems files (reader.remaining.length + 1 + extra) scope [] reader).items

theorem readFile_eq (lib : Library) (nesting : Nat) :
    lib.readFile nesting =
      lib.readFileWith 0 (fun path _ _ => throw (Cause.includeTooDeep path).untraced) nesting := by
  induction nesting with
  | zero => rfl
  | succ nesting ih =>
    funext path scope outer
    rw [readFile, readFileWith, ih]
    rfl

/-- The file that a path leads to has not been read. -/
def Unloaded (lib : Library) (path : String) (st : Loading) : Prop :=
  ∀ place, lib.files.canonicalize path = .ok place → place ∉ st.loaded

theorem includedName_once {scopes : Scopes} {line : Line} {once : Bool} {name : String}
    (hdirective : line.directive? = some .splice) (honce : line.IncludesOnce)
    (h : includedName scopes line = .ok (once, name)) : once = true := by
  have hmarked := honce hdirective
  unfold Line.isOnce at hmarked
  split at hmarked
  · next word argument harguments =>
    simp only [includedName, harguments, hmarked, if_true, except_bind_eq_ok,
      except_pure_eq_ok] at h
    obtain ⟨_, rfl, _, -, hpair⟩ := h
    exact (Prod.mk.inj hpair).1.symm
  · cases hmarked

/-- An inclusion with `ONCE` reads a file only if it has not been read. -/
theorem statements_agree {bound : Nat} (dir : String)
    {readFile readFile' : String → ScopeId → List Site → Load (List Item)}
    (hread : ∀ path scope outer,
      Load.Agrees (fun st => lib.Remembers bound st ∧ lib.Unloaded path st) (lib.Remembers bound)
        (fun _ => True) (readFile path scope outer) (readFile' path scope outer)) :
    (lib.statements dir readFile).Agree (lib.Remembers bound) (lib.statements dir readFile') where
  splice line scope hdirective honce := by
    refine Load.Agrees.tracedAt line (Load.Agrees.get_bind fun st hst => ?_)
    have hnow : ∀ st', st' = st → lib.Remembers bound st' := fun _ heq => heq ▸ hst
    refine Load.Agrees.weaken ?_ hnow fun _ h => h
    refine (Load.Agrees.onBehalf line (includedName st.scopes line)).bind fun found hfound => ?_
    obtain ⟨once, name⟩ := found
    refine (Load.Agrees.onBehalf line (lib.find dir name)).bind fun path hpath => ?_
    refine (Load.Agrees.onBehalf line _).bind fun place hplace => ?_
    refine Load.Agrees.get_bind fun st hst => ?_
    cases includedName_once hdirective honce hfound
    split
    · exact (Load.Agrees.pure trivial).weaken (fun _ heq => heq ▸ hst) fun _ h => h
    · next hnew =>
      refine (hread path scope _).weaken ?_ fun _ h => h
      rintro _ rfl
      refine ⟨hst, fun other hother => ?_⟩
      rw [hother] at hplace
      cases hplace
      simpa using hnew
  embedded line := by
    refine Load.Agrees.get_bind fun st hst => ?_
    refine Load.Agrees.weaken ?_ (fun _ heq => heq ▸ hst) fun _ h => h
    refine (Load.Agrees.onBehalf line _).bind fun name _ => ?_
    exact (Load.Agrees.onBehalf line _).mono fun _ _ => trivial

/-- Nothing is read from a path that cannot be read. -/
theorem readFileWith_agrees_of_error {extra extra' : Nat}
    {deeper deeper' : String → ScopeId → List Site → Load (List Item)} {path : String}
    {reason : FileError} (h : lib.files.read path = .error reason) (nesting nesting' : Nat)
    (scope : ScopeId) (outer : List Site) (inv : Loading → Prop) :
    Load.Agrees inv inv (fun _ => True)
      (lib.readFileWith extra deeper (nesting + 1) path scope outer)
      (lib.readFileWith extra' deeper' (nesting' + 1) path scope outer) := by
  rw [readFileWith, readFileWith, h]
  exact Load.Agrees.throw _

/-- Reading a file that has not been read never comes to the bounds: there are not enough files for
    that. -/
theorem readFileWith_agrees (hfinite : lib.files.Finite) (honce : lib.IncludesOnce)
    (extra extra' : Nat) (deeper deeper' : String → ScopeId → List Site → Load (List Item))
    {bound nesting nesting' : Nat} (hle : bound < nesting) (hle' : bound < nesting') (path : String)
    (scope : ScopeId) (outer : List Site) :
    Load.Agrees (fun st => lib.Remembers bound st ∧ lib.Unloaded path st) (lib.Remembers bound)
      (fun _ => True) (lib.readFileWith extra deeper nesting path scope outer)
      (lib.readFileWith extra' deeper' nesting' path scope outer) := by
  induction bound generalizing nesting nesting' path scope outer with
  | zero =>
    obtain ⟨nesting, rfl⟩ := Nat.exists_eq_add_one.mpr hle
    obtain ⟨nesting', rfl⟩ := Nat.exists_eq_add_one.mpr hle'
    cases hbytes : lib.files.read path with
    | error reason =>
      exact (readFileWith_agrees_of_error hbytes nesting nesting' scope outer _).weaken
        (fun _ h => h.1) fun _ h => h
    | ok bytes =>
      -- No file is left, so this one has been read.
      obtain ⟨place, hlisted, hplace⟩ := hfinite path bytes hbytes
      have hnone : ∀ st, ¬(lib.Remembers 0 st ∧ lib.Unloaded path st) := by
        rintro st ⟨hst, hunloaded⟩
        have hlt := unread_cons_lt hlisted (hunloaded place hplace)
        have hzero := hst.unread
        omega
      exact ⟨fun st h => absurd h (hnone st), fun st _ _ h => absurd h (hnone st),
        fun st _ _ h => absurd h (hnone st)⟩
  | succ bound ih =>
    obtain ⟨nesting, rfl⟩ := Nat.exists_eq_add_one.mpr (Nat.zero_lt_of_lt hle)
    obtain ⟨nesting', rfl⟩ := Nat.exists_eq_add_one.mpr (Nat.zero_lt_of_lt hle')
    cases hbytes : lib.files.read path with
    | error reason =>
      exact (readFileWith_agrees_of_error hbytes nesting nesting' scope outer _).weaken
        (fun _ h => h.1) fun _ h => h
    | ok bytes =>
      obtain ⟨place, hlisted, hplace⟩ := hfinite path bytes hbytes
      have hfiles : FileStatements.Agree (lib.Remembers bound)
          (lib.statements (Path.directory path) (lib.readFileWith extra deeper nesting))
          (lib.statements (Path.directory path) (lib.readFileWith extra' deeper' nesting')) :=
        statements_agree _ fun path scope outer =>
          ih (Nat.lt_of_succ_lt_succ hle) (Nat.lt_of_succ_lt_succ hle') path scope outer
      have hinside := readItems_agrees_of_extra
        (fun st scopes hst => ⟨hst.distinct, hst.unread⟩) hfiles
        ((honce path bytes hbytes).elsewhere (Reader.alike_ofText _ none (some path) [] outer))
        extra extra' scope
      rw [readFileWith, readFileWith, hbytes, hplace]
      refine (hinside.modify_bind ?_).weaken (fun _ h => h)
        fun st hst => ⟨hst.distinct, Nat.le_succ_of_le hst.unread⟩
      rintro st ⟨hst, hunloaded⟩
      have hnew := hunloaded place hplace
      have hless := unread_cons_lt hlisted hnew
      have hall := hst.unread
      exact ⟨List.nodup_cons.mpr ⟨hnew, hst.distinct⟩, by dsimp only [Loading.remember]; omega⟩

/-- The bounds of `readFile` are never met. -/
theorem readFile_agrees (hfinite : lib.files.Finite) (honce : lib.IncludesOnce) (extra : Nat)
    (deeper : String → ScopeId → List Site → Load (List Item)) {nesting : Nat}
    (hle : lib.files.places.length < nesting) (path : String) (scope : ScopeId) :
    Load.Agrees (·.loaded = []) (lib.Remembers lib.files.places.length) (fun _ => True)
      (lib.readFile lib.maxNesting path scope [])
      (lib.readFileWith extra deeper nesting path scope []) := by
  have hmax : lib.files.places.length < lib.maxNesting := by
    have hsquare := Nat.le_mul_self (lib.files.places.length + 1)
    unfold maxNesting
    omega
  rw [readFile_eq]
  refine (readFileWith_agrees hfinite honce 0 extra _ deeper hmax hle path scope []).weaken
    (fun st hst => ⟨⟨hst ▸ .nil, List.countP_le_length⟩, ?_⟩) fun _ h => h
  intro place _
  rw [hst]
  exact List.not_mem_nil

end Library

namespace Assembly

theorem load_congr {α : Type} {x y : Library → Load α} {s : Session}
    (h : x s.library { scopes := s.scopes, loaded := s.loaded } =
      y s.library { scopes := s.scopes, loaded := s.loaded }) : load x s = load y s := by
  unfold load
  rw [h]

theorem load_eq_error {α : Type} {x : Library → Load α} {failure : Failure} {s s' : Session}
    (h : load x s = .error failure s') :
    ∃ st, x s.library { scopes := s.scopes, loaded := s.loaded } = .error failure st ∧
      s'.loaded = st.loaded := by
  unfold load at h
  split at h
  · cases h
  · next st hx =>
    cases h
    exact ⟨st, hx, rfl⟩

/-- Reads a file into a new scope as `loadFile` does, with other bounds. -/
def loadFileWith (extra : Nat) (deeper : String → ScopeId → List Site → Load (List Item))
    (nesting : Nat) (path : String) : Assembly Source := do
  let scope ← createScope (← get).builtins
  let items ← load fun library => library.readFileWith extra deeper nesting path scope []
  return { scope, items }

/-- **Including files once comes to an end.** Let the files be finitely many, however paths lead to
    them, and let every `INCLUDE` in them be marked with `ONCE`. Then reading a file in a new session
    ends: as soon as inclusions may nest once more than there are files, it makes no difference how
    deep they may nest, what is done beyond that, and how many more steps there are for the lines. And
    whether or not it succeeds, no file is read twice: `loaded` is a list, and has a place as often as
    the file there was read. -/
theorem loadFile_reads_once {library : Library} (hfinite : library.files.Finite)
    (honce : library.IncludesOnce) (path : String) :
    (∀ extra deeper nesting, library.files.places.length < nesting →
      loadFileWith extra deeper nesting path (Session.new library) =
        loadFile path (Session.new library)) ∧
    (∀ source s, loadFile path (Session.new library) = .ok source s → s.loaded.Nodup) ∧
    ∀ failure s, loadFile path (Session.new library) = .error failure s → s.loaded.Nodup := by
  have hopen : ∀ f : ScopeId → Assembly Source,
      (do let scope ← createScope (← get).builtins; f scope) (Session.new library) =
        f (Session.new library).scopes.fresh { Session.new library with
          scopes := ((Session.new library).scopes.create (some (Session.new library).builtins)).2 } :=
    fun f => bind_apply_of_ok (createScope_eq_ok.mpr ⟨rfl, rfl⟩) f
  have hagrees := Library.readFile_agrees hfinite honce 0 (fun _ _ _ => pure [])
    (Nat.lt_succ_self library.files.places.length) path (Session.new library).scopes.fresh
  refine ⟨fun extra deeper nesting hnesting => ?_, fun source s h => ?_, fun failure s h => ?_⟩
  · rw [loadFile, loadFileWith, hopen, hopen]
    refine bind_apply_congr (load_congr ?_) _
    exact ((Library.readFile_agrees hfinite honce extra deeper hnesting path _).eq _ rfl).symm
  · rw [loadFile, hopen] at h
    obtain ⟨items, s₁, hload, hlast⟩ := bind_eq_ok.mp h
    obtain ⟨-, rfl⟩ := pure_eq_ok.mp hlast
    obtain ⟨st, hread, rfl⟩ := load_eq_ok.mp hload
    exact (hagrees.ok _ _ _ rfl hread).1.distinct
  · rw [loadFile, hopen] at h
    rcases bind_eq_error.mp h with hload | ⟨_, _, -, hlast⟩
    · obtain ⟨st, hread, hloaded⟩ := load_eq_error hload
      rw [hloaded]
      exact (hagrees.error _ _ _ rfl hread).distinct
    · exact (pure_eq_error.mp hlast).elim

/-- Two files that include each other and themselves, one of them also through a link and under a
    longer path. -/
def circularFiles : FileSystem :=
  ({} : FileSystem)
    |>.add "m.asm" " include once \"a.asm\"\n include once \"./a.asm\"\n".toUTF8.toList
    |>.add "a.asm" " include once \"m.asm\"\n include once \"link.asm\"\n db 5\n".toUTF8.toList

def circularLibrary : Library where
  files := circularFiles.access.link "link.asm" "a.asm"

theorem circularLibrary_includesOnce : circularLibrary.IncludesOnce := by
  intro path bytes hread
  have hread : circularFiles.read _ = .ok bytes := hread
  obtain ⟨place, -, hmem⟩ := FileSystem.contents?_of_read hread
  have hall : (circularFiles.files.all fun file =>
      match (Reader.ofText (Text.ofBytes file.2) none []).linesBelow ⟨0⟩ 4 with
      | some lines => lines.all fun line =>
        decide (line.directive? ≠ some .stop) && decide line.IncludesOnce
      | none => false) = true := by
    decide +kernel
  have hfile := List.all_eq_true.mp hall _ hmem
  split at hfile
  · next lines hlines =>
    refine (Reader.gives_of_linesBelow hlines).includesOnce (fun line hline => ?_) fun line hline => ?_
    · have hline := List.all_eq_true.mp hfile line hline
      simp only [Bool.and_eq_true, decide_eq_true_eq] at hline
      exact hline.1
    · have hline := List.all_eq_true.mp hfile line hline
      simp only [Bool.and_eq_true, decide_eq_true_eq] at hline
      exact hline.2
  · cases hfile

/-- Reading comes to an end although the files include each other in a circle, and each is read once,
    also the one that two paths of different names lead to. -/
theorem loadFile_reads_once_circular : ∃ source s,
    circularLibrary.files.canonicalize "link.asm" = circularLibrary.files.canonicalize "a.asm" ∧
      loadFile "m.asm" (Session.new circularLibrary) = .ok source s ∧
      s.loaded = [["a.asm"], ["m.asm"]] ∧ s.loaded.Nodup ∧
      ∀ extra deeper nesting, circularLibrary.files.places.length < nesting →
        loadFileWith extra deeper nesting "m.asm" (Session.new circularLibrary) = .ok source s := by
  have hpasses : passes (fun (_ : Source) (s : Session) =>
      decide (s.loaded = [["a.asm"], ["m.asm"]]))
      (loadFile "m.asm" (Session.new circularLibrary)) = true := by
    decide +kernel
  obtain ⟨source, s, hload, htest⟩ := eq_ok_of_passes hpasses
  have hfinite : circularLibrary.files.Finite := (circularFiles.finite_access).link _ _
  obtain ⟨hbounds, hok, -⟩ :=
    loadFile_reads_once hfinite circularLibrary_includesOnce "m.asm"
  exact ⟨source, s, rfl, hload, of_decide_eq_true htest, hok source s hload,
    fun extra deeper nesting hnesting => (hbounds extra deeper nesting hnesting).trans hload⟩

end Assembly

end Z80Asm
