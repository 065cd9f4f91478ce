import Z80Asm.Proofs.Block.Grammar
import Z80Asm.Proofs.Program.Scoping

/-!
# Reading gives well-scoped sessions

Reading makes a scope for every line and does nothing else to the arena. `Library.Reads` says this of
the items that are read, with blocks and included files, and what holds of a source is proved along
it. Where only its lines matter, `Scopes.Account` says what has to be shown of a single line.

Every line that is read owns a scope made for it, below the scope into which the text is read, or
below that of the line that opens a block around it (`Scopes.account_gives`). So a new session is
well-scoped, and it stays so when source is read.

The relation `Library.Reads` has no failures and no bounds. A source that could not be read has no
lines, so there is nothing to say of it.
-/
set_option autoImplicit false

namespace Z80Asm

open Success

/-- The lines of a body and the terminator behind it. -/
def Body.lines (body : Body) : List Line :=
  linesOf body.items ++ body.closer.toList

theorem Body.lines_prepend (items : List Item) (body : Body) :
    (body.prepend items).lines = linesOf items ++ body.lines := by
  simp only [Body.lines, Body.prepend, linesOf_append, List.append_assoc]

/-- All of a body, with the terminator as its last item if there is one. -/
def Body.whole (body : Body) : List Item :=
  body.items ++ body.closer.toList.map (.plain · .instruction)

theorem Body.closed_eq_whole {body : Body} {closers : List Closer} {opener last : Line}
    {items : List Item} {st st' : Loading}
    (h : body.closed closers opener st = .ok (items, last) st') :
    st = st' ∧ items = body.whole := by
  unfold Body.closed at h
  cases hcloser : body.closer with
  | none => simp [hcloser] at h
  | some line =>
    rw [hcloser] at h
    obtain ⟨hitems, rfl⟩ := pure_eq_ok.mp h
    cases hitems
    exact ⟨rfl, by rw [Body.whole, hcloser]; rfl⟩

namespace Load

theorem createScope_eq_ok {parent id : ScopeId} {st st' : Loading} :
    createScope parent st = .ok id st' ↔
      id = st.scopes.fresh ∧ st' = { st with scopes := (st.scopes.create (some parent)).2 } := by
  simp only [createScope, get_bind_apply, set_bind_apply, pure_eq_ok]
  constructor
  · rintro ⟨rfl, rfl⟩
    exact ⟨rfl, rfl⟩
  · rintro ⟨rfl, rfl⟩
    exact ⟨rfl, rfl⟩

@[simp] theorem onBehalf_eq_ok {α : Type} {line : Line} {x : Except Cause α} {a : α}
    {st st' : Loading} : onBehalf line x st = .ok a st' ↔ x = .ok a ∧ st = st' := by
  cases x with
  | ok b => simp [onBehalf]
  | error cause => simp [onBehalf]

end Load

/-! ## What is read -/

/-- The directory of a text, in which its `INCLUDE` lines look for files first. -/
def directoryOf (file : Option String) : String :=
  (file.map Path.directory).getD ""

/-- An `INCLUDE` line that names the file at this path. -/
structure Line.Includes (library : Library) (line : Line) (path : String) : Prop where
  directive : line.directive? = some .splice
  named : ∃ scopes once name, includedName scopes line = .ok (once, name) ∧
    library.find (directoryOf line.position.here.file) name = .ok path

/-- How a text goes on. -/
structure Reader.Reads (file : Option String) (outer : List Site) (reader : Reader) : Prop where
  file : reader.file = file
  outer : reader.outer = outer

/-- A line of a text in this file with these outer sites, which was read into this scope. -/
structure Line.ComesFrom (file : Option String) (outer : List Site) (scope : ScopeId) (line : Line) :
    Prop where
  next : ∃ reader rest, Reader.next reader scope = .ok (some (line, rest))
  scope : line.scope = scope
  file : line.position.here.file = file
  outer : line.position.outer = outer

theorem Reader.Reads.next {file : Option String} {outer : List Site} {reader rest : Reader}
    {scope : ScopeId} {line : Line} (hreader : reader.Reads file outer)
    (h : reader.next scope = .ok (some (line, rest))) :
    line.ComesFrom file outer scope ∧ rest.Reads file outer := by
  have hnext := h
  unfold Reader.next at h
  split at h
  · cases h
  · split at h
    · cases h
    · simp only [except_bind_eq_ok, except_pure_eq_ok] at h
      obtain ⟨read, -, arguments, -, hline⟩ := h
      cases hline
      exact ⟨⟨⟨_, _, hnext⟩, rfl, hreader.file, hreader.outer⟩, hreader.file, hreader.outer⟩

/-- What reading into a scope does: it makes a scope for every line, and gives these items. -/
inductive Library.Reads (lib : Library) :
    Option String → List Site → ScopeId → Scopes → List Item → Scopes → Prop
  | nil {file : Option String} {outer : List Site} {scope : ScopeId} {s : Scopes} :
      Reads lib file outer scope s [] s
  /-- At the end of the text the scope is made for nothing. -/
  | unused {file : Option String} {outer : List Site} {scope : ScopeId} {s : Scopes} :
      Reads lib file outer scope s [] (s.create (some scope)).2
  | append {file : Option String} {outer : List Site} {scope : ScopeId} {s t u : Scopes}
      {items others : List Item} (h : Reads lib file outer scope s items t)
      (h' : Reads lib file outer scope t others u) :
      Reads lib file outer scope s (items ++ others) u
  | plain {file : Option String} {outer : List Site} {scope : ScopeId} {s : Scopes} {line : Line}
      {role : Role} (hline : line.ComesFrom file outer s.fresh)
      (hrole : role = .equ → line.directive? = some .equ) :
      Reads lib file outer scope s [.plain line role] (s.create (some scope)).2
  | splice {file : Option String} {outer : List Site} {scope : ScopeId} {s t : Scopes} {line : Line}
      {path : String} {items : List Item} (hline : line.ComesFrom file outer s.fresh)
      (hpath : line.Includes lib path)
      (h : Reads lib (some path) line.position.chain scope (s.create (some scope)).2 items t) :
      Reads lib file outer scope s (.plain line .instruction :: items) t
  | block {file : Option String} {outer : List Site} {scope : ScopeId} {s t : Scopes} {line : Line}
      {kind : BlockKind} {body : List Item} (hline : line.ComesFrom file outer s.fresh)
      (hkind : line.directive? = some (.opens kind))
      (h : Reads lib file outer (kind.bodyScope line scope) (s.create (some scope)).2 body t) :
      Reads lib file outer scope s [.block line kind body] t
  | choice {file : Option String} {outer : List Site} {scope : ScopeId} {s t u : Scopes} {line : Line}
      {onTrue onFalse : List Item} (hline : line.ComesFrom file outer s.fresh)
      (h : Reads lib file outer scope (s.create (some scope)).2 onTrue t)
      (h' : Reads lib file outer scope t onFalse u) :
      Reads lib file outer scope s [.choice line onTrue onFalse] u

section

variable {lib : Library} {file : Option String} {outer : List Site} {scope : ScopeId}
  {closers : List Closer} {st st' : Loading} {body : Body}

/-- A body that was read up to one of the terminators. -/
structure Body.Read (lib : Library) (file : Option String) (outer : List Site) (scope : ScopeId)
    (closers : List Closer) (s : Scopes) (body : Body) (t : Scopes) : Prop where
  whole : lib.Reads file outer scope s body.whole t
  closer : closers = [] → body.closer = none
  reader : body.reader.Reads file outer

/-- How a text in this file includes others. -/
structure FileStatements.Read (lib : Library) (file : Option String) (files : FileStatements) :
    Prop where
  splice : ∀ ⦃line scope outer s st items st'⦄, files.splice line scope st = .ok items st' →
    line.directive? = some .splice → line.ComesFrom file outer s.fresh →
    st.scopes = (s.create (some scope)).2 →
    lib.Reads file outer scope s (.plain line .instruction :: items) st'.scopes
  embedded : ∀ ⦃line st path st'⦄, files.embedded line st = .ok path st' → st = st'

/-- What is read behind items comes behind these. -/
theorem Body.Read.behind {x : Load Body} {s : Scopes} {items : List Item}
    (hx : ∀ {body : Body}, x st = .ok body st' →
      body.Read lib file outer scope closers st.scopes st'.scopes)
    (hitems : lib.Reads file outer scope s items st.scopes)
    (h : (do let rest ← x; return rest.prepend items) st = .ok body st') :
    body.Read lib file outer scope closers s st'.scopes := by
  obtain ⟨rest, st₁, hrest, hlast⟩ := bind_eq_ok.mp h
  obtain ⟨rfl, rfl⟩ := pure_eq_ok.mp hlast
  have hbody := hx hrest
  have hwhole := hitems.append hbody.whole
  rw [Body.whole, ← List.append_assoc] at hwhole
  exact ⟨hwhole, hbody.closer, hbody.reader⟩

theorem readItems_reads {files : FileStatements} (hfiles : files.Read lib file) {fuel : Nat}
    {reader : Reader} (hreader : reader.Reads file outer)
    (h : readItems files fuel scope closers reader st = .ok body st') :
    body.Read lib file outer scope closers st.scopes st'.scopes := by
  induction fuel generalizing scope closers reader st st' body with
  | zero =>
    obtain ⟨rfl, rfl⟩ := pure_eq_ok.mp h
    exact ⟨.nil, fun _ => rfl, hreader⟩
  | succ fuel ih =>
    rw [readItems] at h
    obtain ⟨lineScope, st₁, hcreate, h⟩ := bind_eq_ok.mp h
    obtain ⟨rfl, hst₁⟩ := Load.createScope_eq_ok.mp hcreate
    cases hnext : reader.next st.scopes.fresh with
    | error failure => simp [hnext] at h
    | ok read =>
      rw [hnext] at h
      have hscopes : st₁.scopes = (st.scopes.create (some scope)).2 := by rw [hst₁]
      cases read with
      | none =>
        obtain ⟨rfl, rfl⟩ := pure_eq_ok.mp h
        rw [hscopes]
        exact ⟨.unused, fun _ => rfl, hreader⟩
      | some read =>
        obtain ⟨line, reader⟩ := read
        obtain ⟨hline, hreader⟩ := hreader.next hnext
        have hplain : ∀ role, (role = .equ → line.directive? = some .equ) →
            lib.Reads file outer scope st.scopes [.plain line role] st₁.scopes := fun role hrole =>
          hscopes ▸ .plain hline hrole
        dsimp only at h
        cases hdirective : line.directive? with
        | none =>
          rw [hdirective] at h
          exact .behind (ih hreader) (hplain .instruction Role.noConfusion) h
        | some directive =>
          rw [hdirective] at h
          cases directive with
          | equ => exact .behind (ih hreader) (hplain .equ fun _ => hdirective) h
          | space => exact .behind (ih hreader) (hplain .space Role.noConfusion) h
          | stop =>
            have hstop : reader.stop.Reads file outer := ⟨hreader.file, hreader.outer⟩
            exact .behind (ih hstop) (hplain .instruction Role.noConfusion) h
          | splice =>
            obtain ⟨included, st₂, hsplice, h⟩ := bind_eq_ok.mp h
            exact .behind (ih hreader) (hfiles.splice hsplice hdirective hline hscopes) h
          | incbin =>
            obtain ⟨path, st₂, hembedded, h⟩ := bind_eq_ok.mp h
            cases hfiles.embedded hembedded
            exact .behind (ih hreader) (hplain (.incbin path) Role.noConfusion) h
          | closes closer =>
            dsimp only at h
            split at h
            · next hcloser =>
              obtain ⟨rfl, rfl⟩ := pure_eq_ok.mp h
              refine ⟨hplain .instruction Role.noConfusion, fun hnone => ?_, hreader⟩
              rw [hnone] at hcloser
              cases hcloser
            · simp at h
          | opens kind =>
            obtain ⟨inner, st₂, hread, h⟩ := bind_eq_ok.mp h
            obtain ⟨⟨items, last⟩, st₃, hclosed, h⟩ := bind_eq_ok.mp h
            obtain ⟨rfl, rfl⟩ := Body.closed_eq_whole hclosed
            have hinner := ih hreader hread
            exact .behind (ih hinner.reader) (.block hline hdirective (hscopes ▸ hinner.whole)) h
          | choice =>
            obtain ⟨inner, st₂, hread, h⟩ := bind_eq_ok.mp h
            obtain ⟨⟨onTrue, last⟩, st₃, hclosed, h⟩ := bind_eq_ok.mp h
            obtain ⟨rfl, rfl⟩ := Body.closed_eq_whole hclosed
            have htrue := ih hreader hread
            dsimp only at h
            -- A branch that ends with `ELSE` has another behind it.
            split at h
            · obtain ⟨second, st₃, hread', h⟩ := bind_eq_ok.mp h
              obtain ⟨⟨onFalse, last'⟩, st₄, hclosed', h⟩ := bind_eq_ok.mp h
              obtain ⟨rfl, rfl⟩ := Body.closed_eq_whole hclosed'
              have hfalse := ih htrue.reader hread'
              exact .behind (ih hfalse.reader)
                (.choice hline (hscopes ▸ htrue.whole) hfalse.whole) h
            · exact .behind (ih htrue.reader) (.choice hline (hscopes ▸ htrue.whole) .nil) h

theorem readItemsOf_reads {files : FileStatements} (hfiles : files.Read lib file) {text : String}
    {items : List Item} (h : readItemsOf files text file outer scope st = .ok items st') :
    lib.Reads file outer scope st.scopes items st'.scopes := by
  obtain ⟨body, st₁, hread, hlast⟩ := bind_eq_ok.mp h
  obtain ⟨rfl, rfl⟩ := pure_eq_ok.mp hlast
  have hbody := readItems_reads hfiles ⟨rfl, rfl⟩ hread
  have hwhole := hbody.whole
  rwa [Body.whole, hbody.closer rfl, Option.toList_none, List.map_nil, List.append_nil] at hwhole

/-- Reading a file on behalf of another. -/
def Library.FileRead (lib : Library) (readFile : String → ScopeId → List Site → Load (List Item)) :
    Prop :=
  ∀ ⦃path scope outer st items st'⦄, readFile path scope outer st = .ok items st' →
    lib.Reads (some path) outer scope st.scopes items st'.scopes

theorem Library.statements_read {readFile : String → ScopeId → List Site → Load (List Item)}
    (hread : lib.FileRead readFile) (file : Option String) :
    (lib.statements (directoryOf file) readFile).Read lib file where
  splice := by
    intro line scope outer s st items st' h hdirective hline hscopes
    simp only [Library.statements, Load.tracedAt, adaptExcept_eq_ok, bind_eq_ok, get_eq_ok,
      Load.onBehalf_eq_ok] at h
    obtain ⟨_, _, ⟨-, rfl⟩, ⟨once, name⟩, _, ⟨hname, rfl⟩, path, _, ⟨hpath, rfl⟩, place, _, ⟨-, rfl⟩,
      _, _, ⟨-, rfl⟩, h⟩ := h
    split at h
    · obtain ⟨rfl, rfl⟩ := pure_eq_ok.mp h
      rw [hscopes]
      exact .plain hline Role.noConfusion
    · have hincludes : line.Includes lib path := ⟨hdirective, _, _, _, hname, hline.file ▸ hpath⟩
      exact .splice hline hincludes (hscopes ▸ hread h)
  embedded := by
    intro line st path st' h
    simp only [Library.statements, bind_eq_ok, get_eq_ok, Load.onBehalf_eq_ok] at h
    obtain ⟨_, _, ⟨-, rfl⟩, _, _, ⟨-, rfl⟩, -, rfl⟩ := h
    rfl

theorem Loading.scopes_remember (state : Loading) (place : Except FileError FilePlace) :
    (state.remember place).scopes = state.scopes := by
  cases place <;> rfl

theorem Library.readFile_reads (lib : Library) (nesting : Nat) :
    lib.FileRead (lib.readFile nesting) := by
  induction nesting with
  | zero =>
    intro path scope outer st items st' h
    simp [Library.readFile] at h
  | succ nesting ih =>
    intro path scope outer st items st' h
    rw [Library.readFile] at h
    cases hbytes : lib.files.read path with
    | error reason => simp [hbytes] at h
    | ok bytes =>
      rw [hbytes] at h
      dsimp only at h
      rw [modify_bind_apply] at h
      have hreads := readItemsOf_reads (Library.statements_read ih (some path)) h
      rw [Loading.scopes_remember] at hreads
      exact hreads

end

/-! ## Sources -/

/-- Where a source is read from. -/
inductive Origin where
  | text (words : String)
  | file (path : String)

/-- Where the first line of a source is from. -/
def Origin.main : Origin → Option String
  | .text _ => none
  | .file path => some path

/-- Reads a source. -/
def Origin.load : Origin → Assembly Source
  | .text words => Assembly.loadText words
  | .file path => Assembly.loadFile path

open Assembly in
/-- A source is read into a new scope. -/
theorem Origin.load_reads {s s' : Session} {origin : Origin} {source : Source}
    (h : origin.load s = .ok source s') :
    source.scope = s.scopes.fresh ∧ s' = { s with scopes := s'.scopes, loaded := s'.loaded } ∧
      s.library.Reads origin.main [] s.scopes.fresh (s.scopes.create (some s.builtins)).2 source.items
        s'.scopes := by
  cases origin with
  | text words =>
    simp only [Origin.load, loadText, bind_eq_ok, get_eq_ok, pure_eq_ok] at h
    obtain ⟨_, _, ⟨rfl, rfl⟩, scope, s₁, hcreate, items, s₂, hload, rfl, rfl⟩ := h
    obtain ⟨rfl, rfl⟩ := createScope_eq_ok.mp hcreate
    obtain ⟨st, hread, rfl⟩ := load_eq_ok.mp hload
    exact ⟨rfl, rfl, readItemsOf_reads (Library.statements_read (Library.readFile_reads _ _) none) hread⟩
  | file path =>
    simp only [Origin.load, loadFile, bind_eq_ok, get_eq_ok, pure_eq_ok] at h
    obtain ⟨_, _, ⟨rfl, rfl⟩, scope, s₁, hcreate, items, s₂, hload, rfl, rfl⟩ := h
    obtain ⟨rfl, rfl⟩ := createScope_eq_ok.mp hcreate
    obtain ⟨st, hread, rfl⟩ := load_eq_ok.mp hload
    exact ⟨rfl, rfl, Library.readFile_reads _ _ hread⟩

/-! ## Accounts of reading -/

/-- An account of what reading into a scope does: under the premise `pre` it leads from one arena to
    another and gives these lines. It is enough that the account covers a line that is read into a
    scope made for it, and that accounts of what is read behind each other add up. -/
structure Scopes.Account (pre : Scopes → ScopeId → Prop)
    (gives : Scopes → Scopes → List Line → Prop) : Prop where
  nil : ∀ {s scope}, pre s scope → gives s s []
  append : ∀ {s t u lines others}, gives s t lines → gives t u others → gives s u (lines ++ others)
  keeps : ∀ {s t lines scope}, gives s t lines → pre s scope → pre t scope
  unused : ∀ {s scope}, pre s scope → gives s (s.create (some scope)).2 []
  read : ∀ {s scope reader line rest}, pre s scope →
    Reader.next reader s.fresh = .ok (some (line, rest)) → line.scope = s.fresh →
      gives s (s.create (some scope)).2 [line] ∧ pre (s.create (some scope)).2 s.fresh

/-- An account of a property of arenas that new scopes keep, and of the lines that are read there. -/
theorem Scopes.Account.ofLines {P : Scopes → Prop} {Q : Line → Prop}
    (hcreate : ∀ {s scope}, P s → P (s.create (some scope)).2)
    (hread : ∀ {s reader line rest}, P s → Reader.next reader s.fresh = .ok (some (line, rest)) →
      line.scope = s.fresh → Q line) :
    Scopes.Account (fun s _ => P s) (fun _ t lines => P t ∧ ∀ line ∈ lines, Q line) where
  nil h := ⟨h, List.forall_mem_nil _⟩
  append h h' := ⟨h'.1, List.forall_mem_append.mpr ⟨h.2, h'.2⟩⟩
  keeps h _ := h.1
  unused h := ⟨hcreate h, List.forall_mem_nil _⟩
  read h hnext hscope :=
    ⟨⟨hcreate h, List.forall_mem_singleton.mpr (hread h hnext hscope)⟩, hcreate h⟩

/-- The account covers the lines of a text. -/
theorem Library.Reads.account {pre : Scopes → ScopeId → Prop}
    {gives : Scopes → Scopes → List Line → Prop} (account : Scopes.Account pre gives) {lib : Library}
    {file : Option String} {outer : List Site} {scope : ScopeId} {s t : Scopes} {items : List Item}
    (h : lib.Reads file outer scope s items t) (hpre : pre s scope) : gives s t (linesOf items) := by
  have hread : ∀ {file outer scope s line}, Line.ComesFrom file outer (Scopes.fresh s) line →
      pre s scope → gives s (s.create (some scope)).2 [line] ∧
        pre (s.create (some scope)).2 line.scope := by
    rintro file outer scope s line ⟨⟨_, _, hnext⟩, hscope, -, -⟩ hpre
    rw [hscope]
    exact account.read hpre hnext hscope
  induction h with
  | nil => exact account.nil hpre
  | unused => exact account.unused hpre
  | append _ _ ih ih' =>
    rw [linesOf_append]
    exact account.append (ih hpre) (ih' (account.keeps (ih hpre) hpre))
  | plain hline _ => exact (hread hline hpre).1
  | splice hline _ _ ih =>
    have hfirst := (hread hline hpre).1
    exact account.append hfirst (ih (account.keeps hfirst hpre))
  | @block _ _ _ _ _ _ kind _ hline _ _ ih =>
    obtain ⟨hfirst, hinner⟩ := hread hline hpre
    rw [linesOf, linesOf, List.append_nil]
    refine account.append hfirst (ih ?_)
    cases kind with
    | segment => exact account.keeps hfirst hpre
    | template | rept | irp | proc => exact hinner
  | choice hline _ _ ih ih' =>
    have hfirst := (hread hline hpre).1
    have hscope := account.keeps hfirst hpre
    have htrue := ih hscope
    rw [linesOf, linesOf, List.append_nil]
    exact account.append hfirst (account.append htrue (ih' (account.keeps htrue hscope)))

/-! ## Scopes of lines -/

/-- Reading leads from `s` to `t` and gives lines that own scopes in it. -/
structure Scopes.Gives (s t : Scopes) (lines : List Line) : Prop where
  growth : s.Extends t
  ordered : t.Ordered
  holds : t.Holds 0 (lines.map Line.scope)

/-- **In an ordered arena, lines are given scopes below the one that is read into.** -/
theorem Scopes.account_gives :
    Scopes.Account (fun s scope => s.Ordered ∧ scope.index < s.size) Scopes.Gives where
  nil h := ⟨.refl _, h.1, .nil⟩
  append h h' := by
    refine ⟨h.growth.trans h'.growth, h'.ordered, ?_⟩
    rw [List.map_append]
    exact (h.holds.mono h'.growth).append h'.holds
  keeps h hscope := ⟨h.ordered, h.growth.index_lt hscope.2⟩
  unused {s scope} h := ⟨s.extends_create _, h.1.create h.2, .nil⟩
  read {s scope reader line rest} h _ hscope := by
    refine ⟨⟨s.extends_create _, h.1.create h.2, fun id hid => ?_⟩, h.1.create h.2, ?_⟩
    · cases List.mem_singleton.mp hid
      rw [hscope]
      exact ⟨Nat.zero_le _, scope, s.below_create scope⟩
    · exact (s.below_create scope).index_lt

/-! ## Sessions -/

theorem Session.wellScoped_new (library : Library) : (Session.new library).WellScoped where
  ordered := by
    intro i hi p hp
    cases Nat.lt_one_iff.mp hi
    cases hp
  builtins := Nat.zero_lt_one
  templates := fun template h => by cases Array.not_mem_empty template h

namespace Assembly

variable {s s' : Session}

/-- Reading a text gives lines that own scopes, in a session that is well-scoped. -/
theorem loadText_wellScoped {text : String} {source : Source}
    (h : loadText text s = .ok source s') (hs : s.WellScoped) :
    s'.WellScoped ∧ s'.scopes.Holds 0 (ownedBy source.items) := by
  have hload : (Origin.text text).load s = .ok source s' := h
  obtain ⟨-, hlast, hreads⟩ := Origin.load_reads hload
  have hcreated : s.Keeps 0 _ := hs.create hs.builtins
  have hgives := hreads.account Scopes.account_gives
    ⟨hcreated.wellScoped.ordered, (s.scopes.below_create s.builtins).index_lt⟩
  have hkeeps : s.Keeps 0 { s with scopes := s'.scopes } :=
    hs.withScopes (hcreated.growth.trans hgives.growth) hgives.ordered fun _ hid => nomatch hid
  rw [hlast]
  exact ⟨⟨hkeeps.wellScoped.ordered, hkeeps.wellScoped.builtins, hkeeps.wellScoped.templates⟩,
    map_scope_linesOf source.items ▸ hgives.holds⟩

/-- Reads a text and binds its labels. -/
def loadRegistered (text : String) : Assembly Source := do
  let source ← loadText text
  register source.items
  return source

theorem loadRegistered_wellScoped {text : String} {source : Source}
    (h : loadRegistered text s = .ok source s') (hs : s.WellScoped) : s'.WellScoped := by
  obtain ⟨source, s₁, hload, h⟩ := bind_eq_ok.mp h
  obtain ⟨_, s₂, hregister, h⟩ := bind_eq_ok.mp h
  obtain ⟨rfl, rfl⟩ := pure_eq_ok.mp h
  obtain ⟨hs₁, hitems⟩ := loadText_wellScoped hload hs
  exact (keeps_register _ hregister hs₁ hitems).wellScoped

end Assembly

end Z80Asm
