import Z80Asm.Proofs.Block.Grammar
import Z80Asm.Proofs.Line.Rescoping
import Z80Asm.Proofs.Success

/-!
# Blocks are read exactly if they are balanced

A text whose lines can all be read, and stay in it, is grouped into items if and only if the keys of
the lines are balanced. The items then follow the grammar and hold the lines of the text, each once
and in order; otherwise reading fails for the block structure (`readItemsOf_iff_balanced`).

One step lemma for each kind of line says what reading does with it. From these, reading takes the
lines it is given or fails, by induction along the lines (`readItems_settles`), and it runs through
lines with balanced keys, by induction along the grammar (`Balanced.goesOn`).

The lines are given, as what a reader makes of the text. That they can be read is a matter of single
lines, and nothing here depends on how it is done; nor is it said where a failure of the structure
is reported.
-/
set_option autoImplicit false

namespace Z80Asm

open Success

/-! ## One line -/

/-- What remains to be read are these lines, all of them read into one scope. -/
inductive Reader.Gives (scope : ScopeId) : Reader → List Line → Prop
  | nil {reader : Reader} : reader.next scope = .ok none → Gives scope reader []
  | cons {reader next : Reader} {line : Line} {lines : List Line} :
    reader.next scope = .ok (some (line, next)) → Gives scope next lines →
      Gives scope reader (line :: lines)

/-- The lines that a reader gives, if there are fewer than `bound`. -/
def Reader.linesBelow (scope : ScopeId) : Nat → Reader → Option (List Line)
  | 0, _ => none
  | bound + 1, reader =>
    match reader.next scope with
    | .ok none => some []
    | .ok (some (line, next)) => (next.linesBelow scope bound).map (line :: ·)
    | .error _ => none

theorem Reader.gives_of_linesBelow {scope : ScopeId} {bound : Nat} {reader : Reader}
    {lines : List Line} (h : reader.linesBelow scope bound = some lines) :
    reader.Gives scope lines := by
  induction bound generalizing reader lines with
  | zero => cases h
  | succ bound ih =>
    unfold Reader.linesBelow at h
    split at h
    · next hnext =>
      cases h
      exact .nil hnext
    · next line next hnext =>
      obtain ⟨rest, hrest, rfl⟩ := Option.map_eq_some_iff.mp h
      exact .cons hnext (ih hrest)
    · cases h

theorem Reader.Gives.uncons {scope : ScopeId} {reader : Reader} {line : Line} {lines : List Line}
    (h : reader.Gives scope (line :: lines)) :
    ∃ next, reader.next scope = .ok (some (line, next)) ∧ next.Gives scope lines := by
  cases h with
  | @cons _ next _ _ hnext hgives => exact ⟨next, hnext, hgives⟩

@[simp] theorem Line.directive?_inScope (line : Line) (scope : ScopeId) :
    (line.inScope scope).directive? = line.directive? := rfl

@[simp] theorem Line.directiveKey?_inScope (line : Line) (scope : ScopeId) :
    (line.inScope scope).directiveKey? = line.directiveKey? := rfl

/-- The loading state once a scope for the next line is made. -/
def Loading.withLine (st : Loading) (scope : ScopeId) : Loading :=
  { st with scopes := (st.scopes.create (some scope)).2 }

section Steps

variable {files : FileStatements} {fuel : Nat} {scope base : ScopeId} {closers : List Closer}
  {reader next : Reader} {line : Line}

theorem readItems_nil (h : reader.next base = .ok none) (st : Loading) :
    readItems files (fuel + 1) scope closers reader st =
      .ok { items := [], closer := none, reader } (st.withLine scope) := by
  have hnext : reader.next (st.scopes.create (some scope)).1 = .ok none := by
    rw [Reader.next_rescope reader base, h]
    rfl
  simp only [readItems, Load.createScope, bind_assoc, get_bind_apply, set_bind_apply, pure_bind,
    hnext]
  rfl

variable (h : reader.next base = .ok (some (line, next)))

include h

theorem next_fresh (st : Loading) (parent : ScopeId) :
    reader.next (st.scopes.create (some parent)).1 =
      .ok (some (line.inScope st.scopes.fresh, next)) := by
  rw [Reader.next_rescope reader base, h]
  rfl

/-- Read into the base scope, the line of another scope is what the base scope gives. -/
theorem inScope_inScope (other : ScopeId) : (line.inScope other).inScope base = line := by
  have hother : reader.next other = .ok (some (line.inScope other, next)) := by
    rw [Reader.next_rescope reader base, h]
    rfl
  have hbase := Reader.next_rescope reader other base
  rw [h, hother] at hbase
  exact (Prod.mk.inj (Option.some.inj (Except.ok.inj hbase))).1.symm

theorem readItems_own {role : Role} (hrole : Directive.role? line.directive? = some role)
    (st : Loading) :
    readItems files (fuel + 1) scope closers reader st =
      (do
        let rest ← readItems files fuel scope closers next
        return rest.prepend [.plain (line.inScope st.scopes.fresh) role] : Load Body)
      (st.withLine scope) := by
  have hnext := next_fresh h st scope
  simp only [readItems, Load.createScope, bind_assoc, get_bind_apply, set_bind_apply, pure_bind,
    hnext]
  unfold Directive.role? at hrole
  split at hrole <;> cases hrole
  all_goals simp only [Line.directive?_inScope, *]
  all_goals rfl

theorem readItems_closes {closer : Closer} (hdir : line.directive? = some (.closes closer))
    (st : Loading) :
    readItems files (fuel + 1) scope closers reader st =
      if closers.contains closer then
        .ok { items := [], closer := some (line.inScope st.scopes.fresh), reader := next }
          (st.withLine scope)
      else
        .error ((Cause.unexpectedTerminator (line.mnemonic.getD "")).at line.position)
          (st.withLine scope) := by
  have hnext := next_fresh h st scope
  simp only [readItems, Load.createScope, bind_assoc, get_bind_apply, set_bind_apply, pure_bind,
    hnext, Line.directive?_inScope, hdir]
  split <;> rfl

theorem readItems_opens {kind : BlockKind} (hdir : line.directive? = some (.opens kind))
    (st : Loading) :
    readItems files (fuel + 1) scope closers reader st =
      (do
        let opener := line.inScope st.scopes.fresh
        let body ← readItems files fuel (kind.bodyScope opener scope) [kind.closer] next
        let (items, _) ← body.closed [kind.closer] opener
        let rest ← readItems files fuel scope closers body.reader
        return rest.prepend [.block opener kind items] : Load Body)
      (st.withLine scope) := by
  have hnext := next_fresh h st scope
  simp only [readItems, Load.createScope, bind_assoc, get_bind_apply, set_bind_apply, pure_bind,
    hnext, Line.directive?_inScope, hdir]
  rfl

theorem readItems_choice (hdir : line.directive? = some .choice) (st : Loading) :
    readItems files (fuel + 1) scope closers reader st =
      (do
        let opener := line.inScope st.scopes.fresh
        let body ← readItems files fuel scope [.otherwise, .endif] next
        let (onTrue, last) ← body.closed [.otherwise, .endif] opener
        if last.directive? = some (.closes .otherwise) then
          let second ← readItems files fuel scope [.endif] body.reader
          let (onFalse, _) ← second.closed [.endif] opener
          let rest ← readItems files fuel scope closers second.reader
          return rest.prepend [.choice opener onTrue onFalse]
        else
          let rest ← readItems files fuel scope closers body.reader
          return rest.prepend [.choice opener onTrue []] : Load Body)
      (st.withLine scope) := by
  have hnext := next_fresh h st scope
  simp only [readItems, Load.createScope, bind_assoc, get_bind_apply, set_bind_apply, pure_bind,
    hnext, Line.directive?_inScope, hdir]
  rfl

end Steps

/-! ## What is read -/

/-- The outcome of reading: a result with a property, or a failure of the block structure. -/
def Settles {α : Type} (p : α → Prop) : EStateM.Result Failure Loading α → Prop
  | .ok a _ => p a
  | .error failure _ => failure.what.kind = .assembly

theorem Settles.bind {α β : Type} {p : α → Prop} {q : β → Prop} {x : Load α} {k : α → Load β}
    {st : Loading} (hx : Settles p (x st)) (hk : ∀ a st', p a → Settles q (k a st')) :
    Settles q ((x >>= k) st) := by
  show Settles q (EStateM.bind x k st)
  unfold EStateM.bind
  cases hrun : x st with
  | ok a st' =>
    rw [hrun] at hx
    exact hk a st' hx
  | error failure st' =>
    rw [hrun] at hx
    exact hx

/-- A body takes the first of some lines: all of them, or those up to a line that closes it. -/
inductive Body.Takes (base : ScopeId) (closers : List Closer) (lines : List Line) (body : Body) :
    Prop
  | all : body.closer = none → Nested body.items →
    lines = (linesOf body.items).map (Line.inScope base) → Body.Takes base closers lines body
  | upTo {last : Line} {closer : Closer} {rest : List Line} : body.closer = some last →
    closer ∈ closers → last.directive? = some (.closes closer) →
    last.directiveKey? = some closer.key → Nested body.items →
    lines = (linesOf body.items).map (Line.inScope base) ++ last.inScope base :: rest →
    body.reader.Gives base rest → Body.Takes base closers lines body

/-- An item in front of a body takes its own lines and then those of the body. -/
theorem Settles.prepended {base : ScopeId} {closers : List Closer} {lines front : List Line}
    {x : Load Body} {st : Loading} {item : Item}
    (hx : Settles (Body.Takes base closers lines) (x st))
    (hnested : ∀ {items : List Item}, Nested items → Nested (item :: items))
    (hfront : item.lines.map (Line.inScope base) = front) :
    Settles (Body.Takes base closers (front ++ lines))
      ((do let rest ← x; return rest.prepend [item] : Load Body) st) := by
  refine hx.bind fun body st' h => ?_
  have hlines : (linesOf (item :: body.items)).map (Line.inScope base) =
      front ++ (linesOf body.items).map (Line.inScope base) := by
    rw [linesOf, List.map_append, hfront]
  show Body.Takes base closers (front ++ lines) (body.prepend [item])
  cases h with
  | all hcloser hitems hall =>
    exact .all hcloser (hnested hitems) (by rw [hall]; exact hlines.symm)
  | upTo hcloser hmem hdir hkey hitems hall hgives =>
    refine .upTo hcloser hmem hdir hkey (hnested hitems) ?_ hgives
    rw [hall, ← List.append_assoc]
    exact congrArg (· ++ _) hlines.symm

/-- A body that is closed: its items with the closing line behind them take the first lines. -/
structure Body.Closed (base : ScopeId) (closers : List Closer) (lines : List Line) (body : Body)
    (items : List Item) (last : Line) : Prop where
  items_eq : items = body.items ++ [.plain last .instruction]
  nested : Nested body.items
  closer : ∃ closer ∈ closers, last.directive? = some (.closes closer) ∧
    last.directiveKey? = some closer.key
  taken : ∃ rest, lines = (linesOf items).map (Line.inScope base) ++ rest ∧
    body.reader.Gives base rest

theorem Body.Takes.closed_bind {β : Type} {base : ScopeId} {closers : List Closer}
    {lines : List Line} {body : Body} {opener : Line} {q : β → Prop} {k : List Item × Line → Load β}
    {st : Loading} (h : body.Takes base closers lines)
    (hk : ∀ items last st', body.Closed base closers lines items last →
      Settles q (k (items, last) st')) :
    Settles q ((body.closed closers opener >>= k) st) := by
  unfold Body.closed
  cases h with
  | all hcloser _ _ =>
    rw [hcloser]
    rfl
  | @upTo last closer rest hcloser hmem hdir hkey hnested hlines hgives =>
    rw [hcloser]
    refine hk _ last st ⟨rfl, hnested, ⟨closer, hmem, hdir, hkey⟩, rest, ?_, hgives⟩
    rw [hlines, linesOf_append, linesOf_plain, List.map_append, List.append_assoc]
    rfl

/-- Reading takes the lines it is given, or fails for their structure. -/
theorem readItems_settles {files : FileStatements} {base : ScopeId} {fuel : Nat} {scope : ScopeId}
    {closers : List Closer} {reader : Reader} {lines : List Line} (hgives : reader.Gives base lines)
    (hstays : ∀ line ∈ lines, line.StaysInText) (hfuel : lines.length < fuel) (st : Loading) :
    Settles (Body.Takes base closers lines) (readItems files fuel scope closers reader st) := by
  induction fuel generalizing scope closers reader lines st with
  | zero => omega
  | succ fuel ih =>
    cases hgives with
    | nil hnext =>
      rw [readItems_nil hnext]
      exact .all rfl .nil rfl
    | @cons _ next line lines hnext hgives =>
      obtain ⟨hline, hstays⟩ := List.forall_mem_cons.mp hstays
      simp only [List.length_cons] at hfuel
      have hback := inScope_inScope hnext st.scopes.fresh
      cases Line.part hline with
      | own role hrole hplain =>
        rw [readItems_own hnext hrole]
        rw [← List.singleton_append]
        rw [← Line.directiveKey?_inScope line st.scopes.fresh] at hplain
        refine (ih hgives hstays (by omega) _).prepended (.plain hplain) ?_
        simp [Item.lines, hback]
      | closes closer hdir hkey =>
        rw [readItems_closes hnext hdir]
        split
        next hmem =>
          refine .upTo rfl (List.contains_iff_mem.mp hmem) hdir hkey .nil ?_ hgives
          rw [hback]
          rfl
        next => rfl
      | opens kind hdir hkey =>
        rw [readItems_opens hnext hdir]
        refine (ih hgives hstays (by omega) _).bind fun body st₁ hbody => ?_
        refine hbody.closed_bind fun items last st₂ hclosed => ?_
        obtain ⟨closer, hmem, -, hlast⟩ := hclosed.closer
        rw [List.mem_singleton.mp hmem, BlockKind.key_closer] at hlast
        obtain ⟨rest, hrest, hgives⟩ := hclosed.taken
        rw [hrest] at hstays hfuel ⊢
        have hstays := (List.forall_mem_append.mp hstays).2
        rw [List.length_append] at hfuel
        rw [hclosed.items_eq, ← List.cons_append]
        refine (ih hgives hstays (by omega) _).prepended
          (.block hkey hclosed.nested hlast) ?_
        simp [Item.lines, hback]
      | choice hdir hkey =>
        rw [readItems_choice hnext hdir]
        refine (ih hgives hstays (by omega) _).bind fun body st₁ hbody => ?_
        refine hbody.closed_bind fun onTrue middle st₂ hclosed => ?_
        obtain ⟨closer, hmem, hmiddle, hmiddleKey⟩ := hclosed.closer
        obtain ⟨rest, hrest, hgives⟩ := hclosed.taken
        rw [hrest] at hstays hfuel ⊢
        have hstays := (List.forall_mem_append.mp hstays).2
        rw [List.length_append] at hfuel
        simp only [List.mem_cons, List.not_mem_nil, or_false] at hmem
        rcases hmem with rfl | rfl
        · -- `ELSE` follows, so there is a second body.
          simp only [hmiddle, if_true]
          refine (ih hgives hstays (by omega) _).bind fun second st₃ hsecond => ?_
          refine hsecond.closed_bind fun onFalse last st₄ hclosed' => ?_
          obtain ⟨closer, hmem, -, hlast⟩ := hclosed'.closer
          rw [List.mem_singleton.mp hmem] at hlast
          obtain ⟨rest', hrest, hgives⟩ := hclosed'.taken
          rw [hrest] at hstays hfuel ⊢
          have hstays := (List.forall_mem_append.mp hstays).2
          rw [List.length_append] at hfuel
          rw [hclosed.items_eq, hclosed'.items_eq, ← List.append_assoc, ← List.cons_append]
          refine (ih hgives hstays (by omega) _).prepended
            (.alternative hkey hclosed.nested hmiddleKey hclosed'.nested hlast) ?_
          simp [Item.lines, hback]
        · simp only [hmiddle, Option.some.injEq, Directive.closes.injEq, reduceCtorEq, if_false]
          rw [hclosed.items_eq, ← List.cons_append]
          refine (ih hgives hstays (by omega) _).prepended
            (.choice hkey hclosed.nested hmiddleKey) ?_
          simp [Item.lines, linesOf, hback]

/-! ## What can be read -/

theorem exists_of_map_eq_append_cons {α β : Type} {f : α → β} {as : List α} {bs cs : List β}
    {b : β} (h : as.map f = bs ++ b :: cs) :
    ∃ front a rest, as = front ++ a :: rest ∧ front.map f = bs ∧ f a = b ∧ rest.map f = cs := by
  obtain ⟨front, others, rfl, hfront, hothers⟩ := List.map_eq_append_iff.mp h
  obtain ⟨a, rest, rfl, ha, hrest⟩ := List.map_eq_cons_iff.mp hothers
  exact ⟨front, a, rest, rfl, hfront, ha, hrest⟩

/-- Reading comes to a reader that gives the rest of the lines, and has items to put in front. -/
def GoesOn (files : FileStatements) (base scope : ScopeId) (closers : List Closer)
    (rest : List Line) (result : EStateM.Result Failure Loading Body) : Prop :=
  ∃ items fuel reader st, reader.Gives base rest ∧ rest.length < fuel ∧
    result = (do
      let body ← readItems files fuel scope closers reader
      return body.prepend items : Load Body) st

section Completeness

variable {files : FileStatements} {base scope : ScopeId} {closers : List Closer}
  {front rest : List Line}

theorem GoesOn.prepended {x : Load Body} {st : Loading}
    (h : GoesOn files base scope closers rest (x st)) (item : Item) :
    GoesOn files base scope closers rest
      ((do let body ← x; return body.prepend [item] : Load Body) st) := by
  obtain ⟨items, fuel, reader, st', hgives, hfuel, hx⟩ := h
  refine ⟨item :: items, fuel, reader, st', hgives, hfuel, ?_⟩
  rw [bind_apply_congr hx, bind_assoc]
  rfl

/-- A body that reading can go through is read up to the line that closes it, and what follows it
    starts behind that line. -/
theorem GoesOn.closed_bind {x : Load Body} {st : Loading} {outerScope : ScopeId}
    {outerClosers : List Closer} {last opener : Line} {behind : List Line} {closer : Closer}
    {k : Body → List Item × Line → Load Body}
    (h : GoesOn files base scope closers (last :: behind) (x st))
    (hdir : last.directive? = some (.closes closer)) (hmem : closer ∈ closers)
    (hk : ∀ body items last' st', last'.directive? = some (.closes closer) →
      body.reader.Gives base behind →
      GoesOn files base outerScope outerClosers rest (k body (items, last') st')) :
    GoesOn files base outerScope outerClosers rest
      ((do let body ← x; let closed ← body.closed closers opener; k body closed) st) := by
  obtain ⟨items, fuel, reader, st, hgives, hfuel, hx⟩ := h
  obtain ⟨next, hnext, hgives⟩ := hgives.uncons
  obtain ⟨fuel, rfl⟩ := Nat.exists_eq_add_one.mpr (Nat.zero_lt_of_lt hfuel)
  have hread : readItems files (fuel + 1) scope closers reader st = _ :=
    readItems_closes hnext hdir st
  rw [if_pos (List.contains_iff_mem.mpr hmem)] at hread
  rw [bind_apply_of_ok hread] at hx
  rw [bind_apply_of_ok hx]
  exact hk _ _ (last.inScope st.scopes.fresh) _ hdir hgives

/-- The loop of reading runs through lines with balanced keys. -/
theorem Balanced.goesOn {keys : List (Option String)} (h : Balanced keys) {fuel : Nat}
    {reader : Reader} (hkeys : front.map Line.directiveKey? = keys)
    (hstays : ∀ line ∈ front, line.StaysInText) (hgives : reader.Gives base (front ++ rest))
    (hfuel : (front ++ rest).length < fuel) (st : Loading) :
    GoesOn files base scope closers rest (readItems files fuel scope closers reader st) := by
  -- Along the grammar, for any lines behind: a body is followed by the line that closes it.
  induction h generalizing front rest scope closers reader fuel st with
  | nil =>
    obtain rfl := List.map_eq_nil_iff.mp hkeys
    refine ⟨[], fuel, reader, st, hgives, hfuel, ?_⟩
    exact (congrFun (bind_pure _) st).symm
  | plain hplain _ ih =>
    obtain ⟨line, lines, rfl, rfl, hlines⟩ := List.map_eq_cons_iff.mp hkeys
    obtain ⟨hline, hstays⟩ := List.forall_mem_cons.mp hstays
    obtain ⟨role, hrole⟩ := Line.own_of_isPlain hline hplain
    obtain ⟨next, hnext, hgives⟩ := hgives.uncons
    obtain ⟨fuel, rfl⟩ := Nat.exists_eq_add_one.mpr (Nat.zero_lt_of_lt hfuel)
    rw [readItems_own hnext hrole]
    exact (ih hlines hstays hgives (Nat.lt_of_succ_lt_succ hfuel) _).prepended _
  | block kind _ _ ihbody ihrest =>
    obtain ⟨line, lines, rfl, hline, hkeys⟩ := List.map_eq_cons_iff.mp hkeys
    obtain ⟨body, last, tail, rfl, hbody, hlast, htail⟩ := exists_of_map_eq_append_cons hkeys
    simp only [List.forall_mem_cons, List.forall_mem_append] at hstays
    obtain ⟨-, hbodyStays, -, htailStays⟩ := hstays
    simp only [List.cons_append, List.append_assoc, List.length_cons, List.length_append]
      at hgives hfuel
    obtain ⟨next, hnext, hgives⟩ := hgives.uncons
    obtain ⟨fuel, rfl⟩ := Nat.exists_eq_add_one.mpr (Nat.zero_lt_of_lt hfuel)
    have hopens := (Line.directive?_of_key hline).trans (Directive.ofKey?_words kind).1
    have hcloses := (Line.directive?_of_key hlast).trans (Directive.ofKey?_words kind).2
    rw [readItems_opens hnext hopens]
    refine (ihbody hbody hbodyStays hgives (by simp; omega) _).closed_bind hcloses
      (List.mem_singleton.mpr rfl) fun read items last' st₁ _ hgives => ?_
    exact (ihrest htail htailStays hgives (by simp; omega) st₁).prepended _
  | choice _ _ ihbody ihrest =>
    obtain ⟨line, lines, rfl, hline, hkeys⟩ := List.map_eq_cons_iff.mp hkeys
    obtain ⟨body, last, tail, rfl, hbody, hlast, htail⟩ := exists_of_map_eq_append_cons hkeys
    simp only [List.forall_mem_cons, List.forall_mem_append] at hstays
    obtain ⟨-, hbodyStays, -, htailStays⟩ := hstays
    simp only [List.cons_append, List.append_assoc, List.length_cons, List.length_append]
      at hgives hfuel
    obtain ⟨next, hnext, hgives⟩ := hgives.uncons
    obtain ⟨fuel, rfl⟩ := Nat.exists_eq_add_one.mpr (Nat.zero_lt_of_lt hfuel)
    rw [readItems_choice hnext (Line.directive?_of_key hline)]
    refine (ihbody hbody hbodyStays hgives (by simp; omega) _).closed_bind
      (Line.directive?_of_key hlast) (by simp : Closer.endif ∈ _)
      fun read items last' st₁ hlast' hgives => ?_
    simp only [hlast', Option.some.injEq, Directive.closes.injEq, reduceCtorEq, if_false]
    exact (ihrest htail htailStays hgives (by simp; omega) st₁).prepended _
  | alternative _ _ _ ihtrue ihfalse ihrest =>
    obtain ⟨line, lines, rfl, hline, hkeys⟩ := List.map_eq_cons_iff.mp hkeys
    obtain ⟨onTrue, middle, lines, rfl, htrue, hmiddle, hkeys⟩ :=
      exists_of_map_eq_append_cons hkeys
    obtain ⟨onFalse, last, tail, rfl, hfalse, hlast, htail⟩ := exists_of_map_eq_append_cons hkeys
    simp only [List.forall_mem_cons, List.forall_mem_append] at hstays
    obtain ⟨-, htrueStays, -, hfalseStays, -, htailStays⟩ := hstays
    simp only [List.cons_append, List.append_assoc, List.length_cons, List.length_append]
      at hgives hfuel
    obtain ⟨next, hnext, hgives⟩ := hgives.uncons
    obtain ⟨fuel, rfl⟩ := Nat.exists_eq_add_one.mpr (Nat.zero_lt_of_lt hfuel)
    rw [readItems_choice hnext (Line.directive?_of_key hline)]
    refine (ihtrue htrue htrueStays hgives (by simp; omega) _).closed_bind
      (Line.directive?_of_key hmiddle) (by simp : Closer.otherwise ∈ _)
      fun read items middle' st₁ hmiddle' hgives => ?_
    simp only [hmiddle', if_true]
    refine (ihfalse hfalse hfalseStays hgives (by simp; omega) _).closed_bind
      (Line.directive?_of_key hlast) (by simp : Closer.endif ∈ _)
      fun read' items' last' st₂ _ hgives => ?_
    exact (ihrest htail htailStays hgives (by simp; omega) st₂).prepended _

end Completeness

/-! ## Whole texts -/

theorem length_rest_readPhysical {scope : ScopeId} {file : Option String} {outer : List Site}
    {mode : Mode} {draft : Draft} {number : UInt32} {text : String} {rest : List String}
    {read : Physical} (h : readPhysical scope file outer mode draft number text rest = .ok read) :
    read.rest.length ≤ rest.length := by
  induction rest generalizing mode draft number text read with
  | nil =>
    unfold readPhysical at h
    split at h
    · cases h
    · cases h
      exact Nat.le_refl _
    · dsimp only at h
      split at h
      · cases h
      · cases h
        exact Nat.le_refl _
  | cons next rest ih =>
    unfold readPhysical at h
    split at h
    · cases h
    · cases h
      exact Nat.le_refl _
    · simp only [except_bind_eq_ok, except_pure_eq_ok] at h
      obtain ⟨line, hline, rfl⟩ := h
      have hrest := ih hline
      exact Nat.le_succ_of_le hrest

/-- Every logical line takes a physical one. -/
theorem Reader.next_remaining {reader next : Reader} {scope : ScopeId} {line : Line}
    (h : reader.next scope = .ok (some (line, next))) :
    next.remaining.length < reader.remaining.length := by
  unfold Reader.next at h
  split at h
  · cases h
  · split at h
    · cases h
    next heq =>
      simp only [except_bind_eq_ok, except_pure_eq_ok] at h
      obtain ⟨read, hread, arguments, -, hline⟩ := h
      cases hline
      rw [heq]
      exact Nat.lt_succ_of_le (length_rest_readPhysical hread)

theorem Reader.Gives.length_le {scope : ScopeId} {reader : Reader} {lines : List Line}
    (h : reader.Gives scope lines) : lines.length ≤ reader.remaining.length := by
  induction h with
  | nil _ => exact Nat.zero_le _
  | cons hnext _ ih => exact Nat.lt_of_le_of_lt ih (Reader.next_remaining hnext)

section Texts

variable {text : String} {file : Option String} {outer : List Site} {base : ScopeId}
  {lines : List Line}

theorem readItemsOf_settles (files : FileStatements) (scope : ScopeId) (st : Loading)
    (hlines : (Reader.ofText text file outer).Gives base lines)
    (hstays : ∀ line ∈ lines, line.StaysInText) :
    Settles (fun items => (linesOf items).map (Line.inScope base) = lines ∧ Nested items)
      (readItemsOf files text file outer scope st) := by
  have hfuel := Nat.lt_succ_of_le hlines.length_le
  refine (readItems_settles hlines hstays hfuel st).bind fun body st' hbody => ?_
  cases hbody with
  | all _ hnested hall => exact ⟨hall.symm, hnested⟩
  | upTo _ hmem => cases hmem

theorem readItemsOf_of_balanced (files : FileStatements) (scope : ScopeId) (st : Loading)
    (hlines : (Reader.ofText text file outer).Gives base lines)
    (hstays : ∀ line ∈ lines, line.StaysInText) (h : Balanced (lines.map Line.directiveKey?)) :
    ∃ items st', readItemsOf files text file outer scope st = .ok items st' := by
  have hfuel := Nat.lt_succ_of_le hlines.length_le
  rw [← List.append_nil lines] at hlines hfuel
  have hgoes : GoesOn files base scope [] [] (readItems files _ scope [] _ st) :=
    h.goesOn rfl hstays hlines hfuel st
  obtain ⟨items, fuel, reader, st', hgives, hpos, hread⟩ := hgoes
  obtain ⟨fuel, rfl⟩ := Nat.exists_eq_add_one.mpr (Nat.zero_lt_of_lt hpos)
  cases hgives with
  | nil hnext =>
    rw [bind_apply_of_ok (readItems_nil hnext st')] at hread
    exact ⟨_, _, bind_apply_of_ok hread _⟩

end Texts

/-- **Blocks are read exactly if they are balanced.** A text whose lines can be read, and stay in
    it, is grouped into items if and only if the keys of the lines are balanced. The items then hold
    the lines, in order and each with its bodies behind it; otherwise reading fails for the
    structure. That lines stay in the text excludes `INCLUDE` and `INCBIN`, which fail if there is
    no such file, and `END`, behind which nothing is read. -/
theorem readItemsOf_iff_balanced (files : FileStatements) (text : String) (file : Option String)
    (outer : List Site) (scope base : ScopeId) (st : Loading) (lines : List Line)
    (hlines : (Reader.ofText text file outer).Gives base lines)
    (hstays : ∀ line ∈ lines, line.StaysInText) :
    ((∃ items st', readItemsOf files text file outer scope st = .ok items st') ↔
      Balanced (lines.map Line.directiveKey?)) ∧
    (∀ items st', readItemsOf files text file outer scope st = .ok items st' →
      (linesOf items).map (Line.inScope base) = lines ∧ Nested items) ∧
    (∀ failure st', readItemsOf files text file outer scope st = .error failure st' →
      failure.what.kind = .assembly) := by
  have hsettles := readItemsOf_settles files scope st hlines hstays
  have hok (items : List Item) (st' : Loading)
      (h : readItemsOf files text file outer scope st = .ok items st') :
      (linesOf items).map (Line.inScope base) = lines ∧ Nested items := by
    rw [h] at hsettles
    exact hsettles
  refine ⟨⟨?_, readItemsOf_of_balanced files scope st hlines hstays⟩, hok, ?_⟩
  · rintro ⟨items, st', h⟩
    obtain ⟨hall, hnested⟩ := hok items st' h
    have hkeys : lines.map Line.directiveKey? = (linesOf items).map Line.directiveKey? := by
      rw [← hall, List.map_map]
      rfl
    rw [hkeys]
    exact hnested.balanced
  · intro failure st' h
    rw [h] at hsettles
    exact hsettles

/-- A choice inside a repetition. -/
def choiceRepeated : String :=
  " rept 2\n if 1\na: nop ; first\n else\n nop\n endif\n endm\n"

theorem readItemsOf_iff_balanced_choice : ∃ lines,
    (Reader.ofText choiceRepeated none []).Gives ⟨0⟩ lines ∧ (∀ line ∈ lines, line.StaysInText) ∧
    lines.map Line.directiveKey? = [some "rept", some "if", some "nop", some "else", some "nop",
      some "endif", some "endm"] ∧
    ∃ items st, Library.readText {} choiceRepeated ⟨0⟩ { scopes := {} } = .ok items st ∧
      (linesOf items).map (Line.inScope ⟨0⟩) = lines := by
  have hlines : ((Reader.ofText choiceRepeated none []).linesBelow ⟨0⟩ 8).any (fun lines =>
      lines.map Line.directiveKey? == [some "rept", some "if", some "nop", some "else", some "nop",
        some "endif", some "endm"] && decide (∀ line ∈ lines, line.StaysInText)) = true := by
    decide +kernel
  obtain ⟨lines, hlines, htest⟩ := (Option.any_eq_true _ _).mp hlines
  obtain ⟨hkeys, hstays⟩ := (Bool.and_eq_true _ _).mp htest
  have hgives := Reader.gives_of_linesBelow hlines
  have hkeys := eq_of_beq hkeys
  have hstays := of_decide_eq_true hstays
  have hplain : IsPlain (some "nop") := by
    intro word hword
    cases hword
    decide
  have hbalanced : Balanced (lines.map Line.directiveKey?) := by
    rw [hkeys]
    exact .block .rept (.alternative (.plain hplain .nil) (.plain hplain .nil) .nil) .nil
  obtain ⟨hiff, hall, -⟩ := readItemsOf_iff_balanced _ choiceRepeated none [] ⟨0⟩ ⟨0⟩ { scopes := {} }
    lines hgives hstays
  obtain ⟨items, st, hread⟩ := hiff.mpr hbalanced
  exact ⟨lines, hgives, hstays, hkeys, items, st, hread, (hall items st hread).1⟩

end Z80Asm
