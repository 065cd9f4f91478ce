import Z80Asm.Proofs.Block.Sites
import Z80Asm.Proofs.Program.Causes

/-!
# How the phases fail

Binding labels, expanding and generating each work line by line, and give what fails on behalf of a
line the position of that line. So each of these phases fails at one of its lines, and never because
an address is set already (`Cause.Sober`), which only placing can find out.

Not all lines that a phase works on are lines of the source. An instance of a line has the site of
the line, and a session keeps lines for later, in macros and in spaces; that all of these stand at
the given sites is the invariant (`Session.Knows`) under which the phases are run. Taking all sites
there are, the invariant is no condition, and what is left says for which causes a phase fails
(`Ensures.sober`).

Placing is not here. It may fail on an address, and that it does not takes an argument about all
lines of a program, which is in `Program/Placing`. Where it fails is in `Program/Contexts`.
-/
set_option autoImplicit false

namespace Z80Asm

open Success

/-! ## Instances -/

section

variable {sites : Site → Prop} {item : Item} {items rest : List Item}

theorem StandAt.cons_iff : StandAt sites (item :: rest) ↔ StandAt sites [item] ∧ StandAt sites rest := by
  simp only [StandAt, linesOf, List.append_nil, List.forall_mem_append]

theorem StandAt.line (h : StandAt sites [item]) : sites item.line.position.here := by
  refine h item.line ?_
  cases item <;> simp [linesOf, Item.lines, Item.line]

theorem StandAt.marker (h : StandAt sites [item]) : StandAt sites [item.marker] :=
  (standAt_nil sites).opened h.line rfl

theorem StandAt.body {line : Line} {kind : BlockKind} {body : List Item}
    (h : StandAt sites [.block line kind body]) : StandAt sites body :=
  fun other hother => h other (by simp [linesOf, Item.lines, hother])

theorem StandAt.branches {line : Line} {onTrue onFalse : List Item}
    (h : StandAt sites [.choice line onTrue onFalse]) :
    StandAt sites onTrue ∧ StandAt sites onFalse :=
  ⟨fun other hother => h other (by simp [linesOf, Item.lines, hother]),
    fun other hother => h other (by simp [linesOf, Item.lines, hother])⟩

theorem StandAt.withOperation (h : StandAt sites [item]) (op : Operation) :
    StandAt sites [item.withOperation op] := by
  cases item with
  | plain line role => exact (standAt_nil sites).opened h.line rfl
  | block line kind body => exact h.body.opened h.line rfl
  | choice line onTrue onFalse =>
    exact (h.branches.1.append h.branches.2).opened h.line
      (by rw [Item.withOperation, Item.lines, linesOf_append]; rfl)

theorem StandAt.flatten {lists : List (List Item)} (h : ∀ items ∈ lists, StandAt sites items) :
    StandAt sites lists.flatten := by
  induction lists with
  | nil => exact standAt_nil sites
  | cons items rest ih =>
    rw [List.flatten_cons]
    exact (h items List.mem_cons_self).append
      (ih fun other hother => h other (List.mem_cons_of_mem _ hother))

end

mutual

theorem Item.copy_sites (site : Position) : ∀ (item : Item) (c : Copying),
    ((item.copy site).run c).1.lines.map (·.position.here) = item.lines.map (·.position.here)
  | .plain _ _, _ => rfl
  | .block line kind body, c => by
    show _ :: (linesOf ((copyItems site body).run _).1).map _ = _
    rw [copyItems_sites site body]
    rfl
  | .choice line onTrue onFalse, c => by
    show _ :: (linesOf ((copyItems site onTrue).run _).1 ++
      linesOf ((copyItems site onFalse).run _).1).map _ = _
    rw [List.map_append, copyItems_sites site onTrue, copyItems_sites site onFalse, ← List.map_append]
    rfl

/-- An instance has the sites of the body that it is made from. -/
theorem copyItems_sites (site : Position) : ∀ (items : List Item) (c : Copying),
    (linesOf ((copyItems site items).run c).1).map (·.position.here) =
      (linesOf items).map (·.position.here)
  | [], _ => rfl
  | item :: rest, c => by
    show (((item.copy site).run c).1.lines ++ linesOf ((copyItems site rest).run _).1).map _ = _
    rw [List.map_append, Item.copy_sites site item, copyItems_sites site rest, ← List.map_append]
    rfl

end

theorem StandAt.instantiate {sites : Site → Prop} {body : List Item} (h : StandAt sites body)
    (scopes : Scopes) (template target : ScopeId) (site : Position) :
    StandAt sites (Z80Asm.instantiate scopes template target site body).1 := by
  have hsites := copyItems_sites site body { images := [(template, target)], scopes }
  have hbody : ∀ here ∈ (linesOf body).map (·.position.here), sites here := List.forall_mem_map.mpr h
  rw [← hsites] at hbody
  exact List.forall_mem_map.mp hbody

/-! ## Phases -/

/-- The lines that a session keeps for later stand at such sites. -/
structure Session.Knows (sites : Site → Prop) (s : Session) : Prop where
  templates : ∀ (i : Nat) (template : Template), s.templates[i]? = some template →
    StandAt sites template.body
  spaces : ∀ (i : Nat) (items : List Item), s.spaces[i]? = some items → StandAt sites items

namespace Assembly

variable {causes : Cause → Prop} {sites : Site → Prop} {α : Type}

/-- A phase that fails for these causes only, and at these sites. -/
abbrev Tells (causes : Cause → Prop) (sites : Site → Prop) (good : α → Prop) (x : Assembly α) : Prop :=
  Ensures (Session.Knows sites) (·.Tells causes sites) good x

/-- Part of a phase that may leave it to the line to say where it failed. -/
abbrev Hints (causes : Cause → Prop) (sites : Site → Prop) (good : α → Prop) (x : Assembly α) : Prop :=
  Ensures (Session.Knows sites) (·.Hints causes sites) good x

theorem hints_fail {cause : Cause} (h : causes cause) {good : α → Prop} :
    Hints causes sites good (fail cause) :=
  .throw (Cause.hints h)

theorem hints_ofExcept {x : Except Cause α} (hx : ∀ cause, x = .error cause → causes cause) :
    Hints causes sites (fun _ => True) (ofExcept x) := by
  cases x with
  | ok a => exact .pure trivial
  | error cause => exact hints_fail (hx cause rfl)

theorem hints_scopes : Hints causes sites (fun _ => True) scopes :=
  Ensures.get.bind fun _ _ => .pure trivial

theorem hints_setScopes (scopes : Scopes) : Hints causes sites (fun _ => True) (setScopes scopes) :=
  .update fun _ hs => ⟨hs.templates, hs.spaces⟩

theorem hints_createScope (parent : ScopeId) : Hints causes sites (fun _ => True) (createScope parent) :=
  Ensures.get.bind fun _ _ => (hints_setScopes _).bind fun _ _ => .pure trivial

theorem hints_onScopes {x : Scopes.Action α}
    (hx : ∀ scopes cause, x.result scopes = .error cause → causes cause) :
    Hints causes sites (fun _ => True) (onScopes x) where
  ok s a s' h hs := by
    unfold onScopes at h
    split at h
    · cases h
      exact ⟨⟨hs.templates, hs.spaces⟩, trivial⟩
    · cases h
  error s failure s' h hs := by
    unfold onScopes at h
    split at h
    · cases h
    · next cause scopes hrun =>
      cases h
      refine Cause.hints (hx s.scopes cause ?_)
      rw [Scopes.Action.result, hrun]

theorem hints_addSymbol (scope : ScopeId) (name : String) (value : Expr) :
    Hints Cause.Sober sites (fun _ => True) (addSymbol scope name value) :=
  hints_onScopes fun scopes => sober_add scopes scope name value

/-! ### Binding labels -/

theorem hints_newSpace : Hints Cause.Sober sites (fun _ => True) newSpace := by
  refine Ensures.get.bind fun _ _ => (Ensures.update fun s hs => ?_).bind fun _ _ => .pure trivial
  refine ⟨hs.templates, fun i items hi => ?_⟩
  rw [Array.getElem?_push] at hi
  split at hi
  · cases hi
    exact standAt_nil sites
  · exact hs.spaces i items hi

theorem hints_newTemplate {template : Template} (h : StandAt sites template.body) :
    Hints Cause.Sober sites (fun _ => True) (newTemplate template) := by
  refine Ensures.get.bind fun _ _ => (Ensures.update fun s hs => ?_).bind fun _ _ => .pure trivial
  refine ⟨fun i other hi => ?_, hs.spaces⟩
  rw [Array.getElem?_push] at hi
  split at hi
  · cases hi
    exact h
  · exact hs.templates i other hi

theorem hints_labelValue (label : String) {item : Item} (hitem : StandAt sites [item]) :
    Hints Cause.Sober sites (fun _ => True) (labelValue label item) := by
  unfold labelValue
  split
  · split
    · exact .pure trivial
    · exact hints_fail nofun
  · exact hints_newSpace.bind fun _ _ => .pure trivial
  · next line body =>
    refine (hints_ofExcept (Sober.mapM sober_parameterOf _)).bind fun parameters _ => ?_
    exact (hints_newTemplate hitem.body).bind fun _ _ => .pure trivial
  · exact .pure trivial

theorem hints_bindLabel {item : Item} (hitem : StandAt sites [item]) :
    Hints Cause.Sober sites (fun _ => True) (bindLabel item) := by
  have hmark : Hints Cause.Sober sites (fun _ => True) (do
      setScopes ((← scopes).markRegistered item.line.scope)) :=
    hints_scopes.bind fun _ _ => hints_setScopes _
  unfold bindLabel
  split
  · refine (hints_labelValue _ hitem).bind fun value _ => ?_
    refine hints_scopes.bind fun _ _ => ?_
    split
    · exact (hints_addSymbol _ _ _).bind fun _ _ => hmark
    · exact (hints_fail nofun).bind fun _ (_ : True) => hmark
  · split
    · exact (hints_fail nofun).bind fun _ (_ : True) => hmark
    · exact hmark

mutual

theorem tells_registerItem : ∀ {item : Item}, StandAt sites [item] →
    Tells Cause.Sober sites (fun _ => True) (registerItem item)
  | .plain _ _, h => by
    rw [registerItem]
    exact (hints_bindLabel h).traced h.line
  | .choice _ _ _, h => by
    rw [registerItem]
    exact (hints_bindLabel h).traced h.line
  | .block line kind body, h => by
    rw [registerItem]
    refine ((hints_bindLabel h).bind fun _ _ => ?_).traced h.line
    split
    · exact (tells_register h.body).hints
    · exact .pure trivial

theorem tells_register : ∀ {items : List Item}, StandAt sites items →
    Tells Cause.Sober sites (fun _ => True) (register items)
  | [], _ => by
    rw [register]
    exact .pure trivial
  | item :: rest, h => by
    obtain ⟨hitem, hrest⟩ := StandAt.cons_iff.mp h
    rw [register]
    exact (tells_registerItem hitem).bind fun _ _ => tells_register hrest

end

/-! ### Expanding -/

theorem hints_instanceOf (line : Line) (template target : ScopeId) {body : List Item}
    (h : StandAt sites body) :
    Hints Cause.Sober sites (StandAt sites) (instanceOf line template target body) :=
  hints_scopes.bind fun _ _ => (hints_setScopes _).bind fun _ _ =>
    .pure (h.instantiate _ template target line.position)

theorem hints_bindParameters (scope : ScopeId) (args : List Expr)
    (parameters : List (String × Option Expr)) :
    Hints Cause.Sober sites (fun _ => True) (bindParameters scope args parameters) := by
  induction parameters generalizing args with
  | nil => exact .pure trivial
  | cons parameter rest ih =>
    obtain ⟨name, fallback⟩ := parameter
    rw [bindParameters]
    split
    · exact (hints_addSymbol _ _ _).bind fun _ _ => ih _
    · exact (hints_fail fun h => by cases h).bind fun _ (_ : True) => ih _

theorem hints_openInvocation (line : Line) {template : Template} (h : StandAt sites template.body) :
    Hints Cause.Sober sites (StandAt sites) (openInvocation line template) := by
  have hopen : ∀ params, Hints Cause.Sober sites (StandAt sites) (do
      let invocation ← createScope params
      setScopes ((← scopes).setBody line.scope invocation)
      instanceOf line template.scope invocation template.body) := fun params =>
    (hints_createScope params).bind fun _ _ => hints_scopes.bind fun _ _ =>
      (hints_setScopes _).bind fun _ _ => hints_instanceOf line _ _ h
  unfold openInvocation
  dsimp only
  split
  · exact (hints_fail nofun).bind fun _ (h : False) => h.elim
  · refine (hints_createScope _).bind fun params _ => ?_
    refine (hints_bindParameters _ _ _).bind fun _ _ => hints_scopes.bind fun _ _ => ?_
    split
    · exact hints_scopes.bind fun _ _ => (hints_setScopes _).bind fun _ _ => hopen params
    · exact hopen params

theorem hints_openIteration (line : Line) (var : Option String) {body : List Item}
    (h : StandAt sites body) (i : Nat) (value : Expr) :
    Hints Cause.Sober sites (StandAt sites) (openIteration line var body i value) := by
  refine (hints_createScope _).bind fun iteration _ => (hints_addSymbol _ _ _).bind fun _ _ => ?_
  split
  · exact (hints_addSymbol _ _ _).bind fun _ _ => hints_instanceOf line _ _ h
  · exact hints_instanceOf line _ _ h

theorem hints_park (space : SpaceId) {items : List Item} (h : StandAt sites items) :
    Hints Cause.Sober sites (fun _ => True) (park space items) := by
  refine .update fun s hs => ⟨hs.templates, fun i others hi => ?_⟩
  rw [Array.getElem?_modify] at hi
  split at hi
  · obtain ⟨before, hbefore, rfl⟩ := Option.map_eq_some_iff.mp hi
    exact (hs.spaces i before hbefore).append h
  · exact hs.spaces i others hi

section

variable {expand : Expander}
  (hexpand : ∀ {items}, StandAt sites items → Tells Cause.Sober sites (StandAt sites) (expand items))

include hexpand

theorem tells_expandBody {items : List Item} (h : StandAt sites items) :
    Tells Cause.Sober sites (StandAt sites) (expandBody expand items) :=
  (tells_register h).bind fun _ _ => hexpand h

theorem hints_expandIterations (line : Line) (var : Option String) {body : List Item}
    (h : StandAt sites body) (i : Nat) (values : List Expr) :
    Hints Cause.Sober sites (fun lists => ∀ items ∈ lists, StandAt sites items)
      (expandIterations expand line var body i values) := by
  induction values generalizing i with
  | nil =>
    rw [expandIterations]
    exact .pure (List.forall_mem_nil _)
  | cons value rest ih =>
    have hopen := hints_openIteration line var h i value
    rw [expandIterations_cons]
    refine (hopen.bind fun items hitems => (tells_expandBody hexpand hitems).hints).bind
      fun lines hlines => (ih (i + 1)).bind fun others hothers => .pure ?_
    exact List.forall_mem_cons.mpr ⟨hlines, hothers⟩

theorem hints_expandOperation {item : Item} (hitem : StandAt sites [item]) (op : Operation) :
    Hints Cause.Sober sites (StandAt sites) (expandOperation expand item op) := by
  cases op with
  | invoke id =>
    rw [expandOperation]
    refine Ensures.get.bind fun s hs => ?_
    split
    · next template htemplate =>
      rw [expandInvocation_eq]
      refine ((hints_openInvocation _ (hs.templates _ _ htemplate)).bind fun items hitems =>
        (tells_expandBody hexpand hitems).hints).bind fun lines hlines => .pure ?_
      exact StandAt.cons_iff.mpr ⟨hitem, hlines⟩
    · exact .pure hitem
  | rept =>
    rw [expandOperation.eq_def]
    dsimp only
    split
    · refine hints_scopes.bind fun s _ => (hints_ofExcept (sober_reptValues _ _)).bind fun values _ => ?_
      refine (hints_expandIterations hexpand _ _ hitem.body _ _).bind fun lists hlists => .pure ?_
      exact StandAt.cons_iff.mpr ⟨hitem, .flatten hlists⟩
    · exact hints_fail nofun
  | irp =>
    rw [expandOperation.eq_def]
    dsimp only
    split
    · refine (hints_ofExcept (sober_irpValues _)).bind fun values _ => ?_
      refine (hints_expandIterations hexpand _ _ hitem.body _ _).bind fun lists hlists => .pure ?_
      exact StandAt.cons_iff.mpr ⟨hitem, .flatten hlists⟩
    · exact hints_fail nofun
  | choice =>
    rw [expandOperation.eq_def]
    dsimp only
    split
    · next line onTrue onFalse =>
      split
      · refine hints_scopes.bind fun s _ => (hints_ofExcept (sober_integer _ _)).bind fun v _ => ?_
        have hbranch : StandAt sites (if v != 0 then onTrue else onFalse) := by
          split
          · exact hitem.branches.1
          · exact hitem.branches.2
        refine (tells_expandBody hexpand hbranch).hints.bind fun lines hlines => .pure ?_
        exact StandAt.cons_iff.mpr ⟨hitem.marker, hlines⟩
      · exact hints_fail nofun
    · exact hints_fail nofun
  | proc =>
    rw [expandOperation.eq_def]
    dsimp only
    split
    · refine (hexpand hitem.body).hints.bind fun lines hlines => .pure ?_
      exact StandAt.cons_iff.mpr ⟨hitem.marker, hlines⟩
    · exact hints_fail nofun
  | segment =>
    rw [expandOperation.eq_def]
    dsimp only
    split
    · refine hints_scopes.bind fun s _ =>
        (hints_ofExcept (sober_segmentSpace _ _)).bind fun space _ => ?_
      refine (hexpand hitem.body).hints.bind fun lines hlines => ?_
      exact (hints_park space (StandAt.cons_iff.mpr ⟨hitem.marker, hlines⟩)).bind fun _ _ =>
        .pure (standAt_nil sites)
    · exact hints_fail nofun
  | data width => exact .pure hitem
  | space => exact .pure hitem
  | org => exact .pure hitem
  | incbin => exact .pure hitem
  | diagnostic severity => exact .pure hitem
  | machine mnemonic => exact .pure hitem
  | marker => exact .pure hitem

end

theorem tells_expandWith {expand? : Option Expander}
    (hexpand : ∀ expand ∈ expand?, ∀ {items}, StandAt sites items →
      Tells Cause.Sober sites (StandAt sites) (expand items))
    {item : Item} (hitem : StandAt sites [item]) :
    Tells Cause.Sober sites (StandAt sites) (expandWith expand? item) := by
  unfold expandWith
  split
  · exact .pure hitem
  · refine Ensures.traced ?_ hitem.line
    refine hints_scopes.bind fun s _ => (hints_ofExcept (sober_operation _ _ _)).bind fun op _ => ?_
    split
    · exact hints_fail nofun
    · exact hints_expandOperation (hexpand _ rfl) (hitem.withOperation op) op

theorem StandAt.mem {items : List Item} (h : StandAt sites items) {item : Item} (hmem : item ∈ items) :
    StandAt sites [item] := by
  obtain ⟨before, after, rfl⟩ := List.append_of_mem hmem
  intro line hline
  refine h line ?_
  rw [linesOf_append, linesOf]
  rw [linesOf, linesOf, List.append_nil] at hline
  exact List.mem_append_right _ (List.mem_append_left _ hline)

theorem tells_expandLevels (levels : Nat) {items : List Item} (h : StandAt sites items) :
    Tells Cause.Sober sites (StandAt sites) (expandLevels levels items) := by
  induction levels generalizing items with
  | zero =>
    rw [expandLevels]
    refine (Ensures.mapM fun item hitem => ?_).bind fun lists hlists => .pure (.flatten hlists)
    exact tells_expandWith (fun _ hnone => (Option.not_mem_none _ hnone).elim) (StandAt.mem h hitem)
  | succ levels ih =>
    rw [expandLevels]
    refine (Ensures.mapM fun item hitem => ?_).bind fun lists hlists => .pure (.flatten hlists)
    refine tells_expandWith (fun expand hexpand => ?_) (StandAt.mem h hitem)
    cases hexpand
    exact ih

/-! ### Taking sections -/

theorem hints_takeSections (id : SpaceId) : Hints causes sites (StandAt sites) (takeSections id) := by
  refine Ensures.get.bind fun s hs => (Ensures.update fun t ht => ?_).bind fun _ _ => .pure ?_
  · refine ⟨ht.templates, fun i items hi => ?_⟩
    rw [Array.getElem?_modify] at hi
    split at hi
    · obtain ⟨before, -, rfl⟩ := Option.map_eq_some_iff.mp hi
      exact standAt_nil sites
    · exact ht.spaces i items hi
  · cases hlines : s.spaces[id.index]? with
    | none => exact standAt_nil sites
    | some items => exact hs.spaces _ _ hlines

end Assembly

/-! ## Entries -/

mutual

/-- An entry and the entries inside it. -/
def Entry.all : Entry → List Entry
  | .code line address body => [.code line address body]
  | .space line address region parts => .space line address region parts :: entriesOf parts

def entriesOf : List Entry → List Entry
  | [] => []
  | entry :: rest => entry.all ++ entriesOf rest

end

section

variable {sites : Site → Prop} {α : Type}

/-- All entries stand at such sites, also those inside regions. -/
def EntriesAt (sites : Site → Prop) (entries : List Entry) : Prop :=
  ∀ entry ∈ entriesOf entries, sites entry.line.position.here

theorem entriesAt_nil (sites : Site → Prop) : EntriesAt sites [] :=
  fun _ h => (List.not_mem_nil h).elim

theorem EntriesAt.cons_iff {entry : Entry} {rest : List Entry} :
    EntriesAt sites (entry :: rest) ↔ EntriesAt sites [entry] ∧ EntriesAt sites rest := by
  simp only [EntriesAt, entriesOf, List.append_nil, List.forall_mem_append]

/-! ## Generating -/

namespace Emit

/-- Generation that fails at these sites only. -/
abbrev Tells (sites : Site → Prop) (x : Emit Unit) : Prop :=
  Ensures (fun _ => True) (·.Tells Cause.Sober sites) (fun _ => True) x

/-- Generation that may leave it to the line to say where it failed. -/
abbrev Hints (sites : Site → Prop) (x : Emit α) : Prop :=
  Ensures (fun _ => True) (·.Hints Cause.Sober sites) (fun _ => True) x

theorem hints_ofExcept {x : Except Cause α} (hx : Sober x) : Hints sites (Emit.ofExcept x) := by
  cases x with
  | ok a => exact .pure trivial
  | error cause => exact .throw (Cause.hints (hx cause rfl))

theorem hints_storeBytes (address : UInt32) (bytes : List UInt8) :
    Hints sites (Emit.storeBytes address bytes) :=
  .update fun _ _ => trivial

theorem Tells.onScratch {x : Emit Unit} (hx : Tells sites x) : Tells sites (Emit.onScratch x) where
  ok _ _ _ _ _ := ⟨trivial, trivial⟩
  error out failure out' hrun _ := by
    unfold Emit.onScratch at hrun
    cases hscratch : x { out with image := {} } with
    | ok u after => simp [hscratch] at hrun
    | error failure' after =>
      rw [hscratch] at hrun
      cases hrun
      exact hx.error hscratch trivial

theorem hints_code (s : Scopes) (line : Line) (address : UInt32) (code : Code) :
    Hints sites (code.emit s line address) := by
  unfold Code.emit
  split
  · exact .pure trivial
  · exact .pure trivial
  · exact (hints_ofExcept (sober_dataBytes _ _ _ _)).bind fun _ _ => hints_storeBytes _ _
  · exact hints_storeBytes _ _
  · exact (hints_ofExcept (sober_machineBytes _ _ _)).bind fun _ _ => hints_storeBytes _ _
  · exact (hints_ofExcept (sober_messageText _ _)).bind fun _ _ => .throw (Cause.hints nofun)
  · exact (hints_ofExcept (sober_messageText _ _)).bind fun _ _ => .update fun _ _ => trivial

mutual

theorem hints_entry (s : Scopes) : ∀ {entry : Entry}, EntriesAt sites [entry] →
    Hints sites (entry.emit s)
  | .code line address code, _ => by
    rw [Entry.emit]
    exact hints_code s line address code
  | .space line address region parts, h => by
    have hparts : EntriesAt sites parts := fun entry hentry =>
      h entry (by simp [entriesOf, Entry.all, hentry])
    rw [Entry.emit]
    split
    · exact (tells_emitAll s hparts).onScratch.hints
    · refine (tells_emitAll s hparts).hints.bind fun _ _ => ?_
      exact (hints_ofExcept (sober_fillByte _ _)).bind fun _ _ => hints_storeBytes _ _

theorem tells_emitAll (s : Scopes) : ∀ {entries : List Entry}, EntriesAt sites entries →
    Tells sites (emitAll s entries)
  | [], _ => by
    rw [emitAll]
    exact .pure trivial
  | entry :: rest, h => by
    obtain ⟨hentry, hrest⟩ := EntriesAt.cons_iff.mp h
    have hline : sites entry.line.position.here := by
      refine hentry entry ?_
      cases entry <;> simp [entriesOf, Entry.all]
    rw [emitAll]
    exact ((hints_entry s hentry).traced hline).bind fun _ _ => tells_emitAll s hrest

end

end Emit

end

/-! ## Causes alone -/

/-- No site is excluded, so nothing has to be known about the lines. -/
theorem Session.knows_all (s : Session) : s.Knows fun _ => True :=
  ⟨fun _ _ _ _ _ => trivial, fun _ _ _ _ _ => trivial⟩

theorem standAt_all (items : List Item) : StandAt (fun _ => True) items :=
  fun _ _ => trivial

namespace Assembly

/-- A computation that fails for other reasons than an address that is set already. -/
abbrev SoberRun {α : Type} (x : Assembly α) : Prop :=
  ∀ ⦃s failure s'⦄, x s = .error failure s' → failure.what.Sober

end Assembly

theorem Ensures.sober {α : Type} {good : α → Prop} {x : Assembly α}
    (hx : Assembly.Hints Cause.Sober (fun _ => True) good x) : Assembly.SoberRun x :=
  fun s _ _ hrun => (hx.error hrun s.knows_all).cause

namespace Assembly

theorem sober_register (items : List Item) : SoberRun (register items) :=
  (tells_register (standAt_all items)).hints.sober

theorem sober_expandLevels (levels : Nat) (items : List Item) :
    SoberRun (expandLevels levels items) :=
  (tells_expandLevels levels (standAt_all items)).hints.sober

theorem generate_eq_error {program : Program} {s t : Session} {failure : Failure}
    (h : generate program s = .error failure t) :
    ∃ output, emitAll s.scopes program.entries s.output = .error failure output := by
  unfold generate emitting at h
  cases hemit : emitAll s.scopes program.entries s.output with
  | ok u output => simp [hemit] at h
  | error other output =>
    simp only [hemit, EStateM.Result.error.injEq] at h
    exact ⟨output, h.1 ▸ rfl⟩

/-- **Generating code never fails because an address is set.** -/
theorem sober_generate (program : Program) : SoberRun (generate program) := by
  intro s failure t h
  obtain ⟨output, hemit⟩ := generate_eq_error h
  have hentries : EntriesAt (fun _ => True) program.entries := fun _ _ => trivial
  exact ((Emit.tells_emitAll s.scopes hentries).error hemit trivial).cause

end Assembly

end Z80Asm
