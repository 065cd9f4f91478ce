import Z80Asm.Proofs.Cpu.Classification
import Z80Asm.Proofs.Program.Expansions
import Z80Asm.Proofs.Program.Naming
import Z80Asm.Proofs.Scope.History

/-!
# Lines that wait for a space

Before lines are placed, no scope has an address, and a session holds the lines that were sent to its
spaces (`Session.Prepared`). Nothing that is sent is lost: a section names a space by the value of
its argument, and no value names a space that does not exist. For no text mentions spaces by number;
they get into values only when the label of a `DS` line is bound to the space that was made for it.

Along with spaces it is shown that no text spells a displacement at another register than `IX` and
`IY`, because the same values have to be followed for both (`Expr.Textual`).

The invariant is about values and not about lines alone, because a section may name its space by
another name: behind `y: equ x` it is sent to the space of `x`. It holds between registering and
placing. While lines are placed spaces are emptied, and the modules about that have invariants of
their own.
-/
set_option autoImplicit false

namespace Z80Asm

open Success

/-! ## Spaces in expressions -/

namespace Expr

mutual

/-- The spaces that an expression holds. -/
def spaces : Expr → List SpaceId
  | space id _ => [id]
  | unary _ operand => operand.spaces
  | binary _ left right => left.spaces ++ right.spaces
  | ifElse cond onTrue onFalse => cond.spaces ++ onTrue.spaces ++ onFalse.spaces
  | seq items => spacesItems items
  | member object _ => object.spaces
  | index sequence position => sequence.spaces ++ position.spaces
  | group inner => inner.spaces
  | annotated _ inner => inner.spaces
  | indexed _ offset => offset.spaces
  | int _ | str _ | chr _ | ident _ _ | register _ | condition _ | context _ | operation _ => []

def spacesItems : List Expr → List SpaceId
  | [] => []
  | e :: rest => e.spaces ++ spacesItems rest

end

theorem spaces_subset_spacesItems {items : List Expr} {e : Expr} (h : e ∈ items) :
    e.spaces ⊆ spacesItems items := by
  induction items with
  | nil => cases h
  | cons first rest ih =>
    rw [spacesItems]
    cases h with
    | head => exact List.subset_append_left _ _
    | tail _ h => exact List.subset_append_of_subset_right _ (ih h)

theorem spacesItems_eq_nil {items : List Expr} (h : ∀ e ∈ items, e.spaces = []) :
    spacesItems items = [] := by
  induction items with
  | nil => rfl
  | cons first rest ih =>
    obtain ⟨hfirst, hrest⟩ := List.forall_mem_cons.mp h
    rw [spacesItems, hfirst, ih hrest]
    rfl

mutual

theorem spaces_rename (f : ScopeId → ScopeId) : ∀ e : Expr, (e.rename f).spaces = e.spaces
  | unary _ operand => spaces_rename f operand
  | binary _ left right => by
    rw [rename, spaces, spaces, spaces_rename f left, spaces_rename f right]
  | ifElse cond onTrue onFalse => by
    rw [rename, spaces, spaces, spaces_rename f cond, spaces_rename f onTrue, spaces_rename f onFalse]
  | seq items => spacesItems_rename f items
  | member object _ => spaces_rename f object
  | index sequence position => by
    rw [rename, spaces, spaces, spaces_rename f sequence, spaces_rename f position]
  | group inner => spaces_rename f inner
  | annotated _ inner => spaces_rename f inner
  | indexed _ offset => spaces_rename f offset
  | space _ _ | int _ | str _ | chr _ | ident _ _ | register _ | condition _ | context _
  | operation _ => rfl

theorem spacesItems_rename (f : ScopeId → ScopeId) : ∀ items : List Expr,
    spacesItems (renameItems f items) = spacesItems items
  | [] => rfl
  | e :: rest => by
    rw [renameItems, spacesItems, spacesItems, spaces_rename f e, spacesItems_rename f rest]

end

/-- What is written holds no space. -/
theorem Derives.spaces_eq_nil {scope : ScopeId} {level : Int} {e : Expr} (h : e.Derives scope level) :
    e.spaces = [] := by
  induction h with
  | atom hatom => cases hatom <;> rfl
  | group _ ih => exact ih
  | member _ _ ih => exact ih
  | index _ _ ih ih' => rw [spaces, ih, ih', List.append_nil]
  | unary _ _ ih => exact ih
  | binary _ _ _ ih ih' => rw [spaces, ih, ih', List.append_nil]
  | ifElse _ _ _ ih ih' ih'' => rw [spaces, ih, ih', ih'', List.append_nil, List.append_nil]
  | annotated _ _ ih => exact ih
  | seq _ _ ih => exact spacesItems_eq_nil ih
  | looser _ ih => exact ih

theorem properItems_iff {items : List Expr} : ProperItems items ↔ ∀ e ∈ items, e.Proper := by
  induction items with
  | nil => exact iff_of_true trivial (List.forall_mem_nil _)
  | cons e rest ih => rw [ProperItems, ih, List.forall_mem_cons]

mutual

theorem proper_rename (f : ScopeId → ScopeId) : ∀ e : Expr, (e.rename f).Proper ↔ e.Proper
  | unary _ operand => by rw [rename, Proper, Proper, proper_rename f operand]
  | binary _ left right => by
    rw [rename, Proper, Proper, proper_rename f left, proper_rename f right]
  | ifElse cond onTrue onFalse => by
    rw [rename, Proper, Proper, proper_rename f cond, proper_rename f onTrue, proper_rename f onFalse]
  | seq items => by rw [rename, Proper, Proper, properItems_rename f items]
  | member object _ => by rw [rename, Proper, Proper, proper_rename f object]
  | index sequence position => by
    rw [rename, Proper, Proper, proper_rename f sequence, proper_rename f position]
  | group inner => by rw [rename, Proper, Proper, proper_rename f inner]
  | annotated _ inner => by rw [rename, Proper, Proper, proper_rename f inner]
  | indexed _ offset => by rw [rename, Proper, Proper, proper_rename f offset]
  | space _ _ | int _ | str _ | chr _ | ident _ _ | register _ | condition _ | context _
  | operation _ => by simp only [rename, Proper]

theorem properItems_rename (f : ScopeId → ScopeId) : ∀ items : List Expr,
    ProperItems (renameItems f items) ↔ ProperItems items
  | [] => Iff.rfl
  | e :: rest => by
    rw [renameItems, ProperItems, ProperItems, proper_rename f e, properItems_rename f rest]

end

/-- An expression as it can be written: it holds no space, and nothing but an index register has a
    displacement. What evaluation makes need not be like this. -/
def Textual (e : Expr) : Prop :=
  e.spaces = [] ∧ e.Proper

theorem textual_rename (f : ScopeId → ScopeId) (e : Expr) : (e.rename f).Textual ↔ e.Textual := by
  rw [Textual, Textual, spaces_rename, proper_rename]

theorem Derives.textual {scope : ScopeId} {level : Int} {e : Expr} (h : e.Derives scope level) :
    e.Textual := by
  refine ⟨h.spaces_eq_nil, ?_⟩
  induction h with
  | atom hatom => cases hatom <;> trivial
  | group _ ih | member _ _ ih | unary _ _ ih | annotated _ _ ih =>
    rw [Proper]
    exact ih
  | index _ _ ih ih' | binary _ _ _ ih ih' =>
    rw [Proper]
    exact ⟨ih, ih'⟩
  | ifElse _ _ _ ih ih' ih'' =>
    rw [Proper]
    exact ⟨ih, ih', ih''⟩
  | seq _ _ ih =>
    rw [Proper]
    exact properItems_iff.mpr ih
  | looser _ ih => exact ih

/-- There are more spaces than the number of any that the expression holds. -/
def SpacesBelow (count : Nat) (e : Expr) : Prop :=
  ∀ id ∈ e.spaces, id.index < count

theorem spacesBelow_of_eq_nil {count : Nat} {e : Expr} (h : e.spaces = []) : e.SpacesBelow count := by
  rw [SpacesBelow, h]
  exact List.forall_mem_nil _

theorem stable_spacesBelow (count : Nat) : Stable (SpacesBelow count) where
  int _ := List.forall_mem_nil _
  chr _ := List.forall_mem_nil _
  branches h := by
    rw [SpacesBelow, spaces, List.append_assoc] at h
    exact List.forall_mem_append.mp (List.forall_mem_append.mp h).2
  sequence h := (List.forall_mem_append.mp h).1
  inner h := h
  items h e he id hid := h id (spaces_subset_spacesItems he hid)
  operands h := List.forall_mem_append.mp h
  binary hleft hright := List.forall_mem_append.mpr ⟨hleft, hright⟩
  indexed _ h := h
  shifted h hright := List.forall_mem_append.mpr ⟨h, hright⟩

end Expr

/-- The arguments of the line are as they can be written. -/
def Line.Textual (line : Line) : Prop :=
  ∀ e ∈ line.arguments, e.Textual

theorem Line.Textual.argumentList {line : Line} (h : line.Textual) :
    ∀ e ∈ line.argumentList, e.Textual := by
  intro e he
  rw [Line.argumentList] at he
  cases harguments : line.arguments with
  | none =>
    rw [harguments] at he
    cases he
  | some whole =>
    rw [harguments] at he
    have hwhole := h whole harguments
    cases whole with
    | seq items =>
      have hproper := hwhole.2
      rw [Expr.Proper] at hproper
      exact ⟨List.eq_nil_of_subset_nil (hwhole.1 ▸ Expr.spaces_subset_spacesItems he),
        hproper.of_mem e he⟩
    | _ =>
      cases List.mem_singleton.mp he
      exact hwhole

theorem Reader.next_textual {reader rest : Reader} {scope : ScopeId} {line : Line}
    (h : reader.next scope = .ok (some (line, rest))) : line.Textual := by
  unfold Reader.next at h
  split at h
  · cases h
  · split at h
    · cases h
    · simp only [except_bind_eq_ok, except_pure_eq_ok] at h
      obtain ⟨read, hread, arguments, harguments, hline⟩ := h
      cases hline
      have hstart : Mode.Spelled .labelStart := trivial
      obtain ⟨-, -, ts, hts, hspelled⟩ := spelled_readPhysical hstart (Draft.spelled_empty scope) hread
      intro e he
      cases he
      cases hfinish : read.draft.builder.finish with
      | error cause =>
        rw [hfinish] at harguments
        cases harguments
      | ok built =>
        rw [hfinish] at harguments
        cases harguments
        exact (Builder.derives_of_builds (fun t ht => (hspelled t ht).isAtomic) hts
          hfinish).1.textual

/-! ## Prepared sessions -/

/-- No scope has an address, and the values that are bound hold no more than `count` spaces. A space
    is bound for one line only, and only index registers have a displacement. -/
structure Scopes.Prepared (count : Nat) (s : Scopes) : Prop where
  bare : ∀ id, s.address? id = none
  values : ∀ value ∈ s.values, value.SpacesBelow count
  homes : ∀ id a b, .space id a ∈ s.values → .space id b ∈ s.values → a = b
  proper : s.Proper

/-- A value that can be bound: the spaces in it exist, and it is no space that a value is already. -/
structure Scopes.Admits (s : Scopes) (count : Nat) (value : Expr) : Prop where
  below : value.SpacesBelow count
  lacks : ∀ id a, value = .space id a → ∀ b, .space id b ∉ s.values
  proper : value.Proper

theorem Expr.Textual.admits {value : Expr} (h : value.Textual) (s : Scopes) (count : Nat) :
    s.Admits count value := by
  refine ⟨spacesBelow_of_eq_nil h.1, ?_, h.2⟩
  rintro id a rfl
  cases h.1

namespace Scopes.Prepared

variable {count more : Nat} {s t : Scopes}

theorem mono (h : s.Prepared count) (hle : count ≤ more) : s.Prepared more :=
  ⟨h.bare, fun value hvalue id hid => Nat.lt_of_lt_of_le (h.values value hvalue id hid) hle, h.homes,
    h.proper⟩

theorem create (h : s.Prepared count) (parent : Option ScopeId) :
    Prepared count (s.create parent).2 where
  bare id := by
    rw [address?, get?_create]
    split
    · rfl
    · exact h.bare id
  values := by
    rw [values_create]
    exact List.forall_mem_append.mpr
      ⟨h.values, List.forall_mem_singleton.mpr (Expr.spacesBelow_of_eq_nil rfl)⟩
  homes id a b ha hb := by
    rw [values_create] at ha hb
    exact h.homes id a b (by simpa using ha) (by simpa using hb)
  proper := by
    rw [Scopes.Proper, values_create]
    exact List.forall_mem_append.mpr ⟨h.proper, List.forall_mem_singleton.mpr trivial⟩

theorem add (h : s.Prepared count) {id : ScopeId} {name : String} {value : Expr}
    (hvalue : s.Admits count value) (hadd : s.add id name value = .ok t) : t.Prepared count := by
  obtain ⟨scope, hscope, -, rfl⟩ := add_eq_ok hadd
  refine ⟨?_, ?_, ?_, ?_⟩
  · intro other
    rw [← h.bare other]
    exact address?_modify fun _ => rfl
  · intro bound hbound
    rcases List.mem_cons.mp ((values_bind hscope name value).mem_iff.mp hbound) with rfl | hbound
    · exact hvalue.below
    · exact h.values bound hbound
  · intro space a b ha hb
    rw [(values_bind hscope name value).mem_iff, List.mem_cons] at ha hb
    rcases ha with ha | ha <;> rcases hb with hb | hb
    · cases ha.trans hb.symm
      rfl
    · exact (hvalue.lacks space a ha.symm b hb).elim
    · exact (hvalue.lacks space b hb.symm a ha).elim
    · exact h.homes space a b ha hb
  · intro bound hbound
    rcases List.mem_cons.mp ((values_bind hscope name value).mem_iff.mp hbound) with rfl | hbound
    · exact hvalue.proper
    · exact h.proper bound hbound

theorem modify (h : s.Prepared count) {id : ScopeId} {f : Scope → Scope}
    (hbindings : ∀ scope, (f scope).bindings = scope.bindings)
    (haddress : ∀ scope, (f scope).address = scope.address) : (s.modify id f).Prepared count where
  bare other := (address?_modify haddress).trans (h.bare other)
  values := by
    rw [values_modify hbindings]
    exact h.values
  homes := by
    rw [values_modify hbindings]
    exact h.homes
  proper := by
    rw [Scopes.Proper, values_modify hbindings]
    exact h.proper

end Scopes.Prepared

/-- Lines that are read are as they were written, and own scopes without addresses. -/
theorem Scopes.account_prepared (count : Nat) : Scopes.Account (fun s _ => s.Prepared count)
    (fun _ t lines => t.Prepared count ∧ ∀ line ∈ lines, line.Textual) :=
  .ofLines (fun h => h.create _) fun _ hnext _ => Reader.next_textual hnext

/-- The lines of the body and the defaults of the parameters are as they can be written. -/
structure Template.Textual (template : Template) : Prop where
  body : ∀ line ∈ linesOf template.body, line.Textual
  parameters : ∀ parameter ∈ template.parameters, ∀ e ∈ parameter.2, e.Textual

/-- Nothing has been placed. Of the spaces there are at least `least`, and these lines wait for
    them. -/
structure Session.Prepared (least : Nat) (waiting : List Item) (s : Session) : Prop where
  scopes : s.scopes.Prepared s.spaces.size
  templates : ∀ template ∈ s.templates, template.Textual
  least : least ≤ s.spaces.size
  waiting : s.spaces.toList.flatten.Perm waiting

namespace Session.Prepared

variable {least : Nat} {waiting : List Item} {s : Session}

theorem withScopes (h : s.Prepared least waiting) {scopes : Scopes}
    (hscopes : scopes.Prepared s.spaces.size) :
    Session.Prepared least waiting { s with scopes } :=
  ⟨hscopes, h.templates, h.least, h.waiting⟩

/-- The spaces that are there are never fewer. -/
theorem all (h : s.Prepared least waiting) : s.Prepared s.spaces.size waiting :=
  ⟨h.scopes, h.templates, Nat.le_refl _, h.waiting⟩

end Session.Prepared

/-! ## Binding labels -/

namespace Assembly

variable {least : Nat} {waiting : List Item}

theorem prepares_addSymbol (scope : ScopeId) (name : String) {value : Expr}
    (hvalue : value.Textual) :
    Guards (Session.Prepared least waiting) (addSymbol scope name value) :=
  moves_addSymbol fun _ _ hadd hs => hs.withScopes (hs.scopes.add (hvalue.admits _ _) hadd)

theorem textual_of_parameterOf {e : Expr} {parameter : String × Option Expr}
    (he : e.Textual) (h : parameterOf e = .ok parameter) : ∀ e ∈ parameter.2, e.Textual := by
  unfold parameterOf at h
  split at h
  · cases h
    intro e he
    cases he
  · cases h
    intro e he'
    cases he'
    have hproper := he.2
    rw [Expr.Proper] at hproper
    exact ⟨(List.append_eq_nil_iff.mp he.1).2, hproper.2⟩
  · cases h

theorem textual_of_mapM_parameterOf {args : List Expr} {parameters : List (String × Option Expr)}
    (hargs : ∀ e ∈ args, e.Textual) (h : args.mapM parameterOf = .ok parameters) :
    ∀ parameter ∈ parameters, ∀ e ∈ parameter.2, e.Textual := by
  induction args generalizing parameters with
  | nil =>
    cases h
    exact List.forall_mem_nil _
  | cons e rest ih =>
    simp only [List.mapM_cons, except_bind_eq_ok, except_pure_eq_ok] at h
    obtain ⟨parameter, hparameter, others, hothers, rfl⟩ := h
    obtain ⟨he, hrest⟩ := List.forall_mem_cons.mp hargs
    exact List.forall_mem_cons.mpr ⟨textual_of_parameterOf he hparameter, ih hrest hothers⟩

/-- The value of a label was written, or is the space that was made for it. -/
theorem labelValue_prepared {label : String} {item : Item} {value : Expr} {s s' : Session}
    (hitem : ∀ line ∈ item.lines, line.Textual) (h : labelValue label item s = .ok value s')
    (hs : s.Prepared least waiting) :
    s'.Prepared least waiting ∧ s'.scopes.Admits s'.spaces.size value := by
  unfold labelValue at h
  split at h
  · next line =>
    have hline := List.forall_mem_singleton.mp hitem
    cases harguments : line.arguments with
    | none => simp [harguments] at h
    | some e =>
      rw [harguments] at h
      obtain ⟨rfl, rfl⟩ := pure_eq_ok.mp h
      exact ⟨hs, (hline e harguments).admits _ _⟩
  · simp only [newSpace, bind_eq_ok, get_eq_ok, modify_eq_ok, pure_eq_ok] at h
    obtain ⟨_, _, ⟨_, _, ⟨rfl, rfl⟩, _, _, rfl, rfl, rfl⟩, rfl, rfl⟩ := h
    have hsize : s.spaces.size ≤ (s.spaces.push []).size := by
      rw [Array.size_push]
      exact Nat.le_succ _
    refine ⟨⟨hs.scopes.mono hsize, hs.templates, Nat.le_trans hs.least hsize, ?_⟩, ?_, ?_, trivial⟩
    · rw [Array.toList_push, List.flatten_append, List.flatten_cons, List.flatten_nil,
        List.append_nil, List.append_nil]
      exact hs.waiting
    · refine List.forall_mem_singleton.mpr ?_
      rw [Array.size_push]
      exact Nat.lt_succ_self _
    · -- The number of the space is new.
      rintro id a ⟨⟩ b hb
      exact Nat.lt_irrefl _ (hs.scopes.values _ hb _ List.mem_cons_self)
  · next line body =>
    obtain ⟨hline, hbody⟩ := List.forall_mem_cons.mp hitem
    simp only [newTemplate, bind_eq_ok, ofExcept_eq_ok, get_eq_ok, modify_eq_ok, pure_eq_ok] at h
    obtain ⟨parameters, _, ⟨hparameters, rfl⟩, _, _, ⟨_, _, ⟨rfl, rfl⟩, _, _, rfl, rfl, rfl⟩, rfl,
      rfl⟩ := h
    refine ⟨⟨hs.scopes, ?_, hs.least, hs.waiting⟩, Expr.Textual.admits (by exact ⟨rfl, trivial⟩) _ _⟩
    intro template htemplate
    rcases Array.mem_push.mp htemplate with hold | rfl
    · exact hs.templates template hold
    · exact ⟨hbody, textual_of_mapM_parameterOf hline.argumentList hparameters⟩
  · obtain ⟨rfl, rfl⟩ := pure_eq_ok.mp h
    exact ⟨hs, Expr.Textual.admits (by exact ⟨rfl, trivial⟩) _ _⟩

theorem prepares_bindLabel {item : Item} (hitem : ∀ line ∈ item.lines, line.Textual) :
    Guards (Session.Prepared least waiting) (bindLabel item) := by
  intro s u s' h hs
  rcases bindLabel_eq_ok.mp h with ⟨-, -, rfl⟩ |
      ⟨label, value, t, parent, scopes, -, hvalue, -, hadd, rfl⟩
  · exact hs.withScopes (hs.scopes.modify (fun _ => rfl) fun _ => rfl)
  · obtain ⟨ht, hadmits⟩ := labelValue_prepared hitem hvalue hs
    rw [← (labelValue_scopes hvalue).1] at hadd
    exact ht.withScopes ((ht.scopes.add hadmits hadd).modify (fun _ => rfl) fun _ => rfl)

theorem prepares_register (items : List Item) (h : ∀ line ∈ linesOf items, line.Textual) :
    Guards (Session.Prepared least waiting) (register items) :=
  moves_register Item.forall_mem_body prepares_bindLabel items (forall_mem_linesOf.mp h)

/-! ## Instances of bodies -/

end Assembly

theorem Line.copy_textual (site : Position) {line : Line} (hline : line.Textual) (c : Copying) :
    ((line.copy site).run c).1.Textual := by
  intro e he
  obtain ⟨original, horiginal, rfl⟩ := Option.map_eq_some_iff.mp he
  exact (Expr.textual_rename _ original).mpr (hline original horiginal)

theorem copyItems_prepared (site : Position) {count : Nat} (items : List Item) {c : Copying}
    (hc : c.scopes.Prepared count) (hitems : ∀ line ∈ linesOf items, line.Textual) :
    ((copyItems site items).run c).2.scopes.Prepared count ∧
      ∀ line ∈ linesOf ((copyItems site items).run c).1, line.Textual := by
  refine copyItems_lines (G := fun c lines c' copies => c.scopes.Prepared count →
    (∀ line ∈ lines, line.Textual) → c'.scopes.Prepared count ∧ ∀ line ∈ copies, line.Textual)
    (fun _ hc _ => ⟨hc, List.forall_mem_nil _⟩) ?_ (fun c line hc hline => ?_) items c hc hitems
  · intro c c' c'' lines copies lines' copies' h h' hc hlines
    obtain ⟨hfirst, hrest⟩ := List.forall_mem_append.mp hlines
    obtain ⟨hprepared, hcopies⟩ := h hc hfirst
    obtain ⟨hprepared', hcopies'⟩ := h' hprepared hrest
    exact ⟨hprepared', List.forall_mem_append.mpr ⟨hcopies, hcopies'⟩⟩
  · have hline := List.forall_mem_singleton.mp hline
    exact ⟨hc.create _, List.forall_mem_singleton.mpr (Line.copy_textual site hline _)⟩

namespace Assembly

variable {least : Nat} {waiting : List Item} {s s' : Session} {items : List Item}

theorem instanceOf_prepared {line : Line} {template target : ScopeId} {body : List Item}
    (h : instanceOf line template target body s = .ok items s') (hs : s.Prepared least waiting)
    (hbody : ∀ line ∈ linesOf body, line.Textual) :
    s'.Prepared least waiting ∧ ∀ line ∈ linesOf items, line.Textual := by
  simp only [instanceOf, bind_eq_ok, scopes_eq_ok, setScopes_eq_ok, pure_eq_ok] at h
  obtain ⟨_, _, ⟨rfl, rfl⟩, _, _, rfl, rfl, rfl⟩ := h
  obtain ⟨hscopes, hitems⟩ := copyItems_prepared line.position body
    (c := { images := [(template, target)], scopes := s.scopes }) hs.scopes hbody
  exact ⟨hs.withScopes hscopes, hitems⟩

theorem prepares_bindParameters (scope : ScopeId) {args : List Expr}
    (hargs : ∀ e ∈ args, e.Textual) {parameters : List (String × Option Expr)}
    (h : ∀ parameter ∈ parameters, ∀ e ∈ parameter.2, e.Textual) :
    Guards (Session.Prepared least waiting) (bindParameters scope args parameters) :=
  moves_bindParameters fun parameter hparameter value hvalue _ _ hadd hs =>
    have htextual := hvalue.elim (hargs value) (h parameter hparameter value)
    hs.withScopes (hs.scopes.add (htextual.admits _ _) hadd)

theorem openInvocation_prepared {line : Line} {template : Template}
    (h : openInvocation line template s = .ok items s') (hs : s.Prepared least waiting)
    (hline : line.Textual) (htemplate : template ∈ s.templates) :
    s'.Prepared least waiting ∧ ∀ line ∈ linesOf items, line.Textual := by
  obtain ⟨hbody, hparameters⟩ := hs.templates template htemplate
  obtain ⟨s₁, scopes, hbind, hhorizon, hinstance⟩ := openInvocation_eq_ok h
  have hbound : s₁.Prepared least waiting :=
    prepares_bindParameters _ hline.argumentList hparameters hbind
      (hs.withScopes (hs.scopes.create _))
  have hscopes : scopes.Prepared s₁.spaces.size := by
    rcases hhorizon with ⟨-, rfl⟩ | ⟨mark, -, rfl⟩
    · exact hbound.scopes
    · exact hbound.scopes.modify (fun _ => rfl) fun _ => rfl
  have hopened : Session.Prepared least waiting { s₁ with
      scopes := (scopes.create (some s.scopes.fresh)).2.setBody line.scope scopes.fresh } :=
    hbound.withScopes ((hscopes.create _).modify (fun _ => rfl) fun _ => rfl)
  exact instanceOf_prepared hinstance hopened hbody

theorem openIteration_prepared {line : Line} {var : Option String} {body : List Item} {i : Nat}
    {value : Expr} (h : openIteration line var body i value s = .ok items s')
    (hs : s.Prepared least waiting) (hbody : ∀ line ∈ linesOf body, line.Textual)
    (hvalue : value.Textual) :
    s'.Prepared least waiting ∧ ∀ line ∈ linesOf items, line.Textual := by
  obtain ⟨iteration, s₁, hcreate, hrest⟩ := bind_eq_ok.mp h
  obtain ⟨rfl, rfl⟩ := createScope_eq_ok.mp hcreate
  obtain ⟨_, s₂, hnumber, hlast⟩ := bind_eq_ok.mp hrest
  have hnumbered : s₂.Prepared least waiting :=
    prepares_addSymbol _ _ (by exact ⟨rfl, trivial⟩) hnumber (hs.withScopes (hs.scopes.create _))
  cases var with
  | none => exact instanceOf_prepared hlast hnumbered hbody
  | some name =>
    obtain ⟨_, s₃, hbind, hinstance⟩ := bind_eq_ok.mp hlast
    have hbound : s₃.Prepared least waiting :=
      prepares_addSymbol _ _ hvalue hbind hnumbered
    exact instanceOf_prepared hinstance hbound hbody

/-! ## Expanding -/

/-- The lines of what is expanded are as they can be written, and so are the values of a repetition. -/
def Work.Textual : Work → Prop
  | .items items => ∀ line ∈ linesOf items, line.Textual
  | .item statement | .operation _ statement => ∀ line ∈ statement.lines, line.Textual
  | .iterations _ _ body _ values =>
    (∀ line ∈ linesOf body, line.Textual) ∧ ∀ value ∈ values, value.Textual

theorem textual_reptValues {scopes : Scopes} {line : Line} {var : Option String}
    {values : List Expr} (h : reptValues scopes line = .ok (var, values)) :
    ∀ value ∈ values, value.Textual := by
  unfold reptValues at h
  dsimp only at h
  split at h
  · simp only [except_bind_eq_ok] at h
    obtain ⟨count, -, h⟩ := h
    split at h
    · simp at h
    · simp only [except_bind_eq_ok, except_pure_eq_ok] at h
      obtain ⟨var', -, start, -, step, -, heq⟩ := h
      cases heq
      intro value hvalue
      obtain ⟨i, -, rfl⟩ := List.mem_map.mp hvalue
      exact ⟨rfl, trivial⟩
  · simp at h

theorem textual_irpValues {line : Line} {var : Option String} {values : List Expr}
    (hline : line.Textual) (h : irpValues line = .ok (var, values)) :
    ∀ value ∈ values, value.Textual := by
  unfold irpValues at h
  split at h
  · cases h
  · next e rest hargs =>
    simp only [except_bind_eq_ok, except_pure_eq_ok] at h
    obtain ⟨name, -, heq⟩ := h
    cases heq
    have hall := hline.argumentList
    rw [hargs] at hall
    exact (List.forall_mem_cons.mp hall).2

/-- A section names a space that exists. -/
theorem segmentSpace_lt {scopes : Scopes} {line : Line} {space : SpaceId} {count : Nat}
    (h : segmentSpace scopes line = .ok space) (hscopes : scopes.Prepared count)
    (hline : line.Textual) : space.index < count := by
  unfold segmentSpace at h
  cases harguments : line.arguments with
  | none => simp [harguments] at h
  | some target =>
    simp only [harguments, except_bind_eq_ok] at h
    obtain ⟨value, hvalue, h⟩ := h
    have hbelow : value.SpacesBelow count :=
      resolveAt_stable (Expr.stable_spacesBelow count) hscopes.values
        (Expr.spacesBelow_of_eq_nil (hline target harguments).1) hvalue
    split at h
    · cases h
      exact hbelow space List.mem_cons_self
    · cases h

theorem perm_flatten_modify {spaces : List (List Item)} {i : Nat} (hi : i < spaces.length)
    (lines : List Item) :
    (spaces.modify i (· ++ lines)).flatten.Perm (spaces.flatten ++ lines) := by
  induction spaces generalizing i with
  | nil => cases hi
  | cons first rest ih =>
    cases i with
    | zero =>
      rw [List.modify_zero_cons, List.flatten_cons, List.flatten_cons, List.append_assoc,
        List.append_assoc]
      exact List.perm_append_comm.append_left first
    | succ i =>
      rw [List.modify_succ_cons, List.flatten_cons, List.flatten_cons, List.append_assoc]
      exact (ih (Nat.lt_of_succ_lt_succ hi)).append_left first

theorem textual_withOperation {item : Item} (op : Operation)
    (h : ∀ line ∈ item.lines, line.Textual) :
    ∀ line ∈ (item.withOperation op).lines, line.Textual :=
  Item.forall_mem_withOperation h op fun hline => hline

/-- **What is sent while items are expanded waits afterwards, and nothing else does that did not
    wait before.** -/
theorem Unfolds.prepared {within : List Line} {work : Work} {lines sent : List Product}
    {log : List Sending} (h : Unfolds within work s lines sent log s') (hwork : work.Textual)
    {before : List Item} (hs : s.Prepared least before) :
    s'.Prepared least (before ++ sent.map Product.item) := by
  induction h generalizing least before with
  | nil => exact (List.append_nil before).symm ▸ hs
  | cons _ _ ih ih' =>
    obtain ⟨hitem, hrest⟩ := List.forall_mem_append.mp hwork
    rw [List.map_append, ← List.append_assoc]
    exact ih' hrest (ih hitem hs)
  | bare _ => exact (List.append_nil before).symm ▸ hs
  | named _ _ _ ih => exact ih (textual_withOperation _ hwork) hs
  | single _ => exact (List.append_nil before).symm ▸ hs
  | unknown _ => exact (List.append_nil before).symm ▸ hs
  | @invoke _ _ item _ items _ _ _ _ _ _ _ htemplate hopen hregister _ ih =>
    obtain ⟨hs₁, hitems⟩ := openInvocation_prepared hopen hs (hwork _ item.line_mem_lines)
      (Array.mem_of_getElem? htemplate)
    exact ih hitems (prepares_register items hitems hregister hs₁)
  | rept hvalues _ ih =>
    exact ih ⟨(List.forall_mem_cons.mp hwork).2, textual_reptValues hvalues⟩ hs
  | irp hvalues _ ih =>
    obtain ⟨hline, hbody⟩ := List.forall_mem_cons.mp hwork
    exact ih ⟨hbody, textual_irpValues hline hvalues⟩ hs
  | @choice _ _ _ _ branch _ _ _ _ _ _ _ _ _ _ hbranch hregister _ ih =>
    obtain ⟨htrue, hfalse⟩ := List.forall_mem_append.mp (List.forall_mem_cons.mp hwork).2
    have hlines : ∀ line ∈ linesOf branch, line.Textual := by
      rw [hbranch]
      split
      · exact htrue
      · exact hfalse
    exact ih hlines (prepares_register branch hlines hregister hs)
  | proc _ ih => exact ih (List.forall_mem_cons.mp hwork).2 hs
  | @segment _ line _ lines sent _ space _ s' hspace _ ih =>
    obtain ⟨hline, hbody⟩ := List.forall_mem_cons.mp hwork
    have hs' := ih hbody hs
    have hknown : space.index < s'.spaces.size :=
      Nat.lt_of_lt_of_le (segmentSpace_lt hspace hs.scopes hline) (ih hbody hs.all).least
    have hsize : (s'.spaces.modify space.index
        (· ++ Item.plain line .instruction :: lines.map Product.item)).size = s'.spaces.size :=
      Array.size_modify
    refine ⟨hsize.symm ▸ hs'.scopes, hs'.templates, hsize.symm ▸ hs'.least, ?_⟩
    rw [Array.toList_modify]
    refine (perm_flatten_modify hknown _).trans ?_
    refine (hs'.waiting.append_right _).trans ?_
    rw [List.append_assoc, List.map_append]
    exact List.perm_append_comm.append_left before
  | done => exact (List.append_nil before).symm ▸ hs
  | iteration hopen hregister _ _ ih ih' =>
    obtain ⟨hbody, hvalues⟩ := hwork
    obtain ⟨hvalue, hrest⟩ := List.forall_mem_cons.mp hvalues
    obtain ⟨hs₁, hitems⟩ := openIteration_prepared hopen hs hbody hvalue
    rw [List.map_append, ← List.append_assoc]
    exact ih' ⟨hbody, hrest⟩ (ih hitems (prepares_register _ hitems hregister hs₁))

end Assembly

end Z80Asm
