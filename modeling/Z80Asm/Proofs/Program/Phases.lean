import Z80Asm.Program.Assemble
import Z80Asm.Proofs.Block.Grammar
import Z80Asm.Proofs.Scope.Growth

/-!
# Steps of the phases

When the steps that the phases are made of succeed, and how what is known of single steps carries over
to binding labels and placing lines (`Moves`). What all phases before the generation of code have in
common: the arena only grows, and nothing is written. `Advances` says so of a phase.

Invariants of the modules that follow are of two kinds. Those that single steps keep go through
`Moves`; those that speak of the lines as well have inductions of their own.

Most proofs about a phase start from the lemmas here and do not unfold it. So a change to a phase is
a change to its lemma first, and to what is built on it only where the lemma says something else.
-/
set_option autoImplicit false

namespace Z80Asm.Assembly

open Success

variable {α : Type} {s s' : Session}

@[simp] theorem fail_eq_ok {cause : Cause} {a : α} :
    (fail cause : Assembly α) s = .ok a s' ↔ False := by
  simp [fail]

@[simp] theorem ofExcept_eq_ok {x : Except Cause α} {a : α} :
    ofExcept x s = .ok a s' ↔ x = .ok a ∧ s = s' := by
  cases x with
  | ok b => simp [ofExcept]
  | error cause => simp [ofExcept]

@[simp] theorem traced_eq_ok {position : Position} {x : Assembly α} {a : α} :
    traced position x s = .ok a s' ↔ x s = .ok a s' := by
  simp [traced]

@[simp] theorem scopes_eq_ok {scopes : Scopes} :
    Assembly.scopes s = .ok scopes s' ↔ s.scopes = scopes ∧ s = s' := by
  simp [Assembly.scopes]

@[simp] theorem setScopes_eq_ok {scopes : Scopes} {u : Unit} :
    setScopes scopes s = .ok u s' ↔ { s with scopes } = s' := by
  simp [setScopes]

theorem load_eq_ok {x : Library → Load α} {a : α} :
    load x s = .ok a s' ↔ ∃ st, x s.library { scopes := s.scopes, loaded := s.loaded } = .ok a st ∧
      { s with scopes := st.scopes, loaded := st.loaded } = s' := by
  unfold load
  split
  · next b st hx => simp [hx, and_assoc]
  · next hx => simp [hx]

@[simp] theorem emitting_eq_ok {x : Scopes → Emit α} {a : α} :
    emitting x s = .ok a s' ↔
      ∃ output, x s.scopes s.output = .ok a output ∧ { s with output } = s' := by
  unfold emitting
  cases x s.scopes s.output with
  | ok b output => simp [and_assoc]
  | error failure output => simp

end Z80Asm.Assembly

namespace Z80Asm

open Success

/-- Ways from a session to later ones that can be put together. -/
class Session.Way (R : Session → Session → Prop) : Prop where
  refl : ∀ s, R s s
  trans : ∀ {s t u}, R s t → R t u → R s u

/-! ## Lines of items -/

section

variable {Q : Line → Prop}

theorem forall_mem_linesOf {items : List Item} :
    (∀ line ∈ linesOf items, Q line) ↔ ∀ item ∈ items, ∀ line ∈ item.lines, Q line := by
  induction items with
  | nil => simp [linesOf]
  | cons item rest ih => rw [linesOf, List.forall_mem_append, List.forall_mem_cons, ih]

theorem Item.line_mem_lines (item : Item) : item.line ∈ item.lines := by
  cases item <;> exact List.mem_cons_self

theorem Item.forall_mem_body {line : Line} {kind : BlockKind} {body : List Item}
    (h : ∀ other ∈ (Item.block line kind body).lines, Q other) :
    ∀ item ∈ body, ∀ other ∈ item.lines, Q other :=
  forall_mem_linesOf.mp (List.forall_mem_cons.mp h).2

theorem Item.forall_mem_branches {line : Line} {onTrue onFalse : List Item}
    (h : ∀ other ∈ (Item.choice line onTrue onFalse).lines, Q other) :
    ∀ item ∈ onTrue ++ onFalse, ∀ other ∈ item.lines, Q other :=
  forall_mem_linesOf.mp (linesOf_append onTrue onFalse ▸ (List.forall_mem_cons.mp h).2)

/-- What does not depend on the operation is kept when the mnemonic is understood. -/
theorem Item.forall_mem_withOperation {item : Item} (h : ∀ line ∈ item.lines, Q line)
    (op : Operation) (hline : Q item.line → Q { item.line with operation := some op }) :
    ∀ line ∈ (item.withOperation op).lines, Q line := by
  have hfirst := hline (h _ item.line_mem_lines)
  cases item <;> exact List.forall_mem_cons.mpr ⟨hfirst, (List.forall_mem_cons.mp h).2⟩

end

/-! ## Work that goes on from session to session -/

namespace Assembly

variable {α β : Type} {R : Session → Session → Prop}

/-- Work that goes such a way. -/
def Moves (R : Session → Session → Prop) (x : Assembly α) : Prop :=
  ∀ ⦃s a s'⦄, x s = .ok a s' → R s s'

theorem newSpace_eq_ok {id : SpaceId} {s s' : Session} :
    newSpace s = .ok id s' ↔
      ⟨s.spaces.size⟩ = id ∧ { s with spaces := s.spaces.push [] } = s' := by
  simp only [newSpace, get_bind_apply, modify_bind_apply, pure_eq_ok]

theorem newTemplate_eq_ok {template : Template} {id : TemplateId} {s s' : Session} :
    newTemplate template s = .ok id s' ↔
      ⟨s.templates.size⟩ = id ∧ { s with templates := s.templates.push template } = s' := by
  simp only [newTemplate, get_bind_apply, modify_bind_apply, pure_eq_ok]

theorem createScope_eq_ok {parent id : ScopeId} {s s' : Session} :
    createScope parent s = .ok id s' ↔
      id = s.scopes.fresh ∧ s' = { s with scopes := (s.scopes.create (some parent)).2 } := by
  simp only [createScope, get_bind_apply, bind_eq_ok, setScopes_eq_ok, pure_eq_ok]
  constructor
  · rintro ⟨-, _, rfl, rfl, rfl⟩
    exact ⟨rfl, rfl⟩
  · rintro ⟨rfl, rfl⟩
    exact ⟨(), _, rfl, rfl, rfl⟩

/-- Work on the arena that fails without a change replaces the arena or nothing. -/
theorem onScopes_of_atomic {x : Scopes.Action Unit} (hx : x.Atomic) :
    onScopes x = (do setScopes (← ofExcept (x.result (← get).scopes))) := by
  funext s
  show onScopes x s = (ofExcept (x.result s.scopes) >>= setScopes) s
  unfold onScopes
  cases h : x s.scopes with
  | ok u scopes =>
    rw [Scopes.Action.result_eq_ok.mpr ⟨u, h⟩]
    rfl
  | error cause scopes =>
    obtain rfl := hx _ cause scopes h
    rw [hx.result_eq_error.mpr h]
    rfl

theorem onScopes_eq_ok {x : Scopes.Action Unit} (hx : x.Atomic) {u : Unit} {s s' : Session} :
    onScopes x s = .ok u s' ↔ ∃ scopes, x.result s.scopes = .ok scopes ∧ s' = { s with scopes } := by
  simp only [onScopes_of_atomic hx, get_bind_apply, bind_eq_ok, ofExcept_eq_ok, setScopes_eq_ok]
  constructor
  · rintro ⟨scopes, _, ⟨hresult, rfl⟩, rfl⟩
    exact ⟨scopes, hresult, rfl⟩
  · rintro ⟨scopes, hresult, rfl⟩
    exact ⟨scopes, s, ⟨hresult, rfl⟩, rfl⟩

theorem addSymbol_eq_ok {scope : ScopeId} {name : String} {value : Expr} {u : Unit}
    {s s' : Session} :
    addSymbol scope name value s = .ok u s' ↔
      ∃ scopes, s.scopes.add scope name value = .ok scopes ∧ s' = { s with scopes } :=
  onScopes_eq_ok (Scopes.atomic_addSymbol scope name value)

theorem bindAddress_eq_ok {scope : ScopeId} {address : UInt32} {u : Unit} {s s' : Session} :
    onScopes (Scopes.bindAddress scope address) s = .ok u s' ↔
      ∃ scopes, s.scopes.setAddress scope address = .ok scopes ∧ s' = { s with scopes } :=
  onScopes_eq_ok (Scopes.atomic_bindAddress scope address)
theorem moves_addSymbol {scope : ScopeId} {name : String} {value : Expr}
    (hadd : ∀ ⦃s : Session⦄ ⦃scopes⦄, s.scopes.add scope name value = .ok scopes →
      R s { s with scopes }) : Moves R (addSymbol scope name value) := by
  intro s u s' h
  obtain ⟨scopes, hscopes, rfl⟩ := addSymbol_eq_ok.mp h
  exact hadd hscopes

theorem moves_fail (cause : Cause) : Moves R (fail cause : Assembly α) :=
  fun _ _ _ h => (fail_eq_ok.mp h).elim

theorem Moves.traced {x : Assembly α} (hx : Moves R x) (position : Position) :
    Moves R (traced position x) :=
  fun _ _ _ h => hx (traced_eq_ok.mp h)

section

variable [hway : Session.Way R]

theorem Moves.bind {x : Assembly α} {f : α → Assembly β} (hx : Moves R x)
    (hf : ∀ a, Moves R (f a)) : Moves R (x >>= f) := by
  intro s b s' h
  obtain ⟨a, t, hxa, hfb⟩ := bind_eq_ok.mp h
  exact hway.trans (hx hxa) (hf a hfb)

theorem moves_of_same {x : Assembly α} (h : ∀ ⦃s a s'⦄, x s = .ok a s' → s = s') :
    Moves R x := by
  intro s a s' hx
  cases h hx
  exact hway.refl s

theorem moves_pure (a : α) : Moves R (pure a) :=
  moves_of_same fun _ _ _ h => (pure_eq_ok.mp h).2

theorem moves_get : Moves R (get : Assembly Session) :=
  moves_of_same fun _ _ _ h => (get_eq_ok.mp h).2

/-! ## Binding labels -/

theorem moves_labelValue {label : String} {item : Item}
    (hspace : ∀ s, R s { s with spaces := s.spaces.push [] })
    (htemplate : ∀ ⦃line body⦄, item = .block line .template body → ∀ ⦃parameters⦄,
      line.argumentList.mapM parameterOf = .ok parameters → ∀ s, R s { s with
        templates := s.templates.push { name := label, parameters, scope := line.scope, body } }) :
    Moves R (labelValue label item) := by
  unfold labelValue
  split
  · split
    · exact moves_pure _
    · exact moves_fail _
  · refine Moves.bind (fun s id s' h => ?_) fun _ => moves_pure _
    obtain ⟨-, rfl⟩ := newSpace_eq_ok.mp h
    exact hspace s
  · intro s value s' h
    simp only [bind_eq_ok, ofExcept_eq_ok, newTemplate_eq_ok, pure_eq_ok] at h
    obtain ⟨parameters, _, ⟨hparameters, rfl⟩, _, _, ⟨-, rfl⟩, -, rfl⟩ := h
    exact htemplate rfl hparameters s
  · exact moves_pure _

/-- The value of a label may be a new space or macro. It neither reads nor changes the arena. -/
theorem labelValue_scopes {label : String} {item : Item} {value : Expr} {s s' : Session}
    (h : labelValue label item s = .ok value s') :
    s'.scopes = s.scopes ∧
      ∀ scopes, labelValue label item { s with scopes } = .ok value { s' with scopes } := by
  cases item with
  | plain line role =>
    cases role with
    | equ =>
      cases harguments : line.arguments with
      | none => simp [labelValue, harguments] at h
      | some e =>
        simp only [labelValue, harguments, pure_eq_ok] at h ⊢
        obtain ⟨rfl, rfl⟩ := h
        exact ⟨rfl, fun _ => ⟨rfl, rfl⟩⟩
    | _ =>
      cases h
      exact ⟨rfl, fun _ => rfl⟩
  | block line kind body =>
    cases kind with
    | template =>
      simp only [labelValue, bind_eq_ok, ofExcept_eq_ok, newTemplate_eq_ok, pure_eq_ok] at h ⊢
      obtain ⟨parameters, _, ⟨hparameters, rfl⟩, _, _, ⟨rfl, rfl⟩, rfl, rfl⟩ := h
      exact ⟨rfl, fun _ => ⟨parameters, _, ⟨hparameters, rfl⟩, _, _, ⟨rfl, rfl⟩, rfl, rfl⟩⟩
    | _ =>
      cases h
      exact ⟨rfl, fun _ => rfl⟩
  | choice line onTrue onFalse =>
    cases h
    exact ⟨rfl, fun _ => rfl⟩

/-- A label is bound in the scope around its line, and the line is marked. -/
theorem bindLabel_eq_ok {item : Item} {u : Unit} {s s' : Session} : bindLabel item s = .ok u s' ↔
    item.line.label = none ∧ item.requiresLabel = false ∧
        s' = { s with scopes := s.scopes.markRegistered item.line.scope } ∨
      ∃ label value t parent scopes, item.line.label = some label ∧
        labelValue label item s = .ok value t ∧ s.scopes.parent? item.line.scope = some parent ∧
        s.scopes.add parent label value = .ok scopes ∧
        s' = { t with scopes := scopes.markRegistered item.line.scope } := by
  have hmark : ∀ {s : Session}, (do setScopes ((← scopes).markRegistered item.line.scope)) s =
      .ok u s' ↔ s' = { s with scopes := s.scopes.markRegistered item.line.scope } := by
    intro s
    simp only [bind_eq_ok, scopes_eq_ok, setScopes_eq_ok]
    constructor
    · rintro ⟨_, _, ⟨rfl, rfl⟩, rfl⟩
      rfl
    · rintro rfl
      exact ⟨_, _, ⟨rfl, rfl⟩, rfl⟩
  unfold bindLabel
  cases hlabel : item.line.label with
  | none =>
    cases hrequires : item.requiresLabel with
    | false => simpa using hmark
    | true => simp
  | some label =>
    constructor
    · intro h
      obtain ⟨value, t, hvalue, h⟩ := bind_eq_ok.mp h
      obtain ⟨_, _, hscopes, h⟩ := bind_eq_ok.mp h
      obtain ⟨rfl, rfl⟩ := scopes_eq_ok.mp hscopes
      obtain ⟨hsame, -⟩ := labelValue_scopes hvalue
      rw [hsame] at h
      cases hparent : s.scopes.parent? item.line.scope with
      | none => simp [hparent] at h
      | some parent =>
        rw [hparent] at h
        obtain ⟨_, _, hadd, h⟩ := bind_eq_ok.mp h
        obtain ⟨after, hafter, rfl⟩ := addSymbol_eq_ok.mp hadd
        exact .inr ⟨label, value, t, parent, after, rfl, hvalue, rfl, hsame ▸ hafter, hmark.mp h⟩
    · rintro (⟨hnone, -⟩ | ⟨_, value, t, parent, after, ⟨⟩, hvalue, hparent, hadd, rfl⟩)
      · cases hnone
      · obtain ⟨hsame, -⟩ := labelValue_scopes hvalue
        refine bind_eq_ok.mpr ⟨value, t, hvalue, bind_eq_ok.mpr ⟨_, t, scopes_eq_ok.mpr ⟨rfl, rfl⟩, ?_⟩⟩
        rw [hsame, hparent]
        refine bind_eq_ok.mpr ⟨(), _, addSymbol_eq_ok.mpr ⟨after, hsame ▸ hadd, rfl⟩, hmark.mpr rfl⟩

theorem moves_bindLabel {item : Item} (hvalue : ∀ label, Moves R (labelValue label item))
    (hadd : ∀ label ∈ item.line.label, ∀ ⦃s : Session⦄ ⦃parent value scopes⦄,
      s.scopes.add parent label value = .ok scopes → R s { s with scopes })
    (hmark : ∀ s : Session, R s { s with scopes := s.scopes.markRegistered item.line.scope }) :
    Moves R (bindLabel item) := by
  intro s u s' h
  rcases bindLabel_eq_ok.mp h with ⟨-, -, rfl⟩ |
      ⟨label, value, t, parent, scopes, hlabel, hlabelValue, -, hscopes, rfl⟩
  · exact hmark s
  · rw [← (labelValue_scopes hlabelValue).1] at hscopes
    exact hway.trans (hvalue label hlabelValue) (hway.trans (hadd label hlabel hscopes) (hmark _))

theorem registerItem_equ {line : Line} {u : Unit} {s s' : Session} :
    registerItem (.plain line .equ) s = .ok u s' ↔
      ∃ name value parent scopes, line.label = some name ∧ line.arguments = some value ∧
        s.scopes.parent? line.scope = some parent ∧ s.scopes.add parent name value = .ok scopes ∧
        s' = { s with scopes := scopes.markRegistered line.scope } := by
  rw [registerItem, traced_eq_ok, bindLabel_eq_ok]
  constructor
  · rintro (⟨-, hrequires, -⟩ | ⟨name, value, t, parent, scopes, hlabel, hvalue, hparent, hadd, rfl⟩)
    · cases hrequires
    · cases harguments : line.arguments with
      | none => simp [labelValue, harguments] at hvalue
      | some e =>
        simp only [labelValue, harguments, pure_eq_ok] at hvalue
        obtain ⟨rfl, rfl⟩ := hvalue
        exact ⟨name, e, parent, scopes, hlabel, rfl, hparent, hadd, rfl⟩
  · rintro ⟨name, value, parent, scopes, hlabel, harguments, hparent, hadd, rfl⟩
    refine .inr ⟨name, value, s, parent, scopes, hlabel, ?_, hparent, hadd, rfl⟩
    simp only [labelValue, harguments, pure_eq_ok, and_self]

theorem register_append (items others : List Item) :
    register (items ++ others) = register items >>= fun _ => register others := by
  induction items with
  | nil => rw [register]; rfl
  | cons item rest ih => rw [List.cons_append, register, ih, register, bind_assoc]

/-- Registering binds the labels of the items and of some inside them. -/
theorem moves_register {G : Item → Prop}
    (hinside : ∀ {line kind body}, G (.block line kind body) → ∀ item ∈ body, G item)
    (hbind : ∀ {item}, G item → Moves R (bindLabel item)) :
    ∀ items, (∀ item ∈ items, G item) → Moves R (register items)
  | [], _ => moves_pure _
  | item :: rest, h => by
    obtain ⟨hitem, hothers⟩ := List.forall_mem_cons.mp h
    have hrest := moves_register hinside hbind rest hothers
    cases item with
    | plain line role => exact ((hbind hitem).traced _).bind fun _ => hrest
    | choice line onTrue onFalse => exact ((hbind hitem).traced _).bind fun _ => hrest
    | block line kind body =>
      refine (Moves.traced ((hbind hitem).bind fun _ => ?_) line.position).bind fun _ => hrest
      split
      · exact moves_register hinside hbind body (hinside hitem)
      · exact moves_pure _

theorem moves_bindParameters {scope : ScopeId} {args : List Expr}
    {parameters : List (String × Option Expr)}
    (hadd : ∀ parameter ∈ parameters, ∀ value, value ∈ args ∨ value ∈ parameter.2 →
      ∀ ⦃s : Session⦄ ⦃scopes⦄, s.scopes.add scope parameter.1 value = .ok scopes →
        R s { s with scopes }) : Moves R (bindParameters scope args parameters) := by
  induction parameters generalizing args with
  | nil => exact moves_pure _
  | cons parameter rest ih =>
    obtain ⟨hfirst, hrest⟩ := List.forall_mem_cons.mp hadd
    obtain ⟨name, fallback⟩ := parameter
    have hothers : Moves R (bindParameters scope args.tail rest) := by
      refine ih fun parameter hparameter value hvalue => hrest parameter hparameter value ?_
      exact hvalue.imp_left List.mem_of_mem_tail
    rw [bindParameters]
    split
    · next value hvalue =>
      refine (moves_addSymbol (hfirst value ?_)).bind fun _ => hothers
      rcases Option.or_eq_some_iff.mp hvalue with hvalue | ⟨-, hvalue⟩
      · exact .inl (List.mem_of_mem_head? hvalue)
      · exact .inr hvalue
    · exact (moves_fail _).bind fun _ => hothers

/-! ## Placing -/

theorem moves_placeAll {placeItem : Item → UInt32 → Assembly Entry}
    (hitem : ∀ item address, Moves R (placeItem item address)) (items : List Item)
    (address : UInt32) : Moves R (placeAll placeItem items address) := by
  induction items generalizing address with
  | nil => exact moves_pure _
  | cons item rest ih => exact (hitem _ _).bind fun _ => (ih _).bind fun _ => moves_pure _

variable (haddress : ∀ ⦃s : Session⦄ ⦃id address scopes⦄,
    s.scopes.setAddress id address = .ok scopes → R s { s with scopes })
  (hspaces : ∀ (s : Session) spaces, R s { s with spaces })

include haddress hspaces

theorem moves_placeWith {placeParts : Placer}
    (hparts : ∀ items address, Moves R (placeParts items address)) (item : Item)
    (address : UInt32) : Moves R (placeWith placeParts item address) := by
  have hsections : ∀ id, Moves R (takeSections id) := by
    intro id s lines s' h
    simp only [takeSections, get_bind_apply, modify_bind_apply, pure_eq_ok] at h
    obtain ⟨-, rfl⟩ := h
    exact hspaces s _
  refine Moves.traced ?_ _
  intro s entry s' h
  simp only [bind_eq_ok, bindAddress_eq_ok, scopes_eq_ok, ofExcept_eq_ok] at h
  obtain ⟨_, _, ⟨scopes, hset, rfl⟩, _, _, hget, _, _, ⟨rfl, rfl⟩, plan, _, ⟨-, rfl⟩, h⟩ := h
  obtain ⟨rfl, rfl⟩ := get_eq_ok.mp hget
  refine hway.trans (haddress hset) ((?_ : Moves R _) h)
  split
  · exact moves_pure _
  · exact moves_pure _
  · refine (hsections _).bind fun _ => (hparts _ _).bind fun _ => ?_
    split
    · exact (moves_fail _).bind fun _ => moves_pure _
    · exact moves_pure _

theorem moves_placeLevels (levels : Nat) (item : Item) (address : UInt32) :
    Moves R (placeLevels levels item address) := by
  induction levels generalizing item address with
  | zero =>
    refine moves_placeWith haddress hspaces (fun lines address => ?_) item address
    split
    · exact moves_pure _
    · exact moves_fail _
  | succ levels ih => exact moves_placeWith haddress hspaces (moves_placeAll ih) item address

/-- Placing binds addresses and takes waiting lines. -/
theorem moves_placeLines (items : List Item) (address : UInt32) :
    Moves R (placeLines items address) := by
  induction items generalizing address with
  | nil => exact moves_pure _
  | cons item rest ih =>
    refine Moves.bind (moves_get.bind fun _ => moves_placeLevels haddress hspaces _ _ _)
      fun entry => ?_
    dsimp only
    split
    · intro s a s' h
      simp at h
    · exact (ih _).bind fun _ => moves_pure _

end

/-! ## What phases keep -/

/-- Work after which `P` holds if it held before. -/
def Guards (P : Session → Prop) (x : Assembly α) : Prop :=
  Moves (fun s t => P s → P t) x

instance (P : Session → Prop) : Session.Way fun s t => P s → P t where
  refl _ h := h
  trans h h' hs := h' (h hs)

end Assembly

/-! ## What phases have in common -/

/-- A session and a later one between which no code was generated. -/
structure Session.Advances (s t : Session) : Prop where
  scopes : s.scopes.Extends t.scopes
  output : t.output = s.output

theorem Session.Advances.refl (s : Session) : s.Advances s :=
  ⟨.refl _, rfl⟩

theorem Session.Advances.trans {s t u : Session} (hst : s.Advances t) (htu : t.Advances u) :
    s.Advances u :=
  ⟨hst.scopes.trans htu.scopes, htu.output.trans hst.output⟩

instance : Session.Way Session.Advances :=
  ⟨.refl, .trans⟩

namespace Assembly

/-- Work that leads from a session to a later one. -/
def Advances {α : Type} (x : Assembly α) : Prop :=
  Moves Session.Advances x

theorem advances_createScope (parent : ScopeId) : (createScope parent).Advances := by
  intro s id s' h
  obtain ⟨-, rfl⟩ := createScope_eq_ok.mp h
  exact ⟨Scopes.extends_create _ _, rfl⟩

theorem advances_addSymbol (scope : ScopeId) (name : String) (value : Expr) :
    (addSymbol scope name value).Advances :=
  moves_addSymbol fun _ _ h => ⟨Scopes.extends_add h, rfl⟩

end Assembly

/-! ## Instances of a body -/

/-- What is true of a line and its copy, and adds up, is true of the lines of an instance. -/
theorem copyItems_lines {site : Position} {G : Copying → List Line → Copying → List Line → Prop}
    (hnil : ∀ c, G c [] c [])
    (happend : ∀ {c c' c'' lines copies lines' copies'}, G c lines c' copies →
      G c' lines' c'' copies' → G c (lines ++ lines') c'' (copies ++ copies'))
    (hline : ∀ c line, G c [line] ((line.copy site).run c).2 [((line.copy site).run c).1]) :
    ∀ (items : List Item) (c : Copying), G c (linesOf items) ((copyItems site items).run c).2
      (linesOf ((copyItems site items).run c).1)
  | [], c => hnil c
  | item :: rest, c => by
    refine happend ?_ (copyItems_lines hnil happend hline rest ((item.copy site).run c).2)
    cases item with
    | plain line role => exact hline c line
    | block line kind body =>
      exact happend (hline c line) (copyItems_lines hnil happend hline body _)
    | choice line onTrue onFalse =>
      exact happend (hline c line) (happend (copyItems_lines hnil happend hline onTrue _)
        (copyItems_lines hnil happend hline onFalse _))

theorem instantiate_extends (scopes : Scopes) (template target : ScopeId) (site : Position)
    (body : List Item) : scopes.Extends (instantiate scopes template target site body).2 :=
  copyItems_lines (G := fun c _ c' _ => c.scopes.Extends c'.scopes) (fun _ => .refl _) .trans
    (fun _ _ => Scopes.extends_create _ _) body { images := [(template, target)], scopes }

namespace Assembly

theorem advances_instanceOf (line : Line) (template target : ScopeId) (body : List Item) :
    (instanceOf line template target body).Advances := by
  intro s items s' h
  simp only [instanceOf, bind_eq_ok, scopes_eq_ok, setScopes_eq_ok, pure_eq_ok] at h
  obtain ⟨_, _, ⟨rfl, rfl⟩, _, _, rfl, -, rfl⟩ := h
  exact ⟨instantiate_extends _ _ _ _ _, rfl⟩

/-! ## Reading -/

theorem load_output {α : Type} {x : Library → Load α} {a : α} {s s' : Session}
    (h : load x s = .ok a s') : s'.output = s.output := by
  obtain ⟨st, -, rfl⟩ := load_eq_ok.mp h
  rfl

theorem loadText_output {text : String} {source : Source} {s s' : Session}
    (h : loadText text s = .ok source s') : s'.output = s.output := by
  simp only [loadText, bind_eq_ok, get_eq_ok, pure_eq_ok] at h
  obtain ⟨_, _, ⟨-, rfl⟩, scope, _, hscope, items, _, hload, -, rfl⟩ := h
  rw [load_output hload, (advances_createScope _ hscope).output]

/-! ## Binding labels -/

theorem advances_labelValue (label : String) (item : Item) : (labelValue label item).Advances :=
  moves_labelValue (fun _ => ⟨.refl _, rfl⟩) fun _ _ _ _ _ _ => ⟨.refl _, rfl⟩

theorem advances_bindLabel (item : Item) : (bindLabel item).Advances :=
  moves_bindLabel (advances_labelValue · item) (fun _ _ _ _ _ _ h => ⟨Scopes.extends_add h, rfl⟩)
    fun s => ⟨s.scopes.extends_markRegistered _, rfl⟩

theorem advances_register (items : List Item) : (register items).Advances :=
  moves_register (fun _ _ _ => trivial) (fun _ => advances_bindLabel _) items fun _ _ => trivial

/-! ## Expanding -/

theorem advances_bindParameters (scope : ScopeId) (args : List Expr)
    (parameters : List (String × Option Expr)) :
    (bindParameters scope args parameters).Advances :=
  moves_bindParameters fun _ _ _ _ _ _ h => ⟨Scopes.extends_add h, rfl⟩

instance : Session.Way fun s s' => s' = { s with scopes := s'.scopes } where
  refl _ := rfl
  trans hst htu := by rw [htu, hst]

theorem bindParameters_session {scope : ScopeId} {args : List Expr}
    {parameters : List (String × Option Expr)} {u : Unit} {s s' : Session}
    (h : bindParameters scope args parameters s = .ok u s') : s' = { s with scopes := s'.scopes } :=
  (moves_bindParameters fun _ _ _ _ _ _ _ => rfl :
    Moves (fun s s' => s' = { s with scopes := s'.scopes }) _) h

/-- The instance of a macro that a line invokes, with its parameters bound. -/
def openInvocation (line : Line) (template : Template) : Assembly (List Item) := do
  let args := line.argumentList
  if template.parameters.length < args.length then fail (.tooManyArguments template.name)
  let params ← createScope template.scope
  bindParameters params args template.parameters
  if let some mark := (← scopes).registeredAt? line.scope then
    setScopes ((← scopes).setHorizon params mark)
  let invocation ← createScope params
  setScopes ((← scopes).setBody line.scope invocation)
  instanceOf line template.scope invocation template.body

theorem expandInvocation_eq (expand : Expander) (line : Line) (template : Template) :
    expandInvocation expand line template = openInvocation line template >>= expandBody expand := by
  unfold expandInvocation openInvocation
  dsimp only
  split
  · simp only [bind_assoc]
    refine bind_congr fun _ => bind_congr fun params => bind_congr fun _ => bind_congr fun s => ?_
    cases s.registeredAt? line.scope with
    | none => simp only [bind_assoc]
    | some mark => simp only [bind_assoc]
  · simp only [bind_assoc]
    refine bind_congr fun params => bind_congr fun _ => bind_congr fun s => ?_
    cases s.registeredAt? line.scope with
    | none => simp only [bind_assoc]
    | some mark => simp only [bind_assoc]

/-- What opening an invocation does. The scope of the parameters is made and they are bound in it;
    it gets a horizon if the invoking line was registered; the scope of the invocation is made below
    it and becomes the body of the invoking line's scope; and there the body of the macro is
    instantiated. -/
theorem openInvocation_eq_ok {line : Line} {template : Template} {items : List Item} {s s' : Session}
    (h : openInvocation line template s = .ok items s') :
    ∃ s₁ scopes,
      bindParameters s.scopes.fresh line.argumentList template.parameters
        { s with scopes := (s.scopes.create (some template.scope)).2 } = .ok () s₁ ∧
      (s₁.scopes.registeredAt? line.scope = none ∧ scopes = s₁.scopes ∨
        ∃ mark, s₁.scopes.registeredAt? line.scope = some mark ∧
          scopes = s₁.scopes.setHorizon s.scopes.fresh mark) ∧
      instanceOf line template.scope scopes.fresh template.body
        { s₁ with
          scopes := (scopes.create (some s.scopes.fresh)).2.setBody line.scope scopes.fresh } =
        .ok items s' := by
  unfold openInvocation at h
  dsimp only at h
  split at h
  · simp at h
  · simp only [bind_eq_ok, createScope_eq_ok, scopes_eq_ok] at h
    obtain ⟨_, _, ⟨rfl, rfl⟩, _, s₁, hbind, _, _, ⟨rfl, rfl⟩, h⟩ := h
    -- A line that was never registered leaves the parameters without a horizon.
    cases hmark : s₁.scopes.registeredAt? line.scope with
    | none =>
      simp only [hmark, bind_eq_ok, createScope_eq_ok, scopes_eq_ok, setScopes_eq_ok] at h
      obtain ⟨_, _, ⟨rfl, rfl⟩, _, _, ⟨rfl, rfl⟩, _, _, rfl, hinstance⟩ := h
      exact ⟨s₁, _, hbind, .inl ⟨hmark, rfl⟩, hinstance⟩
    | some mark =>
      simp only [hmark, bind_eq_ok, createScope_eq_ok, scopes_eq_ok, setScopes_eq_ok] at h
      obtain ⟨_, _, ⟨rfl, rfl⟩, _, _, rfl, _, _, ⟨rfl, rfl⟩, _, _, ⟨rfl, rfl⟩, _, _, rfl, hinstance⟩ := h
      exact ⟨s₁, _, hbind, .inr ⟨mark, hmark, rfl⟩, hinstance⟩

theorem expandInvocation_eq_ok {expand : Expander} {line : Line} {template : Template}
    {lines : List Item} {s s' : Session}
    (h : expandInvocation expand line template s = .ok lines s') :
    ∃ s₁ scopes items s₂,
      bindParameters s.scopes.fresh line.argumentList template.parameters
        { s with scopes := (s.scopes.create (some template.scope)).2 } = .ok () s₁ ∧
      (scopes = s₁.scopes ∨ ∃ mark, scopes = s₁.scopes.setHorizon s.scopes.fresh mark) ∧
      instanceOf line template.scope scopes.fresh template.body
        { s₁ with
          scopes := (scopes.create (some s.scopes.fresh)).2.setBody line.scope scopes.fresh } =
        .ok items s₂ ∧
      expandBody expand items s₂ = .ok lines s' := by
  rw [expandInvocation_eq] at h
  obtain ⟨items, s₂, hopen, hbody⟩ := bind_eq_ok.mp h
  obtain ⟨s₁, scopes, hbind, hhorizon, hinstance⟩ := openInvocation_eq_ok hopen
  refine ⟨s₁, scopes, items, s₂, hbind, ?_, hinstance, hbody⟩
  rcases hhorizon with ⟨-, hscopes⟩ | ⟨mark, -, hscopes⟩
  · exact .inl hscopes
  · exact .inr ⟨mark, hscopes⟩

/-- The instance of its body for one iteration of a repetition. -/
def openIteration (line : Line) (var : Option String) (body : List Item) (i : Nat) (value : Expr) :
    Assembly (List Item) := do
  let iteration ← createScope line.scope
  addSymbol line.scope (toString i) (.context iteration)
  if let some name := var then addSymbol iteration name value
  instanceOf line line.scope iteration body

theorem expandIterations_cons (expand : Expander) (line : Line) (var : Option String)
    (body : List Item) (i : Nat) (value : Expr) (rest : List Expr) :
    expandIterations expand line var body i (value :: rest) = (do
      let lines ← openIteration line var body i value >>= expandBody expand
      return lines :: (← expandIterations expand line var body (i + 1) rest)) := by
  rw [expandIterations, openIteration]
  simp only [bind_assoc]
  refine bind_congr fun iteration => bind_congr fun _ => ?_
  cases var with
  | none => rfl
  | some name => simp only [bind_assoc]

/-- These lines are an instance of the body, and only the arena is another. -/
structure Instantiates (site : Position) (body : List Item) (s : Session) (items : List Item)
    (s' : Session) : Prop where
  session : s' = { s with scopes := s'.scopes }
  lines : ∃ scopes template target, items = (instantiate scopes template target site body).1

theorem instanceOf_instantiates {line : Line} {template target : ScopeId} {body items : List Item}
    {s s' : Session} (h : instanceOf line template target body s = .ok items s') :
    Instantiates line.position body s items s' := by
  simp only [instanceOf, bind_eq_ok, scopes_eq_ok, setScopes_eq_ok, pure_eq_ok] at h
  obtain ⟨_, _, ⟨rfl, rfl⟩, _, _, rfl, rfl, rfl⟩ := h
  exact ⟨rfl, _, _, _, rfl⟩

theorem openInvocation_instantiates {line : Line} {template : Template} {items : List Item}
    {s s' : Session} (h : openInvocation line template s = .ok items s') :
    Instantiates line.position template.body s items s' := by
  obtain ⟨s₁, scopes, hbind, -, hinstance⟩ := openInvocation_eq_ok h
  obtain ⟨hsession, hlines⟩ := instanceOf_instantiates hinstance
  refine ⟨?_, hlines⟩
  rw [hsession, bindParameters_session hbind]

theorem openIteration_instantiates {line : Line} {var : Option String} {body items : List Item}
    {i : Nat} {value : Expr} {s s' : Session}
    (h : openIteration line var body i value s = .ok items s') :
    Instantiates line.position body s items s' := by
  obtain ⟨iteration, s₁, hcreate, hrest⟩ := bind_eq_ok.mp h
  obtain ⟨-, rfl⟩ := createScope_eq_ok.mp hcreate
  obtain ⟨_, s₂, hnumber, hlast⟩ := bind_eq_ok.mp hrest
  obtain ⟨_, -, rfl⟩ := addSymbol_eq_ok.mp hnumber
  cases var with
  | none =>
    obtain ⟨hsession, hlines⟩ := instanceOf_instantiates hlast
    exact ⟨hsession, hlines⟩
  | some name =>
    obtain ⟨_, s₃, hbind, hinstance⟩ := bind_eq_ok.mp hlast
    obtain ⟨_, -, rfl⟩ := addSymbol_eq_ok.mp hbind
    obtain ⟨hsession, hlines⟩ := instanceOf_instantiates hinstance
    exact ⟨hsession, hlines⟩

theorem advances_openInvocation (line : Line) (template : Template) :
    (openInvocation line template).Advances := by
  intro s items s' h
  obtain ⟨s₁, scopes, hbind, hhorizon, hinstance⟩ := openInvocation_eq_ok h
  have hcreated : s.Advances { s with scopes := _ } :=
    ⟨Scopes.extends_create _ (some template.scope), rfl⟩
  have hbound : s.Advances s₁ := hcreated.trans (advances_bindParameters _ _ _ hbind)
  have hmarked : s.scopes.Extends scopes := by
    rcases hhorizon with ⟨-, rfl⟩ | ⟨mark, -, rfl⟩
    · exact hbound.scopes
    · exact hbound.scopes.modify_new s.scopes.get?_fresh
  have hlinked := hmarked.trans ((scopes.extends_create (some s.scopes.fresh)).trans
    (Scopes.extends_setBody _ line.scope scopes.fresh))
  have hopened : s.Advances { s₁ with scopes := _ } := ⟨hlinked, hbound.output⟩
  exact hopened.trans (advances_instanceOf _ _ _ _ hinstance)

theorem advances_openIteration (line : Line) (var : Option String) (body : List Item) (i : Nat)
    (value : Expr) : (openIteration line var body i value).Advances := by
  refine (advances_createScope _).bind fun _ => (advances_addSymbol _ _ _).bind fun _ => ?_
  split
  · exact (advances_addSymbol _ _ _).bind fun _ => advances_instanceOf _ _ _ _
  · exact advances_instanceOf _ _ _ _

theorem advances_expandInvocation {expand : Expander} (hexpand : ∀ items, (expand items).Advances)
    (line : Line) (template : Template) : (expandInvocation expand line template).Advances := by
  rw [expandInvocation_eq]
  exact (advances_openInvocation line template).bind fun items =>
    (advances_register items).bind fun _ => hexpand items

/-- **Placing lets the arena grow and writes nothing.** -/
theorem advances_placeLines (items : List Item) (address : UInt32) :
    (placeLines items address).Advances :=
  moves_placeLines (fun _ _ _ _ h => ⟨Scopes.extends_setAddress h, rfl⟩)
    (fun _ _ => ⟨.refl _, rfl⟩) items address

end Assembly

end Z80Asm
