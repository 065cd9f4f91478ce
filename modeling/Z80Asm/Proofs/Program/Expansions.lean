import Z80Asm.Proofs.Program.Phases

/-!
# Expansion as a relation

`Unfolds` says what becomes of items when they are expanded: which lines take their place, which
lines are sent to spaces on the way, and by which `SECTION` blocks. With every line it keeps the
invocations and repetitions inside which the line is made. There is one rule for each kind of
statement, and this is the only relation that has these rules. Who needs less of it takes a
projection: `Expands` forgets where lines come from and which block sent them, `Traces` (in
`Program/Lineage`) forgets the blocks, and `Sends` (in `Program/Sections`) keeps nothing but the
blocks.

What all rules keep is shown by one induction (`Expanding.keeps`). The modules that have an
invariant of their own fill in a record with what has to be shown of single steps, and do not go
through the rules again. Those that do go through them relate the session to the lines that come
out, which no invariant of sessions can say.

Expanding follows the rules (`expandLevels_unfolds`). The bound on how deep expansions nest only
decides whether there is a result, so the relation has no bound. It has no failures either: what it
says of a program that cannot be expanded is nothing.
-/
set_option autoImplicit false

namespace Z80Asm

open Success

/-- Whether a line with this operation stands for itself only. -/
def Operation.isSingle : Operation → Bool
  | .invoke _ | .rept | .irp | .choice | .proc | .segment => false
  | _ => true

namespace Assembly

/-- What can be expanded. -/
inductive Work where
  | items (items : List Item)
  | item (item : Item)
  /-- An item whose mnemonic is understood. -/
  | operation (op : Operation) (item : Item)
  /-- The iterations of a repetition that are left, of which the first has the number `i`. -/
  | iterations (line : Line) (var : Option String) (body : List Item) (i : Nat) (values : List Expr)

/-- A line that expanding gives, and the lines whose expansion it comes from, innermost first. -/
structure Product where
  item : Item
  within : List Line

/-- A `SECTION` block that was expanded: its line, the space that the line names, and the lines that
    it sends there. -/
structure Sending where
  line : Line
  space : SpaceId
  lines : List Item

/-- Expanding leads from one session to another. It gives the lines that stand in place of the work
    and those that are sent to spaces, and it logs the blocks that send them, in the order in which
    it is done with them.

    The first index is what is being expanded around the work. Macro invocations, `REPT` and `IRP`
    are expanded inside their line, so it grows there; `IF`, `PROC` and `SECTION` are not. Nothing
    depends on it but what is kept with the lines. -/
inductive Unfolds : List Line → Work → Session → List Product → List Product → List Sending →
    Session → Prop
  | nil {within : List Line} {s : Session} : Unfolds within (.items []) s [] [] [] s
  | cons {within : List Line} {item : Item} {rest : List Item} {s s₁ s₂ : Session}
      {lines sent lines' sent' : List Product} {log log' : List Sending}
      (h : Unfolds within (.item item) s lines sent log s₁)
      (h' : Unfolds within (.items rest) s₁ lines' sent' log' s₂) :
      Unfolds within (.items (item :: rest)) s (lines ++ lines') (sent ++ sent') (log ++ log') s₂
  | bare {within : List Line} {item : Item} {s : Session} (hbare : item.line.mnemonic = none) :
      Unfolds within (.item item) s [⟨item, within⟩] [] [] s
  | named {within : List Line} {item : Item} {mnemonic : String} {op : Operation} {s s' : Session}
      {lines sent : List Product} {log : List Sending} (hmnemonic : item.line.mnemonic = some mnemonic)
      (hop : s.scopes.operation item.line.scope mnemonic = .ok op)
      (h : Unfolds within (.operation op (item.withOperation op)) s lines sent log s') :
      Unfolds within (.item item) s lines sent log s'
  | single {within : List Line} {op : Operation} {item : Item} {s : Session}
      (hop : op.isSingle = true) : Unfolds within (.operation op item) s [⟨item, within⟩] [] [] s
  | unknown {within : List Line} {id : TemplateId} {item : Item} {s : Session}
      (htemplate : s.templates[id.index]? = none) :
      Unfolds within (.operation (.invoke id) item) s [⟨item, within⟩] [] [] s
  | invoke {within : List Line} {id : TemplateId} {item : Item} {template : Template}
      {items : List Item} {lines sent : List Product} {log : List Sending} {s s₁ s₂ s₃ : Session}
      (htemplate : s.templates[id.index]? = some template)
      (hopen : openInvocation item.line template s = .ok items s₁)
      (hregister : register items s₁ = .ok () s₂)
      (h : Unfolds (item.line :: within) (.items items) s₂ lines sent log s₃) :
      Unfolds within (.operation (.invoke id) item) s (⟨item, within⟩ :: lines) sent log s₃
  | rept {within : List Line} {line : Line} {body : List Item} {var : Option String}
      {values : List Expr} {lines sent : List Product} {log : List Sending} {s s' : Session}
      (hvalues : reptValues s.scopes line = .ok (var, values))
      (h : Unfolds (line :: within) (.iterations line var body 0 values) s lines sent log s') :
      Unfolds within (.operation .rept (.block line .rept body)) s
        (⟨.block line .rept body, within⟩ :: lines) sent log s'
  | irp {within : List Line} {line : Line} {body : List Item} {var : Option String}
      {values : List Expr} {lines sent : List Product} {log : List Sending} {s s' : Session}
      (hvalues : irpValues line = .ok (var, values))
      (h : Unfolds (line :: within) (.iterations line var body 0 values) s lines sent log s') :
      Unfolds within (.operation .irp (.block line .irp body)) s
        (⟨.block line .irp body, within⟩ :: lines) sent log s'
  | choice {within : List Line} {line : Line} {onTrue onFalse branch : List Item} {cond : Expr}
      {value : Int64} {lines sent : List Product} {log : List Sending} {s s₁ s₂ : Session}
      (hcond : line.arguments = some cond) (hvalue : cond.integer s.scopes = .ok value)
      (hbranch : branch = if value != 0 then onTrue else onFalse)
      (hregister : register branch s = .ok () s₁)
      (h : Unfolds within (.items branch) s₁ lines sent log s₂) :
      Unfolds within (.operation .choice (.choice line onTrue onFalse)) s
        (⟨.plain line .instruction, within⟩ :: lines) sent log s₂
  | proc {within : List Line} {line : Line} {body : List Item} {lines sent : List Product}
      {log : List Sending} {s s' : Session} (h : Unfolds within (.items body) s lines sent log s') :
      Unfolds within (.operation .proc (.block line .proc body)) s
        (⟨.plain line .instruction, within⟩ :: lines) sent log s'
  | segment {within : List Line} {line : Line} {body : List Item} {lines sent : List Product}
      {log : List Sending} {space : SpaceId} {s s' : Session}
      (hspace : segmentSpace s.scopes line = .ok space)
      (h : Unfolds within (.items body) s lines sent log s') :
      Unfolds within (.operation .segment (.block line .segment body)) s []
        (⟨.plain line .instruction, within⟩ :: lines ++ sent)
        (log ++ [⟨line, space, .plain line .instruction :: lines.map Product.item⟩])
        { s' with
          spaces := s'.spaces.modify space.index
            (· ++ .plain line .instruction :: lines.map Product.item) }
  | done {within : List Line} {line : Line} {var : Option String} {body : List Item} {i : Nat}
      {s : Session} : Unfolds within (.iterations line var body i []) s [] [] [] s
  | iteration {within : List Line} {line : Line} {var : Option String} {body items : List Item}
      {i : Nat} {value : Expr} {rest : List Expr} {lines sent lines' sent' : List Product}
      {log log' : List Sending} {s s₁ s₂ s₃ s₄ : Session}
      (hopen : openIteration line var body i value s = .ok items s₁)
      (hregister : register items s₁ = .ok () s₂)
      (h : Unfolds within (.items items) s₂ lines sent log s₃)
      (h' : Unfolds within (.iterations line var body (i + 1) rest) s₃ lines' sent' log' s₄) :
      Unfolds within (.iterations line var body i (value :: rest)) s (lines ++ lines') (sent ++ sent')
        (log ++ log') s₄

/-- Expanding leads from one session to another. It gives the lines that stand in place of the work,
    and those that are sent to spaces. -/
def Expands (work : Work) (s : Session) (lines sent : List Item) (t : Session) : Prop :=
  ∃ within products others log, Unfolds within work s products others log t ∧
    products.map Product.item = lines ∧ others.map Product.item = sent

/-- Work that gives these lines. -/
def Unfolding (within : List Line) (work : Work) (s : Session) (lines : List Item) (t : Session) :
    Prop :=
  ∃ products sent log, Unfolds within work s products sent log t ∧ products.map Product.item = lines

section

variable {expand : Expander} {s s' : Session}
  (hexpand : ∀ ⦃within items s lines s'⦄, expand items s = .ok lines s' →
    Unfolding within (.items items) s lines s')

include hexpand

/-- A body that is opened is registered and expanded. -/
theorem expandBody_unfolds (within : List Line) {x : Assembly (List Item)} {lines : List Item}
    (h : (x >>= expandBody expand) s = .ok lines s') :
    ∃ items s₁ s₂, x s = .ok items s₁ ∧ register items s₁ = .ok () s₂ ∧
      Unfolding within (.items items) s₂ lines s' := by
  obtain ⟨items, s₁, hopen, hbody⟩ := bind_eq_ok.mp h
  obtain ⟨_, s₂, hregister, hrest⟩ := bind_eq_ok.mp hbody
  exact ⟨items, s₁, s₂, hopen, hregister, hexpand hrest⟩

theorem expandIterations_unfolds (within : List Line) {line : Line} {var : Option String}
    {body : List Item} {i : Nat}
    {values : List Expr} {parts : List (List Item)}
    (h : expandIterations expand line var body i values s = .ok parts s') :
    Unfolding within (.iterations line var body i values) s parts.flatten s' := by
  induction values generalizing i s parts with
  | nil =>
    obtain ⟨rfl, rfl⟩ := pure_eq_ok.mp h
    exact ⟨_, _, _, .done, rfl⟩
  | cons value rest ih =>
    rw [expandIterations_cons] at h
    obtain ⟨lines, s₁, hfirst, h⟩ := bind_eq_ok.mp h
    obtain ⟨others, s₂, hrest, hlast⟩ := bind_eq_ok.mp h
    obtain ⟨rfl, rfl⟩ := pure_eq_ok.mp hlast
    obtain ⟨items, t, u, hopen, hregister, _, _, _, hitems, rfl⟩ :=
      expandBody_unfolds hexpand within hfirst
    obtain ⟨_, _, _, hothers, hlines⟩ := ih hrest
    refine ⟨_, _, _, .iteration hopen hregister hitems hothers, ?_⟩
    rw [List.map_append, hlines, List.flatten_cons]

theorem expandOperation_unfolds (within : List Line) {item : Item} {op : Operation}
    {lines : List Item} (h : expandOperation expand item op s = .ok lines s') :
    Unfolding within (.operation op item) s lines s' := by
  unfold expandOperation at h
  split at h
  · next id =>
    rw [get_bind_apply] at h
    cases htemplate : s.templates[id.index]? with
    | none =>
      rw [htemplate] at h
      obtain ⟨rfl, rfl⟩ := pure_eq_ok.mp h
      exact ⟨_, _, _, .unknown htemplate, rfl⟩
    | some template =>
      rw [htemplate] at h
      obtain ⟨lines, s₁, hinvocation, hlast⟩ := bind_eq_ok.mp h
      obtain ⟨rfl, rfl⟩ := pure_eq_ok.mp hlast
      rw [expandInvocation_eq] at hinvocation
      obtain ⟨items, t, u, hopen, hregister, _, _, _, hitems, rfl⟩ :=
        expandBody_unfolds hexpand (item.line :: within) hinvocation
      exact ⟨_, _, _, .invoke htemplate hopen hregister hitems, rfl⟩
  · split at h
    · next line body =>
      simp only [bind_eq_ok, scopes_eq_ok, ofExcept_eq_ok, pure_eq_ok] at h
      obtain ⟨_, _, ⟨rfl, rfl⟩, ⟨var, values⟩, _, ⟨hvalues, rfl⟩, parts, _, hparts, rfl, rfl⟩ := h
      obtain ⟨_, _, _, hiterations, hlines⟩ := expandIterations_unfolds hexpand (line :: within) hparts
      exact ⟨_, _, _, .rept hvalues hiterations, congrArg _ hlines⟩
    · simp at h
  · split at h
    · next line body =>
      simp only [bind_eq_ok, ofExcept_eq_ok, pure_eq_ok] at h
      obtain ⟨⟨var, values⟩, _, ⟨hvalues, rfl⟩, parts, _, hparts, rfl, rfl⟩ := h
      obtain ⟨_, _, _, hiterations, hlines⟩ := expandIterations_unfolds hexpand (line :: within) hparts
      exact ⟨_, _, _, .irp hvalues hiterations, congrArg _ hlines⟩
    · simp at h
  · split at h
    · next line onTrue onFalse =>
      cases hcond : line.arguments with
      | none => simp [hcond] at h
      | some cond =>
        simp only [hcond, bind_eq_ok, scopes_eq_ok, ofExcept_eq_ok, pure_eq_ok] at h
        obtain ⟨_, _, ⟨rfl, rfl⟩, value, _, ⟨hvalue, rfl⟩, lines, _, hbody, rfl, rfl⟩ := h
        obtain ⟨_, s₁, hregister, hrest⟩ := bind_eq_ok.mp hbody
        obtain ⟨_, _, _, hitems, rfl⟩ := @hexpand within _ _ _ _ hrest
        exact ⟨_, _, _, .choice hcond hvalue rfl hregister hitems, rfl⟩
    · simp at h
  · split at h
    · obtain ⟨lines, s₁, hbody, hlast⟩ := bind_eq_ok.mp h
      obtain ⟨rfl, rfl⟩ := pure_eq_ok.mp hlast
      obtain ⟨_, _, _, hitems, rfl⟩ := @hexpand within _ _ _ _ hbody
      exact ⟨_, _, _, .proc hitems, rfl⟩
    · simp at h
  · split at h
    · simp only [bind_eq_ok, scopes_eq_ok, ofExcept_eq_ok, pure_eq_ok, park, modify_eq_ok] at h
      obtain ⟨_, _, ⟨rfl, rfl⟩, space, _, ⟨hspace, rfl⟩, lines, s₁, hbody, _, _, rfl, rfl, rfl⟩ := h
      obtain ⟨_, _, _, hitems, rfl⟩ := @hexpand within _ _ _ _ hbody
      exact ⟨_, _, _, .segment hspace hitems, rfl⟩
    · simp at h
  · next hother =>
    obtain ⟨rfl, rfl⟩ := pure_eq_ok.mp h
    refine ⟨_, _, _, .single ?_, rfl⟩
    cases op <;> simp_all [Operation.isSingle]

end

theorem expandWith_unfolds {expand? : Option Expander} (within : List Line) {item : Item}
    {lines : List Item} {s s' : Session} (hexpand : ∀ expand ∈ expand?, ∀ ⦃within items s lines s'⦄,
      expand items s = .ok lines s' → Unfolding within (.items items) s lines s')
    (h : expandWith expand? item s = .ok lines s') : Unfolding within (.item item) s lines s' := by
  unfold expandWith at h
  cases hmnemonic : item.line.mnemonic with
  | none =>
    rw [hmnemonic] at h
    obtain ⟨rfl, rfl⟩ := pure_eq_ok.mp h
    exact ⟨_, _, _, .bare hmnemonic, rfl⟩
  | some mnemonic =>
    simp only [hmnemonic, traced_eq_ok, bind_eq_ok, scopes_eq_ok, ofExcept_eq_ok] at h
    obtain ⟨_, _, ⟨rfl, rfl⟩, op, _, ⟨hop, rfl⟩, h⟩ := h
    split at h
    · simp at h
    · next expand =>
      obtain ⟨_, _, _, hitem, hlines⟩ := expandOperation_unfolds (hexpand expand rfl) within h
      exact ⟨_, _, _, .named hmnemonic hop hitem, hlines⟩

theorem mapM_unfolds {within : List Line} {f : Item → Assembly (List Item)}
    (hf : ∀ ⦃item s lines s'⦄, f item s = .ok lines s' → Unfolding within (.item item) s lines s')
    {items : List Item} {parts : List (List Item)} {s s' : Session}
    (h : items.mapM f s = .ok parts s') : Unfolding within (.items items) s parts.flatten s' := by
  induction items generalizing s parts with
  | nil =>
    obtain ⟨rfl, rfl⟩ := pure_eq_ok.mp h
    exact ⟨_, _, _, .nil, rfl⟩
  | cons item rest ih =>
    rw [List.mapM_cons] at h
    obtain ⟨lines, s₁, hitem, h⟩ := bind_eq_ok.mp h
    obtain ⟨others, s₂, hrest, hlast⟩ := bind_eq_ok.mp h
    obtain ⟨rfl, rfl⟩ := pure_eq_ok.mp hlast
    obtain ⟨_, _, _, hfirst, rfl⟩ := hf hitem
    obtain ⟨_, _, _, hothers, hlines⟩ := ih hrest
    refine ⟨_, _, _, .cons hfirst hothers, ?_⟩
    rw [List.map_append, hlines, List.flatten_cons]

/-- **Expanding follows the rules.** -/
theorem expandLevels_unfolds (levels : Nat) (within : List Line) {items lines : List Item}
    {s s' : Session} (h : expandLevels levels items s = .ok lines s') :
    Unfolding within (.items items) s lines s' := by
  induction levels generalizing within items lines s s' with
  | zero =>
    obtain ⟨parts, s₁, hparts, hlast⟩ := bind_eq_ok.mp h
    obtain ⟨rfl, rfl⟩ := pure_eq_ok.mp hlast
    exact mapM_unfolds (fun _ _ _ _ hitem => expandWith_unfolds within (by simp) hitem) hparts
  | succ levels ih =>
    obtain ⟨parts, s₁, hparts, hlast⟩ := bind_eq_ok.mp h
    obtain ⟨rfl, rfl⟩ := pure_eq_ok.mp hlast
    refine mapM_unfolds (fun _ _ _ _ hitem => expandWith_unfolds within ?_ hitem) hparts
    intro expand hexpand inner items s lines s' hrun
    cases hexpand
    exact ih inner hrun

/-! ## What expanding keeps -/

section

variable {within : List Line} {work : Work} {lines sent : List Product} {log : List Sending}
  {s s' : Session}

theorem Unfolds.advances (h : Unfolds within work s lines sent log s') : s.Advances s' := by
  induction h with
  | nil | bare _ | single _ | unknown _ | done => exact .refl _
  | cons _ _ ih ih' => exact ih.trans ih'
  | named _ _ _ ih | rept _ _ ih | irp _ _ ih | proc _ ih => exact ih
  | invoke _ hopen hregister _ ih =>
    exact ((advances_openInvocation _ _ hopen).trans (advances_register _ hregister)).trans ih
  | choice _ _ _ hregister _ ih => exact (advances_register _ hregister).trans ih
  | segment _ _ ih => exact ⟨ih.scopes, ih.output⟩
  | iteration hopen hregister _ _ ih ih' =>
    exact (((advances_openIteration _ _ _ _ _ hopen).trans (advances_register _ hregister)).trans
      ih).trans ih'

end

theorem advances_expandLevels (levels : Nat) (items : List Item) :
    (expandLevels levels items).Advances := by
  intro s lines s' h
  obtain ⟨_, _, _, hunfolds, -⟩ := expandLevels_unfolds levels [] h
  exact hunfolds.advances

/-- What has to be shown of the steps of an expansion, so that it keeps the property `P` of sessions
    and gives lines with the property `Out`. The items that are expanded are `Good`, and the
    variables and values of repetitions `Valued`. -/
structure Expanding (P : Session → Prop) (Good : Session → Item → Prop)
    (Valued : Line → Option String → List Expr → Prop) (Out : Item → Prop) : Prop where
  mono : ∀ {s t item}, s.Advances t → Good s item → Good t item := by exact fun _ h => h
  withOperation : ∀ {s item} op, Good s item → Good s (item.withOperation op)
  block : ∀ {s line kind body}, Good s (.block line kind body) → ∀ item ∈ body, Good s item
  choice : ∀ {s line onTrue onFalse}, Good s (.choice line onTrue onFalse) →
    ∀ item ∈ onTrue ++ onFalse, Good s item
  register : ∀ {items s s'}, register items s = .ok () s' → P s → (∀ item ∈ items, Good s item) → P s'
  invocation : ∀ {item template items s s'}, template ∈ s.templates →
    openInvocation item.line template s = .ok items s' → P s → Good s item →
      P s' ∧ ∀ other ∈ items, Good s' other
  rept : ∀ {s line body var values}, Good s (.block line .rept body) →
    reptValues s.scopes line = .ok (var, values) → Valued line var values := by exact fun _ _ => trivial
  irp : ∀ {s line body var values}, Good s (.block line .irp body) →
    irpValues line = .ok (var, values) → Valued line var values := by exact fun _ _ => trivial
  rest : ∀ {line var value values}, Valued line var (value :: values) → Valued line var values := by
    exact fun h => h
  iteration : ∀ {line kind body var value values i items s s'},
    openIteration line var body i value s = .ok items s' → P s → Good s (.block line kind body) →
      Valued line var (value :: values) → P s' ∧ ∀ other ∈ items, Good s' other
  park : ∀ {s : Session} {spaces}, P s → P { s with spaces }
  line : ∀ {s item}, Good s item → Out item := by exact fun _ => trivial
  marker : ∀ {s item}, Good s item → Out item.marker := by exact fun _ => trivial

/-- What is expanded is as it should be. -/
def Work.Meets (Good : Session → Item → Prop) (Valued : Line → Option String → List Expr → Prop)
    (s : Session) : Work → Prop
  | .items statements => ∀ item ∈ statements, Good s item
  | .item statement | .operation _ statement => Good s statement
  | .iterations line var body _ values =>
    (∃ kind, Good s (.block line kind body)) ∧ Valued line var values

/-- What is said of the lines and of those that are sent, for two expansions behind each other. -/
theorem forall_mem_interleave {α : Type} {p : α → Prop} {as bs cs ds : List α}
    (h : ∀ a ∈ as ++ bs, p a) (h' : ∀ a ∈ cs ++ ds, p a) : ∀ a ∈ (as ++ cs) ++ (bs ++ ds), p a := by
  simp only [List.forall_mem_append] at h h' ⊢
  exact ⟨⟨h.1, h'.1⟩, h.2, h'.2⟩

theorem Expanding.keeps {P : Session → Prop} {Good : Session → Item → Prop}
    {Valued : Line → Option String → List Expr → Prop} {Out : Item → Prop}
    (hall : Expanding P Good Valued Out) {within : List Line} {work : Work}
    {lines sent : List Product} {log : List Sending} {s s' : Session}
    (h : Unfolds within work s lines sent log s') (hs : P s) (hwork : work.Meets Good Valued s) :
    P s' ∧ ∀ product ∈ lines ++ sent, Out product.item := by
  induction h with
  | nil | done => exact ⟨hs, List.forall_mem_nil _⟩
  | bare _ | single _ | unknown _ => exact ⟨hs, List.forall_mem_singleton.mpr (hall.line hwork)⟩
  | cons hfirst _ ih ih' =>
    obtain ⟨hitem, hrest⟩ := List.forall_mem_cons.mp hwork
    obtain ⟨hs₁, hlines⟩ := ih hs hitem
    obtain ⟨hs₂, hlines'⟩ := ih' hs₁ fun item hmem => hall.mono hfirst.advances (hrest item hmem)
    exact ⟨hs₂, forall_mem_interleave hlines hlines'⟩
  | named _ _ _ ih => exact ih hs (hall.withOperation _ hwork)
  | invoke htemplate hopen hregister _ ih =>
    obtain ⟨hs₁, hitems⟩ := hall.invocation (Array.mem_of_getElem? htemplate) hopen hs hwork
    obtain ⟨hs', hlines⟩ := ih (hall.register hregister hs₁ hitems) fun item hitem =>
      hall.mono (advances_register _ hregister) (hitems item hitem)
    exact ⟨hs', List.forall_mem_cons.mpr ⟨hall.line hwork, hlines⟩⟩
  | rept hvalues _ ih =>
    obtain ⟨hs', hlines⟩ := ih hs ⟨⟨_, hwork⟩, hall.rept hwork hvalues⟩
    exact ⟨hs', List.forall_mem_cons.mpr ⟨hall.line hwork, hlines⟩⟩
  | irp hvalues _ ih =>
    obtain ⟨hs', hlines⟩ := ih hs ⟨⟨_, hwork⟩, hall.irp hwork hvalues⟩
    exact ⟨hs', List.forall_mem_cons.mpr ⟨hall.line hwork, hlines⟩⟩
  | @choice _ _ _ _ branch _ _ _ _ _ s _ _ _ _ hbranch hregister _ ih =>
    have hitems : ∀ item ∈ branch, Good s item := by
      obtain ⟨htrue, hfalse⟩ := List.forall_mem_append.mp (hall.choice hwork)
      rw [hbranch]
      split
      · exact htrue
      · exact hfalse
    obtain ⟨hs', hlines⟩ := ih (hall.register hregister hs hitems) fun item hitem =>
      hall.mono (advances_register _ hregister) (hitems item hitem)
    exact ⟨hs', List.forall_mem_cons.mpr ⟨hall.marker hwork, hlines⟩⟩
  | proc _ ih =>
    obtain ⟨hs', hlines⟩ := ih hs (hall.block hwork)
    exact ⟨hs', List.forall_mem_cons.mpr ⟨hall.marker hwork, hlines⟩⟩
  | segment _ _ ih =>
    obtain ⟨hs', hlines⟩ := ih hs (hall.block hwork)
    exact ⟨hall.park hs', List.forall_mem_cons.mpr ⟨hall.marker hwork, hlines⟩⟩
  | iteration hopen hregister hbody _ ih ih' =>
    obtain ⟨⟨kind, hblock⟩, hvalued⟩ := hwork
    obtain ⟨hs₁, hitems⟩ := hall.iteration hopen hs hblock hvalued
    have hregistered := advances_register _ hregister
    obtain ⟨hs₂, hlines⟩ := ih (hall.register hregister hs₁ hitems) fun item hitem =>
      hall.mono hregistered (hitems item hitem)
    have hthere := ((advances_openIteration _ _ _ _ _ hopen).trans hregistered).trans hbody.advances
    obtain ⟨hs', hlines'⟩ := ih' hs₂ ⟨⟨kind, hall.mono hthere hblock⟩, hall.rest hvalued⟩
    exact ⟨hs', forall_mem_interleave hlines hlines'⟩

/-! ## Assembling -/

/-- The phases of an assembly: binding labels, expanding, placing, and generating code, which changes
    nothing but the output. -/
theorem assemble_phases {source : Source} {program : Program} {s s' : Session} :
    assemble source s = .ok program s' ↔ ∃ items s₁ s₂ t, register source.items s = .ok () s₁ ∧
      Assembly.expand source.items s₁ = .ok items s₂ ∧
      placeLines items 0 s₂ = .ok program.entries t ∧ t.waiting = 0 ∧ program.scope = source.scope ∧
      emitAll t.scopes program.entries t.output = .ok () s'.output ∧
      s' = { t with output := s'.output } := by
  simp only [assemble, resolve, bind_eq_ok, get_eq_ok, pure_eq_ok]
  constructor
  · rintro ⟨_, s₁, hregister, items, s₂, hexpand, _, t, ⟨entries, _, hplace, _, _, ⟨rfl, rfl⟩, hwaiting⟩,
      _, _, hgenerate, rfl, rfl⟩
    obtain ⟨output, hemit, rfl⟩ := emitting_eq_ok.mp hgenerate
    split at hwaiting
    · simp at hwaiting
    · next hzero =>
      obtain ⟨rfl, rfl⟩ := pure_eq_ok.mp hwaiting
      exact ⟨items, s₁, s₂, _, hregister, hexpand, hplace, by simpa using hzero, rfl, hemit, rfl⟩
  · rintro ⟨items, s₁, s₂, t, hregister, hexpand, hplace, hwaiting, hscope, hemit, hlast⟩
    refine ⟨(), s₁, hregister, items, s₂, hexpand, program, t,
      ⟨_, t, hplace, t, t, ⟨rfl, rfl⟩, ?_⟩, (), s',
      emitting_eq_ok.mpr ⟨_, hemit, hlast.symm⟩, rfl, rfl⟩
    rw [hwaiting, ← hscope]
    rfl

theorem phases_of_assemble {source : Source} {program : Program} {s s' : Session}
    (h : assemble source s = .ok program s') :
    ∃ items s₁ s₂ t, register source.items s = .ok () s₁ ∧
      Assembly.expand source.items s₁ = .ok items s₂ ∧
      placeLines items 0 s₂ = .ok program.entries t ∧ program.scope = source.scope ∧
      s.Advances t ∧ emitAll t.scopes program.entries t.output = .ok () s'.output ∧
      s' = { t with output := s'.output } := by
  obtain ⟨items, s₁, s₂, t, hregister, hexpand, hplace, -, hscope, hemit, hlast⟩ := assemble_phases.mp h
  refine ⟨items, s₁, s₂, t, hregister, hexpand, hplace, hscope, ?_, hemit, hlast⟩
  exact ((advances_register _ hregister).trans (advances_expandLevels _ _ hexpand)).trans
    (advances_placeLines _ _ hplace)

end Assembly

end Z80Asm
