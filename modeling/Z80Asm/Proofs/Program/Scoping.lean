import Z80Asm.Proofs.Program.Expansions
import Z80Asm.Proofs.Scope.Order

/-!
# Well-scoped sessions

Every line owns a scope, which was made below the scope in which the line was read or instantiated.
A session is `WellScoped` if its arena is ordered and the lines of its macro bodies own scopes in
it. Binding and expanding lines that own scopes in the arena keeps a session well-scoped, and links
bodies only to the scopes of these lines or to new ones: `Assembly.Keeps` says both of a phase.

Nothing more is asked of lines than that they own scopes in the arena; in which order, and whether
they were expanded before, plays no part.

`Keeps` has two parameters, a number from which on scopes are new and the scopes of the lines at
hand. With these a body that is linked can be told from one that was there before.
-/
set_option autoImplicit false

namespace Z80Asm

open Success

/-! ## Scopes of lines -/

mutual

/-- The scopes of the lines of an item and of everything inside it. -/
def Item.owned : Item → List ScopeId
  | .plain line _ => [line.scope]
  | .block line _ body => line.scope :: ownedBy body
  | .choice line onTrue onFalse => line.scope :: (ownedBy onTrue ++ ownedBy onFalse)

def ownedBy : List Item → List ScopeId
  | [] => []
  | item :: rest => item.owned ++ ownedBy rest

end

mutual

theorem Item.map_scope_lines : ∀ item : Item, item.lines.map Line.scope = item.owned
  | .plain _ _ => rfl
  | .block line _ body => by
    rw [Item.lines, Item.owned, List.map_cons, map_scope_linesOf body]
  | .choice line onTrue onFalse => by
    rw [Item.lines, Item.owned, List.map_cons, List.map_append, map_scope_linesOf onTrue,
      map_scope_linesOf onFalse]

/-- Items own the scopes of their lines. -/
theorem map_scope_linesOf : ∀ items, (linesOf items).map Line.scope = ownedBy items
  | [] => rfl
  | item :: rest => by
    rw [linesOf, ownedBy, List.map_append, item.map_scope_lines, map_scope_linesOf rest]

end

theorem mem_ownedBy {items : List Item} {id : ScopeId} :
    id ∈ ownedBy items ↔ ∃ item ∈ items, id ∈ item.owned := by
  induction items with
  | nil => simp [ownedBy]
  | cons item rest ih => simp [ownedBy, ih]

theorem Item.owned_subset {item : Item} {items : List Item} (h : item ∈ items) :
    item.owned ⊆ ownedBy items :=
  fun _ hid => mem_ownedBy.mpr ⟨item, h, hid⟩

theorem Item.scope_mem_owned (item : Item) : item.line.scope ∈ item.owned := by
  cases item with
  | plain line role => exact List.mem_cons_self
  | block line kind body => exact List.mem_cons_self
  | choice line onTrue onFalse => exact List.mem_cons_self

theorem Item.owned_withOperation (op : Operation) (item : Item) :
    (item.withOperation op).owned = item.owned := by
  cases item with
  | plain line role => rfl
  | block line kind body => rfl
  | choice line onTrue onFalse => rfl

/-- The arena has these scopes, each below another, and none was made before `first` were there. -/
def Scopes.Holds (s : Scopes) (first : Nat) (owned : List ScopeId) : Prop :=
  ∀ id ∈ owned, first ≤ id.index ∧ ∃ around, s.Below id around

namespace Scopes.Holds

variable {s t : Scopes} {first : Nat} {ids others : List ScopeId}

theorem mono (h : s.Holds first ids) (hst : s.Extends t) : t.Holds first ids := by
  intro id hid
  obtain ⟨hfirst, around, hbelow⟩ := h id hid
  exact ⟨hfirst, around, hst.below hbelow⟩

theorem subset (h : s.Holds first ids) (hsub : others ⊆ ids) : s.Holds first others :=
  fun id hid => h id (hsub hid)

theorem le {bound : Nat} (h : s.Holds bound ids) (hle : first ≤ bound) : s.Holds first ids := by
  intro id hid
  obtain ⟨hbound, hbelow⟩ := h id hid
  exact ⟨Nat.le_trans hle hbound, hbelow⟩

theorem append (h : s.Holds first ids) (hothers : s.Holds first others) :
    s.Holds first (ids ++ others) := by
  intro id hid
  rcases List.mem_append.mp hid with hid | hid
  · exact h id hid
  · exact hothers id hid

theorem nil : s.Holds first [] :=
  fun _ h => nomatch h

theorem index_lt {id : ScopeId} (h : s.Holds first ids) (hid : id ∈ ids) : id.index < s.size := by
  obtain ⟨-, around, hbelow⟩ := h id hid
  exact hbelow.index_lt

end Scopes.Holds

/-! ## Instances of a body -/

/-- The arena is ordered, and whatever scopes stand for others are in it. -/
structure Copying.Valid (c : Copying) : Prop where
  ordered : c.scopes.Ordered
  images : ∀ image ∈ c.images, image.2.index < c.scopes.size

theorem ScopeMap.apply_lt {images : ScopeMap} {id : ScopeId} {size : Nat}
    (h : ∀ image ∈ images, image.2.index < size) (hid : id.index < size) :
    (images.apply id).index < size := by
  induction images with
  | nil => exact hid
  | cons image rest ih =>
    obtain ⟨source, target⟩ := image
    rw [ScopeMap.apply, List.lookup_cons]
    cases id == source with
    | true => exact h (source, target) List.mem_cons_self
    | false => exact ih fun image himage => h image (List.mem_cons_of_mem _ himage)

/-- Copying leads from `c` to `c'` and gives lines that own new scopes. -/
structure Copying.Gives (c c' : Copying) (owned : List ScopeId) : Prop where
  valid : c'.Valid
  growth : c.scopes.Extends c'.scopes
  bodies : ∀ id, c'.scopes.body? id = c.scopes.body? id
  holds : c'.scopes.Holds c.scopes.size owned

theorem Copying.Gives.append {c c' c'' : Copying} {ids others : List ScopeId}
    (h : c.Gives c' ids) (h' : c'.Gives c'' others) : c.Gives c'' (ids ++ others) where
  valid := h'.valid
  growth := h.growth.trans h'.growth
  bodies id := (h'.bodies id).trans (h.bodies id)
  holds := (h.holds.mono h'.growth).append (h'.holds.le h.growth.size_le)

theorem Line.copy_gives (site : Position) {line : Line} {c : Copying} (hc : c.Valid)
    (hline : c.scopes.Holds 0 [line.scope]) :
    c.Gives ((line.copy site).run c).2 [((line.copy site).run c).1.scope] := by
  obtain ⟨-, around, hbelow⟩ := hline line.scope List.mem_cons_self
  have hparent :
      (c.scopes.parent? line.scope).map c.images.apply = some (c.images.apply around) := by
    rw [hbelow.parent_eq]
    rfl
  -- A parent that has no image stays, and is in the arena because the arena is ordered.
  have haround : around.index < c.scopes.size :=
    Nat.lt_trans (hc.ordered.below_lt hbelow) hbelow.index_lt
  have hstate : ((line.copy site).run c).2 =
      { images := (line.scope, c.scopes.fresh) :: c.images
        scopes := (c.scopes.create (some (c.images.apply around))).2 } := by
    rw [← hparent]
    rfl
  have hscope : ((line.copy site).run c).1.scope = c.scopes.fresh := rfl
  rw [hstate, hscope]
  refine ⟨⟨hc.ordered.create (ScopeMap.apply_lt hc.images haround), ?_⟩,
    c.scopes.extends_create _, c.scopes.body?_create _, ?_⟩
  · intro image himage
    rw [Scopes.size_create]
    cases himage with
    | head => exact Nat.lt_succ_self _
    | tail _ himage => exact Nat.lt_succ_of_lt (hc.images image himage)
  · intro id hid
    cases List.mem_singleton.mp hid
    exact ⟨Nat.le_refl _, _, c.scopes.below_create _⟩

theorem copyItems_gives (site : Position) (items : List Item) {c : Copying} (hc : c.Valid)
    (hitems : c.scopes.Holds 0 (ownedBy items)) :
    c.Gives ((copyItems site items).run c).2 (ownedBy ((copyItems site items).run c).1) := by
  rw [← map_scope_linesOf] at hitems ⊢
  refine copyItems_lines (G := fun c lines c' copies => c.Valid →
    c.scopes.Holds 0 (lines.map Line.scope) → c.Gives c' (copies.map Line.scope)) ?_ ?_ ?_ items c hc
      hitems
  · exact fun c hc _ => ⟨hc, .refl _, fun _ => rfl, .nil⟩
  · intro c c' c'' lines copies lines' copies' h h' hc hlines
    rw [List.map_append] at hlines ⊢
    have hfirst := h hc (hlines.subset (List.subset_append_left _ _))
    have hrest := (hlines.subset (List.subset_append_right _ _)).mono hfirst.growth
    exact hfirst.append (h' hfirst.valid hrest)
  · exact fun c line hc hline => line.copy_gives site hc hline

/-! ## Sessions -/

/-- The arena is ordered, and the macros have their bodies in it. -/
structure Session.WellScoped (s : Session) : Prop where
  ordered : s.scopes.Ordered
  builtins : s.builtins.index < s.scopes.size
  templates : ∀ template ∈ s.templates,
    template.scope.index < s.scopes.size ∧ s.scopes.Holds 0 (ownedBy template.body)

/-- A scoped session is behind `s`, and the scopes before `first` have the bodies that they had. -/
structure Session.Keeps (first : Nat) (s s' : Session) : Prop where
  growth : s.scopes.Extends s'.scopes
  wellScoped : s'.WellScoped
  bodies : ∀ id : ScopeId, id.index < first → s'.scopes.body? id = s.scopes.body? id

namespace Session

variable {first : Nat} {s t u : Session} {scopes : Scopes}

theorem Keeps.trans (hst : s.Keeps first t) (htu : t.Keeps first u) : s.Keeps first u where
  growth := hst.growth.trans htu.growth
  wellScoped := htu.wellScoped
  bodies id hid := (htu.bodies id hid).trans (hst.bodies id hid)

theorem WellScoped.refl (hs : s.WellScoped) : s.Keeps first s :=
  ⟨.refl _, hs, fun _ _ => rfl⟩

theorem WellScoped.withScopes (hs : s.WellScoped) (hgrowth : s.scopes.Extends scopes)
    (hordered : scopes.Ordered)
    (hbodies : ∀ id : ScopeId, id.index < first → scopes.body? id = s.scopes.body? id) :
    s.Keeps first { s with scopes } where
  growth := hgrowth
  wellScoped :=
    { ordered := hordered
      builtins := hgrowth.index_lt hs.builtins
      templates := fun template htemplate =>
        have ⟨hscope, hbody⟩ := hs.templates template htemplate
        ⟨hgrowth.index_lt hscope, hbody.mono hgrowth⟩ }
  bodies := hbodies

theorem WellScoped.create (hs : s.WellScoped) {parent : ScopeId}
    (hp : parent.index < s.scopes.size) :
    s.Keeps first { s with scopes := (s.scopes.create (some parent)).2 } :=
  hs.withScopes (s.scopes.extends_create _) (hs.ordered.create hp)
    fun id _ => s.scopes.body?_create _ id

theorem WellScoped.add (hs : s.WellScoped) {id : ScopeId} {name : String} {value : Expr}
    (h : s.scopes.add id name value = .ok scopes) : s.Keeps first { s with scopes } :=
  hs.withScopes (Scopes.extends_add h) (hs.ordered.add h) fun other _ => Scopes.body?_add h other

end Session

namespace Assembly

variable {α : Type} {first : Nat} {known : List ScopeId} {s s' : Session}

/-- Work that keeps sessions scoped in which lines own the scopes `known`, all from `first` on. -/
def Keeps (first : Nat) (known : List ScopeId) (x : Assembly α) : Prop :=
  Moves (fun s s' => s.WellScoped → s.scopes.Holds first known → s.Keeps first s') x

instance : Session.Way fun s s' => s.WellScoped → s.scopes.Holds first known → s.Keeps first s' where
  refl _ hs _ := hs.refl
  trans hst htu hs hknown :=
    have h := hst hs hknown
    h.trans (htu h.wellScoped (hknown.mono h.growth))

theorem Keeps.subset {x : Assembly α} {others : List ScopeId} (hx : Keeps first known x)
    (hsub : known ⊆ others) : Keeps first others x :=
  fun _ _ _ h hs hothers => hx h hs (hothers.subset hsub)

theorem keeps_addSymbol (scope : ScopeId) (name : String) (value : Expr) :
    Keeps first known (addSymbol scope name value) :=
  moves_addSymbol fun _ _ h hs _ => hs.add h

/-! ## Binding labels -/

theorem keeps_bindLabel (item : Item) : Keeps first item.owned (bindLabel item) := by
  refine moves_bindLabel (fun label => moves_labelValue ?_ ?_) ?_ fun s hs _ => ?_
  · exact fun s hs _ => ⟨.refl _, ⟨hs.ordered, hs.builtins, hs.templates⟩, fun _ _ => rfl⟩
  · rintro line body rfl parameters - s hs hknown
    refine ⟨.refl _, ⟨hs.ordered, hs.builtins, fun template htemplate => ?_⟩, fun _ _ => rfl⟩
    rcases Array.mem_push.mp htemplate with hold | rfl
    · exact hs.templates template hold
    · exact ⟨hknown.index_lt List.mem_cons_self,
        (hknown.subset (List.subset_cons_self _ _)).le (Nat.zero_le _)⟩
  · exact fun _ _ _ _ _ _ h hs _ => hs.add h
  · exact hs.withScopes (Scopes.extends_markRegistered _ _) (hs.ordered.modify _ fun _ => rfl)
      fun id _ => s.scopes.body?_modify (fun _ => by rfl) _ id

theorem keeps_register (items : List Item) : Keeps first (ownedBy items) (register items) :=
  moves_register (G := fun item => item.owned ⊆ ownedBy items)
    (fun h _ hitem => List.Subset.trans (Item.owned_subset hitem)
      (List.Subset.trans (List.subset_cons_self _ _) h))
    (fun h => (keeps_bindLabel _).subset h) items fun _ hitem => Item.owned_subset hitem

/-! ## Expanding -/

theorem keeps_bindParameters (scope : ScopeId) (args : List Expr)
    (parameters : List (String × Option Expr)) :
    Keeps first known (bindParameters scope args parameters) :=
  moves_bindParameters fun _ _ _ _ _ _ h hs _ => hs.add h

/-- The scope of the parameters, which are bound in it and which it may give a horizon, is made
    below that of the template. -/
theorem bindParameters_keeps {parent : ScopeId} {args : List Expr}
    {parameters : List (String × Option Expr)} {u : Unit} {scopes : Scopes} (hs : s.WellScoped)
    (hparent : parent.index < s.scopes.size)
    (hbind : bindParameters s.scopes.fresh args parameters
      { s with scopes := (s.scopes.create (some parent)).2 } = .ok u s')
    (hhorizon : scopes = s'.scopes ∨ ∃ mark, scopes = s'.scopes.setHorizon s.scopes.fresh mark) :
    s.Keeps first { s with scopes } ∧ s.scopes.fresh.index < scopes.size := by
  have hcreated : s.Keeps first _ := hs.create hparent
  have hbound := hcreated.trans (keeps_bindParameters _ _ _ hbind hcreated.wellScoped .nil)
  have hfresh : s.scopes.fresh.index < s'.scopes.size := by
    refine (advances_bindParameters _ _ _ hbind).scopes.index_lt ?_
    rw [Scopes.size_create]
    exact Nat.lt_succ_self _
  rcases hhorizon with rfl | ⟨mark, rfl⟩
  · exact ⟨hs.withScopes hbound.growth hbound.wellScoped.ordered hbound.bodies, hfresh⟩
  · -- Only the scope of the parameters changes, which `s` does not have.
    refine ⟨hs.withScopes (hbound.growth.modify_new s.scopes.get?_fresh)
      (hbound.wellScoped.ordered.modify _ fun _ => rfl) fun id hid => ?_, ?_⟩
    · exact (Scopes.body?_modify _ (fun _ => by rfl) _ id).trans (hbound.bodies id hid)
    · rw [Scopes.setHorizon, Scopes.size_modify]
      exact hfresh

/-- The lines of an instance own new scopes. -/
theorem instanceOf_keeps (first : Nat) {line : Line} {template target : ScopeId}
    {body items : List Item}
    (h : instanceOf line template target body s = .ok items s') (hs : s.WellScoped)
    (htarget : target.index < s.scopes.size) (hbody : s.scopes.Holds 0 (ownedBy body)) :
    s.Keeps first s' ∧ s'.scopes.Holds s.scopes.size (ownedBy items) := by
  simp only [instanceOf, bind_eq_ok, scopes_eq_ok, setScopes_eq_ok, pure_eq_ok] at h
  obtain ⟨_, _, ⟨rfl, rfl⟩, _, _, rfl, rfl, rfl⟩ := h
  have hvalid : Copying.Valid { images := [(template, target)], scopes := s.scopes } := by
    refine ⟨hs.ordered, fun image himage => ?_⟩
    cases List.mem_singleton.mp himage
    exact htarget
  have hcopy := copyItems_gives line.position body hvalid hbody
  exact ⟨hs.withScopes hcopy.growth hcopy.valid.ordered fun id _ => hcopy.bodies id, hcopy.holds⟩

end Assembly

/-- The invocation of a macro by the line that owns `site` leads from `s` to `s'`: below the scope
    of the parameters there is `inside`, which has become the body of `site`. -/
structure Session.Opens (s : Session) (site inside : ScopeId) (s' : Session) : Prop where
  growth : s.scopes.Extends s'.scopes
  wellScoped : s'.WellScoped
  below : s'.scopes.Below inside s.scopes.fresh
  linked : s'.scopes.body? site = some inside
  bare : s'.scopes.body? inside = none
  bodies : ∀ id : ScopeId, id ≠ site → id.index < s.scopes.size →
    s'.scopes.body? id = s.scopes.body? id

namespace Session

variable {s t u : Session} {site inside : ScopeId} {scopes : Scopes}

theorem Opens.trans (h : s.Opens site inside t) (hsite : site.index < t.scopes.size)
    (htu : t.Keeps t.scopes.size u) : s.Opens site inside u where
  growth := h.growth.trans htu.growth
  wellScoped := htu.wellScoped
  below := htu.growth.below h.below
  linked := (htu.bodies site hsite).trans h.linked
  bare := (htu.bodies inside h.below.index_lt).trans h.bare
  bodies id hne hid := (htu.bodies id (h.growth.index_lt hid)).trans (h.bodies id hne hid)

/-- Opening an invocation whose parameters are bound already. -/
theorem Keeps.opens (h : s.Keeps s.scopes.size { s with scopes })
    (hsite : site.index < s.scopes.size) (hparams : s.scopes.fresh.index < scopes.size) :
    s.Opens site scopes.fresh
      { s with scopes := (scopes.create (some s.scopes.fresh)).2.setBody site scopes.fresh } := by
  have hcreated : Session.Keeps 0 { s with scopes } _ := h.wellScoped.create hparams
  have hlink := Scopes.extends_setBody (scopes.create (some s.scopes.fresh)).2 site scopes.fresh
  have hlinked : Session.Keeps 0 { s with scopes := (scopes.create (some s.scopes.fresh)).2 } _ :=
    hcreated.wellScoped.withScopes hlink (hcreated.wellScoped.ordered.modify _ fun _ => rfl)
      fun _ hid => nomatch hid
  have hsize : site.index < scopes.size := h.growth.index_lt hsite
  have hne : site ≠ scopes.fresh := by
    rintro rfl
    exact Nat.lt_irrefl _ hsize
  exact
    { growth := h.growth.trans (hcreated.growth.trans hlink)
      wellScoped := hlinked.wellScoped
      below := hlink.below (scopes.below_create _)
      linked := Scopes.body?_setBody_self (hcreated.growth.index_lt hsize) _
      bare := by
        rw [Scopes.body?_setBody_of_ne hne, Scopes.body?_create, Scopes.body?, Scopes.get?_fresh]
        rfl
      bodies := fun id hother hid => by
        rw [Scopes.body?_setBody_of_ne hother.symm, Scopes.body?_create]
        exact h.bodies id hid }

end Session

namespace Assembly

variable {first : Nat} {known : List ScopeId} {s s' : Session} {expand : Expander}

/-- The instance of a macro owns new scopes only, so that what is done with it leaves the bodies of
    the others. -/
theorem openInvocation_opens {line : Line} {template : Template} {items : List Item}
    (h : openInvocation line template s = .ok items s') (hs : s.WellScoped)
    (hline : line.scope.index < s.scopes.size) (htemplate : template ∈ s.templates) :
    ∃ inside t, s.Opens line.scope inside t ∧ line.scope.index < t.scopes.size ∧
      t.Keeps t.scopes.size s' ∧ s'.scopes.Holds t.scopes.size (ownedBy items) := by
  obtain ⟨hscope, hbody⟩ := hs.templates template htemplate
  obtain ⟨s₁, scopes, hbind, hhorizon, hinstance⟩ := openInvocation_eq_ok h
  have hhorizon : scopes = s₁.scopes ∨ ∃ mark, scopes = s₁.scopes.setHorizon s.scopes.fresh mark :=
    hhorizon.imp (fun h => h.2) fun ⟨mark, h⟩ => ⟨mark, h.2⟩
  obtain ⟨hbound, hparams⟩ := bindParameters_keeps hs hscope hbind hhorizon
  have hopened := hbound.opens hline hparams
  have hsession := bindParameters_session hbind
  rw [show ({ s₁ with scopes := _ } : Session) = { s with scopes := _ } by rw [hsession]]
    at hinstance
  generalize ({ s with scopes := Scopes.setBody _ _ _ } : Session) = t at hinstance hopened
  obtain ⟨hcopied, hitems⟩ := instanceOf_keeps t.scopes.size hinstance hopened.wellScoped
    hopened.below.index_lt (hbody.mono hopened.growth)
  exact ⟨scopes.fresh, t, hopened, hopened.growth.index_lt hline, hcopied, hitems⟩

/-- The lines of an iteration own scopes behind that of the repetition. -/
theorem openIteration_keeps {line : Line} {var : Option String} {body items : List Item} {i : Nat}
    {value : Expr} (h : openIteration line var body i value s = .ok items s') (hs : s.WellScoped)
    (hknown : s.scopes.Holds first known) (hline : line.scope ∈ known)
    (hbody : ownedBy body ⊆ known) :
    s.Keeps first s' ∧ s'.scopes.Holds first (ownedBy items) := by
  have hlt := hknown.index_lt hline
  have hfirst : first ≤ s.scopes.size := Nat.le_of_lt (Nat.lt_of_le_of_lt (hknown _ hline).1 hlt)
  obtain ⟨iteration, s₁, hcreate, h⟩ := bind_eq_ok.mp h
  obtain ⟨_, s₂, hnumber, h⟩ := bind_eq_ok.mp h
  obtain ⟨hcreated, hiteration⟩ :
      s.Keeps first s₁ ∧ iteration.index < s₁.scopes.size := by
    obtain ⟨rfl, rfl⟩ := createScope_eq_ok.mp hcreate
    exact ⟨hs.create hlt, (s.scopes.below_create _).index_lt⟩
  have hnumbered : s₁.Keeps first s₂ := keeps_addSymbol _ _ _ hnumber hcreated.wellScoped .nil
  obtain ⟨s₃, hbound, hinstance⟩ : ∃ s₃, s₁.Keeps first s₃ ∧
      instanceOf line line.scope iteration body s₃ = .ok items s' := by
    cases var with
    | none => exact ⟨s₂, hnumbered, h⟩
    | some name =>
      obtain ⟨_, s₃, hbind, h⟩ := bind_eq_ok.mp h
      exact ⟨s₃, hnumbered.trans (keeps_addSymbol _ _ _ hbind hnumbered.wellScoped .nil), h⟩
  have hall := hcreated.trans hbound
  obtain ⟨hcopied, hitems⟩ := instanceOf_keeps first hinstance hall.wellScoped
    (hbound.growth.index_lt hiteration)
    (((hknown.subset hbody).le (Nat.zero_le _)).mono hall.growth)
  exact ⟨hall.trans hcopied, hitems.le (Nat.le_trans hfirst hall.growth.size_le)⟩

theorem expandInvocation_opens
    (hexpand : ∀ first items, Keeps first (ownedBy items) (expand items)) {line : Line}
    {template : Template} {lines : List Item}
    (h : expandInvocation expand line template s = .ok lines s') (hs : s.WellScoped)
    (hline : line.scope.index < s.scopes.size) (htemplate : template ∈ s.templates) :
    ∃ inside, s.Opens line.scope inside s' := by
  rw [expandInvocation_eq] at h
  obtain ⟨items, s₁, hopen, hrest⟩ := bind_eq_ok.mp h
  obtain ⟨inside, t, hopened, hsite, hcopied, hitems⟩ :=
    openInvocation_opens hopen hs hline htemplate
  have hexpanded : Keeps t.scopes.size _ (expandBody expand items) :=
    (keeps_register items).bind fun _ => hexpand _ items
  exact ⟨inside, hopened.trans hsite (hcopied.trans (hexpanded hrest hcopied.wellScoped hitems))⟩

/-- Expanding keeps a session well-scoped. -/
theorem expanding_keeps (s : Session) (first : Nat) : Expanding (s.Keeps first)
    (fun t item => t.scopes.Holds first item.owned) (fun _ _ _ => True) (fun _ => True) where
  mono hst h := h.mono hst.scopes
  withOperation op h := by rwa [Item.owned_withOperation]
  block h item hitem := h.subset (List.subset_cons_of_subset _ (Item.owned_subset hitem))
  choice h item hitem := by
    refine h.subset (List.subset_cons_of_subset _ ?_)
    rcases List.mem_append.mp hitem with hitem | hitem
    · exact List.subset_append_of_subset_left _ (Item.owned_subset hitem)
    · exact List.subset_append_of_subset_right _ (Item.owned_subset hitem)
  register h hs hitems := by
    refine hs.trans (keeps_register _ h hs.wellScoped fun id hid => ?_)
    obtain ⟨item, hitem, hid⟩ := mem_ownedBy.mp hid
    exact hitems item hitem id hid
  invocation {item _ _ t _} htemplate hopen hs hitem := by
    have hlt := hitem.index_lt item.scope_mem_owned
    have hfirst := (hitem _ item.scope_mem_owned).1
    obtain ⟨inside, t', hopened, hsite, hcopied, hitems⟩ :=
      openInvocation_opens hopen hs.wellScoped hlt htemplate
    have hopens := hopened.trans hsite hcopied
    refine ⟨hs.trans ⟨hopens.growth, hopens.wellScoped, fun id hid => ?_⟩, fun other hother => ?_⟩
    · have hbefore := Nat.lt_of_lt_of_le hid hfirst
      refine hopens.bodies id ?_ (Nat.lt_trans hbefore hlt)
      rintro rfl
      exact Nat.lt_irrefl _ hbefore
    · exact (hitems.subset (Item.owned_subset hother)).le
        (Nat.le_trans hfirst (Nat.le_of_lt hsite))
  iteration hopen hs hblock _ := by
    obtain ⟨hts, hitems⟩ := openIteration_keeps hopen hs.wellScoped hblock List.mem_cons_self
      (List.subset_cons_self _ _)
    exact ⟨hs.trans hts, fun other hother => hitems.subset (Item.owned_subset hother)⟩
  park hs :=
    ⟨hs.growth, ⟨hs.wellScoped.ordered, hs.wellScoped.builtins, hs.wellScoped.templates⟩, hs.bodies⟩

/-- **Expanding keeps a session well-scoped.** -/
theorem keeps_expandLevels (levels first : Nat) (items : List Item) :
    Keeps first (ownedBy items) (expandLevels levels items) := by
  intro s lines s' h hs hholds
  obtain ⟨_, _, _, hunfolds, -⟩ := expandLevels_unfolds levels [] h
  exact ((expanding_keeps s first).keeps hunfolds hs.refl fun item hitem =>
    hholds.subset (Item.owned_subset hitem)).1

end Assembly

end Z80Asm
