import Z80Asm.Proofs.Program.Reading
import Z80Asm.Proofs.Scope.Steps

/-!
# The course of the phases

Reading and every phase lead from arena to arena by the steps of `Scopes.Steps`. A phase records as
registered no other scopes than those that its lines own and new ones. The lines of a text, and
those of an instance of a body, own new scopes in ascending order, so no two of them own the same.

Which scopes are marked is followed because the mark of an invoking line becomes the horizon of the
body that it invokes.
-/
set_option autoImplicit false

namespace Z80Asm

open Success

/-- From `s` to `s'` only the scopes `owned` and those that `s` does not have are marked. -/
def Session.Leads (owned : List ScopeId) (s s' : Session) : Prop :=
  s.scopes.Steps (fun id => id ∈ owned ∨ s.scopes.size ≤ id.index) s'.scopes

namespace Session.Leads

variable {owned others : List ScopeId} {s t u : Session}

/-- A way on which other scopes are marked that may be, or are new. -/
theorem step (hst : s.Leads owned t) (htu : t.Leads others u)
    (hothers : ∀ id ∈ others, id ∈ owned ∨ s.scopes.size ≤ id.index) : s.Leads owned u :=
  Scopes.Steps.trans hst (htu.mono fun id h =>
    h.elim (hothers id) fun hnew => .inr (Nat.le_trans hst.size_le hnew))

theorem trans (hst : s.Leads owned t) (htu : t.Leads owned u) : s.Leads owned u :=
  hst.step htu fun _ hid => .inl hid

theorem subset (h : s.Leads owned t) (hsub : owned ⊆ others) : s.Leads others t :=
  h.mono fun _ hid => hid.imp_left fun hid => hsub hid

theorem registeredAt?_eq (h : s.Leads owned t) {id : ScopeId} (hid : id.index < s.scopes.size)
    (howned : id ∉ owned) : t.scopes.registeredAt? id = s.scopes.registeredAt? id :=
  Scopes.Steps.registeredAt?_eq h hid fun hmarked =>
    hmarked.elim howned fun hle => Nat.not_lt_of_le hle hid

end Session.Leads

namespace Assembly

variable {α β : Type} {owned others : List ScopeId} {s s' : Session}

/-- Work for lines that own the scopes `owned`. -/
def Leads (owned : List ScopeId) (x : Assembly α) : Prop :=
  Moves (Session.Leads owned) x

instance : Session.Way (Session.Leads owned) :=
  ⟨fun _ => .refl, .trans⟩

theorem Leads.subset {x : Assembly α} (hx : Leads owned x) (hsub : owned ⊆ others) :
    Leads others x :=
  fun _ _ _ h => (hx h).subset hsub

theorem leads_createScope (parent : ScopeId) : Leads owned (createScope parent) := by
  intro s id s' h
  obtain ⟨-, rfl⟩ := createScope_eq_ok.mp h
  exact Scopes.Steps.refl.create _

theorem leads_addSymbol (scope : ScopeId) (name : String) (value : Expr) :
    Leads owned (addSymbol scope name value) :=
  moves_addSymbol fun _ _ h => Scopes.Steps.refl.add h

/-! ## Binding labels -/

theorem leads_bindLabel (item : Item) : Leads [item.line.scope] (bindLabel item) := by
  refine moves_bindLabel (fun label s value s' h => ?_)
    (fun _ _ _ _ _ _ h => Scopes.Steps.refl.add h) fun s => ?_
  · rw [Session.Leads, (labelValue_scopes h).1]
    exact .refl
  · exact Scopes.Steps.refl.modify ⟨fun _ => rfl, fun _ => rfl, fun _ h => h⟩ (.inr fun _ => rfl)
      (.inl (.inl List.mem_cons_self))

theorem leads_register (items : List Item) : Leads (ownedBy items) (register items) :=
  moves_register (G := fun item => item.owned ⊆ ownedBy items)
    (fun h _ hitem => List.Subset.trans (Item.owned_subset hitem)
      (List.Subset.trans (List.subset_cons_self _ _) h))
    (fun {item} h => (leads_bindLabel item).subset
      (List.cons_subset.mpr ⟨h item.scope_mem_owned, List.nil_subset _⟩))
    items fun _ hitem => Item.owned_subset hitem

/-! ## Instances of a body -/

end Assembly

/-- The scopes are new to an arena, and each is newer than those before it. -/
def Scopes.Fresh (s t : Scopes) (owned : List ScopeId) : Prop :=
  s.size ≤ t.size ∧ owned.Pairwise (·.index < ·.index) ∧
    ∀ id ∈ owned, s.size ≤ id.index ∧ id.index < t.size

theorem Scopes.Fresh.append {s t u : Scopes} {ids others : List ScopeId} (h : s.Fresh t ids)
    (h' : t.Fresh u others) : s.Fresh u (ids ++ others) := by
  obtain ⟨hsize, hids, hnew⟩ := h
  obtain ⟨hsize', hothers, hnew'⟩ := h'
  refine ⟨Nat.le_trans hsize hsize', List.pairwise_append.mpr ⟨hids, hothers, ?_⟩, ?_⟩
  · intro id hid other hother
    exact Nat.lt_of_lt_of_le (hnew id hid).2 (hnew' other hother).1
  · intro id hid
    rcases List.mem_append.mp hid with hid | hid
    · exact ⟨(hnew id hid).1, Nat.lt_of_lt_of_le (hnew id hid).2 hsize'⟩
    · exact ⟨Nat.le_trans hsize (hnew' id hid).1, (hnew' id hid).2⟩

theorem Scopes.Fresh.of_le {s t : Scopes} (h : s.size ≤ t.size) : s.Fresh t [] :=
  ⟨h, .nil, fun _ h => nomatch h⟩

theorem Scopes.Fresh.front {s t : Scopes} {ids others : List ScopeId} (h : s.Fresh t (ids ++ others)) :
    s.Fresh t ids :=
  ⟨h.1, (List.pairwise_append.mp h.2.1).1, fun id hid => h.2.2 id (List.mem_append_left _ hid)⟩

theorem Scopes.Fresh.create (s : Scopes) (parent : Option ScopeId) :
    s.Fresh (s.create parent).2 [s.fresh] := by
  refine ⟨s.size_create parent ▸ Nat.le_succ _, List.pairwise_singleton _ _, fun id hid => ?_⟩
  cases List.mem_singleton.mp hid
  rw [s.size_create]
  exact ⟨Nat.le_refl _, Nat.lt_succ_self _⟩

/-- New scopes are made for the lines, and nothing else is done to the arena. -/
structure Scopes.Makes (s t : Scopes) (lines : List Line) : Prop where
  steps : s.Steps (fun _ => False) t
  fresh : s.Fresh t (lines.map Line.scope)

theorem Scopes.Makes.nil (s : Scopes) : s.Makes s [] :=
  ⟨.refl, .of_le (Nat.le_refl _)⟩

theorem Scopes.Makes.append {s t u : Scopes} {lines others : List Line} (h : s.Makes t lines)
    (h' : t.Makes u others) : s.Makes u (lines ++ others) :=
  ⟨h.steps.trans h'.steps, List.map_append ▸ h.fresh.append h'.fresh⟩

theorem Scopes.Makes.create {s : Scopes} {line : Line} (hscope : line.scope = s.fresh)
    (parent : Option ScopeId) : s.Makes (s.create parent).2 [line] := by
  refine ⟨Scopes.Steps.refl.create _, ?_⟩
  rw [List.map_singleton, hscope]
  exact .create _ _

theorem copyItems_makes (site : Position) (items : List Item) (c : Copying) :
    c.scopes.Makes ((copyItems site items).run c).2.scopes
      (linesOf ((copyItems site items).run c).1) :=
  copyItems_lines (G := fun c _ c' copies => c.scopes.Makes c'.scopes copies) (fun _ => .nil _)
    .append (fun _ _ => .create rfl _) items c

namespace Assembly

variable {α : Type} {owned others : List ScopeId} {s s' : Session}

/-- Work that gives lines which own new scopes. -/
def Issues (x : Assembly (List Item)) : Prop :=
  ∀ ⦃s items s'⦄, x s = .ok items s' → s.Leads [] s' ∧ s.scopes.Fresh s'.scopes (ownedBy items)

theorem Leads.bind_issues {x : Assembly α} {f : α → Assembly (List Item)} (hx : Leads [] x)
    (hf : ∀ a, Issues (f a)) : Issues (x >>= f) := by
  intro s items s' h
  obtain ⟨a, t, hxa, hfa⟩ := bind_eq_ok.mp h
  have hst := hx hxa
  obtain ⟨hts, hfresh⟩ := hf a hfa
  exact ⟨hst.trans hts, (Scopes.Fresh.of_le hst.size_le).append hfresh⟩

theorem issues_instanceOf (line : Line) (template target : ScopeId) (body : List Item) :
    Issues (instanceOf line template target body) := by
  intro s items s' h
  simp only [instanceOf, bind_eq_ok, scopes_eq_ok, setScopes_eq_ok, pure_eq_ok] at h
  obtain ⟨_, _, ⟨rfl, rfl⟩, _, _, rfl, rfl, rfl⟩ := h
  have hcopy := copyItems_makes line.position body
    { images := [(template, target)], scopes := s.scopes }
  exact ⟨hcopy.steps.mono fun _ h => h.elim, map_scope_linesOf _ ▸ hcopy.fresh⟩

/-! ## Expanding -/

theorem leads_bindParameters (scope : ScopeId) (args : List Expr)
    (parameters : List (String × Option Expr)) :
    Leads owned (bindParameters scope args parameters) :=
  moves_bindParameters fun _ _ _ _ _ _ h => Scopes.Steps.refl.add h

theorem issues_openInvocation (line : Line) (template : Template) :
    Issues (openInvocation line template) := by
  intro s items s' h
  obtain ⟨s₁, scopes, hbind, hhorizon, hinstance⟩ := openInvocation_eq_ok h
  have hbound : s.Leads [] s₁ :=
    (show s.Leads [] { s with scopes := _ } from Scopes.Steps.refl.create _).trans
      (leads_bindParameters _ _ _ hbind)
  have hmarked : s.scopes.Steps (fun id => id ∈ [] ∨ s.scopes.size ≤ id.index) scopes := by
    rcases hhorizon with ⟨-, rfl⟩ | ⟨mark, -, rfl⟩
    · exact hbound
    · exact hbound.modify ⟨fun _ => rfl, fun _ => rfl, fun _ h => h⟩ (.inl (Nat.le_refl _))
        (.inr fun _ => rfl)
  have hopened : s.Leads [] { s₁ with
      scopes := (scopes.create (some s.scopes.fresh)).2.setBody line.scope scopes.fresh } :=
    (hmarked.create (some s.scopes.fresh)).modify ⟨fun _ => rfl, fun _ => rfl, fun _ h => nomatch h⟩
      (.inr fun _ => rfl) (.inr fun _ => rfl)
  obtain ⟨hcopied, hfresh⟩ := issues_instanceOf _ _ _ _ hinstance
  exact ⟨hopened.trans hcopied, (Scopes.Fresh.of_le hopened.size_le).append hfresh⟩

theorem issues_openIteration (line : Line) (var : Option String) (body : List Item) (i : Nat)
    (value : Expr) : Issues (openIteration line var body i value) := by
  refine (leads_createScope _).bind_issues fun iteration =>
    (leads_addSymbol _ _ _).bind_issues fun _ => ?_
  split
  · exact (leads_addSymbol _ _ _).bind_issues fun _ => issues_instanceOf _ _ _ _
  · exact issues_instanceOf _ _ _ _

/-- **Expanding marks the scopes of the lines that are expanded and new ones only.** -/
theorem expanding_leads (s : Session) (owned : List ScopeId) : Expanding (s.Leads owned)
    (fun _ item => ∀ id ∈ item.owned, id ∈ owned ∨ s.scopes.size ≤ id.index) (fun _ _ _ => True)
    (fun _ => True) := by
  have hopens : ∀ {t t' : Session} {items : List Item}, s.Leads owned t →
      t.Leads [] t' ∧ t.scopes.Fresh t'.scopes (ownedBy items) → s.Leads owned t' ∧
        ∀ item ∈ items, ∀ id ∈ item.owned, id ∈ owned ∨ s.scopes.size ≤ id.index := by
    rintro t t' items hs ⟨hst, hfresh⟩
    refine ⟨hs.step hst (List.forall_mem_nil _), fun item hitem id hid => .inr ?_⟩
    exact Nat.le_trans hs.size_le (hfresh.2.2 id (Item.owned_subset hitem hid)).1
  exact {
    withOperation := fun op h => by rwa [Item.owned_withOperation]
    block := fun h item hitem id hid => h id (List.mem_cons_of_mem _ (Item.owned_subset hitem hid))
    choice := fun h item hitem id hid => h id (List.mem_cons_of_mem _ (List.mem_append.mpr
      ((List.mem_append.mp hitem).imp (Item.owned_subset · hid) (Item.owned_subset · hid))))
    register := fun h hs hitems => hs.step (leads_register _ h) fun id hid =>
      have ⟨item, hitem, hid⟩ := mem_ownedBy.mp hid
      hitems item hitem id hid
    invocation := fun _ hopen hs _ => hopens hs (issues_openInvocation _ _ hopen)
    iteration := fun hopen hs _ _ => hopens hs (issues_openIteration _ _ _ _ _ hopen)
    park := fun hs => hs }

end Assembly

/-! ## Reading -/

theorem dated_predefined : predefinedScopes.Dated := by
  intro id binding ⟨scope, hscope, hbinding⟩
  have hnode := (Array.mem_of_getElem? hscope).val
  cases List.mem_singleton.mp hnode
  rcases List.mem_append.mp hbinding with hbinding | hbinding
  · obtain ⟨⟨value, i⟩, hvalue, rfl⟩ := List.mem_map.mp (List.mem_reverse.mp hbinding)
    exact Nat.succ_le_of_lt (List.snd_lt_of_mem_zipIdx hvalue)
  · cases List.mem_singleton.mp hbinding
    exact Nat.zero_le _

/-- Lines that are read own new scopes. -/
theorem Scopes.account_makes : Scopes.Account (fun _ _ => True) Scopes.Makes where
  nil _ := .nil _
  append := .append
  keeps _ _ := trivial
  unused {s scope} _ := by
    refine ⟨Scopes.Steps.refl.create _, .of_le ?_⟩
    rw [Scopes.size_create]
    exact Nat.le_succ _
  read _ _ hscope := ⟨.create hscope _, trivial⟩

namespace Assembly

/-- The lines of a text own new scopes. -/
theorem loadText_makes {text : String} {source : Source} {s s' : Session}
    (h : loadText text s = .ok source s') :
    s.Leads [] s' ∧ s.scopes.Fresh s'.scopes (ownedBy source.items) := by
  have hload : (Origin.text text).load s = .ok source s' := h
  have hmakes := (Origin.load_reads hload).2.2.account Scopes.account_makes trivial
  have hcreated : s.Leads [] { s with scopes := (s.scopes.create (some s.builtins)).2 } :=
    Scopes.Steps.refl.create _
  have hfresh := (Scopes.Fresh.of_le hcreated.size_le).append hmakes.fresh
  rw [map_scope_linesOf] at hfresh
  exact ⟨hcreated.trans (hmakes.steps.mono fun _ h => h.elim), hfresh⟩

end Assembly

end Z80Asm
