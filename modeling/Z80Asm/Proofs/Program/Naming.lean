import Z80Asm.Program.Assemble
import Z80Asm.Proofs.Line.Spelling
import Z80Asm.Proofs.Program.Course

/-!
# The names that assembling binds

All names that are bound are spelled as names. In the scope that a source is read into, its root, only
labels are bound, and these are words: the numbers of iterations are bound in the scopes of lines,
variables and parameters in new scopes, and none of these is a root. Nor does a root have a body, for
bodies belong to the scopes of lines. `Session.Rooted` says so of a root. Reading a source makes its
scope a root, and what is read or assembled later keeps all that are there (`Session.Planted`).

The listing needs this: it writes names out, and what is no name could not be read back.

The variable of a repetition is read as an argument, where an apostrophe may stand in a name. That
is why bound names in general are only asked to be `Text.IsName`, and why it matters that roots bind
labels.
-/
set_option autoImplicit false

namespace Z80Asm

open Success

/-! ## Arenas -/

/-- All names are spelled as names; those in the scope `root` are words, but for `$`, and it has no
    body. -/
structure Scopes.Rooted (root : ScopeId) (s : Scopes) : Prop where
  names : ∀ id binding, s.HasBinding id binding → Text.IsName binding.name
  known : root.index < s.size
  words : ∀ binding, s.HasBinding root binding →
    binding.name = selfName ∨ Text.IsWord binding.name
  bare : s.body? root = none

namespace Scopes.Rooted

variable {root id : ScopeId} {s t : Scopes}

theorem fresh_ne (h : s.Rooted root) : s.fresh ≠ root := by
  intro heq
  have hknown := h.known
  rw [← heq] at hknown
  exact Nat.lt_irrefl _ hknown

theorem create (h : s.Rooted root) (parent : Option ScopeId) :
    Rooted root (s.create parent).2 where
  names id binding hbinding := by
    rcases hasBinding_create.mp hbinding with hbinding | ⟨-, rfl⟩
    · exact h.names id binding hbinding
    · exact Text.isName_selfName
  known := by
    rw [size_create]
    exact Nat.lt_succ_of_lt h.known
  words binding hbinding := by
    rcases hasBinding_create.mp hbinding with hbinding | ⟨-, rfl⟩
    · exact h.words binding hbinding
    · exact .inl rfl
  bare := (body?_create s parent root).trans h.bare

theorem add {name : String} {value : Expr} (h : s.Rooted root) (hname : Text.IsName name)
    (hword : id = root → Text.IsWord name) (hadd : s.add id name value = .ok t) :
    t.Rooted root where
  names other binding hbinding := by
    obtain ⟨scope, -, -, rfl⟩ := add_eq_ok hadd
    rcases hasBinding_bind hbinding with hbinding | ⟨-, rfl⟩
    · exact h.names other binding hbinding
    · exact hname
  known := (extends_add hadd).index_lt h.known
  words binding hbinding := by
    obtain ⟨scope, -, -, rfl⟩ := add_eq_ok hadd
    rcases hasBinding_bind hbinding with hbinding | ⟨hroot, rfl⟩
    · exact h.words binding hbinding
    · exact .inr (hword hroot.symm)
  bare := (body?_add hadd root).trans h.bare

/-- Setting something about a scope, its body only if it is not the root. -/
theorem modify {f : Scope → Scope} (h : s.Rooted root)
    (hbindings : ∀ scope, (f scope).bindings = scope.bindings)
    (hbody : id ≠ root ∨ ∀ scope, (f scope).body = scope.body) : (s.modify id f).Rooted root where
  names other binding hbinding := h.names other binding ((hasBinding_modify hbindings).mp hbinding)
  known := by
    rw [size_modify]
    exact h.known
  words binding hbinding := h.words binding ((hasBinding_modify hbindings).mp hbinding)
  bare := by
    rcases hbody with hne | hbody
    · rw [body?, get?_modify, if_neg hne]
      exact h.bare
    · exact (body?_modify s hbody id root).trans h.bare

theorem setAddress {address : UInt32} (h : s.Rooted root)
    (hset : s.setAddress id address = .ok t) : t.Rooted root := by
  rw [setAddress_eq] at hset
  split at hset
  · cases hset
  · cases hset
    exact h.modify (fun _ => rfl) (.inr fun _ => rfl)

end Scopes.Rooted

/-! ## Lines -/

/-- A line that is spelled as lines are, and whose scope is not the root. -/
structure Line.Fits (root : ScopeId) (line : Line) : Prop where
  spelled : line.Spelled
  scope_ne : line.scope ≠ root

theorem Expr.declared?_rename (f : ScopeId → ScopeId) (e : Expr) :
    (e.rename f).declared? = e.declared? := by
  cases e with
  | ident name scope => rfl
  | binary op left right =>
    cases op with
    | eq => cases left <;> rfl
    | _ => rfl
  | _ => rfl

theorem Expr.elements_rename (f : ScopeId → ScopeId) (e : Expr) :
    (e.rename f).elements = e.elements.map (Expr.rename f) := by
  cases e with
  | seq items => exact renameItems_eq_map f items
  | _ => rfl

/-- A copy of a line has the label of the line, and its arguments declare the same names. -/
theorem Line.copy_fits (site : Position) {root : ScopeId} {line : Line} {c : Copying}
    (hc : c.scopes.Rooted root) (hline : line.Spelled) :
    ((line.copy site).run c).2.scopes.Rooted root ∧ ((line.copy site).run c).1.Fits root := by
  refine ⟨hc.create _, ⟨hline.label, ?_⟩, hc.fresh_ne⟩
  intro e he name hname
  cases harguments : line.arguments with
  | none =>
    have hnone : ((line.copy site).run c).1.argumentList = [] := by
      show ((line.arguments.map _).map _).getD [] = _
      rw [harguments]
      rfl
    rw [hnone] at he
    cases he
  | some whole =>
    obtain ⟨images, hcopy⟩ : ∃ images : ScopeMap, ((line.copy site).run c).1.argumentList =
        ((line.arguments.map fun e => e.rename images.apply).map Expr.elements).getD [] := ⟨_, rfl⟩
    rw [hcopy, harguments] at he
    replace he : e ∈ (whole.rename images.apply).elements := he
    rw [Expr.elements_rename] at he
    obtain ⟨original, horiginal, rfl⟩ := List.mem_map.mp he
    rw [Expr.declared?_rename] at hname
    refine hline.arguments original ?_ name hname
    rw [Line.argumentList, harguments]
    exact horiginal

/-- Copies of lines own new scopes, and are spelled as the lines are. -/
theorem copyItems_fits (site : Position) {root : ScopeId} (items : List Item) {c : Copying}
    (hc : c.scopes.Rooted root) (hitems : ∀ line ∈ linesOf items, line.Spelled) :
    ((copyItems site items).run c).2.scopes.Rooted root ∧
      ∀ line ∈ linesOf ((copyItems site items).run c).1, line.Fits root := by
  refine copyItems_lines (G := fun c lines c' copies => c.scopes.Rooted root →
    (∀ line ∈ lines, line.Spelled) → c'.scopes.Rooted root ∧ ∀ line ∈ copies, line.Fits root)
    (fun _ hc _ => ⟨hc, List.forall_mem_nil _⟩) ?_ (fun c line hc hline => ?_) items c hc hitems
  · intro c c' c'' lines copies lines' copies' h h' hc hlines
    obtain ⟨hfirst, hrest⟩ := List.forall_mem_append.mp hlines
    obtain ⟨hrooted, hfits⟩ := h hc hfirst
    obtain ⟨hrooted', hfits'⟩ := h' hrooted hrest
    exact ⟨hrooted', List.forall_mem_append.mpr ⟨hfits, hfits'⟩⟩
  · obtain ⟨hrooted, hfits⟩ := Line.copy_fits site hc (List.forall_mem_singleton.mp hline)
    exact ⟨hrooted, List.forall_mem_singleton.mpr hfits⟩

/-! ## Sessions -/

/-- A macro that is going to bind words and names. -/
structure Template.Spelled (template : Template) : Prop where
  body : ∀ line ∈ linesOf template.body, line.Spelled
  parameters : ∀ parameter ∈ template.parameters, Text.IsName parameter.1

/-- Every name that is bound is spelled as one, and so is every name that a macro is going to bind. -/
structure Session.Named (s : Session) : Prop where
  names : ∀ id binding, s.scopes.HasBinding id binding → Text.IsName binding.name
  templates : ∀ template ∈ s.templates, template.Spelled

structure Session.Rooted (root : ScopeId) (s : Session) : Prop where
  scopes : s.scopes.Rooted root
  templates : ∀ template ∈ s.templates, template.Spelled

theorem Session.Rooted.named {root : ScopeId} {s : Session} (h : s.Rooted root) : s.Named :=
  ⟨h.scopes.names, h.templates⟩

theorem Session.Rooted.withScopes {root : ScopeId} {s : Session} (h : s.Rooted root)
    {scopes : Scopes} (hscopes : scopes.Rooted root) : Session.Rooted root { s with scopes } :=
  ⟨hscopes, h.templates⟩

namespace Assembly

/-! ## Binding labels -/

section

variable {root : ScopeId}

theorem declared?_of_parameterOf {e : Expr} {parameter : String × Option Expr}
    (h : parameterOf e = .ok parameter) : e.declared? = some parameter.1 := by
  unfold parameterOf at h
  split at h
  · cases h
    rfl
  · cases h
    rfl
  · cases h

theorem isName_of_mapM_parameterOf {args : List Expr} {parameters : List (String × Option Expr)}
    (hargs : ∀ e ∈ args, ∀ name, e.declared? = some name → Text.IsName name)
    (h : args.mapM parameterOf = .ok parameters) :
    ∀ parameter ∈ parameters, Text.IsName parameter.1 := by
  induction args generalizing parameters with
  | nil =>
    cases h
    exact List.forall_mem_nil _
  | cons e rest ih =>
    simp only [List.mapM_cons, except_bind_eq_ok, except_pure_eq_ok] at h
    obtain ⟨parameter, hparameter, others, hothers, rfl⟩ := h
    obtain ⟨he, hrest⟩ := List.forall_mem_cons.mp hargs
    exact List.forall_mem_cons.mpr
      ⟨he _ (declared?_of_parameterOf hparameter), ih hrest hothers⟩

theorem guards_bindLabel {item : Item} (h : ∀ line ∈ item.lines, line.Spelled) :
    Guards (Session.Rooted root) (bindLabel item) := by
  refine moves_bindLabel (fun label => moves_labelValue ?_ ?_) ?_ fun s hs => ?_
  · exact fun s hs => ⟨hs.scopes, hs.templates⟩
  · rintro line body rfl parameters hparameters s hs
    obtain ⟨hline, hbody⟩ := List.forall_mem_cons.mp h
    refine ⟨hs.scopes, fun template htemplate => ?_⟩
    rcases Array.mem_push.mp htemplate with hold | rfl
    · exact hs.templates template hold
    · exact ⟨hbody, isName_of_mapM_parameterOf hline.arguments hparameters⟩
  · intro label hlabel s parent value scopes hadd hs
    have hword : Text.IsWord label := (h _ item.line_mem_lines).label label hlabel
    exact hs.withScopes (hs.scopes.add hword.isName (fun _ => hword) hadd)
  · exact hs.withScopes (hs.scopes.modify (fun _ => rfl) (.inr fun _ => rfl))

theorem guards_register (items : List Item) (h : ∀ line ∈ linesOf items, line.Spelled) :
    Guards (Session.Rooted root) (register items) :=
  moves_register Item.forall_mem_body guards_bindLabel items (forall_mem_linesOf.mp h)

/-! ## Expanding -/

/-- Work that gives lines which are going to be registered and expanded. -/
def Provides (root : ScopeId) (x : Assembly (List Item)) : Prop :=
  ∀ ⦃s items s'⦄, x s = .ok items s' → s.Rooted root →
    s'.Rooted root ∧ ∀ line ∈ linesOf items, line.Fits root

theorem provides_instanceOf (line : Line) (template target : ScopeId) {body : List Item}
    (hbody : ∀ line ∈ linesOf body, line.Spelled) :
    Provides root (instanceOf line template target body) := by
  intro s items s' h hs
  simp only [instanceOf, bind_eq_ok, scopes_eq_ok, setScopes_eq_ok, pure_eq_ok] at h
  obtain ⟨_, _, ⟨rfl, rfl⟩, _, _, rfl, rfl, rfl⟩ := h
  have hstart : (Copying.mk [(template, target)] s.scopes).scopes.Rooted root := hs.scopes
  obtain ⟨hscopes, hfits⟩ := copyItems_fits line.position body hstart hbody
  exact ⟨hs.withScopes hscopes, hfits⟩

/-- The scopes of the parameters and of the invocation are new, and the body belongs to the scope of
    the invoking line. -/
theorem openInvocation_provides {line : Line} {template : Template} {items : List Item}
    {s s' : Session} (h : openInvocation line template s = .ok items s') (hs : s.Rooted root)
    (hline : line.scope ≠ root) (htemplate : template ∈ s.templates) :
    s'.Rooted root ∧ ∀ line ∈ linesOf items, line.Fits root := by
  obtain ⟨hbody, hparameters⟩ := hs.templates template htemplate
  obtain ⟨s₁, scopes, hbind, hhorizon, hinstance⟩ := openInvocation_eq_ok h
  have hcreated : Session.Rooted root
      { s with scopes := (s.scopes.create (some template.scope)).2 } :=
    hs.withScopes (hs.scopes.create _)
  have hbound : s₁.Rooted root :=
    moves_bindParameters (R := fun s t => s.Rooted root → t.Rooted root)
      (fun parameter hparameter _ _ _ _ hadd hs' => hs'.withScopes (hs'.scopes.add
        (hparameters parameter hparameter) (fun heq => absurd heq hs.scopes.fresh_ne) hadd))
      hbind hcreated
  have hscopes : scopes.Rooted root := by
    rcases hhorizon with ⟨-, rfl⟩ | ⟨mark, -, rfl⟩
    · exact hbound.scopes
    · exact hbound.scopes.modify (fun _ => rfl) (.inr fun _ => rfl)
  have hopened : Session.Rooted root { s₁ with
      scopes := (scopes.create (some s.scopes.fresh)).2.setBody line.scope scopes.fresh } :=
    hbound.withScopes ((hscopes.create _).modify (fun _ => rfl) (.inl hline))
  exact provides_instanceOf _ _ _ hbody hinstance hopened

/-- Numbers are written with digits, which are characters of words. -/
theorem isName_toString (n : Nat) : Text.IsName (toString n) := by
  intro c hc
  have hdigit : c.isDigit = true := by
    rw [Nat.toString_eq_repr, Nat.repr, String.toList_ofList] at hc
    exact Nat.isDigit_of_mem_toDigits (by omega) (by omega) hc
  exact .inl (by simp [Text.isIdentChar, hdigit])

theorem openIteration_provides {line : Line} {var : Option String} {body : List Item}
    (hline : line.scope ≠ root) (hvar : ∀ name ∈ var, Text.IsName name)
    (hbody : ∀ line ∈ linesOf body, line.Spelled) (i : Nat) (value : Expr) :
    Provides root (openIteration line var body i value) := by
  intro s items s' h hs
  obtain ⟨iteration, s₁, hcreate, hrest⟩ := bind_eq_ok.mp h
  obtain ⟨rfl, rfl⟩ := createScope_eq_ok.mp hcreate
  obtain ⟨_, s₂, hnumber, hlast⟩ := bind_eq_ok.mp hrest
  have hcreated : Session.Rooted root { s with scopes := (s.scopes.create (some line.scope)).2 } :=
    hs.withScopes (hs.scopes.create _)
  obtain ⟨scopes, hadd, rfl⟩ := addSymbol_eq_ok.mp hnumber
  have hnumbered := hcreated.withScopes
    (hcreated.scopes.add (isName_toString i) (fun heq => absurd heq hline) hadd)
  cases var with
  | none => exact provides_instanceOf _ _ _ hbody hlast hnumbered
  | some name =>
    obtain ⟨_, s₃, hbind, hinstance⟩ := bind_eq_ok.mp hlast
    obtain ⟨scopes, hadd, rfl⟩ := addSymbol_eq_ok.mp hbind
    have hbound := hnumbered.withScopes
      (hnumbered.scopes.add (hvar name rfl) (fun heq => absurd heq hs.scopes.fresh_ne) hadd)
    exact provides_instanceOf _ _ _ hbody hinstance hbound

theorem isName_of_variableName {e : Expr} {name : String}
    (he : ∀ name, e.declared? = some name → Text.IsName name) (h : variableName e = .ok name) :
    Text.IsName name := by
  unfold variableName at h
  split at h
  · next name' hname =>
    cases h
    cases e with
    | ident other scope =>
      cases hname
      exact he _ rfl
    | _ => cases hname
  · cases h

theorem isName_of_reptValues {s : Scopes} {line : Line} {var : Option String} {values : List Expr}
    (hline : line.Spelled) (h : reptValues s line = .ok (var, values)) :
    ∀ name ∈ var, Text.IsName name := by
  unfold reptValues at h
  dsimp only at h
  split at h
  · simp only [except_bind_eq_ok] at h
    obtain ⟨count, -, h⟩ := h
    split at h
    · simp at h
    · simp only [except_bind_eq_ok, except_pure_eq_ok] at h
      obtain ⟨var', hvar, start, -, step, -, heq⟩ := h
      cases heq
      intro name hname
      cases harg : line.argumentList[1]? with
      | none =>
        rw [harg] at hvar
        cases hvar
        cases hname
      | some e =>
        rw [harg] at hvar
        cases hname
        simp only [Option.mapM_some, except_map_eq_ok] at hvar
        obtain ⟨name', hvariable, hsome⟩ := hvar
        cases hsome
        exact isName_of_variableName (hline.arguments e (List.mem_of_getElem? harg)) hvariable
  · simp at h

theorem isName_of_irpValues {line : Line} {var : Option String} {values : List Expr}
    (hline : line.Spelled) (h : irpValues line = .ok (var, values)) :
    ∀ name ∈ var, Text.IsName name := by
  unfold irpValues at h
  split at h
  · cases h
  · next e rest hargs =>
    simp only [except_bind_eq_ok, except_pure_eq_ok] at h
    obtain ⟨name, hvariable, heq⟩ := h
    cases heq
    intro other hother
    cases hother
    refine isName_of_variableName (hline.arguments e ?_) hvariable
    rw [hargs]
    exact List.mem_cons_self

/-- What is expanded owns no root, and neither do the instances that are made of it. -/
theorem expanding_rooted (root : ScopeId) : Expanding (Session.Rooted root)
    (fun _ item => ∀ line ∈ item.lines, line.Fits root) (fun _ var _ => ∀ name ∈ var, Text.IsName name)
    (fun _ => True) where
  withOperation op h := Item.forall_mem_withOperation h op fun hline =>
    ⟨⟨hline.spelled.label, hline.spelled.arguments⟩, hline.scope_ne⟩
  block := Item.forall_mem_body
  choice := Item.forall_mem_branches
  register h hs hitems := guards_register _ (fun line hline =>
    (forall_mem_linesOf.mpr hitems line hline).spelled) h hs
  invocation htemplate hopen hs hitem :=
    (openInvocation_provides hopen hs (hitem _ (Item.line_mem_lines _)).scope_ne htemplate).imp_right
      forall_mem_linesOf.mp
  rept h := isName_of_reptValues (h _ List.mem_cons_self).spelled
  irp h := isName_of_irpValues (h _ List.mem_cons_self).spelled
  iteration hopen hs h hvar :=
    have ⟨hline, hbody⟩ := List.forall_mem_cons.mp h
    (openIteration_provides hline.scope_ne hvar (fun line hline => (hbody line hline).spelled) _ _
      hopen hs).imp_right forall_mem_linesOf.mp
  park hs := ⟨hs.scopes, hs.templates⟩

end

/-- The phases of an assembly keep a root that none of the lines owns. -/
theorem guards_assemble {source : Source} {root : ScopeId}
    (hitems : ∀ line ∈ linesOf source.items, line.Fits root) :
    Guards (Session.Rooted root) (assemble source) := by
  intro s program s' h hs
  obtain ⟨items, s₁, s₂, t, hregister, hexpand, hplace, -, -, -, hlast⟩ := phases_of_assemble h
  have hregistered : s₁.Rooted root :=
    guards_register _ (fun line hline => (hitems line hline).spelled) hregister hs
  obtain ⟨_, _, _, hunfolds, -⟩ := expandLevels_unfolds _ [] hexpand
  have hexpanded : s₂.Rooted root :=
    ((expanding_rooted root).keeps hunfolds hregistered (forall_mem_linesOf.mp hitems)).1
  have hplaced : t.Rooted root :=
    moves_placeLines (R := fun s t => s.Rooted root → t.Rooted root)
      (fun _ _ _ _ hset hs => hs.withScopes (hs.scopes.setAddress hset))
      (fun _ _ hs => ⟨hs.scopes, hs.templates⟩) _ _ hplace hexpanded
  rw [hlast]
  exact ⟨hplaced.scopes, hplaced.templates⟩

theorem size_le_of_assemble {source : Source} {program : Program} {s s' : Session}
    (h : assemble source s = .ok program s') : s.scopes.size ≤ s'.scopes.size := by
  obtain ⟨items, s₁, s₂, t, -, -, -, -, hadvances, -, hlast⟩ := phases_of_assemble h
  rw [hlast]
  exact hadvances.scopes.size_le

end Assembly

/-! ## Sources -/

/-- Lines that are read are spelled as lines are, and own new scopes. -/
theorem Scopes.account_fits (root : ScopeId) : Scopes.Account (fun s _ => s.Rooted root)
    (fun _ t lines => t.Rooted root ∧ ∀ line ∈ lines, line.Fits root) :=
  .ofLines (fun h => h.create _) fun h hnext hscope =>
    ⟨Reader.next_spelled hnext, hscope ▸ h.fresh_ne⟩

/-- A new scope is a root. -/
theorem Session.Named.create {s : Session} (hs : s.Named) (parent : Option ScopeId) :
    Session.Rooted s.scopes.fresh { s with scopes := (s.scopes.create parent).2 } where
  scopes :=
    { names := fun id binding hbinding => by
        rcases Scopes.hasBinding_create.mp hbinding with hbinding | ⟨-, rfl⟩
        · exact hs.names id binding hbinding
        · exact Text.isName_selfName
      known := by
        rw [Scopes.size_create]
        exact Nat.lt_succ_self _
      words := fun binding hbinding => by
        rcases Scopes.hasBinding_create.mp hbinding with ⟨scope, hscope, -⟩ | ⟨-, rfl⟩
        · rw [Scopes.get?_fresh] at hscope
          cases hscope
        · exact .inl rfl
      bare := by
        rw [Scopes.body?_create, Scopes.body?, Scopes.get?_fresh]
        rfl }
  templates := hs.templates

/-- Sessions in which sources have been read, and some of these assembled, in any order. What failed
    is not followed any further. -/
inductive Session.Arises (library : Library) : List Source → Session → Prop
  | new : Arises library [] (Session.new library)
  | load {sources : List Source} {origin : Origin} {source : Source} {s t : Session}
      (h : Arises library sources s) (hload : origin.load s = .ok source t) :
      Arises library (source :: sources) t
  | assemble {sources : List Source} {source : Source} {program : Program} {s t : Session}
      (h : Arises library sources s) (hsource : source ∈ sources)
      (hassemble : Assembly.assemble source s = .ok program t) : Arises library sources t

/-- The scopes of the sources are roots that no line of any of them owns. -/
structure Session.Planted (sources : List Source) (s : Session) : Prop where
  named : s.Named
  rooted : ∀ source ∈ sources, s.Rooted source.scope
  fits : ∀ source ∈ sources, ∀ other ∈ sources, ∀ line ∈ linesOf source.items,
    line.Fits other.scope
  known : ∀ source ∈ sources, ∀ line ∈ linesOf source.items, line.scope.index < s.scopes.size

theorem Session.Planted.load {sources : List Source} {origin : Origin} {source : Source}
    {s t : Session} (h : s.Planted sources) (hload : origin.load s = .ok source t) :
    t.Planted (source :: sources) := by
  -- A root before the lines are read, old or new, is one afterwards.
  have hroot : ∀ root, Session.Rooted root { s with scopes := (s.scopes.create (some s.builtins)).2 } →
      t.Rooted root ∧ ∀ line ∈ linesOf source.items, line.Fits root := by
    intro root hs
    obtain ⟨-, hlast, hreads⟩ := Origin.load_reads hload
    obtain ⟨hscopes, hfits⟩ := hreads.account (Scopes.account_fits root) hs.scopes
    rw [hlast]
    exact ⟨⟨hscopes, hs.templates⟩, hfits⟩
  obtain ⟨hscope, -, hreads⟩ := Origin.load_reads hload
  have hmakes := hreads.account Scopes.account_makes trivial
  obtain ⟨hrooted, hfits⟩ := hroot source.scope (hscope ▸ h.named.create _)
  have hold : ∀ other ∈ sources, Session.Rooted other.scope
      { s with scopes := (s.scopes.create (some s.builtins)).2 } :=
    fun other hother => (h.rooted other hother).withScopes ((h.rooted other hother).scopes.create _)
  have hsize : s.scopes.size < t.scopes.size := by
    have hgrown := hmakes.fresh.1
    rw [Scopes.size_create] at hgrown
    exact hgrown
  refine ⟨hrooted.named, ?_, ?_, ?_⟩
  · refine List.forall_mem_cons.mpr ⟨hrooted, ?_⟩
    intro other hother
    exact (hroot _ (hold other hother)).1
  · refine List.forall_mem_cons.mpr ⟨List.forall_mem_cons.mpr ⟨hfits, ?_⟩, ?_⟩
    · intro other hother
      exact (hroot _ (hold other hother)).2
    · intro first hfirst
      refine List.forall_mem_cons.mpr ⟨?_, h.fits first hfirst⟩
      intro line hline
      refine ⟨(h.fits first hfirst first hfirst line hline).spelled, ?_⟩
      -- The new root has the next index.
      intro heq
      have hknown := h.known first hfirst line hline
      rw [heq, hscope] at hknown
      exact Nat.lt_irrefl _ hknown
  · refine List.forall_mem_cons.mpr ⟨?_, ?_⟩
    · intro line hline
      exact (hmakes.fresh.2.2 line.scope (List.mem_map_of_mem hline)).2
    · intro first hfirst line hline
      exact Nat.lt_trans (h.known first hfirst line hline) hsize

theorem Session.Planted.assemble {sources : List Source} {source : Source} {program : Program}
    {s t : Session} (h : s.Planted sources) (hsource : source ∈ sources)
    (hassemble : Assembly.assemble source s = .ok program t) : t.Planted sources := by
  have hrooted : ∀ other ∈ sources, t.Rooted other.scope := fun other hother =>
    Assembly.guards_assemble (h.fits source hsource other hother) hassemble (h.rooted other hother)
  refine ⟨(hrooted source hsource).named, hrooted, h.fits, ?_⟩
  intro first hfirst line hline
  exact Nat.lt_of_lt_of_le (h.known first hfirst line hline)
    (Assembly.size_le_of_assemble hassemble)

/-! ## Predefined names -/

theorem Text.isIdentChar_toUpper {c : Char} (h : isIdentChar c = true) :
    isIdentChar c.toUpper = true := by
  unfold Char.toUpper
  split
  · next hlower =>
    obtain ⟨hle, hge⟩ := hlower
    rw [UInt32.le_iff_toNat_le] at hle hge
    have hletter : 'A'.val ≤ c.val + ('A'.val - 'a'.val) ∧
        c.val + ('A'.val - 'a'.val) ≤ 'Z'.val := by
      simp only [UInt32.le_iff_toNat_le, UInt32.toNat_add, UInt32.toNat_sub]
      simp at hle hge ⊢
      omega
    have halpha : ∀ hvalid, Char.isAlpha ⟨c.val + ('A'.val - 'a'.val), hvalid⟩ = true := by
      intro hvalid
      have hupper : Char.isUpper ⟨c.val + ('A'.val - 'a'.val), hvalid⟩ = true :=
        decide_eq_true hletter
      show (Char.isUpper _ || Char.isLower _) = true
      rw [hupper, Bool.true_or]
    simp only [isIdentChar, isIdentStart, halpha, Bool.true_or]
  · exact h

theorem isName_of_mem_spellings {base name : String} (hbase : Text.IsName base)
    (h : name ∈ spellings base) : Text.IsName name := by
  rcases List.mem_cons.mp h with rfl | h
  · exact hbase
  · rw [List.mem_singleton.mp h]
    intro c hc
    rw [Text.upper, String.toList_ofList] at hc
    obtain ⟨d, hd, rfl⟩ := List.mem_map.mp hc
    rcases hbase d hd with hd | rfl
    · exact .inl (Text.isIdentChar_toUpper hd)
    · exact .inr rfl

theorem isName_of_mem_dottedSpellings {base name : String} (hbase : Text.IsName base)
    (h : name ∈ dottedSpellings base) : Text.IsName name := by
  rcases List.mem_append.mp h with h | h
  · exact isName_of_mem_spellings hbase h
  · obtain ⟨spelling, hspelling, rfl⟩ := List.mem_map.mp h
    refine Text.IsName.append ?_ (isName_of_mem_spellings hbase hspelling)
    intro c hc
    rw [List.mem_singleton.mp hc]
    exact .inl (by decide)

theorem Cpu.Form.exists_of_mem_mnemonics {name : String} (h : name ∈ mnemonics) :
    ∃ form ∈ table, form.mnemonic = name := by
  have hfold : ∀ names found : List String,
      name ∈ names.foldl (fun found name => if found.contains name then found else found ++ [name])
        found → name ∈ found ∨ name ∈ names := by
    intro names
    induction names with
    | nil => exact fun _ h => .inl h
    | cons first rest ih =>
      intro found h
      rcases ih _ h with h | h
      · dsimp only at h
        split at h
        · exact .inl h
        · rcases List.mem_append.mp h with h | h
          · exact .inl h
          · exact .inr (List.mem_singleton.mp h ▸ List.mem_cons_self)
      · exact .inr (List.mem_cons_of_mem _ h)
  rcases hfold _ [] h with h | h
  · cases h
  · exact List.mem_map.mp h

/-- The names of a table, checked one by one. -/
theorem isName_of_all {α : Type} {f : α → String} {table : List α}
    (h : table.all (fun a => (f a).toList.all fun c => Text.isIdentChar c || c == '\'') = true)
    {a : α} (ha : a ∈ table) : Text.IsName (f a) := by
  intro c hc
  simpa using List.all_eq_true.mp (List.all_eq_true.mp h a ha) c hc

theorem isName_predefined : ∀ entry ∈ predefined, Text.IsName entry.1 := by
  have hregisters : ∀ reg ∈ Cpu.Register.all, Text.IsName reg.name :=
    fun _ => isName_of_all (by decide)
  have hconditions : ∀ cond ∈ Cpu.Condition.named, Text.IsName cond.name :=
    fun _ => isName_of_all (by decide)
  have hdirectives : ∀ directive ∈ directives, Text.IsName directive.1 :=
    fun _ => isName_of_all (by decide)
  have hforms : ∀ form ∈ Cpu.Form.table, Text.IsName form.mnemonic :=
    fun _ => isName_of_all (by decide +kernel)
  intro entry hentry
  simp only [predefined, List.mem_append, List.mem_flatMap, List.mem_map] at hentry
  rcases hentry with ((⟨reg, hreg, name, hname, rfl⟩ | ⟨cond, hcond, name, hname, rfl⟩) |
    ⟨directive, hdirective, name, hname, rfl⟩) | ⟨mnemonic, hmnemonic, name, hname, rfl⟩
  · exact isName_of_mem_spellings (hregisters reg hreg) hname
  · exact isName_of_mem_spellings (hconditions cond hcond) hname
  · exact isName_of_mem_dottedSpellings (hdirectives directive hdirective) hname
  · obtain ⟨form, hform, rfl⟩ := Cpu.Form.exists_of_mem_mnemonics hmnemonic
    exact isName_of_mem_dottedSpellings (hforms form hform) hname

theorem Session.named_new (library : Library) : (Session.new library).Named where
  names := by
    rintro id binding ⟨scope, hscope, hbinding⟩
    have hnode := (Array.mem_of_getElem? hscope).val
    cases List.mem_singleton.mp hnode
    rcases List.mem_append.mp hbinding with hbinding | hbinding
    · obtain ⟨⟨entry, i⟩, hentry, rfl⟩ := List.mem_map.mp (List.mem_reverse.mp hbinding)
      exact isName_predefined entry (List.fst_mem_of_mem_zipIdx hentry)
    · cases List.mem_singleton.mp hbinding
      exact Text.isName_selfName
  templates := fun template h => by cases Array.not_mem_empty template h

/-- **In a session every source has a scope in which only labels are bound.** -/
theorem Session.Arises.planted {library : Library} {sources : List Source} {s : Session}
    (h : s.Arises library sources) : s.Planted sources := by
  induction h with
  | new =>
    refine ⟨Session.named_new library, ?_, ?_, ?_⟩
    all_goals intro source hsource; cases hsource
  | load _ hload ih => exact ih.load hload
  | assemble _ hsource hassemble ih => exact ih.assemble hsource hassemble

end Z80Asm
