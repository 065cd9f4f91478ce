import Z80Asm.Expr.Eval
import Z80Asm.Proofs.Scope.History

/-!
# The order of bindings

Bindings are numbered in the order in which they are made, and only horizons look at the numbers. In
an arena without horizons the order does not show: arenas in which the same names have the same
values are `Reordered`, and every expression stands for the same and has the same number and string
in both of them (`Reordered.evaluates`). Two names can be bound in either order (`bind_comm`).

Horizons come with the invocations of macros, so all this is about arenas before anything is
expanded. How a scope was registered is left out of the comparison, since it is only read to make a
horizon.
-/
set_option autoImplicit false

namespace Z80Asm

/-- What lookups and evaluation see of a scope. -/
structure Scope.View where
  parent : Option ScopeId
  address : Option UInt32
  body : Option ScopeId
  horizon : Option Nat
  value : String → Option Expr

def Scope.view (scope : Scope) : Scope.View :=
  { parent := scope.parent, address := scope.address, body := scope.body, horizon := scope.horizon,
    value := fun name => (scope.binding? name).map Binding.value }

theorem Scope.find?_none (scope : Scope) (name : String) :
    scope.find? name none = scope.view.value name := by
  show _ = (scope.bindings.find? (·.name == name)).map Binding.value
  unfold Scope.find?
  cases scope.bindings.find? (·.name == name) <;> rfl

/-- The view of a scope in which one more name is bound. -/
def Scope.View.bind (view : Scope.View) (name : String) (value : Expr) : Scope.View :=
  { view with value := fun word => if word = name then some value else view.value word }

theorem Scope.view_bind (scope : Scope) (name : String) (value : Expr) (serial : Nat) :
    Scope.view { scope with bindings := ⟨name, value, serial⟩ :: scope.bindings } =
      scope.view.bind name value := by
  unfold Scope.view Scope.View.bind
  congr 1
  funext word
  by_cases hword : word = name
  · subst hword
    simp [Scope.binding?]
  · have hne : name ≠ word := fun h => hword h.symm
    simp [Scope.binding?, hword, hne]

namespace Scopes

variable {s t u : Scopes}

def view? (s : Scopes) (id : ScopeId) : Option Scope.View :=
  (s.get? id).map Scope.view

/-- No scope hides what is bound later. -/
def Unlimited (s : Scopes) : Prop :=
  ∀ id scope, s.get? id = some scope → scope.horizon = none

theorem Unlimited.create (h : s.Unlimited) (parent : Option ScopeId) :
    (s.create parent).2.Unlimited := by
  intro id scope hscope
  rw [get?_create] at hscope
  split at hscope
  · cases hscope
    rfl
  · exact h id scope hscope

/-- The same names have the same values, whatever the order in which they were bound. -/
structure Reordered (s t : Scopes) : Prop where
  views : ∀ id, t.view? id = s.view? id
  size : t.size = s.size
  aliases : t.aliases = s.aliases
  groups : t.groups = s.groups

namespace Reordered

theorem symm (h : s.Reordered t) : t.Reordered s :=
  ⟨fun id => (h.views id).symm, h.size.symm, h.aliases.symm, h.groups.symm⟩

theorem trans (h : s.Reordered t) (h' : t.Reordered u) : s.Reordered u :=
  ⟨fun id => (h'.views id).trans (h.views id), h'.size.trans h.size, h'.aliases.trans h.aliases,
    h'.groups.trans h.groups⟩

/-- A scope is in both arenas or in none. -/
theorem scopes (h : s.Reordered t) (id : ScopeId) : s.get? id = none ∧ t.get? id = none ∨
    ∃ a b, s.get? id = some a ∧ t.get? id = some b ∧ b.view = a.view := by
  have hviews := h.views id
  unfold view? at hviews
  cases hs : s.get? id with
  | none =>
    rw [hs] at hviews
    exact .inl ⟨rfl, Option.map_eq_none_iff.mp hviews⟩
  | some a =>
    rw [hs] at hviews
    obtain ⟨b, hb, hview⟩ := Option.map_eq_some_iff.mp hviews
    exact .inr ⟨a, b, rfl, hb, hview⟩

theorem parent?_eq (h : s.Reordered t) (id : ScopeId) : t.parent? id = s.parent? id := by
  rcases h.scopes id with ⟨hs, ht⟩ | ⟨a, b, hs, ht, hview⟩
  · rw [parent?, parent?, hs, ht]
  · rw [parent?, parent?, hs, ht]
    exact congrArg Scope.View.parent hview

theorem address_eq (h : s.Reordered t) (id : ScopeId) : t.address id = s.address id := by
  rcases h.scopes id with ⟨hs, ht⟩ | ⟨a, b, hs, ht, hview⟩
  · rw [address, address, hs, ht]
  · have haddress : b.address = a.address := congrArg Scope.View.address hview
    rw [address, address, hs, ht, Option.bind_some, Option.bind_some, haddress]

/-! ## Evaluation -/

theorem lookupInside_eq (h : s.Reordered t) (scopeOf : Expr → Option ScopeId) (levels : Nat)
    (id : ScopeId) (name : String) :
    t.lookupInside scopeOf levels id name none = s.lookupInside scopeOf levels id name none := by
  induction levels generalizing id name with
  | zero => rfl
  | succ levels ih =>
    rw [lookupInside, lookupInside]
    rcases h.scopes id with ⟨hs, ht⟩ | ⟨a, b, hs, ht, hview⟩
    · rw [hs, ht]
    · have hbody : b.body = a.body := congrArg Scope.View.body hview
      simp only [hs, ht, Scope.find?_none, hview, hbody, ih]

/-- The scopes around a scope are the same, and without horizons so is what is found there. -/
theorem findSome?_outward (h : s.Reordered t) (hs : s.Unlimited) (scopeOf : Expr → Option ScopeId)
    (name : String) (fuel : Nat) (id : ScopeId) :
    ((t.outward fuel id none).findSome? fun (id, horizon) =>
        t.lookupInside scopeOf (maxDepth + 1) id name horizon) =
      (s.outward fuel id none).findSome? fun (id, horizon) =>
        s.lookupInside scopeOf (maxDepth + 1) id name horizon := by
  induction fuel generalizing id with
  | zero => rw [outward, outward, List.findSome?_nil, List.findSome?_nil]
  | succ fuel ih =>
    rw [outward, outward]
    rcases h.scopes id with ⟨hsome, hsome'⟩ | ⟨a, b, hsome, hsome', hview⟩
    · rw [hsome, hsome', List.findSome?_nil, List.findSome?_nil]
    · have hhorizon : b.horizon = a.horizon := congrArg Scope.View.horizon hview
      have hparent : b.parent = a.parent := congrArg Scope.View.parent hview
      simp only [hsome, hsome', List.findSome?_cons, h.lookupInside_eq, hparent, hhorizon,
        hs id a hsome]
      cases a.parent with
      | none => rw [List.findSome?_nil, List.findSome?_nil]
      | some parent =>
        have hrest := ih parent
        simp only [nearerHorizon, hrest]

theorem memberValue_eq (h : s.Reordered t) (scopeOf : Expr → Option ScopeId) :
    memberValue t scopeOf = memberValue s scopeOf := by
  funext scope name
  rw [memberValue, memberValue, member?, member?, h.lookupInside_eq]

section

variable (h : s.Reordered t) (hs : s.Unlimited)

include h hs

theorem symbolValue_eq (scopeOf : Expr → Option ScopeId) :
    symbolValue t scopeOf = symbolValue s scopeOf := by
  funext scope name
  rw [symbolValue, symbolValue, symbol?, symbol?, h.size, h.findSome?_outward hs]

theorem evalAt (scopeOf : Expr → Option ScopeId) (steps : Nat) :
    resolveAt t scopeOf steps = resolveAt s scopeOf steps ∧
      integerAt t scopeOf steps = integerAt s scopeOf steps := by
  have hungrouped : resolveUngrouped t = resolveUngrouped s := by
    funext resolve e
    rw [resolveUngrouped, resolveUngrouped, h.groups]
  induction steps with
  | zero => exact ⟨funext fun _ => by rw [resolveAt, resolveAt],
      funext fun _ => by rw [integerAt, integerAt]⟩
  | succ steps ih =>
    constructor
    · funext e
      cases e <;>
        simp only [resolveAt, h.symbolValue_eq hs, h.memberValue_eq, hungrouped, ih.1, ih.2]
    · funext e
      cases e <;> simp only [integerAt, h.symbolValue_eq hs, h.address_eq, ih.1, ih.2]

theorem scopeOf_eq : t.scopeOf = s.scopeOf := by
  have hthrough : ∀ links, scopeThrough t links = scopeThrough s links := by
    intro links
    induction links with
    | zero => funext e; cases e <;> rfl
    | succ links ih =>
      funext e
      cases e with
      | ident name scope => rw [scopeThrough, scopeThrough, ih, (h.evalAt hs _ _).1]
      | _ => rfl
  rw [Scopes.scopeOf, Scopes.scopeOf, h.aliases, hthrough]

/-- **The order of bindings does not show.** In two arenas without horizons in which the same names have
    the same values, an expression stands for the same, and has the same number and the same string. -/
theorem evaluates (e : Expr) :
    e.resolve t = e.resolve s ∧ e.integer t = e.integer s ∧ e.string t = e.string s := by
  have hresolve : Expr.resolve t = Expr.resolve s := by
    funext e
    rw [Expr.resolve, Expr.resolve, h.scopeOf_eq hs, (h.evalAt hs _ _).1]
  refine ⟨congrFun hresolve e, ?_, ?_⟩
  · rw [Expr.integer, Expr.integer, h.scopeOf_eq hs, (h.evalAt hs _ _).2]
  · rw [Expr.string, Expr.string, resolveUngrouped, resolveUngrouped, h.groups, hresolve]

end

end Reordered

/-! ## Binding names -/

theorem view?_bind (s : Scopes) (id : ScopeId) (name : String) (value : Expr) (other : ScopeId) :
    (s.bind id name value).view? other =
      (s.view? other).map fun view => if id = other then view.bind name value else view := by
  show ((s.modify id _).get? other).map _ = ((s.get? other).map _).map _
  rw [get?_modify]
  by_cases hid : id = other
  · cases s.get? other with
    | none => simp [hid]
    | some scope => simp [hid, Scope.view_bind]
  · cases s.get? other <;> simp [hid]

/-- The scope is there and does not bind the name. -/
def Lacks (s : Scopes) (id : ScopeId) (name : String) : Prop :=
  ∃ view, s.view? id = some view ∧ view.value name = none

theorem lacks_bind_iff {id other : ScopeId} {name word : String} {value : Expr} :
    (s.bind id name value).Lacks other word ↔ s.Lacks other word ∧ ¬(id = other ∧ name = word) := by
  unfold Lacks
  rw [view?_bind]
  cases s.view? other with
  | none => simp
  | some view =>
    by_cases hid : id = other
    · by_cases hname : name = word
      · simp [hid, hname, Scope.View.bind]
      · have hne : word ≠ name := fun h => hname h.symm
        simp [hid, hname, hne, Scope.View.bind]
    · simp [hid]

theorem add_eq_ok_iff {id : ScopeId} {name : String} {value : Expr} :
    s.add id name value = .ok t ↔
      name.isEmpty = false ∧ s.Lacks id name ∧ t = s.bind id name value := by
  constructor
  · intro h
    obtain ⟨scope, hscope, hnone, rfl⟩ := add_eq_ok h
    refine ⟨?_, ⟨scope.view, by rw [view?, hscope]; rfl, Option.map_eq_none_iff.mpr hnone⟩, rfl⟩
    rw [add_eq] at h
    exact Bool.eq_false_iff.mpr fun hempty => by simp [hempty] at h
  · rintro ⟨hempty, ⟨view, hview, hnone⟩, rfl⟩
    obtain ⟨scope, hscope, rfl⟩ := Option.map_eq_some_iff.mp hview
    have hfree : ¬ scope.bindings.any (·.name == name) = true := by
      have hnone : scope.binding? name = none := Option.map_eq_none_iff.mp hnone
      rw [Scope.binding?, List.find?_eq_none] at hnone
      simpa using hnone
    rw [add_eq, hempty, hscope]
    dsimp only
    rw [if_neg hfree]
    rfl

theorem Lacks.not_binds {id : ScopeId} {name : String} (h : s.Lacks id name) (value : Expr) :
    ¬ s.Binds id name value := by
  rintro ⟨scope, binding, hscope, hbinding, -⟩
  obtain ⟨view, hview, hnone⟩ := h
  rw [view?, hscope] at hview
  cases hview
  have hunbound : scope.binding? name = none := Option.map_eq_none_iff.mp hnone
  rw [hunbound] at hbinding
  cases hbinding

theorem Reordered.lacks_iff (h : s.Reordered t) {id : ScopeId} {name : String} :
    t.Lacks id name ↔ s.Lacks id name := by
  unfold Lacks
  rw [h.views]

theorem Reordered.bind (h : s.Reordered t) (id : ScopeId) (name : String) (value : Expr) :
    (s.bind id name value).Reordered (t.bind id name value) := by
  refine ⟨fun other => ?_, ?_, congrArg (· + _) h.aliases, congrArg (· + _) h.groups⟩
  · rw [view?_bind, view?_bind, h.views]
  · rw [size_bind, size_bind, h.size]

theorem reordered_markRegistered (s : Scopes) (id : ScopeId) :
    s.Reordered (s.markRegistered id) := by
  refine ⟨fun other => ?_, Array.size_modify .., rfl, rfl⟩
  show ((s.modify id _).get? other).map _ = (s.get? other).map _
  rw [get?_modify]
  split
  · cases s.get? other <;> rfl
  · rfl

/-- The scopes are the same, with the same parents and horizons. -/
def SameFrames (s t : Scopes) : Prop :=
  ∀ id, (t.get? id).map (fun scope => (scope.parent, scope.horizon)) =
    (s.get? id).map fun scope => (scope.parent, scope.horizon)

theorem sameFrames_modify {f : Scope → Scope}
    (hf : ∀ scope, (f scope).parent = scope.parent ∧ (f scope).horizon = scope.horizon)
    (s : Scopes) (id : ScopeId) : s.SameFrames (s.modify id f) := by
  intro other
  rw [get?_modify]
  split
  · cases s.get? other with
    | none => rfl
    | some scope => exact congrArg some (Prod.ext (hf scope).1 (hf scope).2)
  · rfl

theorem sameFrames_bind (s : Scopes) (id : ScopeId) (name : String) (value : Expr) :
    s.SameFrames (s.bind id name value) :=
  sameFrames_modify (f := fun scope =>
    { scope with bindings := ⟨name, value, s.serial + 1⟩ :: scope.bindings }) (fun _ => ⟨rfl, rfl⟩) s id

theorem sameFrames_markRegistered (s : Scopes) (id : ScopeId) : s.SameFrames (s.markRegistered id) :=
  sameFrames_modify (f := fun scope => { scope with registered := some s.serial })
    (fun _ => ⟨rfl, rfl⟩) s id

namespace SameFrames

variable (h : s.SameFrames t)

include h

theorem trans (h' : t.SameFrames u) : s.SameFrames u :=
  fun id => (h' id).trans (h id)

theorem parent?_eq (id : ScopeId) : t.parent? id = s.parent? id := by
  have hid := congrArg (·.bind Prod.fst) (h id)
  simp only [Option.bind_map, Function.comp_def] at hid
  exact hid

theorem unlimited (hs : s.Unlimited) : t.Unlimited := by
  intro id scope hscope
  have hid := h id
  rw [hscope] at hid
  obtain ⟨before, hbefore, heq⟩ := Option.map_eq_some_iff.mp hid.symm
  exact (congrArg Prod.snd heq).symm.trans (hs id before hbefore)

theorem lacks (hst : s.Extends t) {id : ScopeId} {name : String} (hlacks : t.Lacks id name) :
    s.Lacks id name := by
  obtain ⟨view, hview, hnone⟩ := hlacks
  obtain ⟨scope, hscope, rfl⟩ := Option.map_eq_some_iff.mp hview
  have hid := h id
  rw [hscope] at hid
  obtain ⟨before, hbefore, -⟩ := Option.map_eq_some_iff.mp hid.symm
  refine ⟨before.view, by rw [view?, hbefore]; rfl, Option.map_eq_none_iff.mpr ?_⟩
  cases hbinding : before.binding? name with
  | none => rfl
  | some binding =>
    obtain ⟨scope', hscope', -, -, hkept⟩ := hst id before hbefore
    cases hscope.symm.trans hscope'
    have hbound := hkept name binding hbinding
    rw [Option.map_eq_none_iff.mp hnone] at hbound
    cases hbound

end SameFrames

/-- Two names can be bound in either order, unless they are the same name in one scope. -/
theorem bind_comm {id other : ScopeId} {name word : String} (hne : ¬(id = other ∧ name = word))
    (value value' : Expr) (s : Scopes) :
    ((s.bind id name value).bind other word value').Reordered
      ((s.bind other word value').bind id name value) := by
  refine ⟨fun a => ?_, ?_, Nat.add_right_comm _ _ _, Nat.add_right_comm _ _ _⟩
  · rw [view?_bind, view?_bind, view?_bind, view?_bind, Option.map_map, Option.map_map]
    congr 1
    funext view
    by_cases hid : id = a
    · by_cases hother : other = a
      · have hname : name ≠ word := fun hname => hne ⟨hid.trans hother.symm, hname⟩
        simp only [Function.comp_apply, hid, hother, if_true, Scope.View.bind]
        congr 1
        funext n
        by_cases hn : n = name
        · simp [hn, hname]
        · simp [hn]
      · simp [hid, hother]
    · simp [hid]
  · simp only [size_bind]

end Scopes

end Z80Asm
