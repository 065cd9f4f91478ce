import Z80Asm.Scope.Basic
import Z80Asm.Proofs.Success

/-!
# Arenas only grow

Whatever is done to an arena, the scopes in it stay, each keeps its parent, and a name that is
bound in a scope stays bound to the same value: binding it a second time fails. A horizon is only
given to a scope that has just been made, so in the end horizons stay as well. `Scopes.Extends`
says so of an earlier and a later arena, and holds between any two arenas of a session.

Bodies are not part of it. The body of a line is replaced whenever the line is expanded again, and
what is found through it changes then.
-/
set_option autoImplicit false

namespace Z80Asm

open Success

/-- The binding of a name in a scope. -/
def Scope.binding? (scope : Scope) (name : String) : Option Binding :=
  scope.bindings.find? (·.name == name)

namespace Scopes

variable {s t u : Scopes}

/-- What is in the arena `s` is still in `t`. -/
def Extends (s t : Scopes) : Prop :=
  ∀ id scope, s.get? id = some scope → ∃ scope', t.get? id = some scope' ∧
    scope'.parent = scope.parent ∧ scope'.horizon = scope.horizon ∧
    ∀ name binding, scope.binding? name = some binding → scope'.binding? name = some binding

theorem Extends.refl (s : Scopes) : s.Extends s :=
  fun _ scope h => ⟨scope, h, rfl, rfl, fun _ _ hb => hb⟩

theorem Extends.trans (hst : s.Extends t) (htu : t.Extends u) : s.Extends u := by
  intro id scope h
  obtain ⟨scope', h', hparent, hhorizon, hbinding⟩ := hst id scope h
  obtain ⟨scope'', h'', hparent', hhorizon', hbinding'⟩ := htu id scope' h'
  exact ⟨scope'', h'', hparent'.trans hparent, hhorizon'.trans hhorizon,
    fun name binding hb => hbinding' name binding (hbinding name binding hb)⟩

/-- A scope binds a name to a value itself. -/
def Binds (s : Scopes) (id : ScopeId) (name : String) (value : Expr) : Prop :=
  ∃ scope binding, s.get? id = some scope ∧ scope.binding? name = some binding ∧
    binding.value = value

theorem Extends.binds {id : ScopeId} {name : String} {value : Expr} (h : s.Extends t)
    (hs : s.Binds id name value) : t.Binds id name value := by
  obtain ⟨scope, binding, hscope, hbinding, hvalue⟩ := hs
  obtain ⟨scope', hscope', -, -, hkept⟩ := h id scope hscope
  exact ⟨scope', binding, hscope', hkept name binding hbinding, hvalue⟩

theorem get?_modify (s : Scopes) (id other : ScopeId) (f : Scope → Scope) :
    (s.modify id f).get? other = if id = other then (s.get? other).map f else s.get? other := by
  obtain ⟨i⟩ := id
  obtain ⟨j⟩ := other
  simp only [get?, modify, Array.getElem?_modify, ScopeId.mk.injEq]

theorem get?_create_of_some {parent : Option ScopeId} {id : ScopeId} {scope : Scope}
    (h : s.get? id = some scope) : (s.create parent).2.get? id = some scope := by
  have hlt : id.index < s.nodes.size := by
    rw [get?, Array.getElem?_eq_some_iff] at h
    exact h.1
  simp only [get?, create] at h ⊢
  rw [Array.getElem?_push_lt hlt, ← h, Array.getElem?_eq_getElem hlt]

/-! ## The operations -/

theorem extends_create (s : Scopes) (parent : Option ScopeId) : s.Extends (s.create parent).2 :=
  fun _ scope h => ⟨scope, get?_create_of_some h, rfl, rfl, fun _ _ hb => hb⟩

/-- Changing one scope extends the arena if the scope keeps its parent, horizon and bindings. -/
theorem extends_modify {f : Scope → Scope} {id : ScopeId}
    (hparent : ∀ scope, (f scope).parent = scope.parent)
    (hhorizon : ∀ scope, (f scope).horizon = scope.horizon)
    (hbinding : ∀ scope name binding, s.get? id = some scope →
      scope.binding? name = some binding → (f scope).binding? name = some binding) :
    s.Extends (s.modify id f) := by
  intro other scope h
  by_cases heq : id = other
  · subst heq
    exact ⟨f scope, by rw [get?_modify, if_pos rfl, h]; rfl, hparent scope, hhorizon scope,
      fun name binding hb => hbinding scope name binding h hb⟩
  · exact ⟨scope, by rw [get?_modify, if_neg heq, h], rfl, rfl, fun _ _ hb => hb⟩

theorem extends_setBody (s : Scopes) (id body : ScopeId) : s.Extends (s.setBody id body) :=
  extends_modify (fun _ => rfl) (fun _ => rfl) fun _ _ _ _ hb => hb

theorem extends_markRegistered (s : Scopes) (id : ScopeId) : s.Extends (s.markRegistered id) :=
  extends_modify (fun _ => rfl) (fun _ => rfl) fun _ _ _ _ hb => hb

/-- What is done to a scope that was not there before does not count. -/
theorem Extends.modify_new {f : Scope → Scope} {id : ScopeId} (h : s.Extends t)
    (hnew : s.get? id = none) : s.Extends (t.modify id f) := by
  intro other scope hscope
  obtain ⟨scope', hscope', hkept⟩ := h other scope hscope
  have hne : id ≠ other := by
    rintro rfl
    rw [hnew] at hscope
    cases hscope
  exact ⟨scope', by rw [get?_modify, if_neg hne, hscope'], hkept⟩

theorem get?_fresh (s : Scopes) : s.get? s.fresh = none :=
  Array.getElem?_eq_none (Nat.le_refl _)

/-! ## Actions -/

/-- A failure leaves the arena as it was. -/
def Action.Atomic {α : Type} (x : Action α) : Prop :=
  ∀ s cause t, x s = .error cause t → t = s

theorem Action.result_eq_ok {α : Type} {x : Action α} :
    x.result s = .ok t ↔ ∃ a, x s = .ok a t := by
  unfold result
  cases x s <;> simp

theorem Action.Atomic.result_eq_error {α : Type} {x : Action α} (hx : x.Atomic) {cause : Cause} :
    x.result s = .error cause ↔ x s = .error cause s := by
  unfold result
  cases h : x s with
  | ok a t => simp
  | error other t =>
    rw [hx s other t h]
    simp

theorem bindAddress_apply (s : Scopes) (id : ScopeId) (address : UInt32) :
    bindAddress id address s =
      match (s.get? id).bind Scope.address with
      | some bound => .error (.addressAlreadySet bound) s
      | none => .ok () (s.modify id fun scope => { scope with address := some address }) := by
  show (match (s.get? id).bind Scope.address with
    | some bound => throw (.addressAlreadySet bound)
    | none => _ : Action Unit) s = _
  cases (s.get? id).bind Scope.address <;> rfl

theorem atomic_bindAddress (id : ScopeId) (address : UInt32) : (bindAddress id address).Atomic := by
  intro s cause t h
  rw [bindAddress_apply] at h
  split at h
  · cases h
    rfl
  · cases h

theorem setAddress_eq (s : Scopes) (id : ScopeId) (address : UInt32) :
    s.setAddress id address =
      match (s.get? id).bind Scope.address with
      | some bound => .error (.addressAlreadySet bound)
      | none => .ok (s.modify id fun scope => { scope with address := some address }) := by
  rw [setAddress, Action.result, bindAddress_apply]
  cases (s.get? id).bind Scope.address <;> rfl

theorem extends_setAddress {id : ScopeId} {address : UInt32}
    (h : s.setAddress id address = .ok t) : s.Extends t := by
  rw [setAddress_eq] at h
  split at h
  · cases h
  · cases h
    exact extends_modify (fun _ => rfl) (fun _ => rfl) fun _ _ _ _ hb => hb

/-- Gives a scope the next binding. -/
def bind (s : Scopes) (id : ScopeId) (name : String) (value : Expr) : Scopes :=
  { s.modify id fun scope =>
      { scope with bindings := ⟨name, value, s.serial + 1⟩ :: scope.bindings } with
    serial := s.serial + 1, aliases := s.aliases + value.aliasCount,
    groups := s.groups + value.groupCount }

theorem addSymbol_apply (s : Scopes) (id : ScopeId) (name : String) (value : Expr) :
    addSymbol id name value s =
      if name.isEmpty then .error .missingSymbolName s
      else
        match s.get? id with
        | none => .error .noEnclosingScope s
        | some scope =>
          if scope.bindings.any (·.name == name) then .error (.duplicateSymbol name) s
          else .ok () (s.bind id name value) := by
  unfold addSymbol
  split
  · rfl
  · show (match s.get? id with
      | none => throw .noEnclosingScope
      | some scope => _ : Action Unit) s = _
    cases s.get? id with
    | none => rfl
    | some scope =>
      dsimp only
      split <;> rfl

/-- The checks come first: nothing is counted for a binding that is not made. -/
theorem atomic_addSymbol (id : ScopeId) (name : String) (value : Expr) :
    (addSymbol id name value).Atomic := by
  intro s cause t h
  rw [addSymbol_apply] at h
  split at h
  · cases h
    rfl
  · split at h
    · cases h
      rfl
    · split at h
      · cases h
        rfl
      · cases h

theorem add_eq (s : Scopes) (id : ScopeId) (name : String) (value : Expr) :
    s.add id name value =
      if name.isEmpty then .error .missingSymbolName
      else
        match s.get? id with
        | none => .error .noEnclosingScope
        | some scope =>
          if scope.bindings.any (·.name == name) then .error (.duplicateSymbol name)
          else .ok (s.bind id name value) := by
  rw [add, Action.result, addSymbol_apply]
  by_cases hempty : name.isEmpty = true
  · rw [if_pos hempty, if_pos hempty]
  · rw [if_neg hempty, if_neg hempty]
    cases s.get? id with
    | none => rfl
    | some scope =>
      dsimp only
      by_cases hbound : scope.bindings.any (·.name == name) = true
      · rw [if_pos hbound, if_pos hbound]
      · rw [if_neg hbound, if_neg hbound]

/-- A name is bound in a scope that is there and does not bind it yet. -/
theorem add_eq_ok {id : ScopeId} {name : String} {value : Expr} (h : s.add id name value = .ok t) :
    ∃ scope, s.get? id = some scope ∧ scope.binding? name = none ∧ t = s.bind id name value := by
  rw [add_eq] at h
  split at h
  · cases h
  · split at h
    · cases h
    · next scope hscope =>
      split at h
      · cases h
      · next hnone =>
        cases h
        refine ⟨scope, hscope, ?_, rfl⟩
        rw [Scope.binding?, List.find?_eq_none]
        simpa using hnone

theorem add_binds {id : ScopeId} {name : String} {value : Expr}
    (h : s.add id name value = .ok t) : t.Binds id name value := by
  obtain ⟨scope, hscope, -, rfl⟩ := add_eq_ok h
  have hget : (s.bind id name value).get? id =
      some { scope with bindings := ⟨name, value, s.serial + 1⟩ :: scope.bindings } := by
    show (s.modify id _).get? id = _
    rw [get?_modify, if_pos rfl, hscope]
    rfl
  exact ⟨_, ⟨name, value, s.serial + 1⟩, hget, List.find?_cons_of_pos (by simp), rfl⟩

/-- Changing a scope without its bindings changes nothing about what is bound. -/
theorem Binds.modify {f : Scope → Scope} {id other : ScopeId} {name : String} {value : Expr}
    (h : s.Binds id name value) (hf : ∀ scope, (f scope).bindings = scope.bindings) :
    (s.modify other f).Binds id name value := by
  obtain ⟨scope, binding, hscope, hbinding, hvalue⟩ := h
  by_cases heq : other = id
  · refine ⟨f scope, binding, by rw [get?_modify, if_pos heq, hscope]; rfl, ?_, hvalue⟩
    rw [Scope.binding?, hf]
    exact hbinding
  · exact ⟨scope, binding, by rw [get?_modify, if_neg heq, hscope], hbinding, hvalue⟩

theorem Binds.of_modify {f : Scope → Scope} {id other : ScopeId} {name : String} {value : Expr}
    (hf : ∀ scope, (f scope).bindings = scope.bindings)
    (h : (s.modify other f).Binds id name value) : s.Binds id name value := by
  obtain ⟨scope, binding, hscope, hbinding, hvalue⟩ := h
  rw [get?_modify] at hscope
  split at hscope
  · obtain ⟨before, hbefore, rfl⟩ := Option.map_eq_some_iff.mp hscope
    rw [Scope.binding?, hf] at hbinding
    exact ⟨before, binding, hbefore, hbinding, hvalue⟩
  · exact ⟨scope, binding, hscope, hbinding, hvalue⟩

/-- What is bound after a binding was made was bound before, or is this binding. -/
theorem Binds.of_bind {id other : ScopeId} {name n : String} {value v : Expr}
    (h : (s.bind other name value).Binds id n v) : s.Binds id n v ∨ id = other ∧ n = name := by
  obtain ⟨scope, binding, hscope, hbinding, hvalue⟩ := h
  replace hscope : (s.modify other _).get? id = some scope := hscope
  rw [get?_modify] at hscope
  split at hscope
  · next heq =>
    obtain ⟨before, hbefore, rfl⟩ := Option.map_eq_some_iff.mp hscope
    by_cases hname : name = n
    · exact .inr ⟨heq.symm, hname.symm⟩
    · rw [Scope.binding?, List.find?_cons_of_neg (by simpa using hname)] at hbinding
      exact .inl ⟨before, binding, hbefore, hbinding, hvalue⟩
  · exact .inl ⟨scope, binding, hscope, hbinding, hvalue⟩

theorem extends_bind {id : ScopeId} {name : String} {scope : Scope} (hscope : s.get? id = some scope)
    (hnone : scope.binding? name = none) (value : Expr) : s.Extends (s.bind id name value) := by
  refine extends_modify (fun _ => rfl) (fun _ => rfl) fun scope' other binding hscope' hother => ?_
  rw [hscope] at hscope'
  cases hscope'
  -- A name that is bound already is not the new one.
  have hne : name ≠ other := by
    rintro rfl
    rw [hnone] at hother
    cases hother
  rw [Scope.binding?, List.find?_cons_of_neg (by simpa using hne)]
  exact hother

/-- **Binding a name extends the arena.** -/
theorem extends_add {id : ScopeId} {name : String} {value : Expr}
    (h : s.add id name value = .ok t) : s.Extends t := by
  obtain ⟨scope, hscope, hnone, rfl⟩ := add_eq_ok h
  exact extends_bind hscope hnone value

end Scopes

end Z80Asm
