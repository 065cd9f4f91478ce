import Z80Asm.Proofs.Scope.Steps
import Z80Asm.Proofs.Scope.Visibility

/-!
# What was bound at an earlier moment

Bindings are numbered, and a horizon hides those with higher numbers. So a lookup in a later arena
`t` with the number of an earlier arena `c` as its horizon finds what was bound in `c`: for a name
without dots, exactly what the same lookup finds in `c` (`findSome?_outward_eq`). Only the bodies of
the scopes on the way are beyond the horizon's reach: what is inside them is always seen.

The earlier arena is not kept by the program; it is there in the proofs only, and the number is all
that a session has of it.
-/
set_option autoImplicit false

namespace Z80Asm.Scopes

variable {marked : ScopeId → Prop} {c s t : Scopes} {id : ScopeId} {name : String}

/-- The scopes on the way outward from a scope. -/
inductive Around (t : Scopes) (id : ScopeId) : ScopeId → Prop
  | here : Around t id id
  | out {inner outer : ScopeId} (h : Around t id inner) (hparent : t.parent? inner = some outer) :
      Around t id outer

theorem Around.of_parent {p other : ScopeId} (hparent : t.parent? id = some p)
    (h : Around t p other) : Around t id other := by
  induction h with
  | here => exact .out .here hparent
  | out _ hparent ih => exact ih.out hparent

theorem Around.mem {ids : List ScopeId} {other : ScopeId} (h : t.Around id other) (hid : id ∈ ids)
    (hclosed : ∀ inner ∈ ids, ∀ p ∈ t.parent? inner, p ∈ ids) : other ∈ ids := by
  induction h with
  | here => exact hid
  | out _ hparent ih => exact hclosed _ ih _ hparent

/-- A horizon only gets nearer. -/
theorem mem_outward {fuel : Nat} {other : ScopeId} {bound : Nat} {horizon : Option Nat}
    (hmem : (other, horizon) ∈ t.outward fuel id (some bound)) :
    t.Around id other ∧ ∃ near, horizon = some near ∧ near ≤ bound := by
  induction fuel generalizing id bound with
  | zero => cases hmem
  | succ fuel ih =>
    rw [outward] at hmem
    cases hscope : t.get? id with
    | none => simp [hscope] at hmem
    | some scope =>
      rw [hscope] at hmem
      cases hmem with
      | head => exact ⟨.here, bound, rfl, Nat.le_refl _⟩
      | tail _ hmem =>
        cases hparent : scope.parent with
        | none =>
          rw [hparent] at hmem
          cases hmem
        | some p =>
          rw [hparent] at hmem
          have hup : t.parent? id = some p := by
            rw [parent?, hscope]
            exact hparent
          cases hnear : scope.horizon with
          | none =>
            rw [hnear] at hmem
            obtain ⟨haround, near, rfl, hle⟩ := ih hmem
            exact ⟨haround.of_parent hup, near, rfl, hle⟩
          | some other =>
            rw [hnear] at hmem
            obtain ⟨haround, near, rfl, hle⟩ := ih hmem
            exact ⟨haround.of_parent hup, near, rfl, Nat.le_trans hle (Nat.min_le_left _ _)⟩

/-! ## Bindings up to a number -/

theorem find?_eq_some_iff {scope : Scope} {horizon : Option Nat} {value : Expr} :
    scope.find? name horizon = some value ↔
      ∃ binding, scope.binding? name = some binding ∧ horizon.all (binding.serial ≤ ·) = true ∧
        binding.value = value := by
  rw [Scope.find?, Scope.binding?]
  cases scope.bindings.find? (·.name == name) with
  | none => simp
  | some binding =>
    by_cases hseen : horizon.all (binding.serial ≤ ·) = true
    · simp [hseen]
    · simp [hseen]

theorem hasBinding_of_binding? {scope : Scope} {binding : Binding} (hid : t.get? id = some scope)
    (hbinding : scope.binding? name = some binding) :
    t.HasBinding id binding ∧ binding.name = name :=
  ⟨⟨scope, hid, List.mem_of_find?_eq_some hbinding⟩, by
    simpa using List.find?_some hbinding⟩

/-- A binding with a number up to that of the earlier arena was there already. -/
theorem Steps.binding?_eq (h : Steps marked c t) {scope : Scope} {binding : Binding}
    (hid : t.get? id = some scope) (hbinding : scope.binding? name = some binding)
    (hname : name ≠ selfName) (hserial : binding.serial ≤ c.serial) :
    ∃ before, c.get? id = some before ∧ before.binding? name = some binding := by
  obtain ⟨hhas, heq⟩ := hasBinding_of_binding? hid hbinding
  rcases h.later hhas with ⟨before, hbefore, hmem⟩ | hlater | hself
  · refine ⟨before, hbefore, ?_⟩
    obtain ⟨scope', hscope', -, -, hkept⟩ := h.growth id before hbefore
    rw [hid] at hscope'
    cases hscope'
    -- the name is bound in the earlier arena, and stays bound to the same
    cases hfirst : before.binding? name with
    | some first => rw [← hbinding, hkept name first hfirst]
    | none =>
      have hnone := List.find?_eq_none.mp hfirst binding hmem
      simp [heq] at hnone
  · exact absurd hserial (Nat.not_le_of_lt hlater)
  · exact absurd (heq.symm.trans hself) hname

theorem all_nearerHorizon {bound serial : Nat} (hserial : serial ≤ bound) (horizon : Option Nat) :
    (nearerHorizon (some bound) horizon).all (serial ≤ ·) = horizon.all (serial ≤ ·) := by
  cases horizon with
  | none => simpa [nearerHorizon] using hserial
  | some k =>
    have hmin : serial ≤ min bound k ↔ serial ≤ k := by
      rw [Nat.le_min]
      exact and_iff_right hserial
    exact decide_eq_decide.mpr hmin

theorem le_of_all_nearerHorizon {bound serial : Nat} {horizon : Option Nat}
    (h : (nearerHorizon (some bound) horizon).all (serial ≤ ·) = true) : serial ≤ bound := by
  cases horizon with
  | none => simpa [nearerHorizon] using h
  | some k =>
    have hle : serial ≤ min bound k := of_decide_eq_true h
    exact Nat.le_trans hle (Nat.min_le_left _ _)

/-- What a scope binds up to the number of an earlier arena is what it bound there. -/
theorem Steps.find?_eq (h : Steps marked c t) (hdated : c.Dated) (hname : name ≠ selfName)
    (id : ScopeId) (horizon : Option Nat) :
    (t.get? id).bind (·.find? name (nearerHorizon (some c.serial) horizon)) =
      (c.get? id).bind (·.find? name horizon) := by
  apply Option.ext
  intro value
  rw [Option.bind_eq_some_iff, Option.bind_eq_some_iff]
  constructor
  · rintro ⟨scope, hscope, hfind⟩
    obtain ⟨binding, hbinding, hseen, rfl⟩ := find?_eq_some_iff.mp hfind
    have hserial := le_of_all_nearerHorizon hseen
    obtain ⟨before, hbefore, hbound⟩ := h.binding?_eq hscope hbinding hname hserial
    rw [all_nearerHorizon hserial] at hseen
    exact ⟨before, hbefore, find?_eq_some_iff.mpr ⟨binding, hbound, hseen, rfl⟩⟩
  · rintro ⟨before, hbefore, hfind⟩
    obtain ⟨binding, hbinding, hseen, rfl⟩ := find?_eq_some_iff.mp hfind
    obtain ⟨scope, hscope, -, -, hkept⟩ := h.growth id before hbefore
    have hserial := hdated id binding (hasBinding_of_binding? hbefore hbinding).1
    rw [← all_nearerHorizon hserial] at hseen
    exact ⟨scope, hscope, find?_eq_some_iff.mpr ⟨binding, hkept name binding hbinding, hseen, rfl⟩⟩

/-! ## Lookups -/

/-- What is found up to the number of an earlier arena was bound there under this name, or is inside
    the body of a scope on the way. -/
theorem Steps.findSome?_outward (h : Steps marked c t) (hdated : c.Dated) (hname : name ≠ selfName)
    (hdots : dotSplits name = []) {scopeOf : Expr → Option ScopeId} {fuel : Nat} {value : Expr}
    (hvalue : ((t.outward fuel id (some c.serial)).findSome? fun (id, horizon) =>
      t.lookupInside scopeOf (maxDepth + 1) id name horizon) = some value) :
    ∃ other, t.Around id other ∧ (c.Binds other name value ∨
      ∃ body, t.body? other = some body ∧
        t.lookupInside scopeOf maxDepth body name none = some value) := by
  obtain ⟨⟨other, horizon⟩, hmem, hvalue⟩ := List.exists_of_findSome?_eq_some hvalue
  obtain ⟨haround, near, rfl, hle⟩ := mem_outward hmem
  refine ⟨other, haround, ?_⟩
  dsimp only at hvalue
  rw [lookupInside_eq_or hdots] at hvalue
  rcases Option.or_eq_some_iff.mp hvalue with hvalue | ⟨-, hvalue⟩
  · left
    have hnear : some near = nearerHorizon (some c.serial) (some near) := by
      rw [nearerHorizon, Nat.min_eq_right hle]
    rw [hnear, h.find?_eq hdated hname] at hvalue
    rw [binds_iff]
    obtain ⟨before, hbefore, hfind⟩ := Option.bind_eq_some_iff.mp hvalue
    obtain ⟨binding, hbinding, -, rfl⟩ := find?_eq_some_iff.mp hfind
    rw [hbefore]
    exact find?_eq_some_iff.mpr ⟨binding, hbinding, rfl, rfl⟩
  · right
    exact Option.bind_eq_some_iff.mp hvalue

theorem nearerHorizon_assoc (a b c : Option Nat) :
    nearerHorizon (nearerHorizon a b) c = nearerHorizon a (nearerHorizon b c) := by
  cases a <;> cases b <;> cases c <;> simp [nearerHorizon, Nat.min_assoc]

theorem Steps.findSome?_outward_eq (h : Steps marked c t) (hc : c.Ordered) (hdated : c.Dated)
    (hname : name ≠ selfName) (hdots : dotSplits name = [])
    (scopeOf scopeOf' : Expr → Option ScopeId) (fuel : Nat) (horizon : Option Nat)
    (hid : id.index < c.size)
    (hbare : ∀ other, t.Around id other → t.body? other = none) :
    ((t.outward fuel id (nearerHorizon (some c.serial) horizon)).findSome? fun (id, horizon) =>
        t.lookupInside scopeOf (maxDepth + 1) id name horizon) =
      (c.outward fuel id horizon).findSome? fun (id, horizon) =>
        c.lookupInside scopeOf' (maxDepth + 1) id name horizon := by
  induction fuel generalizing id horizon with
  | zero => rw [outward, outward, List.findSome?_nil, List.findSome?_nil]
  | succ fuel ih =>
    obtain ⟨before, hbefore⟩ := exists_get?_of_lt hid
    obtain ⟨scope, hscope, hparent, hhorizon, -⟩ := h.growth id before hbefore
    have hbody := hbare id .here
    have hone : t.lookupInside scopeOf (maxDepth + 1) id name (nearerHorizon (some c.serial) horizon) =
        c.lookupInside scopeOf' (maxDepth + 1) id name horizon := by
      rw [lookupInside_eq_or hdots, lookupInside_eq_or hdots, hbody, h.body?_eq_none hbody,
        h.find?_eq hdated hname, Option.bind_none, Option.bind_none]
    rw [outward, outward, hscope, hbefore]
    simp only [List.findSome?_cons, hone, hparent, hhorizon]
    cases hp : before.parent with
    | none => rw [List.findSome?_nil, List.findSome?_nil]
    | some p =>
      have hup : t.parent? id = some p := by
        rw [parent?, hscope]
        exact hparent.trans hp
      have hlt := Nat.lt_trans (ordered_iff.mp hc id before p hbefore hp) hid
      dsimp only
      rw [nearerHorizon_assoc, ih _ hlt fun other hother => hbare other (hother.of_parent hup)]

/-- **Everything that was bound in the earlier arena is seen, if no scope on the way has a body.** -/
theorem Steps.symbol_eq (h : Steps marked c t) (hc : c.Ordered) (hdated : c.Dated)
    (hname : name ≠ selfName) (hdots : dotSplits name = []) {user around : ScopeId}
    (huser : t.symbol? t.scopeOf user name =
      (t.outward t.size around (some c.serial)).findSome? fun (id, horizon) =>
        t.lookupInside t.scopeOf (maxDepth + 1) id name horizon)
    (haround : around.index < c.size)
    (hbare : ∀ other, t.Around around other → t.body? other = none) :
    t.symbol user name = c.symbol around name := by
  have hsame : t.symbol? t.scopeOf user name = c.symbol? c.scopeOf around name := by
    rw [huser, symbol?, outward_eq hc h.growth haround (h.growth.index_lt haround),
      outward_eq hc (.refl c) haround haround]
    exact h.findSome?_outward_eq hc hdated hname hdots t.scopeOf c.scopeOf _ none haround hbare
  rw [symbol, symbol, symbolValue, symbolValue, hsame]

end Z80Asm.Scopes
