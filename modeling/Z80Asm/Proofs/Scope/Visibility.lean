import Z80Asm.Expr.Eval
import Z80Asm.Proofs.Scope.Order

/-!
# What a scope sees

From a scope a name is looked up inside the scope first and then from its parent on. The lookup
counts its way outward, so this takes that there is a way at all: in an arena that is `Ordered`
every scope was made after its parent, and going outward comes to an end.

All statements here are about a later arena `t` and an earlier one `s`, of which only the earlier
has to be ordered: in the later one the ways outward from its scopes are the same.

With `Clear` a way outward is followed on which the name is not found. It is an inductive predicate,
so the statements need no count of the scopes on the way.
-/
set_option autoImplicit false

namespace Z80Asm.Scopes

variable {s t : Scopes} {id p : ScopeId} {scope : Scope}

/-- Going outward from a scope takes no more steps than the scope has predecessors. -/
theorem outward_eq (hs : s.Ordered) (ht : s.Extends t) {fuel : Nat} {horizon : Option Nat}
    (hid : id.index < s.size) (hfuel : id.index < fuel) :
    t.outward fuel id horizon = t.outward (id.index + 1) id horizon := by
  induction hn : id.index using Nat.strongRecOn generalizing id fuel horizon with
  | ind n ih =>
    subst hn
    obtain ⟨scope, hscope⟩ := exists_get?_of_lt hid
    obtain ⟨scope', hscope', hparent', -⟩ := ht id scope hscope
    obtain ⟨fuel, rfl⟩ : ∃ k, fuel = k + 1 := ⟨fuel - 1, by omega⟩
    simp only [outward, hscope', hparent']
    cases hparent : scope.parent with
    | none => rfl
    | some p =>
      have hlt := ordered_iff.mp hs id scope p hscope hparent
      -- Both sides are what the parent gives with no more steps than it needs.
      have hp : p.index < s.size := Nat.lt_trans hlt hid
      dsimp only
      rw [ih p.index hlt hp (by omega) rfl, ih p.index hlt hp hlt rfl]

/-- From a scope a name is what it is inside the scope, or else what it is from the parent on, up to
    the horizon. -/
theorem symbol?_eq_or_outward (hs : s.Ordered) (ht : s.Extends t) (hid : s.get? id = some scope)
    (hparent : scope.parent = some p) (scopeOf : Expr → Option ScopeId) (name : String) :
    t.symbol? scopeOf id name = (t.member? scopeOf id name).or
      ((t.outward t.size p scope.horizon).findSome? fun (id, horizon) =>
        t.lookupInside scopeOf (maxDepth + 1) id name horizon) := by
  obtain ⟨scope', hid', hparent', hhorizon', -⟩ := ht id scope hid
  have hlt := ordered_iff.mp hs id scope p hid hparent
  have hids := index_lt_of_get? hid
  have hsize := index_lt_of_get? hid'
  obtain ⟨n, hn⟩ : ∃ n, t.size = n + 1 := ⟨t.size - 1, by omega⟩
  have hp : p.index < s.size := Nat.lt_trans hlt hids
  have hway : t.outward t.size id none = (id, none) :: t.outward t.size p scope.horizon := by
    rw [outward_eq hs ht hp (by omega : p.index < t.size), hn, outward, hid']
    simp only [hparent', hparent, hhorizon']
    rw [← outward_eq hs ht hp (by omega : p.index < n)]
    rfl
  simp only [symbol?, hway, List.findSome?_cons, member?]
  cases t.lookupInside scopeOf (maxDepth + 1) id name none with
  | none => rfl
  | some v => rfl

/-- From a scope without a horizon a name is what it is inside the scope, or else what it is from
    the parent. -/
theorem symbol?_eq_or (hs : s.Ordered) (ht : s.Extends t) (hid : s.get? id = some scope)
    (hparent : scope.parent = some p) (hhorizon : scope.horizon = none)
    (scopeOf : Expr → Option ScopeId) (name : String) :
    t.symbol? scopeOf id name = (t.member? scopeOf id name).or (t.symbol? scopeOf p name) := by
  rw [symbol?_eq_or_outward hs ht hid hparent, hhorizon]
  rfl

/-- What a scope binds itself comes first. -/
theorem Binds.lookupInside_eq {name : String} {value : Expr} (h : t.Binds id name value)
    (scopeOf : Expr → Option ScopeId) (levels : Nat) :
    t.lookupInside scopeOf (levels + 1) id name none = some value := by
  obtain ⟨scope, binding, hid, hbinding, rfl⟩ := h
  have hfind : scope.find? name none = some binding.value := by
    rw [Scope.find?, show scope.bindings.find? (·.name == name) = some binding from hbinding]
    rfl
  simp only [lookupInside, hid, hfind]
  rfl

theorem Binds.symbol_eq {name : String} {value : Expr} (h : t.Binds id name value) :
    t.symbol id name = .ok value := by
  have hinside := h.lookupInside_eq t.scopeOf maxDepth
  obtain ⟨scope, binding, hid, -, -⟩ := h
  have hsize := index_lt_of_get? hid
  obtain ⟨n, hn⟩ : ∃ n, t.size = n + 1 := ⟨t.size - 1, by omega⟩
  rw [symbol, symbolValue, symbol?, hn, outward, hid]
  simp only [List.findSome?_cons, hinside]

theorem member_eq_ok {name : String} {value : Expr} :
    t.member id name = .ok value ↔ t.member? t.scopeOf id name = some value := by
  rw [member, memberValue]
  cases t.member? t.scopeOf id name with
  | none => simp
  | some v => simp

theorem Binds.member_eq {name : String} {value : Expr} (h : t.Binds id name value) :
    t.member id name = .ok value :=
  member_eq_ok.mpr (h.lookupInside_eq _ _)

theorem symbol_eq_ok {name : String} {value : Expr} :
    t.symbol id name = .ok value ↔ t.symbol? t.scopeOf id name = some value := by
  rw [symbol, symbolValue]
  cases t.symbol? t.scopeOf id name with
  | none => simp
  | some v => simp

theorem symbol_eq_error {name : String} (h : ∀ value, t.symbol id name ≠ .ok value) :
    t.symbol id name = .error (.symbolNotFound name) := by
  rw [symbol, symbolValue]
  cases hvalue : t.symbol? t.scopeOf id name with
  | none => rfl
  | some value => exact absurd (symbol_eq_ok.mpr hvalue) (h value)

/-- From below, a name is what it is around, unless it is something else inside. -/
theorem Below.symbol_eq_iff {around : ScopeId} (hs : s.Ordered) (ht : s.Extends t)
    (hbelow : s.Below id around) (name : String) :
    t.symbol id name = t.symbol around name ↔
      ∀ value, t.member id name = .ok value → t.symbol around name = .ok value := by
  obtain ⟨scope, hid, hparent, hhorizon⟩ := hbelow
  have hlookup := symbol?_eq_or hs ht hid hparent hhorizon t.scopeOf name
  simp only [symbol, symbolValue, member, memberValue, hlookup]
  cases hmember : t.member? t.scopeOf id name with
  | none => simp
  | some value =>
    simp only [Option.some_or, Except.ok.injEq, forall_eq']
    exact eq_comm

/-- On the way outward to `target`, which is that of the arena `s`, nothing called `name` is inside
    the scopes that are left behind, in the later arena `t`. -/
inductive Clear (s t : Scopes) (name : String) (target : ScopeId) : ScopeId → Prop
  | here : Clear s t name target target
  | out {id around : ScopeId} (below : s.Below id around)
      (nothing : ∀ value, t.member id name ≠ .ok value) (rest : Clear s t name target around) :
      Clear s t name target id

theorem Clear.symbol_eq {name : String} {target : ScopeId} (hs : s.Ordered) (ht : s.Extends t)
    (h : Clear s t name target id) : t.symbol id name = t.symbol target name := by
  induction h with
  | here => rfl
  | out below nothing rest ih =>
    rw [← ih, below.symbol_eq_iff hs ht]
    intro value hvalue
    exact absurd hvalue (nothing value)

/-- If nothing is inside the target either, the name is what it is from the target's parent on, up to
    its horizon. -/
theorem Clear.symbol?_eq {name : String} {target : ScopeId} (hs : s.Ordered) (ht : s.Extends t)
    (h : Clear s t name target id) (hnothing : ∀ value, t.member target name ≠ .ok value)
    (htarget : s.get? target = some scope) (hparent : scope.parent = some p) :
    t.symbol? t.scopeOf id name =
      (t.outward t.size p scope.horizon).findSome? fun (id, horizon) =>
        t.lookupInside t.scopeOf (maxDepth + 1) id name horizon := by
  have hnone : t.member? t.scopeOf target name = none := by
    rw [Option.eq_none_iff_forall_ne_some]
    intro value hvalue
    exact hnothing value (member_eq_ok.mpr hvalue)
  have hway : t.symbol? t.scopeOf id name = t.symbol? t.scopeOf target name := by
    apply Option.ext
    intro value
    rw [← symbol_eq_ok, ← symbol_eq_ok, h.symbol_eq hs ht]
  rw [hway, symbol?_eq_or_outward hs ht htarget hparent, hnone, Option.none_or]

/-! ## Names inside a scope -/

theorem binds_iff {name : String} {value : Expr} :
    t.Binds id name value ↔
      ((t.get? id).bind (·.find? name none)) = some value := by
  constructor
  · rintro ⟨scope, binding, hid, hbinding, rfl⟩
    rw [hid, Option.bind_some, Scope.find?,
      show scope.bindings.find? (·.name == name) = some binding from hbinding]
    rfl
  · intro h
    obtain ⟨scope, hid, hfind⟩ := Option.bind_eq_some_iff.mp h
    rw [Scope.find?] at hfind
    cases hbinding : scope.bindings.find? (·.name == name) with
    | none => simp [hbinding] at hfind
    | some binding =>
      rw [hbinding] at hfind
      exact ⟨scope, binding, hid, hbinding, by simpa using hfind⟩

/-- A name without dots is what the scope binds it to, up to the horizon, or else what it is inside
    the body. -/
theorem lookupInside_eq_or {name : String} (hname : dotSplits name = [])
    (scopeOf : Expr → Option ScopeId) (levels : Nat) (id : ScopeId) (horizon : Option Nat) :
    t.lookupInside scopeOf (levels + 1) id name horizon =
      ((t.get? id).bind (·.find? name horizon)).or
        ((t.body? id).bind (t.lookupInside scopeOf levels · name none)) := by
  rw [lookupInside, body?]
  cases t.get? id with
  | none => rfl
  | some scope =>
    simp only [hname, List.findSome?_nil, Option.bind_some]
    cases scope.find? name horizon with
    | none => rfl
    | some v => rfl

/-- The scope `inside` is the body of `id`, and has no body itself. A second body would be searched
    as well, and more would be found inside `id` than its body binds. -/
structure Links (t : Scopes) (id inside : ScopeId) : Prop where
  body : t.body? id = some inside
  bare : t.body? inside = none

/-- **Inside a scope that does not bind a name without dots, the name is what the body binds it
    to.** -/
theorem Links.member_eq_ok {inside : ScopeId} {name : String} (h : t.Links id inside)
    (hname : dotSplits name = []) (hid : ∀ value, ¬ t.Binds id name value) (value : Expr) :
    t.member id name = .ok value ↔ t.Binds inside name value := by
  obtain ⟨scope, hscope, hbody⟩ := Option.bind_eq_some_iff.mp h.body
  have hown : scope.find? name none = none := by
    rw [Option.eq_none_iff_forall_ne_some]
    intro v hv
    exact hid v (binds_iff.mpr (by rw [hscope]; exact hv))
  have hinside : t.member? t.scopeOf id name = (t.get? inside).bind (·.find? name none) := by
    rw [member?, lookupInside_eq_or hname, h.body, hscope]
    simp only [Option.bind_some, hown, Option.none_or]
    rw [show maxDepth = 255 + 1 from rfl, lookupInside_eq_or hname, h.bare]
    exact Option.or_none
  rw [Scopes.member_eq_ok, binds_iff, hinside]

end Z80Asm.Scopes
