import Z80Asm.Proofs.Scope.Growth

/-!
# The order of an arena

A scope is made below one that is there already, so in the arena of a session every parent has a
smaller number than its child: the arena is `Ordered`. Nothing that is done to single scopes later
changes that. Only `setBody` changes which scope is the body of which.

Ordered arenas have no circles of parents, so that ways outward end. Nothing of the kind is true of
bodies, and lookups through bodies are bounded instead.
-/
set_option autoImplicit false

namespace Z80Asm.Scopes

variable {s t : Scopes} {id p : ScopeId} {scope : Scope}

theorem index_lt_of_get? (h : s.get? id = some scope) : id.index < s.size :=
  (Array.getElem?_eq_some_iff.mp h).1

theorem exists_get?_of_lt (h : id.index < s.size) : ∃ scope, s.get? id = some scope :=
  ⟨_, Array.getElem?_eq_getElem h⟩

theorem Extends.index_lt (h : s.Extends t) (hid : id.index < s.size) : id.index < t.size := by
  obtain ⟨scope, hscope⟩ := exists_get?_of_lt hid
  obtain ⟨scope', hscope', -⟩ := h id scope hscope
  exact index_lt_of_get? hscope'

theorem Extends.size_le (h : s.Extends t) : s.size ≤ t.size := by
  apply Nat.le_of_not_lt
  intro hlt
  have hlast : (⟨t.size⟩ : ScopeId).index < s.size := hlt
  exact Nat.lt_irrefl _ (h.index_lt hlast)

theorem Extends.parent?_eq (h : s.Extends t) (hid : id.index < s.size) :
    t.parent? id = s.parent? id := by
  obtain ⟨scope, hscope⟩ := exists_get?_of_lt hid
  obtain ⟨scope', hscope', hparent, -⟩ := h id scope hscope
  rw [parent?, parent?, hscope, hscope']
  exact hparent

theorem get?_create (s : Scopes) (parent : Option ScopeId) (id : ScopeId) :
    (s.create parent).2.get? id =
      if id = s.fresh then some { parent, bindings := [⟨selfName, .context s.fresh, 0⟩] }
      else s.get? id := by
  obtain ⟨i⟩ := id
  simp only [get?, create, Array.getElem?_push, fresh, size, ScopeId.mk.injEq]

theorem size_create (s : Scopes) (parent : Option ScopeId) :
    (s.create parent).2.size = s.size + 1 :=
  Array.size_push _

theorem size_modify (s : Scopes) (id : ScopeId) (f : Scope → Scope) :
    (s.modify id f).size = s.size :=
  Array.size_modify

/-! ## Parents -/

/-- Every scope was made after its parent. -/
def Ordered (s : Scopes) : Prop :=
  ∀ i (h : i < s.nodes.size), ∀ p ∈ s.nodes[i].parent, p.index < i

instance (s : Scopes) : Decidable s.Ordered :=
  inferInstanceAs (Decidable (∀ i (h : i < s.nodes.size), ∀ p ∈ s.nodes[i].parent, p.index < i))

theorem ordered_iff : s.Ordered ↔
    ∀ id scope p, s.get? id = some scope → scope.parent = some p → p.index < id.index := by
  constructor
  · intro hs id scope p hid hparent
    obtain ⟨hlt, rfl⟩ := Array.getElem?_eq_some_iff.mp hid
    exact hs id.index hlt p hparent
  · intro h i hi p hp
    exact h ⟨i⟩ s.nodes[i] p (Array.getElem?_eq_getElem hi) hp

theorem Ordered.create (hs : s.Ordered) (hp : p.index < s.size) :
    (s.create (some p)).2.Ordered := by
  rw [ordered_iff] at hs ⊢
  intro id scope q hid hparent
  rw [get?_create] at hid
  split at hid
  · next heq =>
    cases hid
    cases hparent
    rw [heq]
    exact hp
  · exact hs id scope q hid hparent

theorem Ordered.modify (hs : s.Ordered) (id : ScopeId) {f : Scope → Scope}
    (hf : ∀ scope, (f scope).parent = scope.parent) : (s.modify id f).Ordered := by
  rw [ordered_iff] at hs ⊢
  intro other scope q hother hparent
  rw [get?_modify] at hother
  split at hother
  · obtain ⟨before, hbefore, rfl⟩ := Option.map_eq_some_iff.mp hother
    exact hs other before q hbefore ((hf before).symm.trans hparent)
  · exact hs other scope q hother hparent

theorem Ordered.add (hs : s.Ordered) {name : String} {value : Expr}
    (h : s.add id name value = .ok t) : t.Ordered := by
  obtain ⟨-, -, -, rfl⟩ := add_eq_ok h
  exact hs.modify id fun _ => rfl

theorem Ordered.of_extends (ht : t.Ordered) (h : s.Extends t) : s.Ordered := by
  rw [ordered_iff] at ht ⊢
  intro id scope p hid hparent
  obtain ⟨scope', hid', hparent', -⟩ := h id scope hid
  exact ht id scope' p hid' (hparent'.trans hparent)

/-- A scope directly below another, from which everything there is seen. -/
def Below (s : Scopes) (id around : ScopeId) : Prop :=
  ∃ scope, s.get? id = some scope ∧ scope.parent = some around ∧ scope.horizon = none

instance (s : Scopes) (id around : ScopeId) : Decidable (s.Below id around) :=
  match h : s.get? id with
  | none => .isFalse (by rintro ⟨scope, hscope, -⟩; rw [h] at hscope; cases hscope)
  | some scope =>
    decidable_of_iff (scope.parent = some around ∧ scope.horizon = none)
      ⟨fun hscope => ⟨scope, h, hscope⟩, by
        rintro ⟨scope', hscope', hbelow⟩
        rw [h] at hscope'
        cases hscope'
        exact hbelow⟩

theorem Below.index_lt {around : ScopeId} (h : s.Below id around) : id.index < s.size := by
  obtain ⟨scope, hscope, -⟩ := h
  exact index_lt_of_get? hscope

theorem Below.parent_eq {around : ScopeId} (h : s.Below id around) :
    s.parent? id = some around := by
  obtain ⟨scope, hscope, hparent, -⟩ := h
  rw [parent?, hscope]
  exact hparent

theorem Ordered.below_lt {around : ScopeId} (hs : s.Ordered) (h : s.Below id around) :
    around.index < id.index := by
  obtain ⟨scope, hscope, hparent, -⟩ := h
  exact ordered_iff.mp hs id scope around hscope hparent

theorem Extends.below {around : ScopeId} (h : s.Extends t) (hs : s.Below id around) :
    t.Below id around := by
  obtain ⟨scope, hscope, hparent, hhorizon⟩ := hs
  obtain ⟨scope', hscope', hparent', hhorizon', -⟩ := h id scope hscope
  exact ⟨scope', hscope', hparent'.trans hparent, hhorizon'.trans hhorizon⟩

theorem below_create (s : Scopes) (p : ScopeId) : (s.create (some p)).2.Below s.fresh p :=
  ⟨_, by rw [get?_create, if_pos rfl], rfl, rfl⟩

/-! ## Bodies -/

/-- The scope whose bindings count as a scope's own. -/
def body? (s : Scopes) (id : ScopeId) : Option ScopeId :=
  (s.get? id).bind Scope.body

theorem body?_create (s : Scopes) (parent : Option ScopeId) (id : ScopeId) :
    (s.create parent).2.body? id = s.body? id := by
  rw [body?, get?_create]
  split
  · next heq =>
    rw [body?, heq, get?_fresh]
    rfl
  · rfl

theorem body?_modify (s : Scopes) {f : Scope → Scope} (hf : ∀ scope, (f scope).body = scope.body)
    (id other : ScopeId) : (s.modify id f).body? other = s.body? other := by
  rw [body?, get?_modify, body?]
  split
  · cases s.get? other with
    | none => rfl
    | some scope => exact hf scope
  · rfl

theorem body?_add {name : String} {value : Expr} (h : s.add id name value = .ok t)
    (other : ScopeId) : t.body? other = s.body? other := by
  obtain ⟨-, -, -, rfl⟩ := add_eq_ok h
  refine body?_modify s ?_ id other
  intro scope
  rfl

theorem body?_setBody_self (hid : id.index < s.size) (body : ScopeId) :
    (s.setBody id body).body? id = some body := by
  obtain ⟨scope, hscope⟩ := exists_get?_of_lt hid
  rw [body?, setBody, get?_modify, if_pos rfl, hscope]
  rfl

theorem body?_setBody_of_ne {other : ScopeId} (h : id ≠ other) (body : ScopeId) :
    (s.setBody id body).body? other = s.body? other := by
  rw [body?, setBody, get?_modify, if_neg h, body?]

end Z80Asm.Scopes
