import Z80Asm.Program.Session
import Z80Asm.Proofs.Scope.Order

/-!
# What is done to an arena, step by step

An arena changes in three ways only: a scope is made, a name is bound in a scope that does not bind
it, or something about a scope is set that is neither its parent nor one of its bindings. `Steps` is
any sequence of these, with the restriction that only the scopes in `marked` are recorded as
registered, and that only new scopes are given a horizon. What each step keeps is kept by all of
them: the arena is extended (`Steps.growth`), no binding is dated later than the arena (`Dated`),
what is added to an arena is dated later than it (`Steps.later`), and the values that are bound grow
by one at a time (`values_bind`).

Failing steps are not among them, unlike in `Scope/History`: phases stop at the first failure.
-/
set_option autoImplicit false

namespace Z80Asm

/-- A list holds more of what is weaker, if one of its members tells the difference. -/
theorem countP_lt {α : Type} {p q : α → Bool} {as : List α} (h : ∀ a ∈ as, p a → q a) {a : α}
    (ha : a ∈ as) (hp : p a = false) (hq : q a) : as.countP p < as.countP q := by
  induction as with
  | nil => cases ha
  | cons b rest ih =>
    have hrest : ∀ a ∈ rest, p a → q a := fun a ha => h a (List.mem_cons_of_mem _ ha)
    rw [List.countP_cons, List.countP_cons]
    cases ha with
    | head =>
      rw [if_neg (by simp [hp]), if_pos hq]
      exact Nat.lt_succ_of_le (List.countP_mono_left hrest)
    | tail _ ha =>
      refine Nat.add_lt_add_of_lt_of_le (ih hrest ha) ?_
      by_cases hb : p b = true
      · exact Nat.le_of_eq (by rw [if_pos hb, if_pos (h b List.mem_cons_self hb)])
      · rw [if_neg hb]
        exact Nat.zero_le _

namespace Scopes

/-- Setting something about a scope. -/
structure Sets (f : Scope → Scope) : Prop where
  parent : ∀ scope, (f scope).parent = scope.parent
  bindings : ∀ scope, (f scope).bindings = scope.bindings
  body : ∀ scope, (f scope).body = none → scope.body = none

inductive Steps (marked : ScopeId → Prop) (s : Scopes) : Scopes → Prop
  | refl : Steps marked s s
  | create {t : Scopes} (h : Steps marked s t) (parent : Option ScopeId) :
      Steps marked s (t.create parent).2
  | bind {t : Scopes} (h : Steps marked s t) {id : ScopeId} {scope : Scope}
      (hid : t.get? id = some scope) {name : String} (hname : scope.binding? name = none)
      (value : Expr) : Steps marked s (t.bind id name value)
  | modify {t : Scopes} (h : Steps marked s t) {id : ScopeId} {f : Scope → Scope} (hf : Sets f)
      (hhorizon : s.size ≤ id.index ∨ ∀ scope, (f scope).horizon = scope.horizon)
      (hmark : marked id ∨ ∀ scope, (f scope).registered = scope.registered) :
      Steps marked s (t.modify id f)

namespace Steps

variable {marked other : ScopeId → Prop} {s t u : Scopes}

theorem mono (h : Steps marked s t) (hsub : ∀ id, marked id → other id) : Steps other s t := by
  induction h with
  | refl => exact .refl
  | create _ parent ih => exact ih.create parent
  | bind _ hid hname value ih => exact ih.bind hid hname value
  | modify _ hf hhorizon hmark ih => exact ih.modify hf hhorizon (hmark.imp_left (hsub _))

theorem size_le (h : Steps marked s t) : s.size ≤ t.size := by
  induction h with
  | refl => exact Nat.le_refl _
  | create _ parent ih =>
    rw [size_create]
    exact Nat.le_succ_of_le ih
  | bind _ _ _ _ ih =>
    rw [Scopes.bind]
    show _ ≤ (Scopes.modify _ _ _).size
    rw [size_modify]
    exact ih
  | modify _ _ _ _ ih =>
    rw [size_modify]
    exact ih

theorem trans (hst : Steps marked s t) (htu : Steps marked t u) : Steps marked s u := by
  induction htu with
  | refl => exact hst
  | create _ parent ih => exact ih.create parent
  | bind _ hid hname value ih => exact ih.bind hid hname value
  | modify _ hf hhorizon hmark ih =>
    exact ih.modify hf (hhorizon.imp_left (Nat.le_trans hst.size_le)) hmark

theorem growth (h : Steps marked s t) : s.Extends t := by
  induction h with
  | refl => exact .refl s
  | create _ parent ih => exact ih.trans (extends_create _ parent)
  | bind _ hid hname value ih => exact ih.trans (extends_bind hid hname value)
  | modify _ hf hhorizon _ ih =>
    rcases hhorizon with hnew | hhorizon
    · exact ih.modify_new (Array.getElem?_eq_none hnew)
    · refine ih.trans (extends_modify hf.parent hhorizon fun scope name binding _ hbinding => ?_)
      rw [Scope.binding?, hf.bindings]
      exact hbinding

/-- A step that binds a name. -/
theorem add {id : ScopeId} {name : String} {value : Expr} (h : Steps marked s t)
    (hadd : t.add id name value = .ok u) : Steps marked s u := by
  obtain ⟨scope, hscope, hname, rfl⟩ := add_eq_ok hadd
  exact h.bind hscope hname value

/-- A scope that may not be marked keeps its mark. -/
theorem registeredAt?_eq (h : Steps marked s t) {id : ScopeId} (hid : id.index < s.size)
    (hmarked : ¬ marked id) : t.registeredAt? id = s.registeredAt? id := by
  induction h with
  | refl => rfl
  | @create t h parent ih =>
    rw [← ih, registeredAt?, registeredAt?, get?_create, if_neg]
    rintro rfl
    exact Nat.lt_irrefl _ (Nat.lt_of_lt_of_le hid h.size_le)
  | @bind t _ other scope hother name _ value ih =>
    rw [← ih, registeredAt?, registeredAt?, Scopes.bind]
    show ((Scopes.modify _ _ _).get? id).bind _ = _
    rw [get?_modify]
    split
    · cases t.get? id <;> rfl
    · rfl
  | @modify t _ other f _ _ hmark ih =>
    rw [← ih, registeredAt?, registeredAt?, get?_modify]
    split
    · next heq =>
      cases heq
      cases t.get? id with
      | none => rfl
      | some scope => exact (hmark.resolve_left hmarked) scope
    · rfl

/-- A scope without a body never had one. -/
theorem body?_eq_none (h : Steps marked s t) {id : ScopeId} (hbare : t.body? id = none) :
    s.body? id = none := by
  induction h with
  | refl => exact hbare
  | create _ parent ih => exact ih (body?_create _ parent id ▸ hbare)
  | @bind t _ other scope hother name _ value ih =>
    refine ih ?_
    rw [← hbare]
    exact (body?_modify t (fun _ => by rfl) other id).symm
  | @modify t _ other f hf _ _ ih =>
    refine ih ?_
    rw [body?, get?_modify] at hbare
    rw [body?]
    split at hbare
    · cases hscope : t.get? id with
      | none => rfl
      | some scope =>
        rw [hscope] at hbare
        exact hf.body scope hbare
    · exact hbare

end Steps

/-! ## Bindings -/

variable {s t : Scopes}

/-- A binding of a scope. -/
def HasBinding (s : Scopes) (id : ScopeId) (binding : Binding) : Prop :=
  ∃ scope, s.get? id = some scope ∧ binding ∈ scope.bindings

/-- What a step adds to the bindings. -/
theorem hasBinding_create {parent : Option ScopeId} {id : ScopeId} {binding : Binding} :
    (s.create parent).2.HasBinding id binding ↔
      s.HasBinding id binding ∨ id = s.fresh ∧ binding = ⟨selfName, .context s.fresh, 0⟩ := by
  unfold HasBinding
  rw [get?_create]
  by_cases heq : id = s.fresh
  · subst heq
    rw [get?_fresh]
    simp
  · simp [heq]

theorem hasBinding_modify {id other : ScopeId} {f : Scope → Scope} {binding : Binding}
    (hf : ∀ scope, (f scope).bindings = scope.bindings) :
    (s.modify other f).HasBinding id binding ↔ s.HasBinding id binding := by
  unfold HasBinding
  rw [get?_modify]
  split
  · cases s.get? id with
    | none => simp
    | some scope => simp [hf]
  · rfl

theorem hasBinding_bind {id other : ScopeId} {name : String} {value : Expr} {binding : Binding}
    (h : (s.bind other name value).HasBinding id binding) :
    s.HasBinding id binding ∨ id = other ∧ binding = ⟨name, value, s.serial + 1⟩ := by
  obtain ⟨scope, hscope, hmem⟩ := h
  replace hscope : (s.modify other _).get? id = some scope := hscope
  rw [get?_modify] at hscope
  split at hscope
  · next heq =>
    obtain ⟨before, hbefore, rfl⟩ := Option.map_eq_some_iff.mp hscope
    rcases List.mem_cons.mp hmem with rfl | hmem
    · exact .inr ⟨heq.symm, rfl⟩
    · exact .inl ⟨before, hbefore, hmem⟩
  · exact .inl ⟨scope, hscope, hmem⟩

/-- No binding is dated later than the arena. -/
def Dated (s : Scopes) : Prop :=
  ∀ id binding, s.HasBinding id binding → binding.serial ≤ s.serial

theorem Steps.serial_le {marked : ScopeId → Prop} (h : Steps marked s t) :
    s.serial ≤ t.serial := by
  induction h with
  | refl => exact Nat.le_refl _
  | create _ _ ih => exact ih
  | bind _ _ _ _ ih => exact Nat.le_succ_of_le ih
  | modify _ _ _ _ ih => exact ih

theorem Steps.dated {marked : ScopeId → Prop} (h : Steps marked s t) (hs : s.Dated) : t.Dated := by
  induction h with
  | refl => exact hs
  | create _ _ ih =>
    intro id binding hbinding
    rcases hasBinding_create.mp hbinding with hbinding | ⟨-, rfl⟩
    · exact ih id binding hbinding
    · exact Nat.zero_le _
  | bind _ _ _ _ ih =>
    intro id binding hbinding
    rcases hasBinding_bind hbinding with hbinding | ⟨-, rfl⟩
    · exact Nat.le_succ_of_le (ih id binding hbinding)
    · exact Nat.le_refl _
  | modify _ hf _ _ ih =>
    intro id binding hbinding
    exact ih id binding ((hasBinding_modify hf.bindings).mp hbinding)

/-- **A binding that was not there yet, that of `$` in a new scope apart, is dated later.** -/
theorem Steps.later {marked : ScopeId → Prop} (h : Steps marked s t) {id : ScopeId}
    {binding : Binding} (hbinding : t.HasBinding id binding) :
    s.HasBinding id binding ∨ s.serial < binding.serial ∨ binding.name = selfName := by
  induction h with
  | refl => exact .inl hbinding
  | create _ _ ih =>
    rcases hasBinding_create.mp hbinding with hbinding | ⟨-, rfl⟩
    · exact ih hbinding
    · exact .inr (.inr rfl)
  | bind h _ _ _ ih =>
    rcases hasBinding_bind hbinding with hbinding | ⟨-, rfl⟩
    · exact ih hbinding
    · exact .inr (.inl (Nat.lt_succ_of_le h.serial_le))
  | modify _ hf _ _ ih => exact ih ((hasBinding_modify hf.bindings).mp hbinding)

/-! ## Values -/

/-- All values that are bound. -/
def values (s : Scopes) : List Expr :=
  s.nodes.toList.flatMap fun scope => scope.bindings.map Binding.value

theorem mem_values_of_binding {id : ScopeId} {scope : Scope} {binding : Binding}
    (hid : s.get? id = some scope) (h : binding ∈ scope.bindings) : binding.value ∈ s.values := by
  have hscope : scope ∈ s.nodes.toList := (Array.mem_of_getElem? hid).val
  exact List.mem_flatMap.mpr ⟨scope, hscope, List.mem_map_of_mem h⟩

theorem mem_values {id : ScopeId} {scope : Scope} {name : String} {horizon : Option Nat}
    {value : Expr} (hid : s.get? id = some scope) (h : scope.find? name horizon = some value) :
    value ∈ s.values := by
  rw [Scope.find?] at h
  split at h
  · next binding hbinding =>
    split at h
    · cases h
      exact mem_values_of_binding hid (List.mem_of_find?_eq_some hbinding)
    · cases h
  · cases h

theorem values_create (parent : Option ScopeId) :
    (s.create parent).2.values = s.values ++ [.context s.fresh] := by
  simp [values, create]

theorem flatMap_modify_perm {α β : Type} {g : α → List β} {f : α → α} {as : List α} {i : Nat}
    {a : α} {b : β} (ha : as[i]? = some a) (hf : g (f a) = b :: g a) :
    ((as.modify i f).flatMap g).Perm (b :: as.flatMap g) := by
  induction as generalizing i with
  | nil => cases ha
  | cons c rest ih =>
    cases i with
    | zero =>
      cases ha
      rw [List.modify_zero_cons, List.flatMap_cons, List.flatMap_cons, hf]
      exact .refl _
    | succ i =>
      rw [List.modify_succ_cons, List.flatMap_cons, List.flatMap_cons]
      exact ((ih ha).append_left _).trans List.perm_middle

theorem values_bind {id : ScopeId} {scope : Scope} (hid : s.get? id = some scope) (name : String)
    (value : Expr) : (s.bind id name value).values.Perm (value :: s.values) := by
  have hnodes : s.nodes.toList[id.index]? = some scope := by
    rw [Array.getElem?_toList]
    exact hid
  have hperm := flatMap_modify_perm (g := fun scope : Scope => scope.bindings.map Binding.value)
    (f := fun scope => { scope with bindings := ⟨name, value, s.serial + 1⟩ :: scope.bindings })
    (b := value) hnodes rfl
  rwa [← Array.toList_modify] at hperm

theorem values_modify {id : ScopeId} {f : Scope → Scope}
    (hf : ∀ scope, (f scope).bindings = scope.bindings) : (s.modify id f).values = s.values := by
  unfold values Scopes.modify
  rw [Array.toList_modify]
  generalize s.nodes.toList = nodes
  generalize id.index = i
  induction nodes generalizing i with
  | nil => rw [List.modify_nil]
  | cons scope rest ih =>
    cases i with
    | zero => rw [List.modify_zero_cons, List.flatMap_cons, List.flatMap_cons, hf]
    | succ i => rw [List.modify_succ_cons, List.flatMap_cons, List.flatMap_cons, ih]

/-- What holds of registers, conditions and operations holds of what the predefined names stand for. -/
theorem forall_mem_predefined {p : Expr → Prop} (hregister : ∀ reg, p (.register reg))
    (hcondition : ∀ cond, p (.condition cond)) (hoperation : ∀ op, p (.operation op)) :
    ∀ entry ∈ predefined, p entry.2 := by
  intro entry hentry
  simp only [predefined, List.mem_append, List.mem_flatMap, List.mem_map] at hentry
  rcases hentry with ((⟨reg, -, name, -, rfl⟩ | ⟨cond, -, name, -, rfl⟩) |
    ⟨directive, -, name, -, rfl⟩) | ⟨mnemonic, -, name, -, rfl⟩
  · exact hregister reg
  · exact hcondition cond
  · exact hoperation directive.2
  · exact hoperation (.machine mnemonic)

/-- What holds of registers, conditions, operations and scopes holds of all that is predefined. -/
theorem forall_mem_values_predefined {p : Expr → Prop} (hregister : ∀ reg, p (.register reg))
    (hcondition : ∀ cond, p (.condition cond)) (hoperation : ∀ op, p (.operation op))
    (hcontext : ∀ id, p (.context id)) : ∀ value ∈ predefinedScopes.values, p value := by
  have hentries := forall_mem_predefined hregister hcondition hoperation
  intro value hvalue
  obtain ⟨scope, hscope, hvalue⟩ := List.mem_flatMap.mp hvalue
  cases List.mem_singleton.mp hscope
  obtain ⟨binding, hbinding, rfl⟩ := List.mem_map.mp hvalue
  rcases List.mem_append.mp hbinding with hbinding | hbinding
  · obtain ⟨⟨entry, i⟩, hentry, rfl⟩ := List.mem_map.mp (List.mem_reverse.mp hbinding)
    exact hentries entry (List.fst_mem_of_mem_zipIdx hentry)
  · cases List.mem_singleton.mp hbinding
    exact hcontext _

end Scopes

end Z80Asm
