import Z80Asm.Proofs.Failure
import Z80Asm.Proofs.Program.Phases
import Z80Asm.Proofs.Scope.Steps
import Z80Asm.Proofs.Scope.Visibility

/-!
# The history of an arena

An arena is what a sequence of operations has made of the empty one. `Op` is one operation, `run`
carries out a sequence of them, and operations that fail are part of it: what they leave behind is
what the next one starts from. A scope is only made below one that is there already (`Grounded`);
nothing else is asked of the sequence, so a horizon or a body may be set at any time.

An operation that fails could have changed the arena before it failed. None does (`Op.atomic`), so a
history is the history of its operations that succeed. What these can do to an arena is said once
(`Op.result_cases`). From it comes what an operation keeps of any arena (`Continues`), what holds of
every arena that has a history (`Sound`), and with both the laws of a history (`Lawful`).

Sessions bind names and addresses through the same two operations, so what a failure leaves of an
arena it leaves of a session: `addSymbol_eq_error` and `placeWith_eq_error` are the laws where they
are used.
-/
set_option autoImplicit false

namespace Z80Asm.Scopes

open Success

/-- An operation on an arena. -/
inductive Op
  | create (parent : Option ScopeId)
  | add (id : ScopeId) (name : String) (value : Expr)
  | setBody (id body : ScopeId)
  | markRegistered (id : ScopeId)
  | setHorizon (id : ScopeId) (serial : Nat)
  | setAddress (id : ScopeId) (address : UInt32)

namespace Op

/-- What an operation does. Only two of them can fail. -/
def action : Op → Action Unit
  | create parent => fun s => .ok () (s.create parent).2
  | add id name value => addSymbol id name value
  | setBody id body => fun s => .ok () (s.setBody id body)
  | markRegistered id => fun s => .ok () (s.markRegistered id)
  | setHorizon id serial => fun s => .ok () (s.setHorizon id serial)
  | setAddress id address => bindAddress id address

/-- The arena that an operation gives, or why it fails. -/
def result (s : Scopes) (op : Op) : Except Cause Scopes :=
  op.action.result s

/-- The arena that an operation leaves, whether or not it failed. -/
def step (s : Scopes) (op : Op) : Scopes :=
  match op.action s with
  | .ok _ t => t
  | .error _ t => t

/-- A scope is made below one that is there, or below none. -/
def Grounded (s : Scopes) : Op → Prop
  | create (some parent) => parent.index < s.size
  | _ => True

instance (s : Scopes) (op : Op) : Decidable (op.Grounded s) :=
  match op with
  | create (some parent) => inferInstanceAs (Decidable (parent.index < s.size))
  | create none | add _ _ _ | setBody _ _ | markRegistered _ | setHorizon _ _ | setAddress _ _ =>
    .isTrue trivial

end Op

/-- The arena after a sequence of operations. -/
def run (ops : List Op) (s : Scopes) : Scopes :=
  ops.foldl Op.step s

def Grounded : List Op → Scopes → Prop
  | [], _ => True
  | op :: rest, s => op.Grounded s ∧ Grounded rest (op.step s)

instance decidableGrounded : ∀ (ops : List Op) (s : Scopes), Decidable (Grounded ops s)
  | [], _ => .isTrue trivial
  | op :: rest, s =>
    have := decidableGrounded rest (op.step s)
    inferInstanceAs (Decidable (op.Grounded s ∧ Grounded rest (op.step s)))

theorem run_append (front back : List Op) (s : Scopes) :
    run (front ++ back) s = run back (run front s) :=
  List.foldl_append

theorem grounded_append {front back : List Op} {s : Scopes} (h : Grounded (front ++ back) s) :
    Grounded front s ∧ Grounded back (run front s) := by
  induction front generalizing s with
  | nil => exact ⟨trivial, h⟩
  | cons op rest ih =>
    obtain ⟨hop, hrest⟩ := h
    obtain ⟨hfront, hback⟩ := ih hrest
    exact ⟨⟨hop, hfront⟩, hback⟩

/-! ## What an operation does -/

variable {s t u : Scopes}

/-- Setting something about one scope that changes neither its parent, nor its bindings, nor an
    address that it has. -/
structure SetsAt (s : Scopes) (id : ScopeId) (f : Scope → Scope) : Prop where
  parent : ∀ scope, (f scope).parent = scope.parent
  bindings : ∀ scope, (f scope).bindings = scope.bindings
  address : ∀ scope address, s.get? id = some scope → scope.address = some address →
    (f scope).address = some address

theorem setAddress_eq_ok {id : ScopeId} {address : UInt32} (h : s.setAddress id address = .ok t) :
    (s.get? id).bind Scope.address = none ∧
      t = s.modify id fun scope => { scope with address := some address } := by
  rw [setAddress_eq] at h
  split at h
  · cases h
  · next hnone =>
    cases h
    exact ⟨hnone, rfl⟩

theorem Op.step_eq {op : Op} (h : op.result s = .ok t) : op.step s = t := by
  obtain ⟨u, hu⟩ := Action.result_eq_ok.mp h
  rw [step, hu]

theorem Op.atomic (op : Op) : op.action.Atomic := by
  cases op with
  | add id name value => exact atomic_addSymbol id name value
  | setAddress id address => exact atomic_bindAddress id address
  | _ =>
    intro s cause t h
    cases h

/-- An operation that fails leaves the arena as it was. -/
theorem Op.step_eq_of_error {op : Op} {cause : Cause} (h : op.result s = .error cause) :
    op.step s = s := by
  rw [step, op.atomic.result_eq_error.mp h]

/-- What an operation that succeeds can do: make a scope, bind a name where it is not bound, or set
    something about a scope. -/
theorem Op.result_cases {op : Op} (h : op.result s = .ok t) :
    (∃ parent, op = .create parent ∧ t = (s.create parent).2) ∨
      (∃ id scope name value, s.get? id = some scope ∧ scope.binding? name = none ∧
        t = s.bind id name value) ∨
      ∃ id f, s.SetsAt id f ∧ t = s.modify id f := by
  cases op with
  | create parent =>
    cases h
    exact .inl ⟨parent, rfl, rfl⟩
  | add id name value =>
    obtain ⟨scope, hscope, hname, rfl⟩ := add_eq_ok h
    exact .inr (.inl ⟨id, scope, name, value, hscope, hname, rfl⟩)
  | setBody id body =>
    cases h
    refine .inr (.inr ⟨id, fun scope => { scope with body := some body }, ?_, rfl⟩)
    exact ⟨fun _ => rfl, fun _ => rfl, fun _ _ _ h => h⟩
  | markRegistered id =>
    cases h
    refine .inr (.inr ⟨id, fun scope => { scope with registered := some s.serial }, ?_, rfl⟩)
    exact ⟨fun _ => rfl, fun _ => rfl, fun _ _ _ h => h⟩
  | setHorizon id serial =>
    cases h
    refine .inr (.inr ⟨id, fun scope => { scope with horizon := some serial }, ?_, rfl⟩)
    exact ⟨fun _ => rfl, fun _ => rfl, fun _ _ _ h => h⟩
  | setAddress id address =>
    obtain ⟨hnone, rfl⟩ := setAddress_eq_ok h
    refine .inr (.inr ⟨id, fun scope => { scope with address := some address }, ?_, rfl⟩)
    refine ⟨fun _ => rfl, fun _ => rfl, fun scope bound hscope hbound => ?_⟩
    -- the scope has no address yet
    rw [hscope] at hnone
    cases hnone.symm.trans hbound

/-- What the operations of a sequence keep, the arena keeps from its beginning to its end. -/
theorem run_induction {P : Scopes → Prop} {ops : List Op} (hs : P s) (hops : Grounded ops s)
    (hstep : ∀ {s t : Scopes} {op : Op}, op.Grounded s → op.result s = .ok t → P s → P t) :
    P (run ops s) := by
  induction ops generalizing s with
  | nil => exact hs
  | cons op rest ih =>
    refine ih ?_ hops.2
    cases hresult : op.result s with
    | ok t =>
      rw [op.step_eq hresult]
      exact hstep hops.1 hresult hs
    | error cause =>
      rw [Op.step_eq_of_error hresult]
      exact hs

/-! ## Bindings and addresses -/

/-- The binding of a name in a scope of the arena. -/
def binding? (s : Scopes) (id : ScopeId) (name : String) : Option Binding :=
  (s.get? id).bind (·.binding? name)

theorem binding?_create (s : Scopes) (parent : Option ScopeId) (id : ScopeId) (name : String) :
    (s.create parent).2.binding? id name =
      if id = s.fresh ∧ name = selfName then some ⟨selfName, .context s.fresh, 0⟩
      else s.binding? id name := by
  rw [binding?, get?_create, binding?]
  by_cases hid : id = s.fresh
  · subst hid
    rw [if_pos rfl, get?_fresh]
    by_cases hname : name = selfName
    · subst hname
      simp [Scope.binding?]
    · have hne : selfName ≠ name := fun h => hname h.symm
      simp [Scope.binding?, hname, hne]
  · simp [hid]

theorem binding?_bind {id : ScopeId} {scope : Scope} (hscope : s.get? id = some scope)
    (name : String) (value : Expr) (other : ScopeId) (word : String) :
    (s.bind id name value).binding? other word =
      if other = id ∧ word = name then some ⟨name, value, s.serial + 1⟩
      else s.binding? other word := by
  rw [binding?]
  show ((s.modify id _).get? other).bind _ = _
  rw [get?_modify, binding?]
  by_cases hid : id = other
  · subst hid
    rw [if_pos rfl, hscope]
    by_cases hword : word = name
    · subst hword
      simp [Scope.binding?]
    · have hne : name ≠ word := fun h => hword h.symm
      simp [Scope.binding?, hword, hne]
  · have hne : other ≠ id := fun h => hid h.symm
    simp [hid, hne]

theorem binding?_modify {f : Scope → Scope} (hf : ∀ scope, (f scope).bindings = scope.bindings)
    (id other : ScopeId) (name : String) :
    (s.modify id f).binding? other name = s.binding? other name := by
  rw [binding?, get?_modify, binding?]
  split
  · cases s.get? other with
    | none => rfl
    | some scope =>
      show (f scope).binding? name = scope.binding? name
      rw [Scope.binding?, hf, Scope.binding?]
  · rfl

theorem size_bind (s : Scopes) (id : ScopeId) (name : String) (value : Expr) :
    (s.bind id name value).size = s.size :=
  s.size_modify id _

/-- The address of a scope. -/
def address? (s : Scopes) (id : ScopeId) : Option UInt32 :=
  (s.get? id).bind Scope.address

theorem address_eq_ok {id : ScopeId} {address : UInt32} :
    s.address id = .ok address ↔ s.address? id = some address := by
  rw [Scopes.address, address?]
  cases (s.get? id).bind Scope.address with
  | none => simp
  | some bound => simp

theorem address?_modify {id other : ScopeId} {f : Scope → Scope}
    (hf : ∀ scope, (f scope).address = scope.address) :
    (s.modify id f).address? other = s.address? other := by
  rw [address?, get?_modify, address?]
  split
  · cases s.get? other with
    | none => rfl
    | some scope => exact hf scope
  · rfl

theorem address?_setAddress {id : ScopeId} {address : UInt32}
    (h : s.setAddress id address = .ok t) (hid : id.index < t.size) :
    t.address? id = some address := by
  obtain ⟨-, rfl⟩ := setAddress_eq_ok h
  rw [size_modify] at hid
  obtain ⟨scope, hscope⟩ := exists_get?_of_lt hid
  rw [address?, get?_modify, if_pos rfl, hscope]
  rfl

/-! ## What is kept -/

/-- From the arena `s` on, up to `t`: what is bound stays bound to the same under the same number,
    what is bound later has a higher number, and addresses stay. -/
structure Continues (s t : Scopes) : Prop where
  serial : s.serial ≤ t.serial
  kept : ∀ id name binding, s.binding? id name = some binding → t.binding? id name = some binding
  later : ∀ id name binding, t.binding? id name = some binding →
    s.binding? id name = some binding ∨ name = selfName ∨ s.serial < binding.serial
  address : ∀ id address, s.address? id = some address → t.address? id = some address

theorem Continues.refl (s : Scopes) : s.Continues s :=
  ⟨Nat.le_refl _, fun _ _ _ h => h, fun _ _ _ h => .inl h, fun _ _ h => h⟩

theorem Continues.trans (hst : s.Continues t) (htu : t.Continues u) : s.Continues u where
  serial := Nat.le_trans hst.serial htu.serial
  kept id name binding h := htu.kept id name binding (hst.kept id name binding h)
  later id name binding h := by
    rcases htu.later id name binding h with h | h | h
    · exact hst.later id name binding h
    · exact .inr (.inl h)
    · exact .inr (.inr (Nat.lt_of_le_of_lt hst.serial h))
  address id address h := htu.address id address (hst.address id address h)

theorem continues_create (s : Scopes) (parent : Option ScopeId) :
    s.Continues (s.create parent).2 where
  serial := Nat.le_refl _
  kept id name binding h := by
    have hne : id ≠ s.fresh := by
      rintro rfl
      rw [binding?, get?_fresh] at h
      cases h
    rw [binding?_create, if_neg fun heq => hne heq.1]
    exact h
  later id name binding h := by
    rw [binding?_create] at h
    split at h
    · next heq => exact .inr (.inl heq.2)
    · exact .inl h
  address id address h := by
    obtain ⟨scope, hscope, haddress⟩ := Option.bind_eq_some_iff.mp h
    rw [address?, get?_create_of_some hscope]
    exact haddress

theorem continues_bind {id : ScopeId} {scope : Scope} {name : String}
    (hscope : s.get? id = some scope) (hname : scope.binding? name = none) (value : Expr) :
    s.Continues (s.bind id name value) where
  serial := Nat.le_succ _
  kept other word binding h := by
    rw [binding?_bind hscope, if_neg]
    · exact h
    · rintro ⟨rfl, rfl⟩
      rw [binding?, hscope] at h
      cases hname.symm.trans h
  later other word binding h := by
    rw [binding?_bind hscope] at h
    split at h
    · cases h
      exact .inr (.inr (Nat.lt_succ_self _))
    · exact .inl h
  address other address h := (address?_modify fun _ => by rfl).trans h

theorem continues_modify {id : ScopeId} {f : Scope → Scope} (hf : s.SetsAt id f) :
    s.Continues (s.modify id f) where
  serial := Nat.le_refl _
  kept other name binding h := by
    rw [binding?_modify hf.bindings]
    exact h
  later other name binding h := by
    rw [binding?_modify hf.bindings] at h
    exact .inl h
  address other address h := by
    obtain ⟨scope, hscope, haddress⟩ := Option.bind_eq_some_iff.mp h
    rw [address?, get?_modify]
    split
    · next heq =>
      subst heq
      rw [hscope]
      exact hf.address scope address hscope haddress
    · exact h

theorem Op.continues {op : Op} (h : op.result s = .ok t) : s.Continues t := by
  obtain ⟨parent, -, rfl⟩ | ⟨id, scope, name, value, hscope, hname, rfl⟩ | ⟨id, f, hf, rfl⟩ :=
    Op.result_cases h
  · exact continues_create s parent
  · exact continues_bind hscope hname value
  · exact continues_modify hf

/-- What was there after the first operations of a sequence is still there at its end. -/
theorem continues_run {ops : List Op} (h : Grounded ops s) : s.Continues (run ops s) :=
  run_induction (P := fun t => s.Continues t) (.refl s) h fun _ hresult hst =>
    hst.trans (Op.continues hresult)

/-! ## What holds of every arena -/

/-- Every scope binds `$` to itself and was made after its parent, and all other bindings have
    numbers of their own. -/
structure Sound (s : Scopes) : Prop where
  self : ∀ id : ScopeId, id.index < s.size →
    s.binding? id selfName = some ⟨selfName, .context id, 0⟩
  ordered : s.Ordered
  numbered : ∀ id name binding, s.binding? id name = some binding → name ≠ selfName →
    1 ≤ binding.serial ∧ binding.serial ≤ s.serial
  apart : ∀ id name binding id' name' binding', s.binding? id name = some binding →
    s.binding? id' name' = some binding' → name ≠ selfName → name' ≠ selfName →
    binding.serial = binding'.serial → id = id' ∧ name = name'

theorem sound_empty : Sound {} where
  self _ h := nomatch h
  ordered _ h := nomatch h
  numbered _ _ _ h := nomatch h
  apart _ _ _ _ _ _ h := nomatch h

theorem Ordered.create_root (hs : s.Ordered) : (s.create none).2.Ordered := by
  rw [ordered_iff] at hs ⊢
  intro id scope p hid hparent
  rw [get?_create] at hid
  split at hid
  · cases hid
    cases hparent
  · exact hs id scope p hid hparent

theorem Sound.create (hs : s.Sound) {parent : Option ScopeId}
    (hparent : (Op.create parent).Grounded s) : (s.create parent).2.Sound where
  self id hid := by
    rw [binding?_create]
    split
    · next heq => rw [heq.1]
    · next hne =>
      rw [size_create] at hid
      refine hs.self id (Nat.lt_of_le_of_ne (Nat.le_of_lt_succ hid) fun heq => hne ⟨?_, rfl⟩)
      rw [fresh, ← heq]
  ordered := by
    cases parent with
    | none => exact hs.ordered.create_root
    | some p => exact hs.ordered.create hparent
  numbered id name binding h hname := by
    rw [binding?_create, if_neg fun heq => hname heq.2] at h
    exact hs.numbered id name binding h hname
  apart id name binding id' name' binding' h h' hname hname' := by
    rw [binding?_create, if_neg fun heq => hname heq.2] at h
    rw [binding?_create, if_neg fun heq => hname' heq.2] at h'
    exact hs.apart id name binding id' name' binding' h h' hname hname'

theorem Sound.bind (hs : s.Sound) {id : ScopeId} {scope : Scope} {name : String}
    (hscope : s.get? id = some scope) (hname : scope.binding? name = none) (value : Expr) :
    (s.bind id name value).Sound where
  self other hother := by
    rw [size_bind] at hother
    exact (continues_bind hscope hname value).kept other selfName _ (hs.self other hother)
  ordered := hs.ordered.modify id fun _ => rfl
  numbered other word binding h hword := by
    rw [binding?_bind hscope] at h
    split at h
    · cases h
      exact ⟨Nat.le_add_left _ _, Nat.le_refl _⟩
    · obtain ⟨hone, hle⟩ := hs.numbered other word binding h hword
      exact ⟨hone, Nat.le_succ_of_le hle⟩
  apart other word binding other' word' binding' h h' hword hword' hserial := by
    -- the number of the new binding is higher than those of all others
    rw [binding?_bind hscope] at h h'
    split at h
    · next heq =>
      split at h'
      · next heq' => exact ⟨heq.1.trans heq'.1.symm, heq.2.trans heq'.2.symm⟩
      · have hle := (hs.numbered other' word' binding' h' hword').2
        cases h
        exact absurd (hserial ▸ hle) (Nat.not_succ_le_self _)
    · split at h'
      · have hle := (hs.numbered other word binding h hword).2
        cases h'
        exact absurd (hserial ▸ hle) (Nat.not_succ_le_self _)
      · exact hs.apart other word binding other' word' binding' h h' hword hword' hserial

theorem Sound.modify (hs : s.Sound) {id : ScopeId} {f : Scope → Scope} (hf : s.SetsAt id f) :
    (s.modify id f).Sound where
  self other hother := by
    rw [size_modify] at hother
    rw [binding?_modify hf.bindings]
    exact hs.self other hother
  ordered := hs.ordered.modify id hf.parent
  numbered other name binding h hname := by
    rw [binding?_modify hf.bindings] at h
    exact hs.numbered other name binding h hname
  apart other name binding other' name' binding' h h' := by
    rw [binding?_modify hf.bindings] at h h'
    exact hs.apart other name binding other' name' binding' h h'

theorem Op.sound {op : Op} (hop : op.Grounded s) (h : op.result s = .ok t) (hs : s.Sound) :
    t.Sound := by
  obtain ⟨parent, rfl, rfl⟩ | ⟨id, scope, name, value, hscope, hname, rfl⟩ | ⟨id, f, hf, rfl⟩ :=
    Op.result_cases h
  · exact hs.create hop
  · exact hs.bind hscope hname value
  · exact hs.modify hf

theorem sound_run {ops : List Op} (hs : s.Sound) (h : Grounded ops s) : (run ops s).Sound :=
  run_induction hs h Op.sound

theorem Sound.symbol_self (hs : s.Sound) {id : ScopeId} (hid : id.index < s.size) :
    s.symbol id selfName = .ok (.context id) := by
  obtain ⟨scope, hscope, hbinding⟩ := Option.bind_eq_some_iff.mp (hs.self id hid)
  exact Binds.symbol_eq ⟨scope, _, hscope, hbinding, rfl⟩

/-! ## Failures -/

theorem exists_error_iff {α : Type} {x : Action α} (hx : x.Atomic) :
    (∃ cause t, x s = .error cause t) ↔ ∃ cause, x.result s = .error cause := by
  simp only [hx.result_eq_error]
  refine exists_congr fun cause => ⟨?_, fun h => ⟨s, h⟩⟩
  rintro ⟨t, h⟩
  rw [h, hx s cause t h]

theorem add_fails_iff {id : ScopeId} {name : String} {value : Expr} :
    (∃ cause, s.add id name value = .error cause) ↔
      name.isEmpty ∨ s.size ≤ id.index ∨ ∃ binding, s.binding? id name = some binding := by
  rw [add_eq]
  by_cases hempty : name.isEmpty = true
  · simp [hempty]
  · cases hscope : s.get? id with
    | none =>
      have hle : s.size ≤ id.index := Array.getElem?_eq_none_iff.mp hscope
      simp [hempty, hle]
    | some scope =>
      have hlt : ¬ s.size ≤ id.index := Nat.not_le_of_lt (index_lt_of_get? hscope)
      have hbound : (∃ binding, s.binding? id name = some binding) ↔
          scope.bindings.any (·.name == name) = true := by
        rw [binding?, hscope, Option.bind_some, Scope.binding?, ← Option.isSome_iff_exists,
          List.find?_isSome, List.any_eq_true]
      rw [hbound]
      by_cases hany : scope.bindings.any (·.name == name) = true
      · simp [hempty, hany]
      · simp [hempty, hany, hlt]

theorem setAddress_fails_iff {id : ScopeId} {address : UInt32} :
    (∃ cause, s.setAddress id address = .error cause) ↔ ∃ bound, s.address id = .ok bound := by
  simp only [address_eq_ok, setAddress_eq, address?]
  cases (s.get? id).bind Scope.address with
  | none => simp
  | some bound => simp

end Z80Asm.Scopes

namespace Z80Asm.Assembly

open Success

variable {s s' : Session}

/-- A binding that fails leaves the session as it was. -/
theorem addSymbol_eq_error {id : ScopeId} {name : String} {value : Expr} {failure : Failure}
    (h : addSymbol id name value s = .error failure s') : s' = s := by
  unfold addSymbol onScopes at h
  split at h
  · cases h
  · next cause scopes hadd =>
    cases h
    rw [Scopes.atomic_addSymbol id name value _ _ _ hadd]

/-- Placing a line whose scope has an address leaves the session as it was. -/
theorem placeWith_eq_error (placeParts : Placer) {item : Item} {address : UInt32} {cause : Cause}
    {scopes : Scopes}
    (h : Scopes.bindAddress item.line.scope address s.scopes = .error cause scopes) :
    placeWith placeParts item address s = .error (cause.untraced.at item.line.position) s := by
  rw [placeWith, traced, adaptExcept_eq_error]
  refine ⟨cause.untraced, bind_eq_error.mpr (.inl ?_), rfl⟩
  obtain rfl := Scopes.atomic_bindAddress _ _ _ _ _ h
  rw [onScopes, h]

end Z80Asm.Assembly

namespace Z80Asm.Scopes

/-- The laws of the history of an arena. -/
structure Lawful (ops : List Op) : Prop where
  /-- A binding keeps its value and its number. -/
  kept : ∀ front back, ops = front ++ back → ∀ id name binding,
    (run front {}).binding? id name = some binding → (run ops {}).binding? id name = some binding
  /-- Every scope binds `$` to itself, with the number 0. -/
  self : ∀ id : ScopeId, id.index < (run ops {}).size →
    (run ops {}).binding? id selfName = some ⟨selfName, .context id, 0⟩
  /-- Looked up from a scope, `$` is the scope. -/
  symbol_self : ∀ id : ScopeId, id.index < (run ops {}).size →
    (run ops {}).symbol id selfName = .ok (.context id)
  /-- All other bindings are numbered from 1 up to the number of the arena. -/
  numbered : ∀ id name binding, (run ops {}).binding? id name = some binding → name ≠ selfName →
    1 ≤ binding.serial ∧ binding.serial ≤ (run ops {}).serial
  /-- No two of them have the same number. -/
  apart : ∀ id name binding id' name' binding', (run ops {}).binding? id name = some binding →
    (run ops {}).binding? id' name' = some binding' → name ≠ selfName → name' ≠ selfName →
    (id, name) ≠ (id', name') → binding.serial ≠ binding'.serial
  /-- What is bound later has the higher number. -/
  increasing : ∀ front back, ops = front ++ back → ∀ id name binding id' name' binding',
    (run front {}).binding? id name = some binding → name ≠ selfName →
    (run front {}).binding? id' name' = none →
    (run ops {}).binding? id' name' = some binding' → name' ≠ selfName →
    binding.serial < binding'.serial
  parent_lt : ∀ id parent, (run ops {}).parent? id = some parent → parent.index < id.index
  /-- An address stays. -/
  address : ∀ front back, ops = front ++ back → ∀ id address,
    (run front {}).address id = .ok address → (run ops {}).address id = .ok address
  /-- What an operation that fails leaves is the arena as it was, the numbering included. -/
  failed : ∀ (op : Op) cause t, op.action (run ops {}) = .error cause t → t = run ops {}
  /-- So the operations that follow it start from there. -/
  passed_over : ∀ (op : Op) cause t, op.action (run ops {}) = .error cause t →
    run (ops ++ [op]) {} = run ops {}
  add_fails : ∀ id name value, (∃ cause t, addSymbol id name value (run ops {}) = .error cause t) ↔
    name.isEmpty ∨ (run ops {}).size ≤ id.index ∨
      ∃ binding, (run ops {}).binding? id name = some binding
  setAddress_fails : ∀ id address,
    (∃ cause t, bindAddress id address (run ops {}) = .error cause t) ↔
      ∃ bound, (run ops {}).address id = .ok bound
  /-- So a session that binds a name twice stays as it was. -/
  addSymbol_failed : ∀ session id name value failure session', session.scopes = run ops {} →
    Assembly.addSymbol id name value session = .error failure session' → session' = session
  /-- And so does one that places a line twice. -/
  place_failed : ∀ session placeParts item address cause t, session.scopes = run ops {} →
    bindAddress item.line.scope address session.scopes = .error cause t →
      ∃ failure, Assembly.placeWith placeParts item address session = .error failure session

/-- **The history of an arena is lawful**, whatever was done to it and whatever of it failed.
    `Grounded` is needed because a scope below one that does not exist would get a parent when that
    number is used, and then be older than its parent. -/
theorem lawful_of_grounded (ops : List Op) (h : Grounded ops {}) : Lawful ops := by
  have hsound : (run ops {}).Sound := sound_run sound_empty h
  have hcontinues : ∀ {front back}, ops = front ++ back →
      (run front {}).Sound ∧ (run front {}).Continues (run ops {}) := by
    rintro front back rfl
    obtain ⟨hfront, hback⟩ := grounded_append h
    rw [run_append]
    exact ⟨sound_run sound_empty hfront, continues_run hback⟩
  exact
    { kept := fun front back hops => (hcontinues hops).2.kept
      self := hsound.self
      symbol_self := fun id hid => hsound.symbol_self hid
      numbered := hsound.numbered
      apart := by
        intro id name binding id' name' binding' hb hb' hname hname' hne hserial
        obtain ⟨rfl, rfl⟩ :=
          hsound.apart id name binding id' name' binding' hb hb' hname hname' hserial
        exact hne rfl
      increasing := by
        intro front back hops id name binding id' name' binding' hb hname hnone hb' hname'
        obtain ⟨hfront, hlater⟩ := hcontinues hops
        have hle := (hfront.numbered id name binding hb hname).2
        rcases hlater.later id' name' binding' hb' with hbound | hself | hlt
        · cases hnone.symm.trans hbound
        · exact absurd hself hname'
        · exact Nat.lt_of_le_of_lt hle hlt
      parent_lt := by
        intro id parent hparent
        obtain ⟨scope, hscope, hup⟩ := Option.bind_eq_some_iff.mp hparent
        exact ordered_iff.mp hsound.ordered id scope parent hscope hup
      address := by
        intro front back hops id address haddress
        rw [address_eq_ok] at haddress ⊢
        exact (hcontinues hops).2.address id address haddress
      failed := fun op cause t hfailed => op.atomic _ cause t hfailed
      passed_over := by
        intro op cause t hfailed
        rw [run_append]
        show op.step (run ops {}) = _
        rw [Op.step, hfailed]
        exact op.atomic _ cause t hfailed
      add_fails := fun id name value => (exists_error_iff (atomic_addSymbol id name value)).trans
        add_fails_iff
      setAddress_fails := fun id address => (exists_error_iff (atomic_bindAddress id address)).trans
        setAddress_fails_iff
      addSymbol_failed := fun _ _ _ _ _ _ _ hfailed => Assembly.addSymbol_eq_error hfailed
      place_failed := fun _ placeParts _ _ _ _ _ hfailed =>
        ⟨_, Assembly.placeWith_eq_error placeParts hfailed⟩ }

/-- Two scopes, a name that is bound twice, an address that is set twice and a name without
    letters. -/
theorem lawful_of_grounded_clashes :
    let ops : List Op := [.create none, .create (some ⟨0⟩), .add ⟨1⟩ "a" (.int 5),
      .setAddress ⟨1⟩ 7, .add ⟨1⟩ "a" (.int 6), .setAddress ⟨1⟩ 8, .add ⟨0⟩ "" (.int 1),
      .setHorizon ⟨1⟩ 0, .add ⟨0⟩ "a" (.int 9)]
    Grounded ops {} ∧ Lawful ops ∧
      ((run ops {}).binding? ⟨1⟩ "a").map (fun b => (b.value.display, b.serial)) = some ("5", 1) ∧
      ((run ops {}).binding? ⟨0⟩ "a").map (fun b => (b.value.display, b.serial)) = some ("9", 2) ∧
      (run ops {}).address? ⟨1⟩ = some 7 := by
  intro ops
  have hgrounded : Grounded ops {} := by decide
  exact ⟨hgrounded, lawful_of_grounded ops hgrounded, by decide +kernel, by decide +kernel,
    by decide⟩

end Z80Asm.Scopes
