import Z80Asm.Proofs.Scope.Dotted

/-!
# Names that are bound above a horizon

A horizon hides all bindings that are made after it was set from the scopes at and below it.
Whatever is bound later further out, a name without dots is the same from below as before
(`symbol_run_adds`): a binding that is new has a higher number than the horizon, and one that is
older stays what it is. Bodies are not hidden, so this takes that no scope on the way outward has
one.

That entries are bound further out is needed: what is bound at the horizon or below it is found,
however late it is bound.
-/
set_option autoImplicit false

namespace Z80Asm.Scopes

variable {s t : Scopes} {id p : ScopeId}

/-! ## The way outward -/

theorem Around.cases_first {other : ScopeId} (h : s.Around id other) :
    id = other ∨ ∃ q, s.parent? id = some q ∧ s.Around q other := by
  induction h with
  | here => exact .inl rfl
  | out _ hparent ih =>
    rcases ih with rfl | ⟨q, hq, hother⟩
    · exact .inr ⟨_, hparent, .here⟩
    · exact .inr ⟨q, hq, hother.out hparent⟩

theorem Around.index_le (hs : s.Ordered) {other : ScopeId} (h : s.Around id other) :
    other.index ≤ id.index := by
  induction h with
  | here => exact Nat.le_refl _
  | out _ hparent ih =>
    obtain ⟨scope, hscope, hup⟩ := Option.bind_eq_some_iff.mp hparent
    exact Nat.le_trans (Nat.le_of_lt (ordered_iff.mp hs _ scope _ hscope hup)) ih

theorem Around.congr {other : ScopeId} (hparent : ∀ id, t.parent? id = s.parent? id)
    (h : t.Around id other) : s.Around id other := by
  induction h with
  | here => exact .here
  | out _ hup ih => exact ih.out ((hparent _).symm.trans hup)

/-- The scopes strictly above a scope. -/
def Above (s : Scopes) (p other : ScopeId) : Prop :=
  ∃ q, s.parent? p = some q ∧ s.Around q other

theorem Above.index_lt (hs : s.Ordered) {other : ScopeId} (h : s.Above p other) :
    other.index < p.index := by
  obtain ⟨q, hq, hother⟩ := h
  obtain ⟨scope, hscope, hup⟩ := Option.bind_eq_some_iff.mp hq
  exact Nat.lt_of_le_of_lt (hother.index_le hs) (ordered_iff.mp hs p scope q hscope hup)

/-! ## Binding names -/

/-- The operations that bind names one after the other. -/
def adds (entries : List (ScopeId × String × Expr)) : List Op :=
  entries.map fun (id, name, value) => .add id name value

/-- From `s` to `t` names are bound in some scopes, and nothing else is done. -/
structure OnlyBinds (bound : ScopeId → Prop) (s t : Scopes) : Prop where
  steps : Steps (fun _ => False) s t
  size : t.size = s.size
  parent : ∀ id, t.parent? id = s.parent? id
  body : ∀ id, t.body? id = s.body? id
  others : ∀ id, ¬ bound id → t.get? id = s.get? id

namespace OnlyBinds

variable {bound : ScopeId → Prop}

theorem refl (s : Scopes) : s.OnlyBinds bound s :=
  ⟨.refl, rfl, fun _ => rfl, fun _ => rfl, fun _ _ => rfl⟩

theorem trans {u : Scopes} (hst : s.OnlyBinds bound t) (htu : t.OnlyBinds bound u) :
    s.OnlyBinds bound u where
  steps := hst.steps.trans htu.steps
  size := htu.size.trans hst.size
  parent other := (htu.parent other).trans (hst.parent other)
  body other := (htu.body other).trans (hst.body other)
  others other h := (htu.others other h).trans (hst.others other h)

theorem of_add {name : String} {value : Expr} (hid : bound id) (h : s.add id name value = .ok t) :
    s.OnlyBinds bound t where
  steps := Steps.refl.add h
  size := by
    obtain ⟨-, -, -, rfl⟩ := add_eq_ok h
    exact size_bind s id name value
  parent other := by
    obtain ⟨-, -, -, rfl⟩ := add_eq_ok h
    show ((s.modify id _).get? other).bind _ = _
    rw [get?_modify, parent?]
    split
    · cases s.get? other <;> rfl
    · rfl
  body := body?_add h
  others other hother := by
    obtain ⟨-, -, -, rfl⟩ := add_eq_ok h
    show (s.modify id _).get? other = _
    rw [get?_modify, if_neg]
    rintro rfl
    exact hother hid

end OnlyBinds

theorem onlyBinds_run_adds {bound : ScopeId → Prop} {entries : List (ScopeId × String × Expr)}
    (h : ∀ entry ∈ entries, bound entry.1) (s : Scopes) : s.OnlyBinds bound (run (adds entries) s) := by
  induction entries generalizing s with
  | nil => exact .refl s
  | cons entry rest ih =>
    obtain ⟨hentry, hrest⟩ := List.forall_mem_cons.mp h
    refine OnlyBinds.trans ?_ (ih hrest _)
    show s.OnlyBinds bound ((Op.add entry.1 entry.2.1 entry.2.2).step s)
    cases hadd : (Op.add entry.1 entry.2.1 entry.2.2).result s with
    | ok t =>
      rw [Op.step_eq hadd]
      exact .of_add hentry hadd
    | error cause =>
      rw [Op.step_eq_of_error hadd]
      exact .refl s

theorem grounded_adds (entries : List (ScopeId × String × Expr)) (s : Scopes) :
    Grounded (adds entries) s := by
  induction entries generalizing s with
  | nil => trivial
  | cons entry rest ih => exact ⟨trivial, ih _⟩

/-! ## Lookups from below -/

/-- Above a horizon, what is bound later is not seen. -/
theorem OnlyBinds.findSome?_outward (hst : s.OnlyBinds (s.Above p) t) (hs : s.Ordered)
    (hdated : s.Dated) {scope : Scope} (hp : s.get? p = some scope) {limit : Nat}
    (hlimit : scope.horizon = some limit) (hle : limit ≤ s.serial) {name : String}
    (hname : '.' ∉ name.toList) (hself : name ≠ selfName) (hid : s.Around id p)
    (hbare : ∀ other, s.Around id other → s.body? other = none) (fuel : Nat)
    (horizon : Option Nat) :
    ((t.outward fuel id horizon).findSome? fun (id, horizon) =>
        t.lookupInside t.scopeOf (maxDepth + 1) id name horizon) =
      (s.outward fuel id horizon).findSome? fun (id, horizon) =>
        s.lookupInside s.scopeOf (maxDepth + 1) id name horizon := by
  have hdots := dotSplits_eq_nil hname
  induction fuel generalizing id horizon with
  | zero => rw [outward, outward, List.findSome?_nil, List.findSome?_nil]
  | succ fuel ih =>
    have hsame : t.get? id = s.get? id := hst.others id fun habove =>
      absurd (habove.index_lt hs) (Nat.not_lt_of_le (hid.index_le hs))
    have hbody := hbare id .here
    have hone : t.lookupInside t.scopeOf (maxDepth + 1) id name horizon =
        s.lookupInside s.scopeOf (maxDepth + 1) id name horizon := by
      rw [lookupInside_eq_or hdots, lookupInside_eq_or hdots, hst.body, hbody, hsame,
        Option.bind_none, Option.bind_none]
    rw [outward, outward, hsame]
    cases hscope : s.get? id with
    | none => rw [List.findSome?_nil, List.findSome?_nil]
    | some here =>
      simp only [List.findSome?_cons, hone]
      cases hparent : here.parent with
      | none => rw [List.findSome?_nil, List.findSome?_nil]
      | some q =>
        have hup : s.parent? id = some q := by
          rw [parent?, hscope]
          exact hparent
        have hbareq : ∀ other, s.Around q other → s.body? other = none :=
          fun other hother => hbare other (hother.of_parent hup)
        dsimp only
        rcases hid.cases_first with rfl | ⟨q', hq', hpath⟩
        · -- This is where the horizon is: from here on nothing new is seen.
          cases hp.symm.trans hscope
          obtain ⟨near, hnear, hseen⟩ : ∃ near,
              nearerHorizon horizon scope.horizon = some near ∧ near ≤ s.serial := by
            rw [hlimit]
            cases horizon with
            | none => exact ⟨limit, rfl, hle⟩
            | some k => exact ⟨min k limit, rfl, Nat.le_trans (Nat.min_le_right _ _) hle⟩
          have hcut : some near = nearerHorizon (some s.serial) (some near) := by
            rw [nearerHorizon, Nat.min_eq_right hseen]
          have hq : q.index < s.size := Nat.lt_trans
            (ordered_iff.mp hs _ scope q hscope hparent) (index_lt_of_get? hscope)
          rw [hnear, hcut, hst.steps.findSome?_outward_eq hs hdated hself hdots t.scopeOf s.scopeOf
            fuel (some near) hq ?_, ← hcut]
          intro other hother
          rw [hst.body]
          exact hbareq other (hother.congr hst.parent)
        · cases hup.symm.trans hq'
          rw [ih hpath hbareq]

theorem Made.dated (hs : s.Made) : s.Dated := by
  intro id binding hbinding
  have hfound := hs.named.binding?_eq hbinding
  by_cases hself : binding.name = selfName
  · obtain ⟨scope, hscope, -⟩ := hbinding
    rw [hself, hs.sound.self id (index_lt_of_get? hscope)] at hfound
    cases hfound
    exact Nat.zero_le _
  · exact (hs.sound.numbered id binding.name binding hfound hself).2

/-- **The horizon hides later bindings.** From a scope at or below one with a horizon that is not in the
    future, a name without dots is what it was before, whatever is bound further out. -/
theorem symbol_run_adds (hs : s.Made) {scope : Scope} (hp : s.get? p = some scope) {limit : Nat}
    (hlimit : scope.horizon = some limit) (hle : limit ≤ s.serial) (hid : s.Around id p)
    (hbare : ∀ other, s.Around id other → s.body? other = none) {name : String}
    (hname : '.' ∉ name.toList) {entries : List (ScopeId × String × Expr)}
    (hentries : ∀ entry ∈ entries, s.Above p entry.1) :
    (run (adds entries) s).symbol id name = s.symbol id name := by
  have hst := onlyBinds_run_adds hentries s
  by_cases hself : name = selfName
  · subst hself
    have hlt : id.index < s.size := by
      rcases hid.cases_first with rfl | ⟨q, hq, -⟩
      · exact index_lt_of_get? hp
      · obtain ⟨here, hhere, -⟩ := Option.bind_eq_some_iff.mp hq
        exact index_lt_of_get? hhere
    have hsound := sound_run hs.sound (grounded_adds entries s)
    rw [hs.sound.symbol_self hlt, hsound.symbol_self (hst.size ▸ hlt)]
  · have hsame := hst.findSome?_outward hs.sound.ordered hs.dated hp hlimit hle hname hself hid hbare
      s.size none
    rw [symbol, symbol, symbolValue, symbolValue, symbol?, symbol?, hst.size, hsame]

/-- A scope with a horizon between an inner and two outer scopes. -/
def hiddenOps : List Op :=
  [.create none, .create (some ⟨0⟩), .create (some ⟨1⟩), .create (some ⟨2⟩),
    .add ⟨0⟩ "early" (.int 1), .setHorizon ⟨2⟩ 1]

/-- What is bound later: a nearer `early`, `early` a second time, and a name of its own. -/
def laterEntries : List (ScopeId × String × Expr) :=
  [(⟨1⟩, "early", .int 2), (⟨0⟩, "early", .int 3), (⟨0⟩, "late", .int 4)]

theorem symbol_run_adds_late :
    let s := run hiddenOps {}
    let t := run (adds laterEntries) s
    (∀ name : String, '.' ∉ name.toList → t.symbol ⟨3⟩ name = s.symbol ⟨3⟩ name) ∧
      s.symbol ⟨3⟩ "early" = .ok (.int 1) ∧ t.symbol ⟨1⟩ "early" = .ok (.int 2) ∧
      s.symbol ⟨3⟩ "late" = .error (.symbolNotFound "late") ∧ t.symbol ⟨0⟩ "late" = .ok (.int 4) := by
  have hs : (run hiddenOps {}).Made := ⟨hiddenOps, by decide, rfl⟩
  have hbare : ∀ other, (run hiddenOps {}).Around ⟨3⟩ other →
      (run hiddenOps {}).body? other = none := by
    intro other hother
    have hmem : other ∈ [⟨3⟩, ⟨2⟩, ⟨1⟩, (⟨0⟩ : ScopeId)] := hother.mem (by decide) (by decide)
    have hall : ∀ other ∈ [⟨3⟩, ⟨2⟩, ⟨1⟩, (⟨0⟩ : ScopeId)], (run hiddenOps {}).body? other = none := by
      decide
    exact hall other hmem
  have habove : ∀ entry ∈ laterEntries, (run hiddenOps {}).Above ⟨2⟩ entry.1 := by
    intro entry hentry
    have hparent : (run hiddenOps {}).parent? ⟨2⟩ = some ⟨1⟩ := rfl
    simp only [laterEntries, List.mem_cons, List.not_mem_nil, or_false] at hentry
    rcases hentry with rfl | rfl | rfl
    · exact ⟨_, hparent, .here⟩
    · exact ⟨_, hparent, .out .here rfl⟩
    · exact ⟨_, hparent, .out .here rfl⟩
  refine ⟨fun name hname => ?_, rfl, rfl, rfl, rfl⟩
  exact symbol_run_adds hs (p := ⟨2⟩) rfl rfl (by decide) (.out .here rfl) hbare hname habove

end Z80Asm.Scopes
