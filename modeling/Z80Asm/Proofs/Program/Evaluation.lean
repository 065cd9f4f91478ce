import Z80Asm.Proofs.Expr.Recursion
import Z80Asm.Proofs.Expr.Shape
import Z80Asm.Proofs.Expr.Termination
import Z80Asm.Proofs.Program.Course
import Z80Asm.Proofs.Program.Hygiene
import Z80Asm.Proofs.Scope.Listed

/-!
# Evaluation in the arenas of a program

The arena of a program whose labels are bound, and every arena that comes out of it, counts the
names and parentheses of its values. So evaluation there ends where it is not circular, and a circle
of definitions is reported.

Other files state conditions that speak of `resolve`, `integer`, `symbol` and `member` as they are
defined, that is, with bounds. Where the evaluation without bounds ends, these conditions say the
same of it. The first section has a lemma for each kind: what is listed (`Relisting`), what is asked
about an operand (`Shape`), and what a name is inside a line and around it (`Hygiene`). Where it
does not end, the bounded evaluation is an error and the other one has no outcome, so there is
nothing to compare.
-/
set_option autoImplicit false

namespace Z80Asm

open Success

/-! ## Without bounds -/

section

variable {s t : Scopes}

/-- If the evaluation of everything that is listed ends, the listing has the symbols whose evaluation
    ends with a number. -/
theorem Scopes.Counted.mem_numbered_iff (hs : s.Counted) {id : ScopeId}
    (hends : ∀ symbol ∈ reachedFrom s.listed (maxDepth + 1) id "",
      ∃ r, Ends s (Asking.integer s symbol.2) r) {name : String} {v : Int64} :
    (name, v) ∈ s.numbered id ↔
      ∃ value, (name, value) ∈ reachedFrom s.listed (maxDepth + 1) id "" ∧ s.Evaluates value v := by
  rw [numbered, List.mem_filterMap]
  constructor
  · rintro ⟨⟨name', value⟩, hmem, hsome⟩
    obtain ⟨v', hv, heq⟩ := Option.map_eq_some_iff.mp hsome
    cases heq
    exact ⟨value, hmem, (hs.evaluates_iff (hends _ hmem)).mpr (eq_ok_of_toOption hv)⟩
  · rintro ⟨value, hmem, hv, -⟩
    exact ⟨(name, value), hmem, by rw [numberOf?, hv]; rfl⟩

/-- Two arenas that decide alike give an expression the same value, if it has one in both of them. -/
theorem ends_resolve_eq (hs : s.Counted) (ht : t.Counted) (h : s.unplaced = t.unplaced) {e : Expr}
    (hd : ∀ d ∈ e.decisions s, s.decides d = t.decides d) {r r' : Option Expr}
    (hr : Ends s (Asking.resolve s e) r) (hr' : Ends t (Asking.resolve t e) r') : r = r' := by
  rw [← (terminates_resolve hs e).outcome r hr, ← (terminates_resolve ht e).outcome r' hr']
  exact toOption_resolve_eq h hd

/-- A name that is looked up from two scopes is the same if its value is, since there is one way to
    fail. -/
theorem toOption_symbol_eq_iff {id other : ScopeId} {n : String} :
    (s.symbol id n).toOption = (s.symbol other n).toOption ↔ s.symbol id n = s.symbol other n := by
  refine ⟨fun h => ?_, congrArg _⟩
  unfold Scopes.symbol symbolValue at h ⊢
  cases hid : s.symbol? s.scopeOf id n with
  | none =>
    cases hother : s.symbol? s.scopeOf other n with
    | none => rfl
    | some v => simp [hid, hother, Except.toOption] at h
  | some v =>
    cases hother : s.symbol? s.scopeOf other n with
    | none => simp [hid, hother, Except.toOption] at h
    | some w => simpa [hid, hother, Except.toOption] using h

/-- The name `n` is what it is around the line if and only if nothing else has the name inside the
    line, for lookups that end. -/
theorem Scopes.Passes.ends_name_iff {site around inside params : ScopeId} {p : String} {e : Expr}
    (h : s.Passes t site around inside params p e) (ht : t.Counted) {n : String}
    {own outer within : Option Expr} (hown : Ends t (Asking.symbol t site n) own)
    (houter : Ends t (Asking.symbol t around n) outer)
    (hwithin : Ends t (Asking.member t site n) within) :
    own = outer ↔ ∀ v, within = some v → outer = some v := by
  rw [← (terminates_lookup ht site n).1.outcome _ hown,
    ← (terminates_lookup ht around n).1.outcome _ houter,
    ← (terminates_lookup ht site n).2.outcome _ hwithin, toOption_symbol_eq_iff, h.name]
  have hok : ∀ {x : Except Cause Expr} {v : Expr}, x = .ok v ↔ x.toOption = some v :=
    ⟨fun hx => hx ▸ rfl, eq_ok_of_toOption⟩
  exact forall_congr' fun v => imp_congr hok hok

end

/-- A circle of definitions: each of these evaluations needs another one of them. -/
def Task.Circle (s : Scopes) (circle : Task → Prop) : Prop :=
  ∀ task, circle task → ∃ next, task.Needs s next ∧ circle next

theorem Task.Circle.resolve {s : Scopes} {circle : Task → Prop} (h : Circle s circle) {e : Expr}
    (he : circle ⟨.value, e⟩) : e.resolve s = .error .recursiveReference :=
  givesUp_of_circle h he (maxDepth + 1)

namespace Assembly

theorem loadRegistered_counted {library : Library} {text : String} {source : Source}
    {session : Session} (h : loadRegistered text (Session.new library) = .ok source session) :
    session.scopes.Counted := by
  obtain ⟨source, s₁, hload, h⟩ := bind_eq_ok.mp h
  obtain ⟨_, s₂, hregister, h⟩ := bind_eq_ok.mp h
  obtain ⟨rfl, rfl⟩ := pure_eq_ok.mp h
  have hleads := (loadText_makes hload).1.subset (List.nil_subset (ownedBy source.items))
  exact (hleads.trans (leads_register _ hregister)).counted counted_predefined

/-- **Evaluation ends unless it is circular.** Resolving, computing a number and reading a string
    end in every arena behind the labels of a text, unless they are circular, and a circle of
    definitions is an error. That the arena comes from a session is needed: what bounds an
    evaluation is counted while names are bound, and an arena that is put together in another way
    may have counted too little. -/
theorem loadRegistered_terminates {library : Library} {text : String} {source : Source}
    {session : Session} (h : loadRegistered text (Session.new library) = .ok source session)
    {t : Scopes} (ht : session.scopes.Steps (fun _ => True) t) (e : Expr) :
    Terminates t (Asking.resolve t e) (e.resolve t) ∧
    Terminates t (Asking.integer t e) (e.integer t) ∧
    Terminates t (Asking.string t e) (e.string t) ∧
    ∀ circle, Task.Circle t circle →
      (circle ⟨.value, e⟩ → e.resolve t = .error .recursiveReference ∧
        e.string t = .error .recursiveReference) ∧
      (circle ⟨.number, e⟩ → e.integer t = .error .recursiveReference) := by
  have hcounted := ht.counted (loadRegistered_counted h)
  refine ⟨terminates_resolve hcounted e, terminates_integer hcounted e,
    terminates_string hcounted e, fun circle hcircle => ⟨fun he => ?_, fun he => ?_⟩⟩
  · have hresolve := hcircle.resolve he
    refine ⟨hresolve, ?_⟩
    rw [Expr.string, resolveUngrouped, hresolve]
    rfl
  · exact Task.givesUp_of_circle hcircle he (maxDepth + 1)

/-- The question that comes first is which scope a name denotes. -/
def startsWith {α : Type} (x : Dialogue Query.Reply α) (name : String) (id : ScopeId) : Bool :=
  match x.settle fun _ => none with
  | .error (.scope n other) => n == name && other == id
  | _ => false

theorem settle_of_startsWith {α : Type} {x : Dialogue Query.Reply α} {name : String} {id : ScopeId}
    (h : startsWith x name id = true) : x.settle (fun _ => none) = .error (.scope name id) := by
  unfold startsWith at h
  split at h
  · next n other hx =>
    obtain ⟨rfl, rfl⟩ : n = name ∧ other = id := by simpa using h
    exact hx
  · cases h

/-- Through an alias a dotted name has a value, two symbols that stand for each other are reported,
    and a symbol that stands for a member of itself is circular. -/
theorem loadRegistered_terminates_alias :
    ∃ source s, loadRegistered
        "p: proc\nx: equ 5\n endp\nq: equ p\na: equ b\nb: equ a\nz: equ z.y\n"
        (Session.new {}) = .ok source s ∧
      (Expr.ident "q.x" source.scope).integer s.scopes = .ok 5 ∧
      (Expr.ident "a" source.scope).integer s.scopes = .error .recursiveReference ∧
      ¬ ∃ r, Ends s.scopes (Asking.resolve s.scopes (.ident "z" source.scope)) r := by
  have hpasses : passes (fun (source : Source) (s : Session) =>
      decide (((Asking.integer s.scopes (.ident "q.x" source.scope)).settle
        (Asking.answers s.scopes 1)).toOption = some (some 5)) &&
      (s.scopes.symbol source.scope "a").toOption.any (·.isName "b" (scopeAt source.items 2)) &&
      (s.scopes.symbol (scopeAt source.items 2) "b").toOption.any
        (·.isName "a" (scopeAt source.items 3)) &&
      (s.scopes.symbol (scopeAt source.items 3) "a").toOption.any
        (·.isName "b" (scopeAt source.items 2)) &&
      startsWith (Asking.resolve s.scopes (.ident "z" source.scope)) "z.y"
        (scopeAt source.items 4) &&
      startsWith (Asking.inquiry s.scopes (.scope "z.y" (scopeAt source.items 4))) "z.y"
        (scopeAt source.items 4))
      (loadRegistered "p: proc\nx: equ 5\n endp\nq: equ p\na: equ b\nb: equ a\nz: equ z.y\n"
        (Session.new {})) = true := by
    decide +kernel
  obtain ⟨source, s, hrun, htest⟩ := eq_ok_of_passes hpasses
  simp only [Bool.and_eq_true, decide_eq_true_eq] at htest
  obtain ⟨⟨⟨⟨⟨hends, ha⟩, hb⟩, ha'⟩, hz⟩, hzz⟩ := htest
  have hterminates := fun e => loadRegistered_terminates hrun .refl e
  refine ⟨source, s, hrun, ?_, ?_, ?_⟩
  · have houtcome := (hterminates (.ident "q.x" source.scope)).2.1.outcome (some 5)
      ⟨1, eq_ok_of_toOption hends⟩
    exact eq_ok_of_toOption houtcome
  · -- the circle of `a` and `b`, which is entered from outside
    refine ((hterminates (.ident "a" source.scope)).2.2.2 (fun task => task.kind = .number ∧
      (task.expr = .ident "a" source.scope ∨ task.expr = .ident "b" (scopeAt source.items 2) ∨
        task.expr = .ident "a" (scopeAt source.items 3))) ?_).2 ⟨rfl, .inl rfl⟩
    rintro ⟨kind, e⟩ ⟨rfl, rfl | rfl | rfl⟩
    · exact ⟨_, .name .number (eq_ok_of_any ha), rfl, .inr (.inl rfl)⟩
    · exact ⟨_, .name .number (eq_ok_of_any hb), rfl, .inr (.inr rfl)⟩
    · exact ⟨_, .name .number (eq_ok_of_any ha'), rfl, .inr (.inl rfl)⟩
  · rw [(hterminates (.ident "z" source.scope)).1.ends_iff, not_not]
    exact circular_of_first (settle_of_startsWith hz) (settle_of_startsWith hzz)

end Assembly

end Z80Asm
