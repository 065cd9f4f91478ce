import Z80Asm.Proofs.Program.Hygiene
import Z80Asm.Proofs.Program.Runs
import Z80Asm.Proofs.Scope.Past

/-!
# What a macro body sees

A name in the body of a macro that is neither a parameter nor a label of the body is looked up
around the definition of the macro, up to the number that the bindings had when the invoking line
was registered. Registering follows the passes of a run and not the order of the source: a line of
the text itself is registered in the order of the source, but a line inside a conditional, a
repetition or another macro only when that is expanded, behind all lines of the passes around it.

So the body sees what was bound when its invoking line was registered, and nothing that was bound
later: of the labels of the same pass those up to the invoking line, and of earlier passes all.

The statement names the pass and the place of the line in it, so that the moment of registering can
be told from the source.
-/
set_option autoImplicit false

namespace Z80Asm

open Success

namespace Assembly

variable {s s' : Session} {u : Unit} {id : ScopeId} {name : String} {value : Expr}

/-- Binding a label binds it in the scope around its line, and nothing else. -/
theorem bindLabel_binds {item : Item} (h : bindLabel item s = .ok u s')
    (hvalue : s'.scopes.Binds id name value) :
    s.scopes.Binds id name value ∨
      item.line.label = some name ∧ s.scopes.parent? item.line.scope = some id := by
  have hmark : ∀ {scopes : Scopes}, (scopes.markRegistered item.line.scope).Binds id name value →
      scopes.Binds id name value := fun {scopes} =>
    Scopes.Binds.of_modify (f := fun scope => { scope with registered := some scopes.serial })
      fun _ => rfl
  rcases bindLabel_eq_ok.mp h with ⟨-, -, rfl⟩ |
      ⟨label, v, t, parent, scopes, hlabel, -, hparent, hadd, rfl⟩
  · exact .inl (hmark hvalue)
  · obtain ⟨scope, hscope, -, rfl⟩ := Scopes.add_eq_ok hadd
    rcases (hmark hvalue).of_bind with hold | ⟨rfl, rfl⟩
    · exact .inl hold
    · exact .inr ⟨hlabel, hparent⟩

theorem bindLabels_binds {items : List Item} (h : bindLabels items s = .ok u s')
    (hitems : ∀ item ∈ items, item.line.scope.index < s.scopes.size)
    (hvalue : s'.scopes.Binds id name value) :
    s.scopes.Binds id name value ∨ ∃ item ∈ items, item.line.label = some name ∧
      s.scopes.parent? item.line.scope = some id := by
  induction items generalizing s with
  | nil =>
    cases h
    exact .inl hvalue
  | cons item rest ih =>
    obtain ⟨_, t, hitem, hrest⟩ := bind_eq_ok.mp h
    have hgrowth := (advances_bindLabel item hitem).scopes
    have hrests : ∀ other ∈ rest, other.line.scope.index < s.scopes.size :=
      fun other hother => hitems other (List.mem_cons_of_mem _ hother)
    rcases ih hrest fun other hother => hgrowth.index_lt (hrests other hother) with
      hvalue | ⟨other, hother, hlabel, hparent⟩
    · rcases bindLabel_binds hitem hvalue with hold | ⟨hlabel, hparent⟩
      · exact .inl hold
      · exact .inr ⟨item, List.mem_cons_self, hlabel, hparent⟩
    · refine .inr ⟨other, List.mem_cons_of_mem _ hother, hlabel, ?_⟩
      rw [← hparent]
      exact (hgrowth.parent?_eq (hrests other hother)).symm

/-- The scope of the parameters is below that of the macro, with the mark of the invoking line as its
    horizon. -/
theorem openInvocation_horizon {line : Line} {template : Template} {items : List Item} {mark : Nat}
    (h : openInvocation line template s = .ok items s')
    (hline : line.scope.index < s.scopes.size)
    (hmark : s.scopes.registeredAt? line.scope = some mark) :
    ∃ scope, s'.scopes.get? s.scopes.fresh = some scope ∧ scope.parent = some template.scope ∧
      scope.horizon = some mark := by
  obtain ⟨s₁, scopes, hbind, hhorizon, hinstance⟩ := openInvocation_eq_ok h
  have hcreated : s.Leads [] { s with scopes := (s.scopes.create (some template.scope)).2 } :=
    Scopes.Steps.refl.create _
  have hbound := hcreated.trans (leads_bindParameters _ _ _ hbind)
  rw [hbound.registeredAt?_eq hline (by simp), hmark] at hhorizon
  rcases hhorizon with ⟨hnone, -⟩ | ⟨_, hsome, rfl⟩
  · cases hnone
  · cases hsome
    obtain ⟨params, hparams, hparent, -⟩ := (advances_bindParameters _ _ _ hbind).scopes
      s.scopes.fresh _ (by rw [Scopes.get?_create, if_pos rfl])
    have hopened : (s₁.scopes.setHorizon s.scopes.fresh mark).Extends s'.scopes :=
      ((Scopes.extends_create _ _).trans (Scopes.extends_setBody _ _ _)).trans
        (advances_instanceOf _ _ _ _ hinstance).scopes
    obtain ⟨scope, hscope, hparent', hhorizon', -⟩ := hopened s.scopes.fresh
      { params with horizon := some mark } (by
        rw [Scopes.setHorizon, Scopes.get?_modify, if_pos rfl, hparams]
        rfl)
    exact ⟨scope, hscope, hparent'.trans hparent, hhorizon'⟩

end Assembly

/-- What a name is from the scope `user`, in an arena `t`, if it is looked up around the scope
    `around` as it was when the items `bound` of a pass that began in the session `start` were
    bound, which led to the session `c`. -/
structure SeesPast (start c : Session) (bound : List Item) (t : Scopes) (around user : ScopeId)
    (name : String) : Prop where
  /-- The value was bound before the pass, or is that of one of the items, or is inside the body of a
      scope. -/
  past : ∀ value, t.symbol user name = .ok value → ∃ id, t.Around around id ∧
    (start.scopes.Binds id name value ∨
      (c.scopes.Binds id name value ∧ ∃ item ∈ bound, item.line.label = some name ∧
        start.scopes.parent? item.line.scope = some id) ∨
      ∃ body, t.body? id = some body ∧
        t.lookupInside t.scopeOf maxDepth body name none = some value)
  /-- Everything that was bound then is seen. -/
  whole : around.index < c.scopes.size → (∀ id, t.Around around id → t.body? id = none) →
    t.symbol user name = c.scopes.symbol around name
  /-- What is not bound until later is not found. -/
  missing : (∀ id, t.Around around id → t.body? id = none ∧ ∀ value, ¬ c.scopes.Binds id name value) →
    (Expr.ident name user).integer t = .error (.symbolNotFound name) ∧
      (Expr.ident name user).resolve t = .error (.symbolNotFound name)

namespace Assembly

variable {s s' : Session}

/-- **A macro body sees the past of its invocation.** It sees what was bound around the definition
    of the macro when the invoking line was registered, and nothing that is bound later. The name
    must not be found before the lookup gets there, so it is no parameter and no label of the body;
    and a name with dots is left out because it is looked up in parts, of which only the first one
    meets the horizon. -/
theorem openInvocation_sees {library : Library} {text : String} {levels : Nat}
    {pass rest items : List Item} {start : Session} {item : Item} {template : Template}
    (hreach : Reaches library text ⟨levels + 1, pass, start, item :: rest, s⟩)
    (h : openInvocation item.line template s = .ok items s') :
    item ∈ boundBy pass ∧ ∀ before after, boundBy pass = before ++ item :: after →
      ∃ c, bindLabels (before ++ [item]) start = .ok () c ∧
        ∀ t, s'.scopes.Steps (fun _ => True) t → t.Ordered → ∀ user name, dotSplits name = [] →
          name ≠ selfName → Scopes.Clear t t name s.scopes.fresh user →
          (∀ value, t.member s.scopes.fresh name ≠ .ok value) →
          SeesPast start c (before ++ [item]) t template.scope user name := by
  have hsound := hreach.sound
  have hline : item.line.scope.index < s.scopes.size :=
    hsound.holds.index_lt (List.mem_append_left _ item.scope_mem_owned)
  have hbound : item ∈ boundBy (item :: rest) := List.mem_append_left _ item.mem_bound
  refine ⟨hsound.bound hbound, fun before after hsplit => ?_⟩
  obtain ⟨c, hc⟩ := hsound.registered item hbound before after hsplit
  refine ⟨c, hc.bindLabels, fun t ht hordered user name hdots hname hclear hparam => ?_⟩
  have hleads := (issues_openInvocation _ _ h).1
  have hct := (hc.steps.trans (hleads.mono fun _ _ => trivial)).trans ht
  -- nothing is found up to the scope of the parameters, and from there on its horizon applies
  obtain ⟨opened, hopened, hparent, hhorizon⟩ := openInvocation_horizon h hline hc.mark
  obtain ⟨params, hparams, hparent', hhorizon', -⟩ := ht.growth _ _ hopened
  have huser := hclear.symbol?_eq hordered (.refl t) hparam hparams (hparent'.trans hparent)
  rw [hhorizon'.trans hhorizon] at huser
  have hfound : ∀ value, t.symbol user name = .ok value → ∃ id, t.Around template.scope id ∧
      (c.scopes.Binds id name value ∨ ∃ body, t.body? id = some body ∧
        t.lookupInside t.scopeOf maxDepth body name none = some value) := by
    intro value hvalue
    rw [Scopes.symbol_eq_ok, huser] at hvalue
    exact hct.findSome?_outward hc.dated hname hdots hvalue
  refine ⟨fun value hvalue => ?_, ?_, fun hmissing => ?_⟩
  · obtain ⟨id, haround, hbinds | hinside⟩ := hfound value hvalue
    · refine ⟨id, haround, ?_⟩
      rcases bindLabels_binds hc.bindLabels hc.known hbinds with hold | hitem
      · exact .inl hold
      · exact .inr (.inl ⟨hbinds, hitem⟩)
    · exact ⟨id, haround, .inr (.inr hinside)⟩
  · exact hct.symbol_eq (hordered.of_extends hct.growth) hc.dated hname hdots huser
  · have hnone : symbolValue t t.scopeOf user name = .error (.symbolNotFound name) := by
      apply Scopes.symbol_eq_error
      intro value hvalue
      obtain ⟨id, haround, hbinds | ⟨body, hbody, -⟩⟩ := hfound value hvalue
      · exact (hmissing id haround).2 value hbinds
      · rw [(hmissing id haround).1] at hbody
        cases hbody
    rw [Expr.integer, Expr.resolve, integerAt, resolveAt, hnone]
    exact ⟨rfl, rfl⟩

/-- A macro is invoked between two definitions. -/
def betweenDefinitions : String :=
  "m: macro\n db early, later\n endm\nearly: equ 1\n m\nlater: equ 5\n"

/-- The first of the definitions is seen, and the second is not. -/
theorem openInvocation_sees_first :
    ∃ source s₁ pass s item rest template items s',
      loadText betweenDefinitions (Session.new {}) = .ok source s₁ ∧
      Reaches {} betweenDefinitions ⟨maxDepth, pass, s₁, item :: rest, s⟩ ∧
      openInvocation item.line template s = .ok items s' ∧
      (s'.scopes.symbol (scopeAt items 0) "early").toOption.map Expr.display = some "1" ∧
      (Expr.ident "later" (scopeAt items 0)).integer s'.scopes =
        .error (.symbolNotFound "later") := by
  have hpasses : passes (fun (source : Source) (s₁ : Session) =>
      decide (∀ item ∈ source.items, item.bound.length = 1) &&
      source.items.head?.any fun (definition : Item) =>
      source.items.tail.head?.any fun (early : Item) =>
      source.items.tail.tail.head?.any fun (call : Item) =>
      passes (fun _ (s₂ : Session) => passes (fun _ (s₃ : Session) => passes (fun _ (s : Session) =>
        s.templates[0]?.any fun (template : Template) =>
        passes (fun (items : List Item) (s' : Session) =>
          decide s'.scopes.Ordered &&
          decide (∀ inner ∈ [template.scope, source.scope, ⟨0⟩],
            (∀ p ∈ s'.scopes.parent? inner, p ∈ [template.scope, source.scope, ⟨0⟩]) ∧
            s'.scopes.body? inner = none) &&
          decide (s'.scopes.Below (scopeAt items 0) ⟨s.scopes.size + 1⟩ ∧
            s'.scopes.Below ⟨s.scopes.size + 1⟩ s.scopes.fresh) &&
          ["early", "later"].all (fun name =>
            [scopeAt items 0, ⟨s.scopes.size + 1⟩, s.scopes.fresh].all fun id =>
              (s'.scopes.member id name).toOption.isNone) &&
          passes (fun _ (c : Session) =>
            decide (template.scope.index < c.scopes.size) &&
            decide ((c.scopes.symbol template.scope "early").toOption.map Expr.display =
              some "1") &&
            [template.scope, source.scope, ⟨0⟩].all fun id =>
              ((c.scopes.get? id).bind (·.find? "later" none)).isNone)
            (bindLabels ([definition, early] ++ [call]) s₁))
          (openInvocation call.line template s))
        (expandWith (inside maxDepth) early s₃))
        (expandWith (inside maxDepth) definition s₂))
        (register source.items s₁))
      (loadText betweenDefinitions (Session.new {})) = true := by
    decide +kernel
  obtain ⟨source, s₁, hload, htest⟩ := eq_ok_of_passes hpasses
  obtain ⟨hsingle, htest⟩ := (Bool.and_eq_true _ _).mp htest
  obtain ⟨definition, hdefinition, htest⟩ := (Option.any_eq_true _ _).mp htest
  obtain ⟨early, hearly, htest⟩ := (Option.any_eq_true _ _).mp htest
  obtain ⟨call, hcall, htest⟩ := (Option.any_eq_true _ _).mp htest
  obtain ⟨_, s₂, hregister, htest⟩ := eq_ok_of_passes htest
  obtain ⟨_, s₃, hfirst, htest⟩ := eq_ok_of_passes htest
  obtain ⟨_, s, hsecond, htest⟩ := eq_ok_of_passes htest
  obtain ⟨template, -, htest⟩ := (Option.any_eq_true _ _).mp htest
  obtain ⟨items, s', hopen, htest⟩ := eq_ok_of_passes htest
  simp only [Bool.and_eq_true, decide_eq_true_eq] at htest
  obtain ⟨⟨⟨⟨hordered, hclosed⟩, hbelow, hinside⟩, hnothing⟩, htest⟩ := htest
  obtain ⟨_, c, hlabels, htest⟩ := eq_ok_of_passes htest
  simp only [Bool.and_eq_true, decide_eq_true_eq, List.all_eq_true] at htest hnothing
  obtain ⟨⟨hscope, hvalue⟩, hlater⟩ := htest
  obtain ⟨rest, hitems⟩ : ∃ rest, source.items = [definition, early] ++ call :: rest := by
    obtain ⟨_, hitems⟩ := List.head?_eq_some_iff.mp hdefinition
    rw [hitems, List.tail_cons] at hearly hcall
    obtain ⟨_, rfl⟩ := List.head?_eq_some_iff.mp hearly
    obtain ⟨rest, rfl⟩ := List.head?_eq_some_iff.mp hcall
    exact ⟨rest, hitems⟩
  have hbound := boundBy_eq_self (decide_eq_true_eq.mp hsingle)
  have hload' := Reaches.load hload hregister
  rw [hitems] at hload' hbound
  have hreach := (hload'.next hfirst).next hsecond
  obtain ⟨-, hsees⟩ := openInvocation_sees hreach hopen
  obtain ⟨_, hc, hsees⟩ := hsees [definition, early] rest hbound
  cases hlabels.symm.trans hc
  have hnames : ∀ name ∈ ["early", "later"], dotSplits name = [] ∧ name ≠ selfName := by decide
  have hpast : ∀ name ∈ ["early", "later"],
      SeesPast s₁ c ([definition, early] ++ [call]) s'.scopes template.scope (scopeAt items 0)
        name := by
    intro name hname
    have hnone := fun id hid v => ne_ok_of_isNone (hnothing name hname id hid) v
    obtain ⟨hdots, hself⟩ := hnames name hname
    refine hsees _ .refl hordered _ name hdots hself ?_ (hnone _ (by simp))
    exact .out hbelow (hnone _ (by simp)) (.out hinside (hnone _ (by simp)) .here)
  have haround : ∀ id, s'.scopes.Around template.scope id →
      id ∈ [template.scope, source.scope, ⟨0⟩] := fun id hid =>
    hid.mem List.mem_cons_self fun inner hinner => (hclosed inner hinner).1
  refine ⟨source, s₁, _, s, _, _, template, items, s', hload, hreach, hopen, ?_, ?_⟩
  · rw [(hpast "early" (by simp)).whole hscope fun id hid => (hclosed id (haround id hid)).2]
    exact hvalue
  · refine ((hpast "later" (by simp)).missing fun id hid => ?_).1
    refine ⟨(hclosed id (haround id hid)).2, fun v hv => ?_⟩
    have hnone := hlater id (haround id hid)
    rw [Scopes.binds_iff.mp hv] at hnone
    cases hnone

end Assembly

end Z80Asm
