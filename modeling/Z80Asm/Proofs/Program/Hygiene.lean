import Z80Asm.Proofs.Expr.Alike
import Z80Asm.Proofs.Program.Reading
import Z80Asm.Proofs.Scope.Visibility

/-!
# Arguments of macros

A parameter is bound to the argument as it stands, so the names in the argument are read in the
scope of the invoking line, and not in the scope around it. What is inside the scope of a line comes
first there: `$`, and, once the invocation is expanded, everything that the body of the macro
declares. A name in an argument is therefore what it is around the line if and only if the body
declares nothing else under it. If this holds of all names in the argument, the parameter means what
a symbol means that an `EQU` statement around the line gives the same text.

Nothing keeps a body from capturing: this is what the program does, and the theorem says when it
shows.
-/
set_option autoImplicit false

namespace Z80Asm

open Success

namespace Assembly

variable {s s' : Session}

/-- Every parameter is bound to its argument, or to its default where there is none. -/
theorem bindParameters_binds {scope : ScopeId} {args : List Expr}
    {parameters : List (String × Option Expr)} {u : Unit}
    (h : bindParameters scope args parameters s = .ok u s') {i : Nat} {name : String}
    {fallback : Option Expr} {value : Expr} (hparameter : parameters[i]? = some (name, fallback))
    (hvalue : args[i]?.or fallback = some value) : s'.scopes.Binds scope name value := by
  induction parameters generalizing args i s with
  | nil => simp at hparameter
  | cons parameter rest ih =>
    obtain ⟨name', fallback'⟩ := parameter
    rw [bindParameters] at h
    cases i with
    | zero =>
      cases hparameter
      rw [← List.head?_eq_getElem?] at hvalue
      rw [hvalue, bind_eq_ok] at h
      obtain ⟨_, t, hsymbol, hrest⟩ := h
      obtain ⟨scopes, hadd, rfl⟩ := addSymbol_eq_ok.mp hsymbol
      -- The other parameters are bound behind it, and it stays.
      exact (advances_bindParameters _ _ _ hrest).scopes.binds (Scopes.add_binds hadd)
    | succ i =>
      have hnext : args.tail[i]?.or fallback = some value := by
        rw [List.getElem?_tail]
        exact hvalue
      cases hfirst : args.head?.or fallback' with
      | none => simp [hfirst] at h
      | some first =>
        rw [hfirst, bind_eq_ok] at h
        obtain ⟨_, t, -, hrest⟩ := h
        exact ih hrest hparameter hnext

/-- After an invocation was expanded, the scope of its parameters binds them to their arguments. -/
theorem expandInvocation_binds {levels : Nat} {line : Line} {template : Template}
    {lines : List Item} (h : expandInvocation (expandLevels levels) line template s = .ok lines s')
    {i : Nat} {name : String} {fallback : Option Expr} {value : Expr}
    (hparameter : template.parameters[i]? = some (name, fallback))
    (hvalue : line.argumentList[i]?.or fallback = some value) :
    s'.scopes.Binds s.scopes.fresh name value := by
  obtain ⟨s₁, scopes, items, s₂, hbind, hhorizon, hinstance, hbody⟩ := expandInvocation_eq_ok h
  have hbound : s₁.scopes.Binds s.scopes.fresh name value :=
    bindParameters_binds hbind hparameter hvalue
  have hmarked : scopes.Binds s.scopes.fresh name value := by
    rcases hhorizon with rfl | ⟨mark, rfl⟩
    · exact hbound
    · exact hbound.modify fun _ => rfl
  have hlinked : Scopes.Extends scopes s₂.scopes :=
    ((scopes.extends_create (some s.scopes.fresh)).trans
      (Scopes.extends_setBody _ line.scope scopes.fresh)).trans
        (advances_instanceOf _ _ _ _ hinstance).scopes
  obtain ⟨_, s₃, hregister, hexpand⟩ := bind_eq_ok.mp hbody
  have hexpanded := (advances_register _ hregister).trans (advances_expandLevels levels _ hexpand)
  exact (hlinked.trans hexpanded.scopes).binds hmarked

end Assembly

/-! ## How arguments are understood -/

/-- The scope of the line of the `i`-th item. -/
def scopeAt (items : List Item) (i : Nat) : ScopeId :=
  (items[i]?.map (·.line.scope)).getD ⟨0⟩

def Expr.isName (name : String) (scope : ScopeId) : Expr → Bool
  | .ident n id => n == name && id == scope
  | _ => false

theorem Expr.eq_of_isName {name : String} {scope : ScopeId} {e : Expr}
    (h : e.isName name scope = true) : e = .ident name scope := by
  cases e <;> simp_all [isName]

/-- The outcome of a lookup is not a value. -/
theorem ne_ok_of_isNone {x : Except Cause Expr} (h : x.toOption.isNone = true) (v : Expr) :
    x ≠ .ok v := by
  rintro rfl
  cases h

theorem eq_ok_of_any {x : Except Cause Expr} {name : String} {scope : ScopeId}
    (h : x.toOption.any (·.isName name scope) = true) : x = .ok (.ident name scope) := by
  cases x with
  | error cause => cases h
  | ok e => rw [Expr.eq_of_isName h]

theorem eq_some_of_any {x : Option Expr} {name : String} {scope : ScopeId}
    (h : x.any (·.isName name scope) = true) : x = some (.ident name scope) := by
  cases x with
  | none => cases h
  | some e => rw [Expr.eq_of_isName h]

/-- How the argument `e` that a line passes for the parameter `p` is understood in an arena `t`
    behind the arena `s`. The line owns `site`, which is below `around`; `params` is the scope of
    the parameters, and the labels of the body are bound in `inside`. -/
structure Scopes.Passes (s t : Scopes) (site around inside params : ScopeId) (p : String)
    (e : Expr) : Prop where
  /-- The parameter is the argument, whatever scope it is seen from. -/
  value : ∀ user, Clear s t p params user → t.symbol user p = .ok e
  /-- The labels of the body are inside the scope of the line. -/
  label : ∀ n, dotSplits n = [] → (∀ v, ¬ t.Binds site n v) → ∀ v,
    t.member site n = .ok v ↔ t.Binds inside n v
  /-- A name in the argument is what it is around the line, unless it is something else inside. -/
  name : ∀ n, t.symbol site n = t.symbol around n ↔
    ∀ v, t.member site n = .ok v → t.symbol around n = .ok v
  /-- If all its names are what they are around the line, the argument means what a symbol `q`
      means that stands for the same text, read in a scope `other` that sees the names as they are
      there. -/
  outcome : (∀ n ∈ e.namesAt site, ∀ v, t.member site n = .ok v → t.symbol around n = .ok v) →
    ∀ (user other seen : ScopeId) (q : String), t.symbol user p = .ok e →
      (∀ n ∈ e.namesAt site, t.symbol other n = t.symbol around n) →
      t.symbol seen q = .ok (e.reread site other) →
      Expr.SameOutcome t (.ident p user) (.ident q seen)

namespace Assembly

variable {s s' : Session}

/-- **Labels of the body capture names in the arguments.** The arguments of a macro are passed as
    they stand, to be read in the scope of the invoking line, and the labels that the body declares
    are inside that scope: they capture the names in the arguments that are something else around
    the line, and only those change their meaning.

    The arena `t` is any later one in which the line still has this body, since arguments are read
    as late as when code is generated. Lookups are those of the program, which have bounds; for
    lookups without bounds that end, `Scopes.Passes.ends_name_iff` says the same. -/
theorem expandInvocation_passes {levels : Nat} {line : Line} {template : Template}
    {lines : List Item} {around : ScopeId} {i : Nat} {p : String} {fallback : Option Expr}
    {e : Expr}
    (h : expandInvocation (expandLevels levels) line template s = .ok lines s')
    (hs : s.WellScoped) (hline : s.scopes.Below line.scope around)
    (htemplate : template ∈ s.templates) (hp : template.parameters[i]? = some (p, fallback))
    (he : line.argumentList[i]? = some e) :
    ∃ inside, s'.scopes.Below inside s.scopes.fresh ∧ s'.scopes.Links line.scope inside ∧
      ∀ t, s'.scopes.Extends t → t.Links line.scope inside →
        s'.scopes.Passes t line.scope around inside s.scopes.fresh p e := by
  obtain ⟨inside, hopens⟩ :=
    expandInvocation_opens (keeps_expandLevels levels) h hs hline.index_lt htemplate
  refine ⟨inside, hopens.below, ⟨hopens.linked, hopens.bare⟩, fun t ht hlinks => ?_⟩
  have hordered := hopens.wellScoped.ordered
  have hbinds : t.Binds s.scopes.fresh p e :=
    ht.binds (expandInvocation_binds h hp (by rw [he]; rfl))
  have hnames := fun n => (hopens.growth.below hline).symbol_eq_iff hordered ht n
  refine ⟨fun user hclear => ?_, fun n hn hown => hlinks.member_eq_ok hn hown, hnames, ?_⟩
  · rw [hclear.symbol_eq hordered ht, hbinds.symbol_eq]
  · intro hfree user other seen q hvalue hother hq
    refine Expr.sameOutcome_of_symbols hvalue hq (Expr.alike_reread fun n hn => ?_)
    rw [(hnames n).mpr (hfree n hn), hother n hn]

theorem expandInvocation_passes_capture :
    ∃ (source : Source) (s s' : Session) (item : Item) (lines : List Item) (template : Template),
      loadRegistered "x: equ 5\nz: equ 7\nq: equ z\nm: macro p, r\nx: db p, r\n endm\n m x, z\n"
        (Session.new {}) = .ok source s ∧
      source.items[4]? = some item ∧ s.templates[0]? = some template ∧
      expandInvocation (expandLevels 1) item.line template s = .ok lines s' ∧
      s'.scopes.symbol (scopeAt lines 0) "p" = .ok (.ident "x" item.line.scope) ∧
      s'.scopes.symbol item.line.scope "x" ≠ s'.scopes.symbol source.scope "x" ∧
      Expr.SameOutcome s'.scopes (.ident "r" (scopeAt lines 0)) (.ident "q" source.scope) := by
  have hpasses : passes (fun (source : Source) (s : Session) =>
      source.items[4]?.any fun (item : Item) => s.templates[0]?.any fun (template : Template) =>
        decide (s.scopes.Below item.line.scope source.scope ∧
          s.scopes.Below (scopeAt source.items 2) source.scope ∧
          template.parameters[0]?.map Prod.fst = some "p" ∧
          template.parameters[1]?.map Prod.fst = some "r") &&
        item.line.argumentList[0]?.any (·.isName "x" item.line.scope) &&
        item.line.argumentList[1]?.any (·.isName "z" item.line.scope) &&
        passes (fun (lines : List Item) (s' : Session) =>
          decide (s'.scopes.Below (scopeAt lines 0) ⟨s.scopes.size + 1⟩ ∧
            s'.scopes.body? item.line.scope = some ⟨s.scopes.size + 1⟩ ∧
            (s'.scopes.symbol source.scope "x").toOption.map Expr.display = some "5" ∧
            (s'.scopes.symbol item.line.scope "x").toOption.map Expr.display = some "<context>") &&
          (s'.scopes.symbol source.scope "q").toOption.any
            (·.isName "z" (scopeAt source.items 2)) &&
          [(scopeAt lines 0, "p"), (scopeAt lines 0, "r"), (⟨s.scopes.size + 1⟩, "p"),
            (⟨s.scopes.size + 1⟩, "r"), (item.line.scope, "z"), (scopeAt source.items 2, "z")].all
              fun (id, name) => (s'.scopes.member id name).toOption.isNone)
          (expandInvocation (expandLevels 1) item.line template s))
      (loadRegistered "x: equ 5\nz: equ 7\nq: equ z\nm: macro p, r\nx: db p, r\n endm\n m x, z\n"
        (Session.new {})) = true := by
    decide +kernel
  obtain ⟨source, s, hrun, htest⟩ := eq_ok_of_passes hpasses
  obtain ⟨item, hitem, htest⟩ := (Option.any_eq_true _ _).mp htest
  obtain ⟨template, htemplate, htest⟩ := (Option.any_eq_true _ _).mp htest
  simp only [Bool.and_eq_true, decide_eq_true_eq] at htest
  obtain ⟨⟨⟨⟨hline, hequ, hp, hr⟩, hx⟩, hz⟩, htest⟩ := htest
  obtain ⟨lines, s', hexpand, htest⟩ := eq_ok_of_passes htest
  simp only [Bool.and_eq_true, decide_eq_true_eq, List.all_cons, List.all_nil] at htest
  obtain ⟨⟨⟨huser, hbody, houter, hinner⟩, hq⟩, hnop, hnor, hnop', hnor', hnoz, hnoz', -⟩ := htest
  obtain ⟨⟨_, fallback⟩, hp, rfl⟩ := Option.map_eq_some_iff.mp hp
  obtain ⟨⟨_, fallback'⟩, hr, rfl⟩ := Option.map_eq_some_iff.mp hr
  have hs : s.WellScoped := loadRegistered_wellScoped hrun (Session.wellScoped_new {})
  have hmember := Array.mem_of_getElem? htemplate
  obtain ⟨inside, hbelow, hlinks, hpassed⟩ :=
    expandInvocation_passes hexpand hs hline hmember hp (eq_some_of_any hx)
  obtain ⟨inside', hbelow', hlinks', hpassed'⟩ :=
    expandInvocation_passes hexpand hs hline hmember hr (eq_some_of_any hz)
  cases hlinks.body.symm.trans hbody
  cases hlinks'.body.symm.trans hbody
  have hpass := hpassed _ (.refl _) hlinks
  have hpass' := hpassed' _ (.refl _) hlinks'
  have hvalue := hpass.value _
    (.out huser (ne_ok_of_isNone hnop) (.out hbelow (ne_ok_of_isNone hnop') .here))
  have hvalue' := hpass'.value _
    (.out huser (ne_ok_of_isNone hnor) (.out hbelow (ne_ok_of_isNone hnor') .here))
  refine ⟨source, s, s', item, lines, template, hrun, hitem, htemplate, hexpand, hvalue, ?_, ?_⟩
  · intro heq
    rw [heq, houter] at hinner
    exact absurd hinner (by decide)
  · have hgrowth := advances_expandInvocation (advances_expandLevels 1) item.line template hexpand
    have hnames : ∀ n ∈ (Expr.ident "z" item.line.scope).namesAt item.line.scope, n = "z" := by
      simp [Expr.namesAt]
    refine hpass'.outcome (fun n hn v hv => ?_) _ (scopeAt source.items 2) _ _ hvalue'
      (fun n hn => ?_) ?_
    · rw [hnames n hn] at hv
      exact absurd hv (ne_ok_of_isNone hnoz v)
    · rw [hnames n hn]
      refine (hequ.symbol_eq_iff hs.ordered hgrowth.scopes "z").mpr fun v hv => ?_
      exact absurd hv (ne_ok_of_isNone hnoz' v)
    · rw [eq_ok_of_any hq, Expr.reread, if_pos rfl]

end Assembly

end Z80Asm
