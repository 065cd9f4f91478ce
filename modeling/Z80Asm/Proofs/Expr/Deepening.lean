import Z80Asm.Proofs.Expr.Folding

/-!
# More steps change no number

An evaluation that has a number has the same number with more steps (`integerAt_succ`). This is not
clear at once: resolving a sum asks whether the operands are registers, takes a failure for an answer,
and a failure may be due to the number of steps. But such a sum is an index register with a
displacement, or might become one, and has no number (`not_number_of_indexed`). So an expression that
stands for something with a number stands for the same with more steps (`deepens`).

Then it also does not matter whether the number is asked of an expression or of what it stands for,
which starts again with all steps (`resolve_keeps_integer`).

The converse is not true, and failures are not kept: with more steps there may be another failure.
-/
set_option autoImplicit false

namespace Z80Asm

open Success

section

variable {s : Scopes} {steps : Nat}

/-- The number of an expression is that of what it stands for. -/
theorem Means.value_number {e t : Expr} {v : Int64} {met met' : List Cpu.Register}
    (h : Means s e (.value t) met) (hv : Means s e (.number v) met') :
    ∃ rest, met' = met ++ rest ∧ Means s t (.number v) rest := by
  generalize hm : Meaning.value t = m at h
  induction h generalizing met' with
  | itself =>
    cases hm
    exact ⟨met', rfl, hv⟩
  | name _ hsymbol _ ih =>
    cases hv with
    | name _ hsymbol' hv =>
      cases hsymbol.symm.trans hsymbol'
      exact ih hv hm
    | address hid => cases hid
    | access he => cases he
  | choice _ hcond _ _ ih =>
    cases hv with
    | choice _ hcond' hv =>
      obtain ⟨hk, rfl⟩ := hcond.unique hcond' trivial
      cases hk
      obtain ⟨rest, rfl, ht⟩ := ih hv hm
      exact ⟨rest, (List.append_assoc _ _ _).symm, ht⟩
    | address hid => cases hid
    | access he => cases he
  | member hobject hid hmember h =>
    cases hm
    cases hv with
    | access _ h' hr =>
      obtain ⟨heq, rfl⟩ := (Means.member hobject hid hmember h).unique h' trivial
      cases heq
      exact ⟨_, rfl, hr⟩
    | address hid => cases hid
  | element hposition hsequence he h =>
    cases hm
    cases hv with
    | access _ h' hr =>
      obtain ⟨heq, rfl⟩ := (Means.element hposition hsequence he h).unique h' trivial
      cases heq
      exact ⟨_, rfl, hr⟩
    | address hid => cases hid
  | _ => cases hm

theorem Means.operands {op : BinaryOp} {left right : Expr} {v : Int64}
    (h : Means s (.binary op left right) (.number v) []) :
    ∃ l r, Means s left (.number l) [] ∧ Means s right (.number r) [] := by
  generalize hmet : ([] : List Cpu.Register) = met at h
  cases h with
  | binary hl hr _ =>
    obtain ⟨rfl, rfl⟩ := List.append_eq_nil_iff.mp hmet.symm
    exact ⟨_, _, hl, hr⟩
  | address hid => cases hid
  | access he => cases he

theorem Means.not_number_indexed {reg : Cpu.Register} {offset : Expr} {v : Int64} :
    ¬ Means s (.indexed reg offset) (.number v) [] := by
  intro h
  generalize hmet : ([] : List Cpu.Register) = met at h
  cases h with
  | indexed => cases hmet
  | address hid => cases hid
  | access he => cases he

/-! ## One step of a reference -/

/-- What is left when all parentheses are opened is what the innermost expression resolves to. -/
theorem exists_innermost {resolve : Expr → Except Cause Expr}
    (hresolve : ∀ e r, resolve e = .ok r → Follows s e r) {fuel : Nat} {e r t : Expr}
    (hr : resolve e = .ok r) (ht : unwrap resolve fuel r = .ok t) :
    ∃ inner, resolve inner = .ok t ∧
      ∀ t', Means s inner (.value t') [] → (∀ g, t' ≠ .group g) → Means s e (.inside t') [] := by
  induction fuel generalizing e r with
  | zero =>
    rw [unwrap.eq_def] at ht
    split at ht
    · cases ht
    · cases ht
      exact ⟨e, hr, fun t' => .closed⟩
  | succ fuel ih =>
    rw [unwrap.eq_def] at ht
    split at ht
    next inner =>
      obtain ⟨r', hr', ht⟩ := except_bind_eq_ok.mp ht
      obtain ⟨innermost, hinnermost, hinside⟩ := ih hr' ht
      obtain ⟨target, htarget, hfolded⟩ := hresolve e _ hr
      cases hfolded
      exact ⟨innermost, hinnermost, fun t' ht' hgroup => .opened htarget (hinside t' ht' hgroup)⟩
    next =>
      cases ht
      exact ⟨e, hr, fun t' => .closed⟩

/-- A reference resolves to what an expression resolves to with one step less, and stands for the
    same as this. -/
theorem resolveAt_reference {e r : Expr} (he : e.IsReference)
    (h : resolveAt s s.scopeOf (steps + 1) e = .ok r) :
    ∃ next, resolveAt s s.scopeOf steps next = .ok r ∧
      ∀ target, Means s next (.value target) [] → Means s e (.value target) [] := by
  obtain ⟨hvalue, hnumber⟩ := means_at s steps
  cases e with
  | ident name id =>
    rw [resolveAt] at h
    obtain ⟨v, hv, h⟩ := except_bind_eq_ok.mp h
    exact ⟨v, h, fun target => .name trivial hv⟩
  | ifElse cond onTrue onFalse =>
    rw [resolveAt] at h
    obtain ⟨k, hk, h⟩ := except_bind_eq_ok.mp h
    rw [← apply_ite (resolveAt s s.scopeOf steps)] at h
    exact ⟨_, h, fun target => .choice (m := .value target) trivial (hnumber cond k hk)⟩
  | member object name =>
    rw [resolveAt] at h
    obtain ⟨o, ho, h⟩ := except_bind_eq_ok.mp h
    obtain ⟨target, htarget, hfolded⟩ := hvalue object o ho
    split at h
    · cases h
    next id hid =>
      obtain ⟨v, hv, h⟩ := except_bind_eq_ok.mp h
      cases hfolded.eq_of_contextScope? hid
      exact ⟨v, h, fun target => .member htarget hid hv⟩
  | index sequence position =>
    rw [resolveAt] at h
    obtain ⟨p, hp, h⟩ := except_bind_eq_ok.mp h
    obtain ⟨t, ht, h⟩ := except_bind_eq_ok.mp h
    obtain ⟨element, helement, hr⟩ := except_bind_eq_ok.mp h
    rw [resolveUngrouped_eq] at ht
    obtain ⟨grouped, hgrouped, ht⟩ := except_bind_eq_ok.mp ht
    obtain ⟨t', ht', hfolded⟩ := means_inside hvalue hgrouped ht
    rcases hfolded.elementAt helement with helement' | ⟨helement', hreference, rfl, reg, offset, rfl⟩
    · exact ⟨element, hr, fun target => .element (hnumber _ p hp) ht' helement'⟩
    · -- A fold is its own element, and the fold of the same sum as before.
      obtain ⟨inner, hinner, hinside⟩ := exists_innermost hvalue hgrouped ht
      cases steps with
      | zero => cases hr
      | succ steps =>
        cases hr
        refine ⟨inner, hinner, fun target htarget => ?_⟩
        obtain ⟨same, hsame, hfolded'⟩ := hvalue inner _ hinner
        cases (hsame.unique htarget trivial).1
        have hinside' := hinside target htarget (hfolded'.ne_group (by simp))
        cases (hinside'.unique ht' trivial).1
        exact .element (hnumber _ p hp) ht' helement' (.itself hreference)
  | _ => cases he

/-! ## Displacements have no number -/

/-- A fold is a displacement, and one of the operands is an index register or a displacement. -/
theorem foldIndex_cases {op : BinaryOp} {left right leftValue e : Expr} {rightValue : Unit → Expr}
    (h : foldIndex op left right leftValue rightValue = some e) :
    (∃ reg offset, e = .indexed reg offset) ∧
      ((∃ reg, leftValue = .register reg) ∨ (∃ reg offset, leftValue = .indexed reg offset) ∨
        ∃ reg, rightValue () = .register reg) := by
  by_cases hreg : ∃ reg, leftValue = .register reg
  · obtain ⟨reg, rfl⟩ := hreg
    rw [foldIndex_register] at h
    unfold extended at h
    split at h
    · split at h
      · cases h
      · cases h
        exact ⟨⟨reg, _, rfl⟩, .inl ⟨reg, rfl⟩⟩
    · cases h
  · by_cases hindexed : ∃ reg offset, leftValue = .indexed reg offset
    · obtain ⟨reg, offset, rfl⟩ := hindexed
      rw [foldIndex_indexed, extended] at h
      split at h
      · cases h
      · cases h
        exact ⟨⟨reg, _, rfl⟩, .inr (.inl ⟨reg, offset, rfl⟩)⟩
    · rw [foldIndex_other (fun reg heq => hreg ⟨reg, heq⟩)
        fun reg offset heq => hindexed ⟨reg, offset, heq⟩] at h
      split at h
      · unfold addedTo at h
        split at h
        next reg hvalue =>
          split at h
          · cases h
            exact ⟨⟨reg, left, rfl⟩, .inr (.inr ⟨reg, hvalue⟩)⟩
          · cases h
        next => cases h
      · cases h

/-- A register has no number unless it counts as met. -/
theorem Means.not_number_of_register {e : Expr} {reg : Cpu.Register} {v : Int64}
    (h : Means s e (.value (.register reg)) []) : ¬ Means s e (.number v) [] := by
  intro hv
  obtain ⟨rest, hrest, hreg⟩ := h.value_number hv
  cases hreg with
  | register => cases hrest
  | address hid => cases hid
  | access he => cases he

/-- An operand that is taken for a register is one. -/
theorem means_register_of_getD {e : Expr} {reg : Cpu.Register}
    (h : (resolveAt s s.scopeOf steps e).toOption.getD e = .register reg) :
    Means s e (.value (.register reg)) [] := by
  cases hr : resolveAt s s.scopeOf steps e with
  | error cause =>
    rw [hr] at h
    cases (show e = .register reg from h)
    exact .itself id
  | ok r =>
    rw [hr] at h
    cases (show r = .register reg from h)
    obtain ⟨target, htarget, hfolded⟩ := (means_at s steps).1 e _ hr
    cases hfolded
    exact htarget

/-- What resolves to a displacement has no number, because there is a register in it. -/
theorem not_number_of_indexed {e offset : Expr} {reg : Cpu.Register} {v : Int64}
    (h : resolveAt s s.scopeOf steps e = .ok (.indexed reg offset)) :
    ¬ Means s e (.number v) [] := by
  intro hv
  induction steps generalizing e reg offset v with
  | zero => cases h
  | succ steps ih =>
    obtain ⟨hvalue, -⟩ := means_at s steps
    by_cases he : e.IsReference
    · obtain ⟨next, hnext, hmeans⟩ := resolveAt_reference he h
      obtain ⟨target, htarget, -⟩ := hvalue next _ hnext
      obtain ⟨_, rfl, ht⟩ := (hmeans target htarget).value_number hv
      exact ih hnext (htarget.number_of_value ht)
    · cases e with
      | binary op left right =>
        obtain ⟨l, r, hl, hr⟩ := hv.operands
        rw [resolveAt] at h
        split at h
        · obtain ⟨leftValue, hleft, h⟩ := except_bind_eq_ok.mp h
          cases hfold : foldIndex op left right leftValue
              (fun _ => (resolveAt s s.scopeOf steps right).toOption.getD right) with
          | none =>
            rw [except_pure_eq_ok, hfold] at h
            cases h
          | some folded =>
            rcases (foldIndex_cases hfold).2 with ⟨reg, rfl⟩ | ⟨reg, offset, rfl⟩ | ⟨reg, hright⟩
            · obtain ⟨target, htarget, hfolded⟩ := hvalue left _ hleft
              cases hfolded
              exact htarget.not_number_of_register hl
            · exact ih hleft hl
            · exact (means_register_of_getD hright).not_number_of_register hr
        · cases h
      | indexed reg offset => exact Means.not_number_indexed hv
      | ident | ifElse | member | index => exact he trivial
      | _ => cases h

/-- So what has a number stands for what it resolves to. -/
theorem means_value_of_number {e r : Expr} {v : Int64} (h : resolveAt s s.scopeOf steps e = .ok r)
    (hv : Means s e (.number v) []) : Means s e (.value r) [] ∧ Means s r (.number v) [] := by
  obtain ⟨target, htarget, hfolded⟩ := (means_at s steps).1 e r h
  obtain ⟨_, rfl, hnumber⟩ := htarget.value_number hv
  cases r with
  | indexed reg offset => exact absurd hv (not_number_of_indexed h)
  | _ =>
    cases hfolded
    exact ⟨htarget, hnumber⟩

theorem Follows.value_of_number {e r : Expr} {v : Int64} (h : Follows s e r)
    (hv : Means s r (.number v) []) : Means s e (.value r) [] := by
  obtain ⟨target, htarget, hfolded⟩ := h
  cases r with
  | indexed reg offset => exact absurd hv Means.not_number_indexed
  | _ =>
    cases hfolded
    exact htarget

/-! ## More steps -/

/-- What is not a displacement and might not become one. -/
def Expr.Steady (s : Scopes) : Expr → Prop
  | .indexed _ _ => False
  | e@(.binary _ _ _) => ∃ v, Means s e (.number v) []
  | _ => True

theorem Means.steady {e : Expr} {v : Int64} (h : Means s e (.number v) []) : e.Steady s := by
  cases e with
  | indexed reg offset => exact absurd h Means.not_number_indexed
  | binary op left right => exact ⟨v, h⟩
  | _ => trivial

/-- All that resolves to something steady with some number of steps does so with one more. -/
def Deepens (s : Scopes) (steps : Nat) : Prop :=
  ∀ e r, resolveAt s s.scopeOf steps e = .ok r → r.Steady s →
    resolveAt s s.scopeOf (steps + 1) e = .ok r

/-- What parentheses are opened to is steady only if what they are opened from is. -/
theorem Expr.Steady.of_unwrap {resolve : Expr → Except Cause Expr} {fuel : Nat} {r t : Expr}
    (ht : t.Steady s) (h : unwrap resolve fuel r = .ok t) : r.Steady s := by
  cases r with
  | group inner => trivial
  | _ =>
    rw [unwrap_of_ne_group (by simp)] at h
    cases h
    exact ht

theorem Deepens.unwrap (h : Deepens s steps) {fuel : Nat} {r t : Expr}
    (ht : unwrap (resolveAt s s.scopeOf steps) fuel r = .ok t) (hsteady : t.Steady s) :
    unwrap (resolveAt s s.scopeOf (steps + 1)) fuel r = .ok t := by
  induction fuel generalizing r with
  | zero =>
    cases r with
    | group inner => cases ht
    | _ =>
      rw [unwrap_of_ne_group (by simp)] at ht ⊢
      exact ht
  | succ fuel ih =>
    cases r with
    | group inner =>
      rw [Z80Asm.unwrap] at ht ⊢
      obtain ⟨r, hr, ht⟩ := except_bind_eq_ok.mp ht
      exact except_bind_eq_ok.mpr ⟨r, h inner r hr (hsteady.of_unwrap ht), ih ht⟩
    | _ =>
      rw [unwrap_of_ne_group (by simp)] at ht ⊢
      exact ht

/-- A list element is steady only if what it is an element of is. -/
theorem Expr.Steady.of_elementAt {t e : Expr} {p : Int64} (he : e.Steady s)
    (h : elementAt t p = .ok e) : t.Steady s := by
  by_cases hsingle : t.IsSingle
  · rw [elementAt_single hsingle] at h
    split at h
    · cases h
    · split at h
      · cases h
        exact he
      · cases h
  · cases t with
    | seq | str => trivial
    | _ => exact absurd trivial hsingle

/-- A sum resolves to itself or to a displacement. -/
theorem resolveAt_binary {op : BinaryOp} {left right r : Expr}
    (h : resolveAt s s.scopeOf steps (.binary op left right) = .ok r) :
    r = .binary op left right ∨ ∃ reg offset, r = .indexed reg offset := by
  cases steps with
  | zero => cases h
  | succ steps =>
    rw [resolveAt] at h
    split at h
    · obtain ⟨leftValue, -, h⟩ := except_bind_eq_ok.mp h
      rw [except_pure_eq_ok] at h
      cases hfold : foldIndex op left right leftValue
          (fun _ => (resolveAt s s.scopeOf steps right).toOption.getD right) with
      | none =>
        rw [hfold] at h
        exact .inl h.symm
      | some folded =>
        rw [hfold] at h
        cases h
        exact .inr (foldIndex_cases hfold).1
    · cases h
      exact .inl rfl

theorem Expr.Steady.of_resolveAt {e r : Expr} (hr : r.Steady s)
    (h : resolveAt s s.scopeOf steps e = .ok r) : e.Steady s := by
  cases e with
  | indexed reg offset =>
    cases steps with
    | zero => cases h
    | succ steps =>
      cases h
      exact hr
  | binary op left right =>
    rcases resolveAt_binary h with rfl | ⟨reg, offset, rfl⟩
    · exact hr
    · exact hr.elim
  | _ => trivial

theorem Deepens.succ (h : Deepens s steps)
    (hnumber : ∀ e v, integerAt s s.scopeOf steps e = .ok v →
      integerAt s s.scopeOf (steps + 1) e = .ok v) : Deepens s (steps + 1) := by
  intro e r hr hsteady
  cases e with
  | ident name id =>
    rw [resolveAt] at hr ⊢
    obtain ⟨v, hv, hr⟩ := except_bind_eq_ok.mp hr
    exact except_bind_eq_ok.mpr ⟨v, hv, h v r hr hsteady⟩
  | member object name =>
    rw [resolveAt] at hr ⊢
    obtain ⟨o, ho, hr⟩ := except_bind_eq_ok.mp hr
    cases hid : o.contextScope? with
    | none =>
      rw [hid] at hr
      cases hr
    | some id =>
      rw [hid] at hr
      obtain ⟨v, hv, hr⟩ := except_bind_eq_ok.mp hr
      have hobject : o.Steady s := by
        cases o with
        | context | space => trivial
        | _ => cases hid
      refine except_bind_eq_ok.mpr ⟨o, h object o ho hobject, ?_⟩
      rw [hid]
      exact except_bind_eq_ok.mpr ⟨v, hv, h v r hr hsteady⟩
  | index sequence position =>
    rw [resolveAt] at hr ⊢
    obtain ⟨p, hp, hr⟩ := except_bind_eq_ok.mp hr
    obtain ⟨t, ht, hr⟩ := except_bind_eq_ok.mp hr
    obtain ⟨element, helement, hr⟩ := except_bind_eq_ok.mp hr
    rw [resolveUngrouped_eq] at ht
    obtain ⟨grouped, hgrouped, ht⟩ := except_bind_eq_ok.mp ht
    have htarget : t.Steady s := (hsteady.of_resolveAt hr).of_elementAt helement
    have hopened : resolveUngrouped s (resolveAt s s.scopeOf (steps + 1)) sequence = .ok t := by
      rw [resolveUngrouped_eq]
      exact except_bind_eq_ok.mpr
        ⟨grouped, h sequence grouped hgrouped (htarget.of_unwrap ht), h.unwrap ht htarget⟩
    refine except_bind_eq_ok.mpr ⟨p, hnumber position p hp, ?_⟩
    refine except_bind_eq_ok.mpr ⟨t, hopened, ?_⟩
    exact except_bind_eq_ok.mpr ⟨element, helement, h element r hr hsteady⟩
  | ifElse cond onTrue onFalse =>
    rw [resolveAt] at hr ⊢
    obtain ⟨k, hk, hr⟩ := except_bind_eq_ok.mp hr
    refine except_bind_eq_ok.mpr ⟨k, hnumber cond k hk, ?_⟩
    rw [← apply_ite (resolveAt s s.scopeOf steps)] at hr
    rw [← apply_ite (resolveAt s s.scopeOf (steps + 1))]
    exact h _ r hr hsteady
  | binary op left right =>
    -- A sum with a number stays itself, whatever is found out about its operands.
    rcases resolveAt_binary hr with rfl | ⟨reg, offset, rfl⟩
    · obtain ⟨v, hv⟩ := hsteady
      have hdone : ∃ r', resolveAt s s.scopeOf (steps + 1 + 1) (.binary op left right) = .ok r' := by
        rw [resolveAt] at hr ⊢
        split at hr
        next hop =>
          obtain ⟨leftValue, hleft, -⟩ := except_bind_eq_ok.mp hr
          obtain ⟨l, -, hl, -⟩ := hv.operands
          have hleft' := h left leftValue hleft (means_value_of_number hleft hl).2.steady
          exact ⟨_, by rw [if_pos hop, hleft']; rfl⟩
        next hop => exact ⟨_, if_neg hop⟩
      obtain ⟨r', hr'⟩ := hdone
      rcases resolveAt_binary hr' with rfl | ⟨reg, offset, rfl⟩
      · exact hr'
      · exact absurd hv (not_number_of_indexed hr')
    · exact hsteady.elim
  | _ => exact hr

theorem integerAt_succ (h : Deepens s steps)
    (hnumber : ∀ e v, integerAt s s.scopeOf steps e = .ok v →
      integerAt s s.scopeOf (steps + 1) e = .ok v) {e : Expr} {v : Int64}
    (hv : integerAt s s.scopeOf (steps + 1) e = .ok v) :
    integerAt s s.scopeOf (steps + 1 + 1) e = .ok v := by
  have haccess : ∀ e, (resolveAt s s.scopeOf steps e >>= integerAt s s.scopeOf steps) = .ok v →
      (resolveAt s s.scopeOf (steps + 1) e >>= integerAt s s.scopeOf (steps + 1)) = .ok v := by
    intro e hv
    obtain ⟨r, hr, hv⟩ := except_bind_eq_ok.mp hv
    have hsteady := ((means_at s steps).2 r v hv).steady
    exact except_bind_eq_ok.mpr ⟨r, h e r hr hsteady, hnumber r v hv⟩
  cases e with
  | ident name id =>
    rw [integerAt] at hv ⊢
    obtain ⟨value, hvalue, hv⟩ := except_bind_eq_ok.mp hv
    exact except_bind_eq_ok.mpr ⟨value, hvalue, hnumber value v hv⟩
  | unary op operand =>
    rw [integerAt] at hv ⊢
    obtain ⟨w, hw, hv⟩ := except_bind_eq_ok.mp hv
    exact except_bind_eq_ok.mpr ⟨w, hnumber operand w hw, hv⟩
  | binary op left right =>
    rw [integerAt] at hv ⊢
    obtain ⟨l, hl, hv⟩ := except_bind_eq_ok.mp hv
    obtain ⟨r, hr, hv⟩ := except_bind_eq_ok.mp hv
    refine except_bind_eq_ok.mpr ⟨l, hnumber left l hl, ?_⟩
    exact except_bind_eq_ok.mpr ⟨r, hnumber right r hr, hv⟩
  | ifElse cond onTrue onFalse =>
    rw [integerAt] at hv ⊢
    obtain ⟨k, hk, hv⟩ := except_bind_eq_ok.mp hv
    refine except_bind_eq_ok.mpr ⟨k, hnumber cond k hk, ?_⟩
    rw [← apply_ite (integerAt s s.scopeOf steps)] at hv
    rw [← apply_ite (integerAt s s.scopeOf (steps + 1))]
    exact hnumber _ v hv
  | group inner =>
    rw [integerAt] at hv ⊢
    exact hnumber inner v hv
  | member | index =>
    rw [integerAt] at hv ⊢
    exact haccess _ hv
  | _ => exact hv

/-- **More steps change no number**, and nothing that has a number. -/
theorem deepens (s : Scopes) (steps : Nat) :
    Deepens s steps ∧ ∀ e v, integerAt s s.scopeOf steps e = .ok v →
      integerAt s s.scopeOf (steps + 1) e = .ok v := by
  induction steps with
  | zero =>
    constructor
    · intro e r h
      cases h
    · intro e v h
      cases h
  | succ steps ih => exact ⟨ih.1.succ ih.2, fun _ _ => integerAt_succ ih.1 ih.2⟩

/-! ## The number of what an expression stands for -/

theorem integerAt_of_value {e r : Expr} {v : Int64} {met : List Cpu.Register}
    (h : Means s e (.value r) met) (hv : integerAt s s.scopeOf steps e = .ok v) :
    integerAt s s.scopeOf steps r = .ok v := by
  -- The number of a member or an element is that of what it stands for already.
  have haccess : ∀ {e r met steps}, Means s e (.value r) met → Task.IsAccess e →
      integerAt s s.scopeOf steps e = .ok v → integerAt s s.scopeOf steps r = .ok v := by
    intro e r met steps h he hv
    cases steps with
    | zero => cases hv
    | succ steps =>
      cases e with
      | member | index =>
        rw [integerAt] at hv
        obtain ⟨r', hr', hv⟩ := except_bind_eq_ok.mp hv
        have hvalue := ((means_at s steps).1 _ r' hr').value_of_number ((means_at s steps).2 r' v hv)
        cases (hvalue.unique h trivial).1
        exact (deepens s steps).2 r v hv
      | _ => cases he
  generalize hm : Meaning.value r = m at h
  induction h generalizing steps with
  | itself =>
    cases hm
    exact hv
  | name _ hsymbol _ ih =>
    cases steps with
    | zero => cases hv
    | succ steps =>
      rw [integerAt] at hv
      obtain ⟨value, hvalue, hv⟩ := except_bind_eq_ok.mp hv
      cases hsymbol.symm.trans hvalue
      exact (deepens s steps).2 r v (ih hv hm)
  | choice _ hcond _ _ ih =>
    cases steps with
    | zero => cases hv
    | succ steps =>
      rw [integerAt] at hv
      obtain ⟨k, hk, hv⟩ := except_bind_eq_ok.mp hv
      rw [← apply_ite (integerAt s s.scopeOf steps)] at hv
      cases (((means_at s steps).2 _ k hk).unique hcond trivial).1
      exact (deepens s steps).2 r v (ih hv hm)
  | member hobject hid hmember h =>
    cases hm
    exact haccess (.member hobject hid hmember h) trivial hv
  | element hposition hsequence he h =>
    cases hm
    exact haccess (.element hposition hsequence he h) trivial hv
  | _ => cases hm

/-- **Resolving does not change the number.** The number of `r` is computed with all steps again, of
    which resolving `e` has used some, so this takes that more steps change no number
    (`integerAt_succ`). Both are asked to succeed, since a register can be resolved and has no
    number. -/
theorem resolve_keeps_integer {e r : Expr} {v : Int64} (hr : e.resolve s = .ok r)
    (hv : e.integer s = .ok v) : r.integer s = .ok v :=
  integerAt_of_value (means_value_of_number hr (Means.of_integer hv)).1 hv

end

/-- The second element of a list is a sum of a label and a byte of a text, and is reached through the
    label of a line. -/
def labelledScopes : Scopes where
  nodes := #[
    { parent := none, bindings := [⟨"line", .context ⟨1⟩, 1⟩], address := some 0x100 },
    { parent := some ⟨0⟩, bindings := [
        ⟨"text", .str #[65, 66], 3⟩,
        ⟨"list", .group (.seq [.int 7, .binary .sub (.ident "line" ⟨0⟩)
          (.index (.ident "text" ⟨1⟩) (.int 1))]), 2⟩],
      address := some 0x200 }]
  serial := 3
  groups := 1

/-- `(line . list)[1]`. -/
def secondElement : Expr :=
  .index (.member (.ident "line" ⟨0⟩) "list") (.int 1)

theorem resolve_keeps_integer_element :
    ∃ r, secondElement.resolve labelledScopes = .ok r ∧
      secondElement.integer labelledScopes = .ok 0x1BE ∧ r.integer labelledScopes = .ok 0x1BE := by
  refine ⟨_, rfl, rfl, ?_⟩
  exact resolve_keeps_integer (e := secondElement) rfl rfl

end Z80Asm
