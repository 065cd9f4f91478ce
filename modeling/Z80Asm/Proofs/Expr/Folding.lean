import Z80Asm.Proofs.Expr.Alike
import Z80Asm.Proofs.Expr.Recursion
import Z80Asm.Proofs.Success

/-!
# Folding keeps the number

Resolving a sum with an index register makes a displacement of it, one operator at a time and through
names, members, elements and conditionals. `Means` says on its own what an expression is worth when
`IX` and `IY` count as zero: it follows the same references but folds nothing and gives up nowhere,
and it notes every index register that it meets. It has at most one answer (`Means.unique`), which is
the one of `Expr.integer` where that has one (`Means.of_integer`).

A displacement is worth what was folded into it, and the register in front of it is the only one there
is (`resolve_indexed_means`).

`Means` is a relation because it has no bounds; as a function it would need some, and then the
question would be back whether they are the same.
-/
set_option autoImplicit false

namespace Z80Asm

open Success

/-- What can be asked of an expression: what it stands for, the same with parentheses opened, and a
    number. -/
inductive Meaning
  | value (e : Expr)
  | inside (e : Expr)
  | number (v : Int64)

/-- What a name or a conditional has from what it leads to. -/
def Meaning.IsPassedOn : Meaning → Prop
  | .inside _ => False
  | _ => True

theorem Task.IsAccess.contextScope?_ne {e : Expr} (h : Task.IsAccess e) (id : ScopeId) :
    e.contextScope? ≠ some id := by
  cases e <;> cases h <;> simp [Expr.contextScope?]

/-- Expressions that stand for another. -/
def Expr.IsReference : Expr → Prop
  | .ident _ _ | .ifElse _ _ _ | .member _ _ | .index _ _ => True
  | _ => False

/-- What an expression means if index registers are zero, and which of them are met in finding out.
    They are a list, for a register that is met twice is not the same as one that is met once. -/
inductive Means (s : Scopes) : Expr → Meaning → List Cpu.Register → Prop
  | itself {e : Expr} (he : ¬ e.IsReference) : Means s e (.value e) []
  | name {name : String} {id : ScopeId} {v : Expr} {m : Meaning} {met : List Cpu.Register}
      (hm : m.IsPassedOn) (hv : s.symbol id name = .ok v) (h : Means s v m met) :
      Means s (.ident name id) m met
  | choice {cond onTrue onFalse : Expr} {k : Int64} {m : Meaning} {met met' : List Cpu.Register}
      (hm : m.IsPassedOn) (hcond : Means s cond (.number k) met)
      (h : Means s (if k != 0 then onTrue else onFalse) m met') :
      Means s (.ifElse cond onTrue onFalse) m (met ++ met')
  | member {object o v r : Expr} {name : String} {id : ScopeId} {met met' : List Cpu.Register}
      (hobject : Means s object (.value o) met) (hid : o.contextScope? = some id)
      (hv : s.member id name = .ok v) (h : Means s v (.value r) met') :
      Means s (.member object name) (.value r) (met ++ met')
  | element {sequence position t e r : Expr} {p : Int64} {met met' met'' : List Cpu.Register}
      (hposition : Means s position (.number p) met) (hsequence : Means s sequence (.inside t) met')
      (he : elementAt t p = .ok e) (h : Means s e (.value r) met'') :
      Means s (.index sequence position) (.value r) (met ++ met' ++ met'')
  | closed {e t : Expr} {met : List Cpu.Register} (h : Means s e (.value t) met)
      (ht : ∀ inner, t ≠ .group inner) : Means s e (.inside t) met
  | opened {e inner t : Expr} {met met' : List Cpu.Register}
      (h : Means s e (.value (.group inner)) met) (hinner : Means s inner (.inside t) met') :
      Means s e (.inside t) (met ++ met')
  | int (v : Int64) : Means s (.int v) (.number v) []
  | chr (byte : UInt8) : Means s (.chr byte) (.number (Int64.ofNat byte.toNat)) []
  | str (byte : UInt8) : Means s (.str [byte]) (.number (Int64.ofNat byte.toNat)) []
  | address {e : Expr} {id : ScopeId} {a : UInt32} (hid : e.contextScope? = some id)
      (ha : s.address id = .ok a) : Means s e (.number (Int64.ofNat a.toNat)) []
  | register {reg : Cpu.Register} (hreg : reg.isIndex = true) :
      Means s (.register reg) (.number 0) [reg]
  | indexed {reg : Cpu.Register} {offset : Expr} {v : Int64} {met : List Cpu.Register}
      (h : Means s offset (.number v) met) : Means s (.indexed reg offset) (.number v) (reg :: met)
  | unary {op : UnaryOp} {operand : Expr} {v : Int64} {met : List Cpu.Register}
      (h : Means s operand (.number v) met) : Means s (.unary op operand) (.number (op.apply v)) met
  | binary {op : BinaryOp} {left right : Expr} {l r v : Int64} {met met' : List Cpu.Register}
      (hl : Means s left (.number l) met) (hr : Means s right (.number r) met')
      (hv : op.apply l r = .ok v) : Means s (.binary op left right) (.number v) (met ++ met')
  | group {inner : Expr} {v : Int64} {met : List Cpu.Register}
      (h : Means s inner (.number v) met) : Means s (.group inner) (.number v) met
  | access {e r : Expr} {v : Int64} {met met' : List Cpu.Register} (he : Task.IsAccess e)
      (h : Means s e (.value r) met) (hr : Means s r (.number v) met') :
      Means s e (.number v) (met ++ met')

/-- Answers to the same question. -/
def Meaning.SameKind : Meaning → Meaning → Prop
  | .value _, .value _ | .inside _, .inside _ | .number _, .number _ => True
  | _, _ => False

theorem Meaning.SameKind.symm {m m' : Meaning} (h : m.SameKind m') : m'.SameKind m := by
  cases m <;> cases m' <;> exact h

theorem Meaning.IsPassedOn.not_sameKind_inside {m : Meaning} (h : m.IsPassedOn) {e : Expr} :
    ¬ m.SameKind (.inside e) := by
  intro hkind
  cases m with
  | inside => exact h
  | value | number => exact hkind

namespace Means

variable {s : Scopes}

/-- There is one answer to each question. -/
theorem unique {e : Expr} {m m' : Meaning} {met met' : List Cpu.Register} (h : Means s e m met)
    (h' : Means s e m' met') (hkind : m.SameKind m') : m = m' ∧ met = met' := by
  induction h generalizing m' met' with
  | itself he =>
    cases h' with
    | itself => exact ⟨rfl, rfl⟩
    | name | choice | member | element => exact absurd trivial he
    | _ => cases hkind
  | name hm hv h ih =>
    cases h' with
    | itself he => exact absurd trivial he
    | name _ hv' h' =>
      cases hv.symm.trans hv'
      exact ih h' hkind
    | closed | opened => exact absurd hkind hm.not_sameKind_inside
    | address hid => cases hid
    | access he => cases he
  | choice hm hcond h ihcond ih =>
    cases h' with
    | itself he => exact absurd trivial he
    | choice _ hcond' h' =>
      obtain ⟨hk, rfl⟩ := ihcond hcond' trivial
      cases hk
      obtain ⟨rfl, rfl⟩ := ih h' hkind
      exact ⟨rfl, rfl⟩
    | closed | opened => exact absurd hkind hm.not_sameKind_inside
    | address hid => cases hid
    | access he => cases he
  | member hobject hid hv h ihobject ih =>
    cases h' with
    | itself he => exact absurd trivial he
    | member hobject' hid' hv' h' =>
      obtain ⟨ho, rfl⟩ := ihobject hobject' trivial
      cases ho
      cases hid.symm.trans hid'
      cases hv.symm.trans hv'
      obtain ⟨hr, rfl⟩ := ih h' trivial
      cases hr
      exact ⟨rfl, rfl⟩
    | _ => cases hkind
  | element hposition hsequence he h ihposition ihsequence ih =>
    cases h' with
    | itself he' => exact absurd trivial he'
    | element hposition' hsequence' he' h' =>
      obtain ⟨hp, rfl⟩ := ihposition hposition' trivial
      cases hp
      obtain ⟨ht, rfl⟩ := ihsequence hsequence' trivial
      cases ht
      cases he.symm.trans he'
      obtain ⟨hr, rfl⟩ := ih h' trivial
      cases hr
      exact ⟨rfl, rfl⟩
    | _ => cases hkind
  | closed h ht ih =>
    cases h' with
    | closed h' =>
      obtain ⟨hr, rfl⟩ := ih h' trivial
      cases hr
      exact ⟨rfl, rfl⟩
    | opened h' =>
      cases (ih h' trivial).1
      exact absurd rfl (ht _)
    | name hm | choice hm => exact absurd hkind.symm hm.not_sameKind_inside
    | _ => cases hkind
  | opened h hinner ih ihinner =>
    cases h' with
    | closed h' ht =>
      cases (ih h' trivial).1
      exact absurd rfl (ht _)
    | opened h' hinner' =>
      obtain ⟨hr, rfl⟩ := ih h' trivial
      cases hr
      obtain ⟨hr, rfl⟩ := ihinner hinner' trivial
      cases hr
      exact ⟨rfl, rfl⟩
    | name hm | choice hm => exact absurd hkind.symm hm.not_sameKind_inside
    | _ => cases hkind
  | int | chr | str | register =>
    cases h' with
    | itself | closed | opened => cases hkind
    | address hid => cases hid
    | access he => cases he
    | _ => exact ⟨rfl, rfl⟩
  | address hid ha =>
    cases h' with
    | address hid' ha' =>
      cases hid.symm.trans hid'
      cases ha.symm.trans ha'
      exact ⟨rfl, rfl⟩
    | access he => exact absurd hid (he.contextScope?_ne _)
    | itself | closed | opened | member | element => cases hkind
    | _ => cases hid
  | indexed h ih =>
    cases h' with
    | indexed h' =>
      obtain ⟨hr, rfl⟩ := ih h' trivial
      cases hr
      exact ⟨rfl, rfl⟩
    | itself | closed | opened => cases hkind
    | address hid => cases hid
    | access he => cases he
  | unary h ih =>
    cases h' with
    | unary h' =>
      obtain ⟨hr, rfl⟩ := ih h' trivial
      cases hr
      exact ⟨rfl, rfl⟩
    | itself | closed | opened => cases hkind
    | address hid => cases hid
    | access he => cases he
  | binary hl hr hv ihl ihr =>
    cases h' with
    | binary hl' hr' hv' =>
      obtain ⟨hl, rfl⟩ := ihl hl' trivial
      cases hl
      obtain ⟨hr, rfl⟩ := ihr hr' trivial
      cases hr
      cases hv.symm.trans hv'
      exact ⟨rfl, rfl⟩
    | itself | closed | opened => cases hkind
    | address hid => cases hid
    | access he => cases he
  | group h ih =>
    cases h' with
    | group h' =>
      obtain ⟨hr, rfl⟩ := ih h' trivial
      cases hr
      exact ⟨rfl, rfl⟩
    | itself | closed | opened => cases hkind
    | address hid => cases hid
    | access he => cases he
  | access he h hr ih ihr =>
    cases h' with
    | access _ h' hr' =>
      obtain ⟨heq, rfl⟩ := ih h' trivial
      cases heq
      obtain ⟨heq, rfl⟩ := ihr hr' trivial
      cases heq
      exact ⟨rfl, rfl⟩
    | itself | closed | opened | member | element => cases hkind
    | address hid => exact absurd hid (he.contextScope?_ne _)
    | _ => cases he

/-- The number of what an expression stands for is its own. -/
theorem number_of_value {e r : Expr} {v : Int64} {met met' : List Cpu.Register}
    (h : Means s e (.value r) met) (hr : Means s r (.number v) met') :
    Means s e (.number v) (met ++ met') := by
  generalize hm : Meaning.value r = m at h
  induction h with
  | itself =>
    cases hm
    exact hr
  | name _ hv _ ih => exact .name trivial hv (ih hm)
  | choice _ hcond _ _ ih =>
    rw [List.append_assoc]
    exact .choice trivial hcond (ih hm)
  | member hobject hid hv h =>
    cases hm
    exact .access trivial (.member hobject hid hv h) hr
  | element hposition hsequence he h =>
    cases hm
    exact .access trivial (.element hposition hsequence he h) hr
  | _ => cases hm

end Means

/-- What resolving makes of the expression that is referred to: it leaves it, or it folds a sum into
    a displacement of the same worth behind the only index register in it. -/
def Folded (s : Scopes) (e : Expr) : Expr → Prop
  | .indexed reg offset => e = .indexed reg offset ∨
    (∃ op left right, e = .binary op left right) ∧
      ∀ v, Means s offset (.number v) [] → Means s e (.number v) [reg]
  | r => e = r

section

variable {s : Scopes} {steps : Nat}

theorem Folded.refl (e : Expr) : Folded s e e := by
  cases e <;> simp [Folded]

/-- What resolving an expression tells about its meaning. -/
def Follows (s : Scopes) (e r : Expr) : Prop :=
  ∃ target, Means s e (.value target) [] ∧ Folded s target r

theorem Follows.of_not_isReference {e : Expr} (he : ¬ e.IsReference) : Follows s e e :=
  ⟨e, .itself he, Folded.refl e⟩

theorem Folded.eq_of_contextScope? {e r : Expr} {id : ScopeId} (h : Folded s e r)
    (hid : r.contextScope? = some id) : e = r := by
  cases r <;> cases hid <;> exact h

theorem Folded.ne_group {e r : Expr} (h : Folded s e r) (hr : ∀ inner, r ≠ .group inner)
    (inner : Expr) : e ≠ .group inner := by
  rintro rfl
  cases r with
  | indexed reg offset =>
    rcases h with h | ⟨⟨op, left, right, h⟩, -⟩
    · cases h
    · cases h
  | _ => exact hr inner h.symm

/-! ## One step of each evaluator -/

/-- A fold is worth what its operands are. -/
theorem folded_foldIndex {op : BinaryOp} {left right leftValue e : Expr} {rightValue : Unit → Expr}
    (hleft : Follows s left leftValue)
    (hright : ∀ reg, rightValue () = .register reg → Means s right (.value (.register reg)) [])
    (h : foldIndex op left right leftValue rightValue = some e) :
    Folded s (.binary op left right) e := by
  obtain ⟨target, htarget, hfolded⟩ := hleft
  -- A displacement on the left goes on: its worth is that of the left operand.
  have hextended : ∀ reg offset,
      (∀ v, Means s offset (.number v) [] → Means s left (.number v) [reg]) →
      extended op reg offset right (rightValue ()) = some e → Folded s (.binary op left right) e := by
    intro reg offset hoffset h
    unfold extended at h
    split at h
    · cases h
    · cases h
      refine .inr ⟨⟨op, left, right, rfl⟩, fun v hv => ?_⟩
      generalize hmet : ([] : List Cpu.Register) = met at hv
      cases hv with
      | binary hl hr hv =>
        obtain ⟨rfl, rfl⟩ := List.append_eq_nil_iff.mp hmet.symm
        exact .binary (hoffset _ hl) hr hv
      | address hid => cases hid
      | access he => cases he
  by_cases hreg : ∃ reg, leftValue = .register reg
  · obtain ⟨reg, rfl⟩ := hreg
    cases hfolded
    rw [foldIndex_register] at h
    split at h
    next hindex =>
      refine hextended reg (.int 0) (fun v hv => ?_) h
      cases (hv.unique (.int 0) trivial).1
      exact htarget.number_of_value (.register hindex)
    next => cases h
  · by_cases hindexed : ∃ reg offset, leftValue = .indexed reg offset
    · obtain ⟨reg, offset, rfl⟩ := hindexed
      refine hextended reg offset (fun v hv => ?_) h
      rcases hfolded with rfl | ⟨-, hworth⟩
      · exact htarget.number_of_value hv.indexed
      · exact htarget.number_of_value (hworth v hv)
    · rw [foldIndex_other (fun reg heq => hreg ⟨reg, heq⟩)
        fun reg offset heq => hindexed ⟨reg, offset, heq⟩] at h
      split at h
      next hadd =>
        obtain ⟨rfl, -⟩ := hadd
        unfold addedTo at h
        split at h
        next reg hvalue =>
          split at h
          next hindex =>
            cases h
            refine .inr ⟨⟨.add, left, right, rfl⟩, fun v hv => ?_⟩
            have hzero := (hright reg hvalue).number_of_value (.register hindex)
            exact .binary hv hzero (by simp [BinaryOp.apply])
          next => cases h
        next => cases h
      next => cases h

/-- Opening parentheses follows what is inside. -/
theorem means_inside {resolve : Expr → Except Cause Expr}
    (hresolve : ∀ e r, resolve e = .ok r → Follows s e r) {fuel : Nat} {e r t : Expr}
    (hr : resolve e = .ok r) (ht : unwrap resolve fuel r = .ok t) :
    ∃ t', Means s e (.inside t') [] ∧ Folded s t' t := by
  obtain ⟨target, htarget, hfolded⟩ := hresolve e r hr
  induction fuel generalizing e r target with
  | zero =>
    rw [unwrap.eq_def] at ht
    split at ht
    · cases ht
    next hgroup =>
      cases ht
      exact ⟨target, .closed htarget (hfolded.ne_group hgroup), hfolded⟩
  | succ fuel ih =>
    rw [unwrap.eq_def] at ht
    split at ht
    next inner =>
      obtain ⟨r', hr', ht⟩ := except_bind_eq_ok.mp ht
      obtain ⟨target', htarget', hfolded'⟩ := hresolve inner r' hr'
      obtain ⟨t', ht', hfolded''⟩ := ih hr' ht target' htarget' hfolded'
      cases hfolded
      exact ⟨t', .opened htarget ht', hfolded''⟩
    next hgroup =>
      cases ht
      exact ⟨target, .closed htarget (hfolded.ne_group hgroup), hfolded⟩

/-- A fold has itself as its element, as the sum had. -/
theorem Folded.elementAt {t' t e : Expr} {p : Int64} (h : Folded s t' t)
    (he : elementAt t p = .ok e) :
    Z80Asm.elementAt t' p = .ok e ∨ Z80Asm.elementAt t' p = .ok t' ∧ ¬ t'.IsReference ∧
      e = t ∧ ∃ reg offset, t = .indexed reg offset := by
  cases t with
  | indexed reg offset =>
    rcases h with rfl | ⟨⟨op, left, right, rfl⟩, -⟩
    · exact .inl he
    · have hsingle : (Expr.binary op left right).IsSingle := trivial
      rw [elementAt_single (e := .indexed reg offset) trivial] at he
      rw [elementAt_single hsingle]
      split at he
      · cases he
      · split at he
        next hnegative hzero =>
          cases he
          exact .inr ⟨by rw [if_neg hnegative, if_pos hzero], id, rfl, reg, offset, rfl⟩
        next => cases he
  | _ =>
    cases h
    exact .inl he

/-! ## Both evaluators -/

theorem follows_resolveAt_succ (hvalue : ∀ e r, resolveAt s s.scopeOf steps e = .ok r → Follows s e r)
    (hnumber : ∀ e v, integerAt s s.scopeOf steps e = .ok v → Means s e (.number v) [])
    {e r : Expr} (h : resolveAt s s.scopeOf (steps + 1) e = .ok r) : Follows s e r := by
  cases e with
  | ident name id =>
    rw [resolveAt] at h
    obtain ⟨v, hv, h⟩ := except_bind_eq_ok.mp h
    obtain ⟨target, htarget, hfolded⟩ := hvalue v r h
    exact ⟨target, .name trivial hv htarget, hfolded⟩
  | member object name =>
    rw [resolveAt] at h
    obtain ⟨o, ho, h⟩ := except_bind_eq_ok.mp h
    obtain ⟨target, htarget, hfolded⟩ := hvalue object o ho
    split at h
    · cases h
    next id hid =>
      obtain ⟨v, hv, h⟩ := except_bind_eq_ok.mp h
      obtain ⟨target', htarget', hfolded'⟩ := hvalue v r h
      cases hfolded.eq_of_contextScope? hid
      exact ⟨target', .member htarget hid hv htarget', hfolded'⟩
  | index sequence position =>
    rw [resolveAt] at h
    obtain ⟨p, hp, h⟩ := except_bind_eq_ok.mp h
    obtain ⟨t, ht, h⟩ := except_bind_eq_ok.mp h
    obtain ⟨element, helement, hr⟩ := except_bind_eq_ok.mp h
    rw [resolveUngrouped_eq] at ht
    obtain ⟨grouped, hgrouped, ht⟩ := except_bind_eq_ok.mp ht
    obtain ⟨t', ht', hfolded⟩ := means_inside hvalue hgrouped ht
    rcases hfolded.elementAt helement with helement' | ⟨helement', hreference, rfl, reg, offset, rfl⟩
    · obtain ⟨target, htarget, hfolded⟩ := hvalue _ r hr
      exact ⟨target, .element (hnumber _ p hp) ht' helement' htarget, hfolded⟩
    · cases steps with
      | zero => cases hr
      | succ steps =>
        cases hr
        exact ⟨t', .element (hnumber _ p hp) ht' helement' (.itself hreference), hfolded⟩
  | ifElse cond onTrue onFalse =>
    rw [resolveAt] at h
    obtain ⟨k, hk, h⟩ := except_bind_eq_ok.mp h
    rw [← apply_ite (resolveAt s s.scopeOf steps)] at h
    obtain ⟨target, htarget, hfolded⟩ := hvalue _ r h
    exact ⟨target, .choice (m := .value target) trivial (hnumber cond k hk) htarget, hfolded⟩
  | binary op left right =>
    rw [resolveAt] at h
    split at h
    · obtain ⟨leftValue, hleft, h⟩ := except_bind_eq_ok.mp h
      cases h
      refine ⟨_, .itself id, ?_⟩
      cases hfold : foldIndex op left right leftValue
          (fun _ => (resolveAt s s.scopeOf steps right).toOption.getD right) with
      | none => exact Folded.refl _
      | some folded =>
        refine folded_foldIndex (hvalue left leftValue hleft) (fun reg hreg => ?_) hfold
        cases hright : resolveAt s s.scopeOf steps right with
        | error cause =>
          rw [hright] at hreg
          cases (show right = .register reg from hreg)
          exact .itself id
        | ok value =>
          rw [hright] at hreg
          cases (show value = .register reg from hreg)
          obtain ⟨target, htarget, hfolded⟩ := hvalue right _ hright
          cases hfolded
          exact htarget
    · cases h
      exact Follows.of_not_isReference id
  | _ =>
    cases h
    exact Follows.of_not_isReference id

theorem means_integerAt_succ (hvalue : ∀ e r, resolveAt s s.scopeOf steps e = .ok r → Follows s e r)
    (hnumber : ∀ e v, integerAt s s.scopeOf steps e = .ok v → Means s e (.number v) [])
    {e : Expr} {v : Int64} (h : integerAt s s.scopeOf (steps + 1) e = .ok v) :
    Means s e (.number v) [] := by
  -- What is accessed has a number, so it is no fold.
  have haccess : ∀ e, Task.IsAccess e →
      (resolveAt s s.scopeOf steps e >>= integerAt s s.scopeOf steps) = .ok v →
      Means s e (.number v) [] := by
    intro e he h
    obtain ⟨r, hr, h⟩ := except_bind_eq_ok.mp h
    obtain ⟨target, htarget, hfolded⟩ := hvalue e r hr
    cases r with
    | indexed reg offset =>
      cases steps with
      | zero => cases h
      | succ steps => cases h
    | _ =>
      cases hfolded
      exact .access he htarget (hnumber _ v h)
  cases e with
  | int value =>
    cases h
    exact .int _
  | chr byte =>
    cases h
    exact .chr byte
  | str bytes =>
    rcases bytes with _ | ⟨byte, _ | ⟨next, rest⟩⟩
    · cases h
    · cases h
      exact .str byte
    · cases h
  | ident name id =>
    rw [integerAt] at h
    obtain ⟨value, hvalue, h⟩ := except_bind_eq_ok.mp h
    exact .name trivial hvalue (hnumber value v h)
  | unary op operand =>
    rw [integerAt] at h
    obtain ⟨value, hvalue, h⟩ := except_bind_eq_ok.mp h
    cases h
    exact .unary (hnumber operand value hvalue)
  | binary op left right =>
    rw [integerAt] at h
    obtain ⟨l, hl, h⟩ := except_bind_eq_ok.mp h
    obtain ⟨r, hr, h⟩ := except_bind_eq_ok.mp h
    exact .binary (hnumber left l hl) (hnumber right r hr) h
  | ifElse cond onTrue onFalse =>
    rw [integerAt] at h
    obtain ⟨k, hk, h⟩ := except_bind_eq_ok.mp h
    rw [← apply_ite (integerAt s s.scopeOf steps)] at h
    exact .choice (m := .number v) trivial (hnumber cond k hk) (hnumber _ v h)
  | group inner =>
    rw [integerAt] at h
    exact .group (hnumber inner v h)
  | member object name =>
    rw [integerAt] at h
    exact haccess _ trivial h
  | index sequence position =>
    rw [integerAt] at h
    exact haccess _ trivial h
  | context id =>
    rw [integerAt] at h
    obtain ⟨a, ha, h⟩ := except_bind_eq_ok.mp h
    cases h
    exact .address rfl ha
  | space space id =>
    rw [integerAt] at h
    obtain ⟨a, ha, h⟩ := except_bind_eq_ok.mp h
    cases h
    exact .address rfl ha
  | _ => cases h

/-- Whatever the number of steps, an outcome is the meaning. -/
theorem means_at (s : Scopes) (steps : Nat) :
    (∀ e r, resolveAt s s.scopeOf steps e = .ok r → Follows s e r) ∧
      ∀ e v, integerAt s s.scopeOf steps e = .ok v → Means s e (.number v) [] := by
  induction steps with
  | zero =>
    constructor
    · intro e r h
      cases h
    · intro e v h
      cases h
  | succ steps ih =>
    exact ⟨fun _ _ => follows_resolveAt_succ ih.1 ih.2, fun _ _ => means_integerAt_succ ih.1 ih.2⟩

theorem Means.of_integer {e : Expr} {v : Int64} (h : e.integer s = .ok v) :
    Means s e (.number v) [] :=
  (means_at s _).2 e v h

/-- **Folding keeps the number.** If an expression resolves to an index register with a
    displacement, then it is worth the displacement when index registers count as zero, and that
    register is the one it has in it. The displacement has to have a number, for names in it are not
    looked up while it is folded. -/
theorem resolve_indexed_means {e offset : Expr} {reg : Cpu.Register} {v : Int64}
    (h : e.resolve s = .ok (.indexed reg offset)) (hv : offset.integer s = .ok v) (w : Int64)
    (met : List Cpu.Register) : Means s e (.number w) met ↔ w = v ∧ met = [reg] := by
  obtain ⟨target, htarget, hfolded⟩ := (means_at s _).1 e _ h
  have hoffset := Means.of_integer hv
  have hmeans : Means s e (.number v) [reg] := by
    rcases hfolded with rfl | ⟨-, hworth⟩
    · exact htarget.number_of_value hoffset.indexed
    · exact htarget.number_of_value (hworth v hoffset)
  constructor
  · intro hw
    obtain ⟨heq, rfl⟩ := hw.unique hmeans trivial
    cases heq
    exact ⟨rfl, rfl⟩
  · rintro ⟨rfl, rfl⟩
    exact hmeans

end

/-- A list whose second element is an index register with a displacement, and a table of names for
    parts of it. -/
def tableScopes : Scopes where
  nodes := #[{ parent := none, bindings := [
    ⟨"second", .index (.ident "list" ⟨0⟩) (.int 1), 3⟩,
    ⟨"list", .seq [.int 7, .binary .sub (.ident "base" ⟨0⟩) (.int 2)], 2⟩,
    ⟨"base", .register .iy, 1⟩] }]
  serial := 3
  aliases := 1

/-- `5 - 1 ? second - (3 - 8) + 1 : ix`. -/
def displaced : Expr :=
  .ifElse (.binary .sub (.int 5) (.int 1))
    (.binary .add (.binary .sub (.ident "second" ⟨0⟩) (.group (.binary .sub (.int 3) (.int 8))))
      (.int 1))
    (.register .ix)

theorem resolve_indexed_means_table :
    ∃ offset, displaced.resolve tableScopes = .ok (.indexed .iy offset) ∧
      offset.integer tableScopes = .ok 4 ∧
      ∀ w met, Means tableScopes displaced (.number w) met ↔ w = 4 ∧ met = [.iy] := by
  refine ⟨_, rfl, rfl, ?_⟩
  exact resolve_indexed_means rfl rfl

end Z80Asm
