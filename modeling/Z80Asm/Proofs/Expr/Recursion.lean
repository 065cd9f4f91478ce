import Z80Asm.Expr.Eval

/-!
# Definitions that refer to themselves

Every step of an evaluation that starts with the evaluation of something else has one step less for
it. `Task.Needs` lists these: the value of a name, what is in parentheses, the operands of an
operator, the condition and the branch it picks, the object of a member and the member, a position,
the sequence and the element. In a circle of definitions each needs another, so that whatever the
number of steps they are used up, and this is what is reported.

A circle is any set of tasks in which each needs another, so it may branch and need not be found: to
show that one is reported, it is enough to name its members.
-/
set_option autoImplicit false

namespace Z80Asm

/-- The ways to evaluate: to what an expression stands for, or to a number. -/
inductive Task.Kind
  | value
  | number

structure Task where
  kind : Task.Kind
  expr : Expr

namespace Task

variable (s : Scopes)

/-- The steps do not suffice. -/
def GivesUp (steps : Nat) : Task → Prop
  | ⟨.value, e⟩ => resolveAt s s.scopeOf steps e = .error .recursiveReference
  | ⟨.number, e⟩ => integerAt s s.scopeOf steps e = .error .recursiveReference

/-- With any number of steps, if they suffice, there is an outcome of this sort. -/
def ComesTo {α : Type} (x : Nat → Except Cause α) (sort : α → Prop) : Prop :=
  ∀ steps, x steps = .error .recursiveReference ∨ ∃ a, x steps = .ok a ∧ sort a

/-- A member or an element, whose number is that of what it stands for. -/
def IsAccess : Expr → Prop
  | .member _ _ | .index _ _ => True
  | _ => False

/-- One evaluation comes to another before it can have an outcome. -/
inductive Needs : Task → Task → Prop
  | name {name : String} {id : ScopeId} {v : Expr} (kind : Kind) (h : s.symbol id name = .ok v) :
      Needs ⟨kind, .ident name id⟩ ⟨kind, v⟩
  | inner (inner : Expr) : Needs ⟨.number, .group inner⟩ ⟨.number, inner⟩
  | operand (op : UnaryOp) (e : Expr) : Needs ⟨.number, .unary op e⟩ ⟨.number, e⟩
  | left (op : BinaryOp) (l r : Expr) : Needs ⟨.number, .binary op l r⟩ ⟨.number, l⟩
  | right (op : BinaryOp) {l : Expr} (r : Expr)
      (hl : ComesTo (integerAt s s.scopeOf · l) fun _ => True) :
      Needs ⟨.number, .binary op l r⟩ ⟨.number, r⟩
  | base {op : BinaryOp} (hop : op = .add ∨ op = .sub) (l r : Expr) :
      Needs ⟨.value, .binary op l r⟩ ⟨.value, l⟩
  | cond (kind : Kind) (c a b : Expr) : Needs ⟨kind, .ifElse c a b⟩ ⟨.number, c⟩
  | onTrue (kind : Kind) {c : Expr} (a b : Expr)
      (hc : ComesTo (integerAt s s.scopeOf · c) (· ≠ 0)) : Needs ⟨kind, .ifElse c a b⟩ ⟨kind, a⟩
  | onFalse (kind : Kind) {c : Expr} (a b : Expr)
      (hc : ComesTo (integerAt s s.scopeOf · c) (· = 0)) : Needs ⟨kind, .ifElse c a b⟩ ⟨kind, b⟩
  | object (object : Expr) (name : String) : Needs ⟨.value, .member object name⟩ ⟨.value, object⟩
  | member {object : Expr} {name : String} {id : ScopeId} {v : Expr}
      (hobject : ComesTo (resolveAt s s.scopeOf · object) (·.contextScope? = some id))
      (h : s.member id name = .ok v) : Needs ⟨.value, .member object name⟩ ⟨.value, v⟩
  | position (sequence position : Expr) :
      Needs ⟨.value, .index sequence position⟩ ⟨.number, position⟩
  | sequence (sequence : Expr) {position : Expr}
      (hposition : ComesTo (integerAt s s.scopeOf · position) fun _ => True) :
      Needs ⟨.value, .index sequence position⟩ ⟨.value, sequence⟩
  | element {sequence position e : Expr} {k : Int64}
      (hposition : ComesTo (integerAt s s.scopeOf · position) (· = k))
      (hsequence : ComesTo (fun steps => resolveUngrouped s (resolveAt s s.scopeOf steps) sequence)
        (elementAt · k = .ok e)) :
      Needs ⟨.value, .index sequence position⟩ ⟨.value, e⟩
  | access {e : Expr} (he : IsAccess e) : Needs ⟨.number, e⟩ ⟨.value, e⟩
  | accessed {e v : Expr} (he : IsAccess e) (hv : ComesTo (resolveAt s s.scopeOf · e) (· = v)) :
      Needs ⟨.number, e⟩ ⟨.number, v⟩

variable {s}

theorem bind_givesUp {α β : Type} {x : Except Cause α} {f : α → Except Cause β}
    (h : x = .error .recursiveReference) : (x >>= f) = .error .recursiveReference := by
  rw [h]
  rfl

theorem ComesTo.bind_givesUp {α β : Type} {x : Nat → Except Cause α} {sort : α → Prop}
    (hx : ComesTo x sort) {steps : Nat} {f : α → Except Cause β}
    (hf : ∀ a, sort a → f a = .error .recursiveReference) :
    (x steps >>= f) = .error .recursiveReference := by
  rcases hx steps with hx | ⟨a, hx, ha⟩
  · exact Task.bind_givesUp hx
  · rw [hx]
    exact hf a ha

theorem Needs.givesUp {task next : Task} (h : Needs s task next) {steps : Nat}
    (hnext : next.GivesUp s steps) : task.GivesUp s (steps + 1) := by
  cases h with
  | name kind h =>
    cases kind with
    | value =>
      rw [GivesUp, resolveAt, show symbolValue s s.scopeOf _ _ = _ from h]
      exact hnext
    | number =>
      rw [GivesUp, integerAt, show symbolValue s s.scopeOf _ _ = _ from h]
      exact hnext
  | inner inner =>
    rw [GivesUp, integerAt]
    exact hnext
  | operand op e =>
    rw [GivesUp, integerAt]
    exact bind_givesUp hnext
  | left op l r =>
    rw [GivesUp, integerAt]
    exact bind_givesUp hnext
  | right op r hl =>
    rw [GivesUp, integerAt]
    exact hl.bind_givesUp fun _ _ => bind_givesUp hnext
  | base hop l r =>
    rw [GivesUp, resolveAt, if_pos hop]
    exact bind_givesUp hnext
  | cond kind c a b =>
    cases kind with
    | value =>
      rw [GivesUp, resolveAt]
      exact bind_givesUp hnext
    | number =>
      rw [GivesUp, integerAt]
      exact bind_givesUp hnext
  | onTrue kind a b hc =>
    have hpick : ∀ k : Int64, k ≠ 0 → (k != 0) = true := fun k hk => bne_iff_ne.mpr hk
    cases kind with
    | value =>
      rw [GivesUp, resolveAt]
      refine hc.bind_givesUp fun k hk => ?_
      rw [if_pos (hpick k hk)]
      exact hnext
    | number =>
      rw [GivesUp, integerAt]
      refine hc.bind_givesUp fun k hk => ?_
      rw [if_pos (hpick k hk)]
      exact hnext
  | onFalse kind a b hc =>
    have hpick : ∀ k : Int64, k = 0 → ¬ (k != 0) = true := fun k hk => by simp [hk]
    cases kind with
    | value =>
      rw [GivesUp, resolveAt]
      refine hc.bind_givesUp fun k hk => ?_
      rw [if_neg (hpick k hk)]
      exact hnext
    | number =>
      rw [GivesUp, integerAt]
      refine hc.bind_givesUp fun k hk => ?_
      rw [if_neg (hpick k hk)]
      exact hnext
  | object object name =>
    rw [GivesUp, resolveAt]
    exact bind_givesUp hnext
  | member hobject h =>
    rw [GivesUp, resolveAt]
    refine hobject.bind_givesUp fun v hv => ?_
    rw [hv]
    show (memberValue s s.scopeOf _ _ >>= _) = _
    rw [show memberValue s s.scopeOf _ _ = _ from h]
    exact hnext
  | position sequence position =>
    rw [GivesUp, resolveAt]
    exact bind_givesUp hnext
  | sequence sequence hposition =>
    rw [GivesUp, resolveAt]
    exact hposition.bind_givesUp fun _ _ => bind_givesUp (bind_givesUp hnext)
  | element hposition hsequence =>
    rw [GivesUp, resolveAt]
    refine hposition.bind_givesUp fun _ hk => hsequence.bind_givesUp fun target htarget => ?_
    rw [hk, htarget]
    exact hnext
  | @access e he =>
    cases e with
    | member object name =>
      rw [GivesUp, integerAt]
      exact bind_givesUp hnext
    | index sequence position =>
      rw [GivesUp, integerAt]
      exact bind_givesUp hnext
    | _ => cases he
  | @accessed e v he hv =>
    have hnumber : ∀ v', v' = v → integerAt s s.scopeOf steps v' = .error .recursiveReference := by
      rintro _ rfl
      exact hnext
    cases e with
    | member object name =>
      rw [GivesUp, integerAt]
      exact hv.bind_givesUp hnumber
    | index sequence position =>
      rw [GivesUp, integerAt]
      exact hv.bind_givesUp hnumber
    | _ => cases he

/-- **A circle of definitions is reported, whatever the number of steps.** -/
theorem givesUp_of_circle {circle : Task → Prop}
    (h : ∀ task, circle task → ∃ next, Needs s task next ∧ circle next) {task : Task}
    (ht : circle task) (steps : Nat) : task.GivesUp s steps := by
  induction steps generalizing task with
  | zero =>
    obtain ⟨kind, e⟩ := task
    cases kind with
    | value => rw [GivesUp, resolveAt]
    | number => rw [GivesUp, integerAt]
  | succ steps ih =>
    obtain ⟨next, hneeds, hnext⟩ := h task ht
    exact hneeds.givesUp (ih hnext)

end Task

end Z80Asm
