import Z80Asm.Proofs.Cpu.Addressing
import Z80Asm.Proofs.Expr.Stable

/-!
# Operands with a displacement

Evaluation makes an index register with a displacement out of `IX` and `IY` only. So where all
expressions that have one already have it with these, which is true of what is read from a text,
a displacement in a classified operand belongs to one of them as well (`Operand.classify_proper`).

The type of operands allows a displacement at any register. Instead of another type with a proof
inside, the expressions are restricted, since operands are made of these and of nothing else.
-/
set_option autoImplicit false

namespace Z80Asm

open Success

namespace Expr

mutual

/-- Only index registers have a displacement. -/
def Proper : Expr → Prop
  | unary _ operand => operand.Proper
  | binary _ left right => left.Proper ∧ right.Proper
  | ifElse cond onTrue onFalse => cond.Proper ∧ onTrue.Proper ∧ onFalse.Proper
  | seq items => ProperItems items
  | member object _ => object.Proper
  | index sequence position => sequence.Proper ∧ position.Proper
  | group inner => inner.Proper
  | annotated _ inner => inner.Proper
  | indexed base offset => base.isIndex = true ∧ offset.Proper
  | int _ | str _ | chr _ | ident _ _ | register _ | condition _ | context _ | space _ _
  | operation _ => True

def ProperItems : List Expr → Prop
  | [] => True
  | e :: rest => e.Proper ∧ ProperItems rest

end

theorem ProperItems.of_mem {items : List Expr} (h : ProperItems items) :
    ∀ e ∈ items, e.Proper := by
  induction items with
  | nil =>
    intro e he
    cases he
  | cons first rest ih =>
    rw [ProperItems] at h
    intro e he
    cases he with
    | head => exact h.1
    | tail _ he => exact ih h.2 e he

end Expr

/-- All values that are bound are proper. -/
def Scopes.Proper (s : Scopes) : Prop :=
  ∀ value ∈ s.values, value.Proper

theorem Expr.stable_proper : Expr.Stable Expr.Proper where
  int _ := trivial
  chr _ := trivial
  branches h := by
    rw [Expr.Proper] at h
    exact h.2
  sequence h := by
    rw [Expr.Proper] at h
    exact h.1
  inner h := by
    rw [Expr.Proper] at h
    exact h
  items h := by
    rw [Expr.Proper] at h
    exact h.of_mem
  operands h := by
    rw [Expr.Proper] at h
    exact h
  binary hleft hright := by
    rw [Expr.Proper]
    exact ⟨hleft, hright⟩
  indexed hreg hoffset := by
    rw [Expr.Proper]
    exact ⟨hreg, hoffset⟩
  shifted h hright := by
    rw [Expr.Proper] at h
    rw [Expr.Proper, Expr.Proper]
    exact ⟨h.1, h.2, hright⟩

theorem resolveAt_proper {s : Scopes} {scopeOf : Expr → Option ScopeId} (hs : s.Proper) {steps : Nat}
    {e value : Expr} (he : e.Proper) (h : resolveAt s scopeOf steps e = .ok value) : value.Proper :=
  resolveAt_stable Expr.stable_proper hs he h

namespace Cpu

theorem Operand.ofGroup_proper {inner value : Expr} (h : value.Proper) :
    (Operand.ofGroup inner value).Proper := by
  unfold Operand.ofGroup
  split
  · split
    next hindex => exact hindex
    next => split <;> trivial
  · rw [Expr.Proper] at h
    exact h.1
  · trivial

/-- **A displacement in a classified operand belongs to an index register.** -/
theorem Operand.classify_proper {s : Scopes} {e : Expr} (hs : s.Proper) (he : e.Proper) :
    (Operand.classify s e).Proper := by
  have hself {e : Expr} (he : e.Proper) : (e.resolveOrSelf s).Proper := by
    unfold Expr.resolveOrSelf
    cases hresolve : e.resolve s with
    | ok value => exact resolveAt_proper hs he hresolve
    | error cause => exact he
  unfold Operand.classify
  split
  · trivial
  · trivial
  next inner hinner =>
    have hproper := hself he
    rw [hinner, Expr.Proper] at hproper
    exact Operand.ofGroup_proper (hself hproper)
  · trivial

end Cpu

end Z80Asm
