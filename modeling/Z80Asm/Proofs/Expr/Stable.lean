import Z80Asm.Proofs.Expr.Alike
import Z80Asm.Proofs.Scope.Steps
import Z80Asm.Proofs.Success

/-!
# What evaluation keeps

Resolving follows names to values that are bound, takes expressions apart, and makes an index register
with a displacement out of a register and a sum. A property of expressions that is stable under these
(`Expr.Stable`) and true of all values that are bound is true of what an expression stands for if it
is true of the expression (`resolveAt_stable`).

There is no such statement for numbers, since nothing of an expression is left in its number.
-/
set_option autoImplicit false

namespace Z80Asm

open Success

section

variable {s : Scopes} {scopeOf : Expr → Option ScopeId}

/-- What is found is bound somewhere. -/
theorem Scopes.mem_values_of_lookupInside {levels : Nat} {id : ScopeId} {name : String}
    {horizon : Option Nat} {value : Expr}
    (h : s.lookupInside scopeOf levels id name horizon = some value) : value ∈ s.values := by
  induction levels generalizing id name horizon with
  | zero => cases h
  | succ levels ih =>
    rw [lookupInside] at h
    cases hid : s.get? id with
    | none =>
      rw [hid] at h
      cases h
    | some scope =>
      simp only [hid, Option.orElse_eq_orElse, Option.orElse_eq_or, Option.or_eq_some_iff] at h
      rcases h with h | ⟨-, h | ⟨-, h⟩⟩
      · exact mem_values hid h
      · obtain ⟨⟨front, rest⟩, -, h⟩ := List.exists_of_findSome?_eq_some h
        obtain ⟨inner, -, h⟩ := Option.bind_eq_some_iff.mp h
        exact ih h
      · obtain ⟨body, -, h⟩ := Option.bind_eq_some_iff.mp h
        exact ih h

theorem symbolValue_mem {scope : ScopeId} {name : String} {value : Expr}
    (h : symbolValue s scopeOf scope name = .ok value) : value ∈ s.values := by
  unfold symbolValue at h
  split at h
  next hfound =>
    cases h
    obtain ⟨⟨id, horizon⟩, -, hinside⟩ := List.exists_of_findSome?_eq_some hfound
    exact Scopes.mem_values_of_lookupInside hinside
  next => cases h

theorem memberValue_mem {scope : ScopeId} {name : String} {value : Expr}
    (h : memberValue s scopeOf scope name = .ok value) : value ∈ s.values := by
  unfold memberValue at h
  split at h
  next hfound =>
    cases h
    exact Scopes.mem_values_of_lookupInside hfound
  next => cases h

end

/-- A property that expressions share with what they are taken apart into, and with the displacements
    that evaluation makes of them. -/
structure Expr.Stable (P : Expr → Prop) : Prop where
  int : ∀ value, P (.int value)
  chr : ∀ byte, P (.chr byte)
  branches : ∀ {cond onTrue onFalse}, P (.ifElse cond onTrue onFalse) → P onTrue ∧ P onFalse
  sequence : ∀ {sequence position}, P (.index sequence position) → P sequence
  inner : ∀ {e}, P (.group e) → P e
  items : ∀ {items}, P (.seq items) → ∀ e ∈ items, P e
  operands : ∀ {op left right}, P (.binary op left right) → P left ∧ P right
  binary : ∀ {op left right}, P left → P right → P (.binary op left right)
  indexed : ∀ {reg offset}, Cpu.Register.isIndex reg = true → P offset → P (.indexed reg offset)
  shifted : ∀ {op reg offset right}, P (.indexed reg offset) → P right →
    P (.indexed reg (.binary op offset right))

section

variable {P : Expr → Prop} (hP : Expr.Stable P)

include hP

theorem elementAt_stable {target value : Expr} {position : Int64} (htarget : P target)
    (h : elementAt target position = .ok value) : P value := by
  unfold elementAt at h
  split at h
  · cases h
  · dsimp only at h
    split at h
    next found hfound =>
      cases h
      cases target with
      | seq items => exact hP.items htarget value (List.mem_of_getElem? hfound)
      | str bytes =>
        obtain ⟨byte, -, rfl⟩ := Option.map_eq_some_iff.mp hfound
        exact hP.chr byte
      | _ =>
        dsimp only at hfound
        split at hfound <;> cases hfound
        exact htarget
    next => cases h

theorem foldIndex_stable {op : BinaryOp} {left right leftValue e : Expr} {rightValue : Unit → Expr}
    (hleft : P left) (hright : P right) (hleftValue : P leftValue)
    (h : foldIndex op left right leftValue rightValue = some e) : P e := by
  by_cases hreg : ∃ reg, leftValue = .register reg
  · obtain ⟨reg, rfl⟩ := hreg
    rw [foldIndex_register] at h
    split at h
    next hindex =>
      unfold extended at h
      split at h
      · cases h
      · cases h
        exact hP.indexed hindex (hP.binary (hP.int 0) hright)
    next => cases h
  · by_cases hindexed : ∃ reg offset, leftValue = .indexed reg offset
    · obtain ⟨reg, offset, rfl⟩ := hindexed
      have hextended : extended op reg offset right (rightValue ()) = some e := h
      unfold extended at hextended
      split at hextended
      · cases hextended
      · cases hextended
        exact hP.shifted hleftValue hright
    · rw [foldIndex_other (fun reg heq => hreg ⟨reg, heq⟩)
        fun reg offset heq => hindexed ⟨reg, offset, heq⟩] at h
      split at h
      · unfold addedTo at h
        split at h
        · split at h
          next hindex =>
            cases h
            exact hP.indexed hindex hleft
          next => cases h
        · cases h
      · cases h

theorem unwrap_stable {resolve : Expr → Except Cause Expr}
    (hresolve : ∀ e value, P e → resolve e = .ok value → P value) {fuel : Nat}
    {e value : Expr} (he : P e) (h : unwrap resolve fuel e = .ok value) : P value := by
  induction fuel generalizing e with
  | zero =>
    rw [unwrap.eq_def] at h
    split at h
    · cases h
    · cases h
      exact he
  | succ fuel ih =>
    rw [unwrap.eq_def] at h
    split at h
    · obtain ⟨inner, hinner, h⟩ := except_bind_eq_ok.mp h
      exact ih (hresolve _ _ (hP.inner he) hinner) h
    · cases h
      exact he

/-- **What an expression stands for keeps what is stable.** -/
theorem resolveAt_stable {s : Scopes} {scopeOf : Expr → Option ScopeId}
    (hs : ∀ value ∈ s.values, P value) {steps : Nat} {e value : Expr} (he : P e)
    (h : resolveAt s scopeOf steps e = .ok value) : P value := by
  induction steps generalizing e value with
  | zero => cases h
  | succ steps ih =>
    cases e with
    | ident name scope =>
      rw [resolveAt] at h
      obtain ⟨bound, hbound, h⟩ := except_bind_eq_ok.mp h
      exact ih (hs _ (symbolValue_mem hbound)) h
    | member object name =>
      rw [resolveAt] at h
      obtain ⟨context, -, h⟩ := except_bind_eq_ok.mp h
      split at h
      · cases h
      · obtain ⟨bound, hbound, h⟩ := except_bind_eq_ok.mp h
        exact ih (hs _ (memberValue_mem hbound)) h
    | index sequence position =>
      rw [resolveAt] at h
      obtain ⟨place, -, h⟩ := except_bind_eq_ok.mp h
      obtain ⟨target, htarget, h⟩ := except_bind_eq_ok.mp h
      obtain ⟨element, helement, h⟩ := except_bind_eq_ok.mp h
      rw [resolveUngrouped_eq] at htarget
      obtain ⟨grouped, hgrouped, htarget⟩ := except_bind_eq_ok.mp htarget
      have hkept := unwrap_stable hP (fun _ _ => ih) (ih (hP.sequence he) hgrouped) htarget
      exact ih (elementAt_stable hP hkept helement) h
    | ifElse cond onTrue onFalse =>
      rw [resolveAt] at h
      obtain ⟨v, -, h⟩ := except_bind_eq_ok.mp h
      split at h
      · exact ih (hP.branches he).1 h
      · exact ih (hP.branches he).2 h
    | binary op left right =>
      obtain ⟨hleft, hright⟩ := hP.operands he
      rw [resolveAt] at h
      split at h
      · obtain ⟨leftValue, hleftValue, h⟩ := except_bind_eq_ok.mp h
        cases h
        cases hfold : foldIndex op left right leftValue
          (fun _ => (resolveAt s scopeOf steps right).toOption.getD right) with
        | none => exact he
        | some folded => exact foldIndex_stable hP hleft hright (ih hleft hleftValue) hfold
      · cases h
        exact he
    | _ =>
      cases h
      exact he

end

end Z80Asm
