import Z80Asm.Proofs.Builder.Steps
import Z80Asm.Proofs.Failure

/-!
# Operands never run out

A pending operator holds the operands in front of it until its last one comes. The operands of a
builder are those that its operators hold, and one more if an operand has just ended (`Balanced`).
Every token that is taken keeps this, so combining always finds its operands: it fails only where a
name is asked for and something else stands (`Misnamed`), and what is left at the end is one
operand.

This holds of all tokens, whether or not they are written by the grammar: a text may hold anything,
and what is taken of it must not make the builder fail for a reason of its own.
-/
set_option autoImplicit false

namespace Z80Asm.Builder

open Success

namespace Pending

/-- The number of operands that an operator holds until its last one comes. -/
def held : Pending → Nat
  | unary _ | bracket .paren => 0
  | binary _ | member | question | annotate | comma | bracket .square => 1
  | ternary => 2

/-- The operator needs a name where something else stands. -/
inductive Misnames : Pending → List Expr → Cause → Prop
  | member {right object : Expr} {rest : List Expr} :
      (∀ name scope, right ≠ .ident name scope) →
      Misnames member (right :: object :: rest) .memberNotName
  | annotate {e left : Expr} {rest : List Expr} :
      (∀ name scope, left ≠ .ident name scope) →
      Misnames annotate (e :: left :: rest) .annotationNotName

/-- An operator that has its operands is applied to them, unless one of them should be a name. -/
theorem combine_of_length {top : Pending} {operands : List Expr} {n : Nat}
    (hb : top.isBarrier = false) (hlen : operands.length = n + top.held + 1) :
    (∃ e rest, top.combine operands = .ok e rest ∧ rest.length = n) ∨
      ∃ cause rest, top.combine operands = .error cause rest ∧ top.Misnames operands cause := by
  obtain ⟨last, others, rfl⟩ := List.exists_cons_of_length_eq_add_one hlen
  have hothers : others.length = n + top.held := Nat.succ.inj hlen
  cases top with
  | unary op => exact .inl ⟨_, others, rfl, hothers⟩
  | ternary =>
    obtain ⟨onTrue, others, rfl⟩ := List.exists_cons_of_length_eq_add_one hothers
    obtain ⟨cond, rest, rfl⟩ := List.exists_cons_of_length_eq_add_one (Nat.succ.inj hothers)
    exact .inl ⟨_, rest, rfl, Nat.succ.inj (Nat.succ.inj hothers)⟩
  | binary op =>
    obtain ⟨left, rest, rfl⟩ := List.exists_cons_of_length_eq_add_one hothers
    exact .inl ⟨_, rest, rfl, Nat.succ.inj hothers⟩
  | member =>
    obtain ⟨object, rest, rfl⟩ := List.exists_cons_of_length_eq_add_one hothers
    cases last with
    | ident name scope => exact .inl ⟨_, rest, rfl, Nat.succ.inj hothers⟩
    | _ => exact .inr ⟨_, rest, rfl, .member (by simp)⟩
  | annotate =>
    obtain ⟨left, rest, rfl⟩ := List.exists_cons_of_length_eq_add_one hothers
    cases left with
    | ident name scope => exact .inl ⟨_, rest, rfl, Nat.succ.inj hothers⟩
    | _ => exact .inr ⟨_, rest, rfl, .annotate (by simp)⟩
  | comma =>
    obtain ⟨left, rest, rfl⟩ := List.exists_cons_of_length_eq_add_one hothers
    cases left with
    | seq items => exact .inl ⟨_, rest, rfl, Nat.succ.inj hothers⟩
    | _ => exact .inl ⟨_, rest, rfl, Nat.succ.inj hothers⟩
  | question | bracket _ => cases hb

end Pending

/-- The number of operands that pending operators hold. -/
def heldBy (pending : List Pending) : Nat :=
  pending.foldr (fun top count => count + top.held) 0

/-- Combining comes to an operator that needs a name where something else stands. -/
def Misnamed (p : Pending → Bool) (pending : List Pending) (operands : List Expr) (cause : Cause) :
    Prop :=
  ∃ done top later rest, pending = done ++ top :: later ∧
    reduceWhile p done operands = .ok () ([], rest) ∧ top.Misnames rest cause

/-! ## Combining -/

section

variable {p : Pending → Bool} {top : Pending} {pending pending' : List Pending}
  {operands operands' rest : List Expr} {e : Expr} {cause : Cause}

theorem reduceWhile_cons_of_stop (h : top.isBarrier = true ∨ p top = false) :
    reduceWhile p (top :: pending) operands = .ok () (top :: pending, operands) := by
  rw [reduceWhile, if_pos (by simpa using h)]

theorem reduceWhile_cons_of_ok (hb : top.isBarrier = false) (hp : p top = true)
    (hc : top.combine operands = .ok e rest) :
    reduceWhile p (top :: pending) operands = reduceWhile p pending (e :: rest) := by
  rw [reduceWhile, if_neg (by simp [hb, hp]), hc]

theorem reduceWhile_cons_of_error (hb : top.isBarrier = false) (hp : p top = true)
    (hc : top.combine operands = .error cause rest) :
    reduceWhile p (top :: pending) operands = .error cause (pending, rest) := by
  rw [reduceWhile, if_neg (by simp [hb, hp]), hc]

theorem Misnamed.cons (hb : top.isBarrier = false) (hp : p top = true)
    (hc : top.combine operands = .ok e rest) (h : Misnamed p pending (e :: rest) cause) :
    Misnamed p (top :: pending) operands cause := by
  obtain ⟨done, other, later, left, rfl, hdone, hother⟩ := h
  exact ⟨top :: done, other, later, left, rfl, (reduceWhile_cons_of_ok hb hp hc).trans hdone, hother⟩

theorem Misnamed.cause_eq (h : Misnamed p pending operands cause) :
    cause = .memberNotName ∨ cause = .annotationNotName := by
  obtain ⟨_, _, _, _, -, -, hother⟩ := h
  cases hother with
  | member _ => exact .inl rfl
  | annotate _ => exact .inr rfl

/-- Combining ends, and then as many operands are left as the operators left hold and one more, and all
    barriers are still there; or it comes to an operator that needs a name. -/
theorem reduceWhile_of_length (p : Pending → Bool) (hlen : operands.length = heldBy pending + 1) :
    (∃ pending' operands', reduceWhile p pending operands = .ok () (pending', operands') ∧
        operands'.length = heldBy pending' + 1 ∧
        pending'.any Pending.isBarrier = pending.any Pending.isBarrier ∧
        ∀ top, pending'.head? = some top → top.isBarrier = true ∨ p top = false) ∨
      ∃ cause stop, reduceWhile p pending operands = .error cause stop ∧
        Misnamed p pending operands cause := by
  induction pending generalizing operands with
  | nil => exact .inl ⟨[], operands, rfl, hlen, rfl, fun _ h => by cases h⟩
  | cons top pending ih =>
    by_cases hstop : top.isBarrier = true ∨ p top = false
    · refine .inl ⟨_, _, reduceWhile_cons_of_stop hstop, hlen, rfl, ?_⟩
      rintro _ ⟨⟩
      exact hstop
    · obtain ⟨hb, hp⟩ : top.isBarrier = false ∧ p top = true := by simpa using hstop
      rcases Pending.combine_of_length hb hlen with ⟨e, rest, hc, hrest⟩ | ⟨cause, rest, hc, hmis⟩
      · have hnext : (e :: rest).length = heldBy pending + 1 := congrArg (· + 1) hrest
        rw [reduceWhile_cons_of_ok hb hp hc]
        rcases ih hnext with ⟨pending', operands', hr, hlen', hany, hhead⟩ | ⟨cause, stop, hr, hmis⟩
        · refine .inl ⟨pending', operands', hr, hlen', ?_, hhead⟩
          rw [hany, List.any_cons, hb, Bool.false_or]
        · exact .inr ⟨cause, stop, hr, hmis.cons hb hp hc⟩
      · exact .inr ⟨cause, _, reduceWhile_cons_of_error hb hp hc, [], top, pending, operands, rfl, rfl,
          hmis⟩

end

/-- The operands are those that the operators hold, and one more if an operand has just ended. -/
def Balanced (b : Builder) : Prop :=
  b.operands.length = heldBy b.pending + if b.afterOperand then 1 else 0

/-! ## What tokens keep -/

section

variable {b b' : Builder} {p : Pending → Bool} {pending : List Pending} {operands : List Expr}

theorem Balanced.length_eq (h : Balanced b) (hafter : b.afterOperand = true) :
    b.operands.length = heldBy b.pending + 1 := by
  rw [h, hafter]
  rfl

theorem Balanced.length_of_reduceWhile (h : Balanced b) (hafter : b.afterOperand = true)
    (hr : reduceWhile p b.pending b.operands = .ok () (pending, operands)) :
    operands.length = heldBy pending + 1 := by
  rcases reduceWhile_of_length p (h.length_eq hafter) with ⟨_, _, hok, hlen, -⟩ | ⟨_, _, herror, -⟩
  · rw [hok] at hr
    cases hr
    exact hlen
  · rw [herror] at hr
    cases hr

/-- An operator that follows an operand holds it. -/
theorem Balanced.pushInfix {next : Pending} (h : Balanced b) (hheld : next.held = 1)
    (hf : Builder.pushInfix next b = .ok () b') : Balanced b' := by
  obtain ⟨hafter, pending, operands, hr, rfl⟩ := pushInfix_eq_ok.mp hf
  have hlen := h.length_of_reduceWhile hafter hr
  show operands.length = heldBy pending + next.held + 0
  rw [hlen, hheld]

/-- A token that is taken keeps the balance. -/
theorem Balanced.feed {t : Token} (h : Balanced b) (hf : Builder.feed t b = .ok () b') :
    Balanced b' := by
  cases t with
  | value e =>
    obtain ⟨hafter, rfl⟩ := feed_value_eq_ok.mp hf
    have hlen : b.operands.length = heldBy b.pending + 0 := by rw [h, hafter]; rfl
    exact congrArg (· + 1) hlen
  | unary op =>
    obtain ⟨hafter, rfl⟩ := requireOperator_push_eq_ok.mp hf
    exact h.trans (by rw [hafter]; rfl)
  | openGroup =>
    obtain ⟨hafter, rfl⟩ := requireOperator_push_eq_ok.mp hf
    exact h.trans (by rw [hafter]; rfl)
  | binary op => exact h.pushInfix rfl hf
  | member => exact h.pushInfix rfl hf
  | comma => exact h.pushInfix rfl hf
  | annotate => exact h.pushInfix rfl hf
  | question => exact h.pushInfix rfl hf
  | colon =>
    -- The operand between `?` and `:` is held as well from now on.
    obtain ⟨hafter, pending, operands, hr, rfl⟩ := feed_colon_eq_ok.mp hf
    exact h.length_of_reduceWhile hafter hr
  | openIndex =>
    obtain ⟨hafter, pending, operands, hr, rfl⟩ := feed_openIndex_eq_ok.mp hf
    exact h.length_of_reduceWhile hafter hr
  | closeGroup =>
    obtain ⟨hafter, pending, inner, operands, hr, rfl⟩ := feed_closeGroup_eq_ok.mp hf
    have hlen := h.length_of_reduceWhile hafter hr
    exact hlen
  | closeIndex =>
    obtain ⟨hafter, pending, position, sequence, operands, hr, rfl⟩ := feed_closeIndex_eq_ok.mp hf
    exact Nat.succ.inj (h.length_of_reduceWhile hafter hr)

theorem Balanced.feedAll {ts : List Token} (h : Balanced b)
    (hf : Builder.feedAll ts b = .ok () b') : Balanced b' := by
  induction ts generalizing b with
  | nil =>
    obtain ⟨-, rfl⟩ := pure_eq_ok.mp hf
    exact h
  | cons t rest ih =>
    obtain ⟨b₁, ht, hrest⟩ := feedAll_cons_eq_ok.mp hf
    exact ih (h.feed ht) hrest

end

/-! ## What can go wrong -/

/-- A fault that a call may have: brackets are never found out of balance, and if an operand is missing
    then the call came where one was expected, and did nothing. -/
def Clean (b : Builder) (cause : Cause) (b' : Builder) : Prop :=
  cause ≠ .unbalancedBrackets ∧ (cause = .missingOperand → b.afterOperand = false ∧ b = b')

section

variable {b b' : Builder} {p : Pending → Bool} {cause : Cause}

theorem requireOperand_eq_error :
    requireOperand b = .error cause b' ↔
      b.afterOperand = false ∧ .missingOperand = cause ∧ b = b' := by
  cases h : b.afterOperand <;> simp [requireOperand, h, throw_eq_error, pure_eq_error]

theorem requireOperator_eq_error :
    requireOperator b = .error cause b' ↔
      b.afterOperand = true ∧ .operatorExpected = cause ∧ b = b' := by
  cases h : b.afterOperand <;> simp [requireOperator, h, throw_eq_error, pure_eq_error]

theorem reduce_eq_error :
    reduce p b = .error cause b' ↔ ∃ pending operands,
      reduceWhile p b.pending b.operands = .error cause (pending, operands) ∧
      b' = { b with pending, operands } := by
  unfold reduce
  cases reduceWhile p b.pending b.operands with
  | ok _ rest => simp
  | error other rest => obtain ⟨pending, operands⟩ := rest; simp [eq_comm, and_assoc]

theorem Balanced.misnamed_of_reduceWhile {stop : List Pending × List Expr} (h : Balanced b)
    (hafter : b.afterOperand = true)
    (hr : reduceWhile p b.pending b.operands = .error cause stop) :
    Misnamed p b.pending b.operands cause := by
  rcases reduceWhile_of_length p (h.length_eq hafter) with ⟨_, _, hok, -⟩ | ⟨_, _, herror, hmis⟩
  · rw [hok] at hr
    cases hr
  · rw [herror] at hr
    cases hr
    exact hmis

/-- A token that begins an operand fails only behind another operand. -/
theorem clean_of_requireOperator {k : Build Unit}
    (hf : (do requireOperator; k) b = .error cause b') (hk : k b ≠ .error cause b') :
    Clean b cause b' := by
  rcases bind_eq_error.mp hf with hf | ⟨_, _, hok, hf⟩
  · obtain ⟨-, rfl, -⟩ := requireOperator_eq_error.mp hf
    exact ⟨by simp, by simp⟩
  · obtain ⟨-, rfl⟩ := requireOperator_eq_ok.mp hok
    exact absurd hf hk

/-- A token that follows an operand first combines what stands before it. It fails where an operand is
    expected, where a name is asked for, or in what it does then. -/
theorem Balanced.clean_of_reduce {k : Build Unit} (h : Balanced b)
    (hf : (do requireOperand; reduce p; k) b = .error cause b')
    (hk : ∀ pending operands, k { b with pending, operands } = .error cause b' →
      cause ≠ .unbalancedBrackets ∧ cause ≠ .missingOperand) : Clean b cause b' := by
  rcases bind_eq_error.mp hf with hf | ⟨_, _, hok, hf⟩
  · obtain ⟨hafter, rfl, rfl⟩ := requireOperand_eq_error.mp hf
    exact ⟨by simp, fun _ => ⟨hafter, rfl⟩⟩
  obtain ⟨hafter, rfl⟩ := requireOperand_eq_ok.mp hok
  rcases bind_eq_error.mp hf with hf | ⟨_, _, hok, hf⟩
  · obtain ⟨pending, operands, hr, -⟩ := reduce_eq_error.mp hf
    rcases (h.misnamed_of_reduceWhile hafter hr).cause_eq with rfl | rfl
    · exact ⟨by simp, by simp⟩
    · exact ⟨by simp, by simp⟩
  · obtain ⟨pending, operands, -, rfl⟩ := reduce_eq_ok.mp hok
    obtain ⟨hbrackets, hmissing⟩ := hk pending operands hf
    exact ⟨hbrackets, fun heq => absurd heq hmissing⟩

theorem Balanced.clean_of_pushInfix {next : Pending} (h : Balanced b)
    (hf : Builder.pushInfix next b = .error cause b') : Clean b cause b' := by
  refine h.clean_of_reduce hf fun pending operands hpush => ?_
  cases hpush

theorem Balanced.clean_of_close {bracket : Bracket} (h : Balanced b)
    (hf : close bracket b = .error cause b') : Clean b cause b' := by
  refine h.clean_of_reduce hf fun pending operands hk => ?_
  rw [get_bind_apply] at hk
  cases pending with
  | nil => cases hk; exact ⟨by simp, by simp⟩
  | cons top rest =>
    cases top with
    | bracket opened =>
      dsimp only at hk
      split at hk
      · cases hk
      · cases hk; exact ⟨by simp, by simp⟩
    | _ => cases hk; exact ⟨by simp, by simp⟩

theorem popOperand_eq_error :
    popOperand b = .error cause b' ↔ b.operands = [] ∧ .missingOperand = cause ∧ b = b' := by
  simp only [popOperand, get_bind_apply]
  cases h : b.operands with
  | nil => simp [throw_eq_error]
  | cons first rest => simp [pure_eq_error]

/-- A token fails for lack of an operand only where one is expected, and never over the balance of
    brackets. -/
theorem Balanced.clean_of_feed {t : Token} (h : Balanced b)
    (hf : Builder.feed t b = .error cause b') : Clean b cause b' := by
  cases t with
  | value e => exact clean_of_requireOperator hf (by intro hk; cases hk)
  | unary op => exact clean_of_requireOperator hf (by intro hk; cases hk)
  | openGroup => exact clean_of_requireOperator hf (by intro hk; cases hk)
  | binary op => exact h.clean_of_pushInfix hf
  | member => exact h.clean_of_pushInfix hf
  | comma => exact h.clean_of_pushInfix hf
  | annotate => exact h.clean_of_pushInfix hf
  | question => exact h.clean_of_pushInfix hf
  | colon =>
    refine h.clean_of_reduce hf fun pending operands hk => ?_
    rw [get_bind_apply] at hk
    cases pending with
    | nil => cases hk; exact ⟨by simp, by simp⟩
    | cons top rest =>
      cases top with
      | question => cases hk
      | _ => cases hk; exact ⟨by simp, by simp⟩
  | openIndex =>
    refine h.clean_of_reduce hf fun pending operands hpush => ?_
    cases hpush
  | closeGroup =>
    rcases bind_eq_error.mp hf with hf | ⟨_, _, hok, hf⟩
    · exact h.clean_of_close hf
    -- Behind the bracket an operand is left.
    obtain ⟨hafter, pending, operands, hr, rfl⟩ := close_eq_ok.mp hok
    have hlen := h.length_of_reduceWhile hafter hr
    rcases bind_eq_error.mp hf with hf | ⟨_, _, _, hf⟩
    · obtain ⟨rfl, -⟩ := popOperand_eq_error.mp hf
      cases hlen
    · cases hf
  | closeIndex =>
    rcases bind_eq_error.mp hf with hf | ⟨_, _, hok, hf⟩
    · exact h.clean_of_close hf
    -- The bracket holds the sequence, so two operands are left.
    obtain ⟨hafter, pending, operands, hr, rfl⟩ := close_eq_ok.mp hok
    have hlen : operands.length = heldBy pending + 1 + 1 := h.length_of_reduceWhile hafter hr
    rcases bind_eq_error.mp hf with hf | ⟨_, _, hpop, hf⟩
    · obtain ⟨rfl, -⟩ := popOperand_eq_error.mp hf
      cases hlen
    · obtain ⟨rest, rfl, rfl⟩ := popOperand_eq_ok.mp hpop
      rcases bind_eq_error.mp hf with hf | ⟨_, _, _, hf⟩
      · obtain ⟨rfl, -⟩ := popOperand_eq_error.mp hf
        cases hlen
      · cases hf

end

/-! ## The end of an expression -/

section

variable {b : Builder}

theorem finish_of_isEmpty (h : b.isEmpty = true) : b.finish = .ok none := by
  rw [finish, if_pos h]

theorem finish_of_expectsValue (hne : b.isEmpty = false) (hafter : b.afterOperand = false) :
    b.finish = .error .missingOperand := by
  rw [finish, hne, hafter]
  rfl

/-- Where an expression may end, it does so with one operand, or there is an operator that needs a
    name, or a bracket or a `?` is open. -/
theorem Balanced.finish_cases (h : Balanced b) (hne : b.isEmpty = false)
    (hafter : b.afterOperand = true) :
    (b.pending.any Pending.isBarrier = false ∧ ∃ e, b.finish = .ok (some e)) ∨
      (∃ cause, b.finish = .error cause ∧
        Misnamed (fun _ => true) b.pending b.operands cause) ∨
      b.pending.any Pending.isBarrier = true ∧
        ((∃ bracket, b.finish = .error (.missingClose bracket)) ∨
          b.finish = .error .questionWithoutColon) := by
  rcases reduceWhile_of_length (fun _ => true) (h.length_eq hafter) with
    ⟨pending, operands, hr, hlen, hany, hhead⟩ | ⟨cause, stop, hr, hmis⟩
  · cases pending with
    | nil =>
      obtain ⟨e, rfl⟩ := List.length_eq_one_iff.mp hlen
      exact .inl ⟨hany.symm, e, finish_eq_some.mpr ⟨hafter, hr⟩⟩
    | cons top rest =>
      refine .inr (.inr ?_)
      have hb : top.isBarrier = true := (hhead top rfl).resolve_right (by simp)
      refine ⟨by rw [← hany, List.any_cons, hb, Bool.true_or], ?_⟩
      rw [finish, hne, hafter, hr]
      cases top with
      | bracket bracket => exact .inl ⟨bracket, rfl⟩
      | question => exact .inr rfl
      | _ => cases hb
  · refine .inr (.inl ⟨cause, ?_, hmis⟩)
    rw [finish, hne, hafter, hr]
    rfl

theorem Balanced.finish_fault (h : Balanced b) {cause : Cause} (hf : b.finish = .error cause) :
    cause ≠ .unbalancedBrackets ∧ cause ≠ .operatorExpected ∧
      (cause = .missingOperand → b.afterOperand = false) := by
  cases hempty : b.isEmpty with
  | true =>
    rw [finish_of_isEmpty hempty] at hf
    cases hf
  | false =>
    cases hafter : b.afterOperand with
    | false =>
      rw [finish_of_expectsValue hempty hafter] at hf
      cases hf
      exact ⟨by simp, by simp, fun _ => rfl⟩
    | true =>
      rcases h.finish_cases hempty hafter with
        ⟨-, e, hsome⟩ | ⟨other, hother, hmis⟩ | ⟨-, ⟨bracket, hclose⟩ | hquestion⟩
      · rw [hsome] at hf
        cases hf
      · rw [hother] at hf
        cases hf
        rcases hmis.cause_eq with rfl | rfl <;> simp
      · rw [hclose] at hf
        cases hf
        simp
      · rw [hquestion] at hf
        cases hf
        simp

/-- Where an operand is expected, or a bracket or a `?` is open, an expression does not end. -/
theorem Balanced.finish_of_isIncomplete (h : Balanced b) (hinc : b.isIncomplete = true) :
    ∃ cause, b.finish = .error cause := by
  obtain ⟨hempty, hopen⟩ : b.isEmpty = false ∧
      (b.afterOperand = false ∨ b.pending.any Pending.isBarrier = true) := by
    simpa [isIncomplete] using hinc
  cases hafter : b.afterOperand with
  | false => exact ⟨_, finish_of_expectsValue hempty hafter⟩
  | true =>
    have hbarrier := hopen.resolve_left (by simp [hafter])
    rcases h.finish_cases hempty hafter with
      ⟨hnone, -⟩ | ⟨cause, hf, -⟩ | ⟨-, ⟨bracket, hf⟩ | hf⟩
    · rw [hnone] at hbarrier
      cases hbarrier
    · exact ⟨cause, hf⟩
    · exact ⟨_, hf⟩
    · exact ⟨_, hf⟩

theorem Balanced.finish_of_isComplete (h : Balanced b) (hempty : b.isEmpty = false)
    (hinc : b.isIncomplete = false) :
    (∃ e, b.finish = .ok (some e)) ∨
      ∃ cause, b.finish = .error cause ∧
        Misnamed (fun _ => true) b.pending b.operands cause := by
  obtain ⟨hafter, hnone⟩ : b.afterOperand = true ∧ b.pending.any Pending.isBarrier = false := by
    simpa [isIncomplete, hempty] using hinc
  rcases h.finish_cases hempty hafter with ⟨-, hf⟩ | hmis | ⟨hbarrier, -⟩
  · exact .inl hf
  · exact .inr hmis
  · rw [hnone] at hbarrier
    cases hbarrier

theorem Balanced.finish_eq_none_iff (h : Balanced b) : b.finish = .ok none ↔ b.isEmpty = true := by
  refine ⟨fun hf => ?_, finish_of_isEmpty⟩
  cases hempty : b.isEmpty with
  | true => rfl
  | false =>
    -- What is not empty fails to end, or ends with an expression.
    cases hinc : b.isIncomplete with
    | true =>
      obtain ⟨cause, herror⟩ := h.finish_of_isIncomplete hinc
      rw [herror] at hf
      cases hf
    | false =>
      rcases h.finish_of_isComplete hempty hinc with ⟨e, hsome⟩ | ⟨cause, herror, -⟩
      · rw [hsome] at hf
        cases hf
      · rw [herror] at hf
        cases hf

end

/-- What a builder can be relied on for. Failures are told apart by what is missing, for a failure
    that could have several reasons could also be an operand that was lost. -/
structure Disciplined (b : Builder) : Prop where
  /-- Combining finds its operands. -/
  combine : b.afterOperand = true → ∀ p cause stop,
    reduceWhile p b.pending b.operands = .error cause stop →
      Misnamed p b.pending b.operands cause
  feed : ∀ t cause b', feed t b = .error cause b' → Clean b cause b'
  finish : ∀ cause, b.finish = .error cause → cause ≠ .unbalancedBrackets ∧
    cause ≠ .operatorExpected ∧ (cause = .missingOperand → b.afterOperand = false)
  finish_empty : b.finish = .ok none ↔ b.isEmpty = true
  finish_incomplete : b.isIncomplete = true → ∃ cause, b.finish = .error cause
  /-- An expression that can end does so, unless something stands where a name is asked for. -/
  finish_complete : b.isEmpty = false → b.isIncomplete = false →
    (∃ e, b.finish = .ok (some e)) ∨
      ∃ cause, b.finish = .error cause ∧ Misnamed (fun _ => true) b.pending b.operands cause

/-- **Operands never run out.** Once any tokens were taken, combining always finds its operands, so
    that a token or the end lacks one only where one is expected, and what is left at the end is one
    operand. An expression ends exactly where nothing is open, and then it fails only for want of a
    name. -/
theorem feedAll_disciplined {ts : List Token} {b : Builder} (h : feedAll ts {} = .ok () b) :
    b.Disciplined := by
  have hstart : Balanced {} := rfl
  have hb : Balanced b := hstart.feedAll h
  exact
    { combine := fun hafter _ _ _ => hb.misnamed_of_reduceWhile hafter
      feed := fun _ _ _ => hb.clean_of_feed
      finish := fun _ => hb.finish_fault
      finish_empty := hb.finish_eq_none_iff
      finish_incomplete := hb.finish_of_isIncomplete
      finish_complete := hb.finish_of_isComplete }

/-- `1 ? (2, -3.4` with both barriers open: combining what is inside fails at the `4` after the dot. -/
theorem feedAll_disciplined_barriers :
    feedAll [.value (.int 1), .question, .openGroup, .value (.int 2), .comma, .unary .minus,
        .value (.int 3), .member, .value (.int 4)] {} =
      .ok () ⟨[.int 4, .int 3, .int 2, .int 1],
        [.member, .unary .minus, .comma, .bracket .paren, .question], true⟩ ∧
    Disciplined ⟨[.int 4, .int 3, .int 2, .int 1],
        [.member, .unary .minus, .comma, .bracket .paren, .question], true⟩ := by
  have hrun : feedAll [.value (.int 1), .question, .openGroup, .value (.int 2), .comma,
        .unary .minus, .value (.int 3), .member, .value (.int 4)] {} =
      .ok () ⟨[.int 4, .int 3, .int 2, .int 1],
        [.member, .unary .minus, .comma, .bracket .paren, .question], true⟩ := rfl
  exact ⟨hrun, feedAll_disciplined hrun⟩

end Z80Asm.Builder
