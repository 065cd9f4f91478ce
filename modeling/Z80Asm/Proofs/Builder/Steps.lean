import Z80Asm.Proofs.Builder.Grammar
import Z80Asm.Proofs.Success

/-!
# The steps of a builder

What the operators on a builder's stack ask of their operands, compared with how they make each
other combine, and when each token is taken. The proofs about whole runs rest on these facts and
never look into a step.

Levels are compared here once. An operator makes the operators before it combine, or waits; both are
comparisons of numbers in a table, and have to come out as the grammar has it.
-/
set_option autoImplicit false

namespace Z80Asm.Builder

namespace Pending

/-! ## What an operator asks of its operands -/

/-- The level that the right operand of an operator has. A member's name is only looked at when
    the operator is applied, so a sign may stand there until then. -/
def floor : Pending → Int
  | unary _ | member => 11
  | binary op => op.level + 1
  | ternary => 0
  | annotate | comma => -1
  | question | bracket _ => -2

/-- The level that the left operand of an operator has. -/
def leftLevel : Pending → Int
  | binary op => op.level
  | member => 12
  | question => 1
  | annotate => 0
  | _ => -2

/-- The token of an operator that follows an operand. -/
def token? : Pending → Option Token
  | binary op => some (.binary op)
  | member => some .member
  | question => some .question
  | annotate => some .annotate
  | comma => some .comma
  | _ => none

@[simp] theorem precedence_binary (op : BinaryOp) : (binary op).precedence = op.level := by
  cases op <;> rfl

theorem floor_le (p : Pending) : p.floor ≤ 11 := by
  cases p with
  | binary op => have := op.level_range; simp only [floor]; omega
  | _ => simp [floor]

/-- What an operator that comes next makes combine is tight enough to be its left operand. -/
theorem leftLevel_le_of_yieldsTo {top next : Pending} {t : Token} (ht : next.token? = some t)
    (h : top.yieldsTo next = true) : next.leftLevel ≤ top.precedence := by
  simp only [yieldsTo, Bool.or_eq_true, decide_eq_true_eq, Bool.and_eq_true, beq_iff_eq,
    Bool.not_eq_true'] at h
  cases next with
  | binary op => simp only [precedence_binary, leftLevel] at *; omega
  | member => simp only [precedence, leftLevel] at *; omega
  | question => simp only [precedence, leftLevel, rightAssociative] at *; grind
  | annotate => simp only [precedence, leftLevel, rightAssociative] at *; grind
  | comma => simp only [precedence, leftLevel] at *; omega
  | unary _ | ternary | bracket _ => cases ht

theorem floor_le_succ (p : Pending) : p.floor ≤ p.precedence + 1 := by
  cases p with
  | binary op => exact Int.le_of_eq (by rw [precedence_binary, floor])
  | _ => simp [floor, precedence]

/-- What stays open before an operator that comes next can have its result as right operand. -/
theorem floor_le_of_not_yieldsTo {top next : Pending} {t : Token} (ht : next.token? = some t)
    (h : top.yieldsTo next = false) : top.floor ≤ next.precedence := by
  simp only [yieldsTo, Bool.or_eq_false_iff, decide_eq_false_iff_not, Bool.and_eq_false_iff,
    beq_eq_false_iff_ne, Bool.not_eq_false'] at h
  obtain ⟨hle, heq⟩ := h
  have hsucc := top.floor_le_succ
  rcases heq with hne | hright
  · omega
  · -- Only `?` and annotations combine from the right, and no binary operator is as loose.
    cases top with
    | binary op =>
      have := op.level_range
      rw [precedence_binary] at hle
      cases next with
      | question | annotate => simp only [precedence] at hle; omega
      | binary _ | member | comma => simp [rightAssociative] at hright
      | unary _ | ternary | bracket _ => cases ht
    | _ =>
      cases next with
      | question | annotate => simp only [precedence] at hle; simp_all [floor, precedence]
      | binary _ | member | comma => simp [rightAssociative] at hright
      | unary _ | ternary | bracket _ => cases ht

theorem le_precedence {next : Pending} {t : Token} (ht : next.token? = some t) :
    -2 ≤ next.precedence := by
  cases next with
  | binary op => have := op.level_range; rw [precedence_binary]; omega
  | member | question | annotate | comma => decide
  | unary _ | ternary | bracket _ => cases ht

theorem floor_of_isBarrier {p : Pending} (h : p.isBarrier = true) : p.floor = -2 := by
  cases p with
  | question | bracket _ => rfl
  | _ => simp [isBarrier] at h

theorem not_yieldsTo {top next : Pending} {t : Token} (ht : next.token? = some t)
    (hne : top ≠ .member) (hb : top.isBarrier = false) (hle : top.floor ≤ next.precedence) :
    top.yieldsTo next = false := by
  simp only [yieldsTo, Bool.or_eq_false_iff, decide_eq_false_iff_not, Bool.and_eq_false_iff,
    beq_eq_false_iff_ne, Bool.not_eq_false']
  cases top with
  | binary op =>
    rw [floor] at hle
    rw [precedence_binary]
    exact ⟨by omega, .inl (by omega)⟩
  | comma =>
    have hcomma : comma.precedence = -2 := rfl
    rw [floor] at hle
    rw [hcomma]
    exact ⟨by omega, .inl (by omega)⟩
  | unary _ | ternary | annotate =>
    -- Here the operator itself is of the level behind it, and the next one combines from the right.
    rw [floor] at hle
    cases next with
    | binary op =>
      have := op.level_range
      rw [precedence_binary] at hle ⊢
      simp only [precedence]
      exact ⟨by omega, .inl (by omega)⟩
    | member | question | annotate | comma => simp_all [precedence, rightAssociative]
    | unary _ | ternary | bracket _ => cases ht
  | member => exact absurd rfl hne
  | question | bracket _ => simp [isBarrier] at hb

theorem precedence_lt_member {top : Pending} (hne : top ≠ .member) :
    top.precedence < 12 := by
  cases top with
  | binary op => have := op.level_range; rw [precedence_binary]; omega
  | member => exact absurd rfl hne
  | _ => simp [precedence]

/-- An operator that combines from the left makes all that are at least as tight combine. -/
theorem yieldsTo_of_le {top next : Pending} (hle : next.precedence ≤ top.precedence)
    (hleft : next.rightAssociative = false) : top.yieldsTo next = true := by
  simp only [yieldsTo, Bool.or_eq_true, decide_eq_true_eq, Bool.and_eq_true, beq_iff_eq, hleft,
    Bool.not_false, and_true]
  omega

theorem yieldsTo_of_lt {top next : Pending} (hlt : next.precedence < top.precedence) :
    top.yieldsTo next = true := by
  simp [yieldsTo, hlt]

end Pending

/-- The level that an operand has to have which follows the pending operators. -/
def floorOf : List Pending → Int
  | [] => -2
  | top :: _ => top.floor

theorem floorOf_le (pending : List Pending) : floorOf pending ≤ 11 := by
  cases pending with
  | nil => decide
  | cons top _ => exact top.floor_le

theorem floorOf_le_operand (pending : List Pending) : floorOf pending ≤ 12 :=
  Int.le_trans (floorOf_le pending) (by decide)

/-! ## When a token is taken -/

theorem requireOperand_eq_ok {b b' : Builder} {u : Unit} :
    requireOperand b = .ok u b' ↔ b.afterOperand = true ∧ b = b' := by
  cases h : b.afterOperand <;> simp [requireOperand, h]

theorem requireOperator_eq_ok {b b' : Builder} {u : Unit} :
    requireOperator b = .ok u b' ↔ b.afterOperand = false ∧ b = b' := by
  cases h : b.afterOperand <;> simp [requireOperator, h]

theorem reduce_eq_ok {p : Pending → Bool} {b b' : Builder} {u : Unit} :
    reduce p b = .ok u b' ↔ ∃ pending operands,
      reduceWhile p b.pending b.operands = .ok () (pending, operands) ∧
      b' = { b with pending, operands } := by
  unfold reduce
  cases reduceWhile p b.pending b.operands with
  | ok _ rest => obtain ⟨pending, operands⟩ := rest; simp [eq_comm, and_assoc]
  | error cause rest => simp

theorem pushInfix_eq_ok {next : Pending} {b b' : Builder} {u : Unit} :
    pushInfix next b = .ok u b' ↔ b.afterOperand = true ∧ ∃ pending operands,
      reduceWhile (·.yieldsTo next) b.pending b.operands = .ok () (pending, operands) ∧
      b' = ⟨operands, next :: pending, false⟩ := by
  simp only [pushInfix, push, Success.bind_eq_ok, requireOperand_eq_ok, reduce_eq_ok,
    Success.modify_eq_ok]
  constructor
  · rintro ⟨_, _, ⟨hafter, rfl⟩, _, _, ⟨pending, operands, hr, rfl⟩, rfl⟩
    exact ⟨hafter, pending, operands, hr, rfl⟩
  · rintro ⟨hafter, pending, operands, hr, rfl⟩
    exact ⟨(), b, ⟨hafter, rfl⟩, (), _, ⟨pending, operands, hr, rfl⟩, rfl⟩

theorem close_eq_ok {bracket : Bracket} {b b' : Builder} {u : Unit} :
    close bracket b = .ok u b' ↔ b.afterOperand = true ∧ ∃ pending operands,
      reduceWhile (fun _ => true) b.pending b.operands =
        .ok () (.bracket bracket :: pending, operands) ∧
      b' = ⟨operands, pending, true⟩ := by
  simp only [close, Success.bind_eq_ok, Success.get_bind_apply, requireOperand_eq_ok,
    reduce_eq_ok]
  constructor
  · rintro ⟨_, _, ⟨hafter, rfl⟩, _, _, ⟨pending, operands, hr, rfl⟩, hm⟩
    refine ⟨hafter, ?_⟩
    cases pending with
    | nil => simp at hm
    | cons top rest =>
      cases top with
      | bracket opened =>
        by_cases heq : opened = bracket
        · simp only [heq, if_true, Success.modify_eq_ok] at hm
          exact ⟨rest, operands, heq ▸ hr, by rw [← hm, hafter]⟩
        · simp [heq] at hm
      | _ => simp at hm
  · rintro ⟨hafter, pending, operands, hr, rfl⟩
    exact ⟨(), b, ⟨hafter, rfl⟩, (), _, ⟨_, operands, hr, rfl⟩, by simp [hafter]⟩

theorem feed_value_eq_ok {e : Expr} {b b' : Builder} {u : Unit} :
    feed (.value e) b = .ok u b' ↔
      b.afterOperand = false ∧ b' = ⟨e :: b.operands, b.pending, true⟩ := by
  simp only [feed, Success.bind_eq_ok, requireOperator_eq_ok, Success.modify_eq_ok]
  constructor
  · rintro ⟨_, _, ⟨hafter, rfl⟩, rfl⟩
    exact ⟨hafter, rfl⟩
  · rintro ⟨hafter, rfl⟩
    exact ⟨(), b, ⟨hafter, rfl⟩, rfl⟩

theorem requireOperator_push_eq_ok {p : Pending} {b b' : Builder} {u : Unit} :
    (do requireOperator; push p) b = .ok u b' ↔
      b.afterOperand = false ∧ b' = ⟨b.operands, p :: b.pending, false⟩ := by
  simp only [push, Success.bind_eq_ok, requireOperator_eq_ok, Success.modify_eq_ok]
  constructor
  · rintro ⟨_, _, ⟨hafter, rfl⟩, rfl⟩
    exact ⟨hafter, rfl⟩
  · rintro ⟨hafter, rfl⟩
    exact ⟨(), b, ⟨hafter, rfl⟩, rfl⟩

theorem feed_colon_eq_ok {b b' : Builder} {u : Unit} :
    feed .colon b = .ok u b' ↔ b.afterOperand = true ∧ ∃ pending operands,
      reduceWhile (fun _ => true) b.pending b.operands = .ok () (.question :: pending, operands) ∧
      b' = ⟨operands, .ternary :: pending, false⟩ := by
  simp only [feed, Success.bind_eq_ok, Success.get_bind_apply, requireOperand_eq_ok,
    reduce_eq_ok]
  constructor
  · rintro ⟨_, _, ⟨hafter, rfl⟩, _, _, ⟨pending, operands, hr, rfl⟩, hm⟩
    refine ⟨hafter, ?_⟩
    cases pending with
    | nil => simp at hm
    | cons top rest =>
      cases top with
      | question =>
        simp only [Success.modify_eq_ok] at hm
        exact ⟨rest, operands, hr, hm.symm⟩
      | _ => simp at hm
  · rintro ⟨hafter, pending, operands, hr, rfl⟩
    exact ⟨(), b, ⟨hafter, rfl⟩, (), _, ⟨_, operands, hr, rfl⟩, by simp⟩

theorem feed_openIndex_eq_ok {b b' : Builder} {u : Unit} :
    feed .openIndex b = .ok u b' ↔ b.afterOperand = true ∧ ∃ pending operands,
      reduceWhile (fun top => 12 ≤ top.precedence) b.pending b.operands =
        .ok () (pending, operands) ∧
      b' = ⟨operands, .bracket .square :: pending, false⟩ := by
  simp only [feed, push, Success.bind_eq_ok, requireOperand_eq_ok, reduce_eq_ok,
    Success.modify_eq_ok]
  constructor
  · rintro ⟨_, _, ⟨hafter, rfl⟩, _, _, ⟨pending, operands, hr, rfl⟩, rfl⟩
    exact ⟨hafter, pending, operands, hr, rfl⟩
  · rintro ⟨hafter, pending, operands, hr, rfl⟩
    exact ⟨(), b, ⟨hafter, rfl⟩, (), _, ⟨pending, operands, hr, rfl⟩, rfl⟩

theorem popOperand_eq_ok {b b' : Builder} {e : Expr} :
    popOperand b = .ok e b' ↔
      ∃ rest, b.operands = e :: rest ∧ b' = { b with operands := rest } := by
  simp only [popOperand, Success.get_bind_apply]
  cases h : b.operands with
  | nil => simp
  | cons first rest => simp; grind

theorem feed_closeGroup_eq_ok {b b' : Builder} {u : Unit} :
    feed .closeGroup b = .ok u b' ↔ b.afterOperand = true ∧ ∃ pending inner operands,
      reduceWhile (fun _ => true) b.pending b.operands =
        .ok () (.bracket .paren :: pending, inner :: operands) ∧
      b' = ⟨.group inner :: operands, pending, true⟩ := by
  simp only [feed, pushOperand, Success.bind_eq_ok, close_eq_ok, popOperand_eq_ok,
    Success.modify_eq_ok]
  constructor
  · rintro ⟨_, _, ⟨hafter, pending, operands, hr, rfl⟩, inner, _, ⟨rest, rfl, rfl⟩, rfl⟩
    exact ⟨hafter, pending, inner, rest, hr, rfl⟩
  · rintro ⟨hafter, pending, inner, operands, hr, rfl⟩
    exact ⟨(), _, ⟨hafter, pending, _, hr, rfl⟩, inner, _, ⟨operands, rfl, rfl⟩, rfl⟩

theorem feed_closeIndex_eq_ok {b b' : Builder} {u : Unit} :
    feed .closeIndex b = .ok u b' ↔ b.afterOperand = true ∧ ∃ pending position sequence operands,
      reduceWhile (fun _ => true) b.pending b.operands =
        .ok () (.bracket .square :: pending, position :: sequence :: operands) ∧
      b' = ⟨.index sequence position :: operands, pending, true⟩ := by
  simp only [feed, pushOperand, Success.bind_eq_ok, close_eq_ok, popOperand_eq_ok,
    Success.modify_eq_ok]
  constructor
  · rintro ⟨_, _, ⟨hafter, pending, operands, hr, rfl⟩, position, _, ⟨rest, rfl, rfl⟩, sequence, _,
      ⟨rest', rfl, rfl⟩, rfl⟩
    exact ⟨hafter, pending, position, sequence, rest', hr, rfl⟩
  · rintro ⟨hafter, pending, position, sequence, operands, hr, rfl⟩
    exact ⟨(), _, ⟨hafter, pending, _, hr, rfl⟩, position, _, ⟨_, rfl, rfl⟩, sequence, _,
      ⟨operands, rfl, rfl⟩, rfl⟩

theorem finish_eq_some {b : Builder} {e : Expr} :
    b.finish = .ok (some e) ↔ b.afterOperand = true ∧
      reduceWhile (fun _ => true) b.pending b.operands = .ok () ([], [e]) := by
  unfold finish
  by_cases hempty : b.isEmpty = true
  · -- An empty builder has nothing to combine either.
    simp only [isEmpty, Bool.and_eq_true, List.isEmpty_iff] at hempty
    simp [isEmpty, hempty, reduceWhile]
  · cases b.afterOperand with
    | false => simp [hempty]
    | true =>
      cases hr : reduceWhile (fun _ => true) b.pending b.operands with
      | error cause rest => simp [hempty]
      | ok u rest =>
        obtain ⟨pending, operands⟩ := rest
        simp only [hempty]
        cases pending with
        | cons top _ => cases top <;> simp
        | nil =>
          cases operands with
          | nil => simp
          | cons first more => cases more <;> simp

/-! ## Runs -/

/-- Takes tokens one after the other. -/
def feedAll : List Token → Build Unit
  | [] => return ()
  | t :: rest => do
    feed t
    feedAll rest

theorem feedAll_append_eq_ok {ts more : List Token} {b b' : Builder} :
    feedAll (ts ++ more) b = .ok () b' ↔
      ∃ b₁, feedAll ts b = .ok () b₁ ∧ feedAll more b₁ = .ok () b' := by
  induction ts generalizing b with
  | nil => simp [feedAll]
  | cons t ts ih =>
    simp only [List.cons_append, feedAll, Success.bind_eq_ok, ih]
    constructor
    · rintro ⟨u, b₁, ht, b₂, hts, hmore⟩
      exact ⟨b₂, ⟨u, b₁, ht, hts⟩, hmore⟩
    · rintro ⟨b₂, ⟨u, b₁, ht, hts⟩, hmore⟩
      exact ⟨u, b₁, ht, b₂, hts, hmore⟩

theorem feedAll_cons_eq_ok {t : Token} {more : List Token} {b b' : Builder} :
    feedAll (t :: more) b = .ok () b' ↔
      ∃ b₁, feed t b = .ok () b₁ ∧ feedAll more b₁ = .ok () b' := by
  simp only [feedAll, Success.bind_eq_ok]
  constructor
  · rintro ⟨u, b₁, ht, hmore⟩
    exact ⟨b₁, ht, hmore⟩
  · rintro ⟨b₁, ht, hmore⟩
    exact ⟨(), b₁, ht, hmore⟩

end Z80Asm.Builder
