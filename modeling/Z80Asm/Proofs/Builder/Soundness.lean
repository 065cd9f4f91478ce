import Z80Asm.Proofs.Builder.Steps

/-!
# What is built is in the grammar

A builder keeps two stacks, and what they stand for is the invariant here. `Builder.Open` relates
pending operators and their left operands to the tokens read so far; `Builder.Closed` does so when
an operand has just ended. Combining keeps them (`Closed.reduceWhile`), and so does every token
(`Consistent.feed`); at the end one operand is left, and it was written with all the tokens.

Two relations are needed because the stacks mean different things before and behind an operand:
before it, the last operator still lacks one.
-/
set_option autoImplicit false

namespace Z80Asm.Builder

/-! ## What the stacks stand for -/

/-- Pending operators with their left operands, and the tokens that they were read from. An operand
    is missing behind the innermost. Every operator can have what becomes of the next one as its
    right operand. -/
inductive Open (scope : ScopeId) : List Pending → List Expr → List Token → Prop
  | start : Open scope [] [] []
  | sign {pending : List Pending} {operands : List Expr} {ts : List Token} (op : UnaryOp) :
      Open scope pending operands ts → floorOf pending ≤ 11 →
      Open scope (.unary op :: pending) operands (ts ++ [.unary op])
  | operator {pending : List Pending} {operands : List Expr} {ts : List Token} {left : Expr}
      {next : Pending} {t : Token} :
      Open scope pending operands ts → next.token? = some t → floorOf pending ≤ next.precedence →
      left.Derives scope next.leftLevel →
      Open scope (next :: pending) (left :: operands) (ts ++ left.tokens scope ++ [t])
  | colon {pending : List Pending} {operands : List Expr} {ts : List Token} {cond onTrue : Expr} :
      Open scope pending operands ts → floorOf pending ≤ 0 →
      cond.Derives scope 1 → onTrue.Derives scope (-2) →
      Open scope (.ternary :: pending) (onTrue :: cond :: operands)
        (ts ++ cond.tokens scope ++ [.question] ++ onTrue.tokens scope ++ [.colon])
  | paren {pending : List Pending} {operands : List Expr} {ts : List Token} :
      Open scope pending operands ts →
      Open scope (.bracket .paren :: pending) operands (ts ++ [.openGroup])
  | square {pending : List Pending} {operands : List Expr} {ts : List Token} {sequence : Expr} :
      Open scope pending operands ts → sequence.Derives scope 12 →
      Open scope (.bracket .square :: pending) (sequence :: operands)
        (ts ++ sequence.tokens scope ++ [.openIndex])

/-- As `Open`, with an operand of a level behind it. -/
def Closed (scope : ScopeId) (level : Int) (pending : List Pending) (operands : List Expr)
    (ts : List Token) : Prop :=
  ∃ e rest front, operands = e :: rest ∧ Open scope pending rest front ∧
    e.Derives scope level ∧ floorOf pending ≤ level ∧ ts = front ++ e.tokens scope

/-- Applying the innermost operator gives an operand of the operator's own level, which was written
    with the same tokens. -/
theorem Closed.combine {scope : ScopeId} {level : Int} {top : Pending} {pending : List Pending}
    {operands rest : List Expr} {ts : List Token} {e : Expr}
    (h : Closed scope level (top :: pending) operands ts) (hb : top.isBarrier = false)
    (hc : top.combine operands = .ok e rest) :
    Closed scope top.precedence pending (e :: rest) ts := by
  obtain ⟨right, rest', front, rfl, hopen, hright, hfloor, rfl⟩ := h
  replace hright := hright.weaken hfloor
  cases hopen with
  | sign op hopen hle =>
    cases hc
    exact ⟨_, _, _, rfl, hopen, .unary op hright, hle, by simp [Expr.tokens]⟩
  | colon hopen hle hcond honTrue =>
    cases hc
    exact ⟨_, _, _, rfl, hopen, .ifElse hcond honTrue hright, hle, by simp [Expr.tokens]⟩
  | paren _ => simp [Pending.isBarrier] at hb
  | square _ _ => simp [Pending.isBarrier] at hb
  | @operator _ operands ts left _ t hopen ht hle hleft =>
    cases top with
    | binary op =>
      cases hc
      cases ht
      rw [Pending.precedence_binary] at hle ⊢
      exact ⟨_, _, _, rfl, hopen, .binary op hleft hright, hle, by simp [Expr.tokens]⟩
    | member =>
      -- Only a name can follow the dot, and it is written in the scope of the expression.
      cases right with
      | ident name other =>
        cases hc
        cases ht
        cases hright.scope_eq
        exact ⟨_, _, _, rfl, hopen, .member name hleft, hle, by simp [Expr.tokens]⟩
      | _ => cases hc
    | annotate =>
      cases left with
      | ident name other =>
        cases hc
        cases ht
        cases hleft.scope_eq
        exact ⟨_, _, _, rfl, hopen, .annotated name hright, hle, by simp [Expr.tokens]⟩
      | _ => cases hc
    | comma =>
      -- A list on the left takes one more item; anything else becomes the first of two.
      cases left with
      | seq items =>
        cases hc
        cases ht
        obtain ⟨hlen, hall⟩ := hleft.of_seq
        have hne : items ≠ [] := fun h => by simp [h] at hlen
        refine ⟨_, _, _, rfl, hopen, .seq ?_ ?_, hle, by simp [Expr.tokens_seq_append hne]⟩
        · rw [List.length_append]; omega
        · intro e he
          rcases List.mem_append.mp he with he | he
          · exact hall e he
          · rw [List.mem_singleton.mp he]; exact hright
      | _ =>
        cases hc
        cases ht
        have hitem := hleft.item_of_ne_seq (by simp)
        have hlast : right.Derives scope (-1) := hright
        exact ⟨_, _, _, rfl, hopen, .seq (by simp) (by simp [hitem, hlast]), hle,
          by simp [Expr.tokens, laterTokens]⟩
    | question => simp [Pending.isBarrier] at hb
    | unary _ | ternary | bracket _ => cases ht

/-- Combining keeps what the stacks stand for. It ends at the bottom, at a barrier or at an
    operator that it does not concern, and with an operand that is at least as tight as what was
    combined. -/
theorem Closed.reduceWhile {scope : ScopeId} {p : Pending → Bool} {least : Int}
    (hp : ∀ q, q.isBarrier = false → p q = true → least ≤ q.precedence) {ts : List Token} :
    ∀ {pending : List Pending} {operands : List Expr} {level : Int} {pending' : List Pending}
      {operands' : List Expr}, Closed scope level pending operands ts → least ≤ level →
      Builder.reduceWhile p pending operands = .ok () (pending', operands') →
      (∃ level', least ≤ level' ∧ Closed scope level' pending' operands' ts) ∧
        ∀ top, pending'.head? = some top → top.isBarrier = true ∨ p top = false := by
  intro pending
  induction pending with
  | nil =>
    intro operands level pending' operands' h hle hr
    cases hr
    exact ⟨⟨level, hle, h⟩, by simp⟩
  | cons top pending ih =>
    intro operands level pending' operands' h hle hr
    rw [Builder.reduceWhile] at hr
    split at hr
    · rename_i hstop
      cases hr
      refine ⟨⟨level, hle, h⟩, fun q hq => ?_⟩
      cases hq
      simpa using hstop
    · rename_i hgo
      simp only [Bool.or_eq_true, Bool.not_eq_true', not_or, Bool.not_eq_true,
        Bool.not_eq_false] at hgo
      split at hr
      · rename_i e rest hc
        exact ih (h.combine hgo.1 hc) (hp top hgo.1 hgo.2) hr
      · cases hr

/-- Combining everything back to a barrier leaves an expression behind the barrier. -/
theorem Closed.reduceAll {scope : ScopeId} {ts : List Token} {pending pending' : List Pending}
    {operands operands' : List Expr} (h : Closed scope 12 pending operands ts)
    (hr : Builder.reduceWhile (fun _ => true) pending operands = .ok () (pending', operands')) :
    ∃ e rest front, operands' = e :: rest ∧ Open scope pending' rest front ∧
      e.Derives scope (-2) ∧ ts = front ++ e.tokens scope := by
  have hp : ∀ q : Pending, q.isBarrier = false → true = true → -2 ≤ q.precedence := by
    intro q hb _
    cases q with
    | binary op => have := op.level_range; rw [Pending.precedence_binary]; omega
    | bracket _ => simp [Pending.isBarrier] at hb
    | _ => simp [Pending.precedence]
  obtain ⟨⟨level, hle, e, rest, front, heq, hopen, he, _, hts⟩, _⟩ :=
    h.reduceWhile hp (by decide) hr
  exact ⟨e, rest, front, heq, hopen, he.weaken hle, hts⟩

/-- What a builder that has taken tokens looks like. -/
def Consistent (scope : ScopeId) (b : Builder) (ts : List Token) : Prop :=
  if b.afterOperand then Closed scope 12 b.pending b.operands ts
  else Open scope b.pending b.operands ts

/-- Once the innermost operators are combined as far as the next one asks for, it can be put on
    top of them. -/
theorem Consistent.pushInfix {scope : ScopeId} {b b' : Builder} {ts : List Token} {t : Token}
    {next : Pending} (h : Consistent scope b ts) (ht : next.token? = some t)
    (hf : Builder.pushInfix next b = .ok () b') : Consistent scope b' (ts ++ [t]) := by
  obtain ⟨hafter, pending, operands, hr, rfl⟩ := pushInfix_eq_ok.mp hf
  simp only [Consistent, hafter, if_true] at h
  have hleast : next.leftLevel ≤ 12 := by
    cases next with
    | binary op => have := op.level_range; simp only [Pending.leftLevel]; omega
    | _ => simp [Pending.leftLevel]
  obtain ⟨⟨level, hle, e, rest, front, rfl, hopen, he, _, rfl⟩, hstop⟩ :=
    h.reduceWhile (fun q _ hq => Pending.leftLevel_le_of_yieldsTo ht hq) hleast hr
  have hfloor : floorOf pending ≤ next.precedence := by
    cases pending with
    | nil => exact Pending.le_precedence ht
    | cons top pending =>
      rcases hstop top rfl with hb | hy
      · rw [floorOf, Pending.floor_of_isBarrier hb]
        exact Pending.le_precedence ht
      · exact Pending.floor_le_of_not_yieldsTo ht hy
  exact .operator hopen ht hfloor (he.weaken hle)

/-- Every token keeps what the stacks stand for, and is written behind the others. -/
theorem Consistent.feed {scope : ScopeId} {b b' : Builder} {ts : List Token} {t : Token}
    (h : Consistent scope b ts) (ht : t.IsAtomic scope) (hf : Builder.feed t b = .ok () b') :
    Consistent scope b' (ts ++ [t]) := by
  cases t with
  | value e =>
    obtain ⟨hafter, rfl⟩ := feed_value_eq_ok.mp hf
    simp only [Consistent, hafter] at h
    exact ⟨e, _, ts, rfl, h, .atom ht, floorOf_le_operand _, by rw [Expr.IsAtom.tokens_eq ht]⟩
  | unary op =>
    obtain ⟨hafter, rfl⟩ := requireOperator_push_eq_ok.mp hf
    simp only [Consistent, hafter] at h
    exact .sign op h (floorOf_le _)
  | binary op => exact h.pushInfix rfl hf
  | member => exact h.pushInfix rfl hf
  | comma => exact h.pushInfix rfl hf
  | annotate => exact h.pushInfix rfl hf
  | question => exact h.pushInfix rfl hf
  | colon =>
    obtain ⟨hafter, pending, operands, hr, rfl⟩ := feed_colon_eq_ok.mp hf
    simp only [Consistent, hafter, if_true] at h
    obtain ⟨onTrue, rest, front, rfl, hopen, he, rfl⟩ := h.reduceAll hr
    -- The `?` was pushed with its condition, which stays in place.
    cases hopen with
    | operator hopen hq hle hcond =>
      cases hq
      exact .colon hopen hle hcond he
  | openGroup =>
    obtain ⟨hafter, rfl⟩ := requireOperator_push_eq_ok.mp hf
    simp only [Consistent, hafter] at h
    exact .paren h
  | closeGroup =>
    obtain ⟨hafter, pending, inner, operands, hr, rfl⟩ := feed_closeGroup_eq_ok.mp hf
    simp only [Consistent, hafter, if_true] at h
    obtain ⟨e, rest, front, heq, hopen, he, rfl⟩ := h.reduceAll hr
    cases heq
    cases hopen with
    | operator _ hq _ _ => cases hq
    | paren hopen =>
      exact ⟨_, _, _, rfl, hopen, .group he, floorOf_le_operand _, by simp [Expr.tokens]⟩
  | openIndex =>
    obtain ⟨hafter, pending, operands, hr, rfl⟩ := feed_openIndex_eq_ok.mp hf
    simp only [Consistent, hafter, if_true] at h
    obtain ⟨⟨level, hle, e, rest, front, rfl, hopen, he, _, rfl⟩, _⟩ :=
      h.reduceWhile (fun q _ hq => by simpa using hq) (Int.le_refl 12) hr
    exact .square hopen (he.weaken hle)
  | closeIndex =>
    obtain ⟨hafter, pending, position, sequence, operands, hr, rfl⟩ := feed_closeIndex_eq_ok.mp hf
    simp only [Consistent, hafter, if_true] at h
    obtain ⟨e, rest, front, heq, hopen, he, rfl⟩ := h.reduceAll hr
    cases heq
    cases hopen with
    | operator _ hq _ _ => cases hq
    | square hopen hseq =>
      exact ⟨_, _, _, rfl, hopen, .index hseq he, floorOf_le_operand _, by simp [Expr.tokens]⟩

theorem Consistent.feedAll {scope : ScopeId} :
    ∀ {more ts : List Token} {b b' : Builder}, Consistent scope b ts →
      (∀ t ∈ more, t.IsAtomic scope) → Builder.feedAll more b = .ok () b' →
      Consistent scope b' (ts ++ more) := by
  intro more
  induction more with
  | nil =>
    intro ts b b' h _ hf
    simp only [Builder.feedAll, Success.pure_eq_ok] at hf
    simpa [← hf.2] using h
  | cons t more ih =>
    intro ts b b' h hatoms hf
    rw [Builder.feedAll, Success.bind_eq_ok] at hf
    obtain ⟨_, b₁, hfeed, hmore⟩ := hf
    have := ih (h.feed (hatoms t (by simp)) hfeed) (fun u hu => hatoms u (by simp [hu])) hmore
    simpa using this

/-- **Soundness**: what a builder gives is a tree of the grammar, written with the tokens. -/
theorem derives_of_builds {scope : ScopeId} {ts : List Token} {b : Builder} {e : Expr}
    (hatoms : ∀ t ∈ ts, t.IsAtomic scope) (hf : feedAll ts {} = .ok () b)
    (he : b.finish = .ok (some e)) : e.Derives scope (-2) ∧ ts = e.tokens scope := by
  have hstart : Consistent scope {} [] := Open.start
  have h := hstart.feedAll hatoms hf
  obtain ⟨hafter, hr⟩ := finish_eq_some.mp he
  simp only [Consistent, hafter, if_true, List.nil_append] at h
  obtain ⟨e', rest, front, heq, hopen, hd, hts⟩ := h.reduceAll hr
  cases heq
  cases hopen
  exact ⟨hd, by simpa using hts⟩

end Z80Asm.Builder
