import Z80Asm.Proofs.Builder.Soundness

/-!
# What is in the grammar is built

When the last token of a tree has been read, the right edge of the tree is still open: its
operators wait on the stack although their operands are complete (`Builder.Edge`). Whatever comes
next makes the edge combine into the tree (`Edge.reduceWhile`) and stops at the operators before it
(`Awaits.reduceWhile`). With that, the tokens of a tree are followed along its derivation.

Together with soundness this is `Builder.builds_iff_derives`.

The tree is the one thing that is known of the tokens, so the induction is on its derivation and not
on the tokens; the operators in front of it are arbitrary, as long as they wait for what the tree
is.
-/
set_option autoImplicit false

namespace Z80Asm.Builder

/-! ## The open edge of a tree -/

/-- The right edge of a tree whose tokens have all been read: the operators that still wait
    although their last operand is complete, innermost first, and their operands. -/
inductive Edge : Expr → List Pending → List Expr → Prop
  | whole (e : Expr) : Edge e [] [e]
  | step {e e' : Expr} {pending : List Pending} {operands args : List Expr} {top : Pending} :
      Edge e pending operands → top.isBarrier = false →
      (∀ rest, top.combine (e :: (args ++ rest)) = .ok e' rest) →
      Edge e' (pending ++ [top]) (operands ++ args)

/-- What makes the whole edge combine makes it the tree. -/
theorem Edge.reduceWhile {p : Pending → Bool} {e : Expr} {edge : List Pending}
    {parts : List Expr} (h : Edge e edge parts) :
    ∀ (pending : List Pending) (operands : List Expr), (∀ q ∈ edge, p q = true) →
      Builder.reduceWhile p (edge ++ pending) (parts ++ operands) =
        Builder.reduceWhile p pending (e :: operands) := by
  induction h with
  | whole e => intro pending operands _; rfl
  | @step e e' edge parts args top _ hb hc ih =>
    intro pending operands hp
    have hedge : ∀ q ∈ edge, p q = true := fun q hq => hp q (by simp [hq])
    have htop : p top = true := hp top (by simp)
    rw [List.append_assoc, List.append_assoc, ih _ _ hedge, List.singleton_append,
      Builder.reduceWhile, hb, htop, hc operands]
    rfl

/-- Pending operators behind which a tree of a level can stand. A name is all that can stand
    behind a member's dot, so that case is left out. -/
def Awaits (level : Int) (pending : List Pending) : Prop :=
  ∀ top, pending.head? = some top → top ≠ .member ∧ top.floor ≤ level

theorem Awaits.tighter {level tighter : Int} {pending : List Pending} (h : Awaits level pending)
    (hle : level ≤ tighter) : Awaits tighter pending :=
  fun top htop => ⟨(h top htop).1, Int.le_trans (h top htop).2 hle⟩

/-- Operators behind which a tree can stand do not combine before the tree's own operator. -/
theorem Awaits.reduceWhile {level : Int} {pending : List Pending} (h : Awaits level pending)
    {p : Pending → Bool}
    (hp : ∀ top : Pending, top ≠ .member → top.floor ≤ level → top.isBarrier = false →
      p top = false) (operands : List Expr) :
    Builder.reduceWhile p pending operands = .ok () (pending, operands) := by
  cases pending with
  | nil => rfl
  | cons top pending =>
    obtain ⟨hne, hle⟩ := h top rfl
    rw [Builder.reduceWhile]
    cases hb : top.isBarrier with
    | true => rfl
    | false => rw [hp top hne hle hb]; rfl

/-- A tree of a level leaves its edge open, with operators that are at least as tight. -/
def Reads (scope : ScopeId) (level : Int) (e : Expr) : Prop :=
  ∀ (pending : List Pending) (operands : List Expr), Awaits level pending →
    ∃ edge parts, Edge e edge parts ∧ (∀ q ∈ edge, level ≤ q.precedence) ∧
      feedAll (e.tokens scope) ⟨operands, pending, false⟩ =
        .ok () ⟨parts ++ operands, edge ++ pending, true⟩

/-- An operator behind a tree combines the tree, and no more than the tree. -/
theorem pushInfix_behind {level : Int} {e : Expr} {edge pending : List Pending}
    {parts operands : List Expr} {next : Pending} {t : Token} (hedge : Edge e edge parts)
    (ht : next.token? = some t) (htight : ∀ q ∈ edge, q.yieldsTo next = true)
    (hawait : Awaits level pending) (hle : level ≤ next.precedence) :
    pushInfix next ⟨parts ++ operands, edge ++ pending, true⟩ =
      .ok () ⟨e :: operands, next :: pending, false⟩ := by
  refine pushInfix_eq_ok.mpr ⟨rfl, pending, e :: operands, ?_, rfl⟩
  rw [hedge.reduceWhile _ _ htight]
  exact hawait.reduceWhile (fun top hne hfloor hb =>
    Pending.not_yieldsTo ht hne hb (Int.le_trans hfloor hle)) _

/-- Everything behind a barrier combines into the tree that was read there. -/
theorem reduceAll_behind {e : Expr} {edge pending : List Pending} {parts : List Expr}
    {barrier : Pending} (hedge : Edge e edge parts) (hb : barrier.isBarrier = true)
    (operands : List Expr) :
    reduceWhile (fun _ => true) (edge ++ barrier :: pending) (parts ++ operands) =
      .ok () (barrier :: pending, e :: operands) := by
  rw [hedge.reduceWhile _ _ (fun _ _ => rfl), reduceWhile, hb]
  rfl

/-- The last operand of an operator, behind the operator and the operands before it. -/
theorem Reads.last {scope : ScopeId} {right : Int} {e e' : Expr} (level : Int) (top : Pending)
    (args : List Expr) (h : Reads scope right e) (hawait : top ≠ .member ∧ top.floor ≤ right)
    (hb : top.isBarrier = false) (hc : ∀ rest, top.combine (e :: (args ++ rest)) = .ok e' rest)
    (hown : level ≤ top.precedence) (hright : level ≤ right) (pending : List Pending)
    (operands : List Expr) :
    ∃ edge parts, Edge e' edge parts ∧ (∀ q ∈ edge, level ≤ q.precedence) ∧
      feedAll (e.tokens scope) ⟨args ++ operands, top :: pending, false⟩ =
        .ok () ⟨parts ++ operands, edge ++ pending, true⟩ := by
  obtain ⟨edge, parts, hedge, htight, hf⟩ := h (top :: pending) (args ++ operands)
    (by rintro _ ⟨⟩; exact hawait)
  refine ⟨edge ++ [top], parts ++ args, .step hedge hb hc, ?_, by simpa using hf⟩
  intro q hq
  rcases List.mem_append.mp hq with hq | hq
  · exact Int.le_trans hright (htight q hq)
  · rw [List.mem_singleton.mp hq]; exact hown

/-- Items that have been joined by commas so far. -/
def joined : List Expr → Expr
  | [e] => e
  | items => .seq items

theorem combine_comma_joined {front : List Expr} (hne : front ≠ [])
    (hflat : ∀ e ∈ front, ∀ items, e ≠ .seq items) (e : Expr) (rest : List Expr) :
    Pending.comma.combine (e :: ([joined front] ++ rest)) = .ok (joined (front ++ [e])) rest := by
  match front, hne with
  | [first], _ =>
    have hfirst := hflat first (by simp)
    cases first with
    | seq items => exact absurd rfl (hfirst items)
    | _ => rfl
  | _ :: _ :: _, _ => rfl

/-- The items of a comma list behind the first. The list so far is the left operand of each
    comma. -/
theorem Reads.later {scope : ScopeId} {pending : List Pending} (operands : List Expr)
    (hawait : Awaits (-2) pending) :
    ∀ {rest front : List Expr} {edge : List Pending} {parts : List Expr},
      (∀ e ∈ rest, Reads scope (-1) e) → front ≠ [] →
      (∀ e ∈ front ++ rest, ∀ items, e ≠ .seq items) →
      Edge (joined front) edge parts → (∀ q ∈ edge, -2 ≤ q.precedence) →
      ∃ edge' parts', Edge (joined (front ++ rest)) edge' parts' ∧
        (∀ q ∈ edge', -2 ≤ q.precedence) ∧
        feedAll (laterTokens scope rest) ⟨parts ++ operands, edge ++ pending, true⟩ =
          .ok () ⟨parts' ++ operands, edge' ++ pending, true⟩ := by
  intro rest
  induction rest with
  | nil =>
    intro front edge parts _ _ _ hedge htight
    exact ⟨edge, parts, by simpa using hedge, htight, rfl⟩
  | cons e rest ih =>
    intro front edge parts hreads hne hflat hedge htight
    have hfront : ∀ e ∈ front, ∀ items, e ≠ .seq items := fun e he => hflat e (by simp [he])
    obtain ⟨edge₁, parts₁, hedge₁, htight₁, hf₁⟩ :=
      Reads.last (-2) .comma [joined front] (hreads e (by simp))
        ⟨by simp, by simp [Pending.floor]⟩ rfl (combine_comma_joined hne hfront e)
        (Int.le_refl _) (by decide) pending operands
    obtain ⟨edge₂, parts₂, hedge₂, htight₂, hf₂⟩ :=
      ih (fun e he => hreads e (by simp [he])) (by simp) (by simpa using hflat) hedge₁ htight₁
    refine ⟨edge₂, parts₂, by simpa using hedge₂, htight₂, ?_⟩
    rw [laterTokens, feedAll_cons_eq_ok]
    refine ⟨_, pushInfix_behind hedge rfl (fun q hq => ?_) hawait (Int.le_refl _), ?_⟩
    · exact Pending.yieldsTo_of_le (htight q hq) rfl
    · rw [feedAll_append_eq_ok]
      exact ⟨_, hf₁, hf₂⟩

/-! ### The productions

Each lemma feeds the tokens of one production to a builder in which a tree of its level can stand. -/

namespace Reads

variable {scope : ScopeId}

theorem atom {e : Expr} (ha : e.IsAtom scope) : Reads scope 12 e := by
  intro pending operands _
  refine ⟨[], [_], .whole _, by simp, ?_⟩
  rw [ha.tokens_eq, feedAll_cons_eq_ok]
  exact ⟨_, feed_value_eq_ok.mpr ⟨rfl, rfl⟩, rfl⟩

theorem group {inner : Expr} (h : Reads scope (-2) inner) : Reads scope 12 (.group inner) := by
  intro pending operands _
  obtain ⟨edge, parts, hedge, _, hf⟩ := h (.bracket .paren :: pending) operands
    (by rintro top ⟨⟩; simp [Pending.floor])
  refine ⟨[], [_], .whole _, by simp, ?_⟩
  rw [Expr.tokens, feedAll_cons_eq_ok]
  refine ⟨_, requireOperator_push_eq_ok.mpr ⟨rfl, rfl⟩, ?_⟩
  rw [feedAll_append_eq_ok]
  refine ⟨_, hf, ?_⟩
  rw [feedAll_cons_eq_ok]
  exact ⟨_, feed_closeGroup_eq_ok.mpr ⟨rfl, pending, inner, operands,
    reduceAll_behind hedge rfl operands, rfl⟩, rfl⟩

theorem member {object : Expr} (name : String) (h : Reads scope 12 object) :
    Reads scope 12 (.member object name) := by
  intro pending operands hawait
  obtain ⟨edge, parts, hedge, htight, hf⟩ := h pending operands hawait
  have hname : Edge (.member object name) ([] ++ [.member]) ([.ident name scope] ++ [object]) :=
    .step (.whole _) rfl (fun _ => rfl)
  refine ⟨_, _, hname, by simp [Pending.precedence], ?_⟩
  rw [Expr.tokens, feedAll_append_eq_ok]
  refine ⟨_, hf, ?_⟩
  rw [feedAll_cons_eq_ok]
  refine ⟨_, pushInfix_behind hedge rfl (fun q hq => ?_) hawait (Int.le_refl _), ?_⟩
  · exact Pending.yieldsTo_of_le (htight q hq) rfl
  · rw [feedAll_cons_eq_ok]
    exact ⟨_, feed_value_eq_ok.mpr ⟨rfl, rfl⟩, rfl⟩

theorem index {sequence position : Expr} (hs : Reads scope 12 sequence)
    (hp : Reads scope (-2) position) : Reads scope 12 (.index sequence position) := by
  intro pending operands hawait
  obtain ⟨edge, parts, hedge, htight, hf⟩ := hs pending operands hawait
  obtain ⟨edge', parts', hedge', _, hf'⟩ := hp (.bracket .square :: pending)
    (sequence :: operands) (by rintro top ⟨⟩; simp [Pending.floor])
  refine ⟨[], [_], .whole _, by simp, ?_⟩
  rw [Expr.tokens, feedAll_append_eq_ok]
  refine ⟨_, hf, ?_⟩
  rw [feedAll_cons_eq_ok]
  refine ⟨_, feed_openIndex_eq_ok.mpr ⟨rfl, pending, sequence :: operands, ?_, rfl⟩, ?_⟩
  · -- The bracket is no operator: it combines what is as tight as a member's dot.
    rw [hedge.reduceWhile _ _ (fun q hq => by simpa using htight q hq)]
    exact hawait.reduceWhile (fun top hne _ _ => by
      have := Pending.precedence_lt_member hne
      simpa using this) _
  · rw [feedAll_append_eq_ok]
    refine ⟨_, hf', ?_⟩
    rw [feedAll_cons_eq_ok]
    exact ⟨_, feed_closeIndex_eq_ok.mpr ⟨rfl, pending, position, sequence, operands,
      reduceAll_behind hedge' rfl _, rfl⟩, rfl⟩

theorem unary {operand : Expr} (op : UnaryOp) (h : Reads scope 11 operand) :
    Reads scope 11 (.unary op operand) := by
  intro pending operands _
  obtain ⟨edge, parts, hedge, htight, hf⟩ := h.last 11 (.unary op) []
    ⟨by simp, by simp [Pending.floor]⟩ rfl (fun _ => rfl) (Int.le_refl _) (Int.le_refl _)
    pending operands
  refine ⟨edge, parts, hedge, htight, ?_⟩
  rw [Expr.tokens, feedAll_cons_eq_ok]
  exact ⟨_, requireOperator_push_eq_ok.mpr ⟨rfl, rfl⟩, hf⟩

theorem binary {left right : Expr} (op : BinaryOp) (hl : Reads scope op.level left)
    (hr : Reads scope (op.level + 1) right) : Reads scope op.level (.binary op left right) := by
  intro pending operands hawait
  obtain ⟨edge, parts, hedge, htight, hf⟩ := hl pending operands hawait
  obtain ⟨edge', parts', hedge', htight', hf'⟩ := hr.last op.level (.binary op) [left]
    ⟨by simp, Int.le_refl _⟩ rfl (fun _ => rfl)
    (Int.le_of_eq (Pending.precedence_binary op).symm) (by omega) pending operands
  refine ⟨edge', parts', hedge', htight', ?_⟩
  rw [Expr.tokens, feedAll_append_eq_ok]
  refine ⟨_, hf, ?_⟩
  rw [feedAll_cons_eq_ok]
  refine ⟨_, pushInfix_behind hedge rfl (fun q hq => ?_) hawait ?_, hf'⟩
  · exact Pending.yieldsTo_of_le (by rw [Pending.precedence_binary]; exact htight q hq) rfl
  · exact Int.le_of_eq (Pending.precedence_binary op).symm

theorem ifElse {cond onTrue onFalse : Expr} (hc : Reads scope 1 cond)
    (ht : Reads scope (-2) onTrue) (hf : Reads scope 0 onFalse) :
    Reads scope 0 (.ifElse cond onTrue onFalse) := by
  intro pending operands hawait
  obtain ⟨edge, parts, hedge, htight, hcond⟩ := hc pending operands (hawait.tighter (by decide))
  obtain ⟨edge₁, parts₁, hedge₁, _, htrue⟩ := ht (.question :: pending) (cond :: operands)
    (by rintro top ⟨⟩; simp [Pending.floor])
  obtain ⟨edge₂, parts₂, hedge₂, htight₂, hfalse⟩ := hf.last 0 .ternary [onTrue, cond]
    ⟨by simp, Int.le_refl _⟩ rfl (fun _ => rfl) (Int.le_refl _) (Int.le_refl _) pending operands
  refine ⟨edge₂, parts₂, hedge₂, htight₂, ?_⟩
  rw [Expr.tokens, feedAll_append_eq_ok]
  refine ⟨_, hcond, ?_⟩
  rw [feedAll_cons_eq_ok]
  refine ⟨_, pushInfix_behind hedge rfl (fun q hq => ?_) hawait (Int.le_refl _), ?_⟩
  · -- The question mark combines from the right, so only strictly tighter operators yield to it.
    exact Pending.yieldsTo_of_lt (Int.lt_of_lt_of_le (by decide) (htight q hq))
  · rw [feedAll_append_eq_ok]
    refine ⟨_, htrue, ?_⟩
    rw [feedAll_cons_eq_ok]
    exact ⟨_, feed_colon_eq_ok.mpr ⟨rfl, pending, onTrue :: cond :: operands,
      reduceAll_behind hedge₁ rfl _, rfl⟩, hfalse⟩

theorem annotated {inner : Expr} (word : String) (h : Reads scope (-1) inner) :
    Reads scope (-1) (.annotated word inner) := by
  intro pending operands hawait
  obtain ⟨edge, parts, hedge, htight, hf⟩ := h.last (-1) .annotate [.ident word scope]
    ⟨by simp, Int.le_refl _⟩ rfl (fun _ => rfl) (Int.le_refl _) (Int.le_refl _) pending operands
  refine ⟨edge, parts, hedge, htight, ?_⟩
  rw [Expr.tokens, feedAll_cons_eq_ok]
  refine ⟨_, feed_value_eq_ok.mpr ⟨rfl, rfl⟩, ?_⟩
  rw [feedAll_cons_eq_ok]
  exact ⟨_, pushInfix_behind (.whole _) rfl (by simp) hawait (Int.le_refl _), hf⟩

theorem seq {first second : Expr} {rest : List Expr}
    (hflat : ∀ e ∈ first :: second :: rest, ∀ items, e ≠ .seq items)
    (h : ∀ e ∈ first :: second :: rest, Reads scope (-1) e) :
    Reads scope (-2) (.seq (first :: second :: rest)) := by
  intro pending operands hawait
  obtain ⟨edge, parts, hedge, htight, hf⟩ := h first List.mem_cons_self pending operands
    (hawait.tighter (by decide))
  obtain ⟨edge', parts', hedge', htight', hf'⟩ := Reads.later operands hawait
    (fun e he => h e (List.mem_cons_of_mem _ he)) (List.cons_ne_nil first []) hflat hedge
    (fun q hq => Int.le_trans (by decide) (htight q hq))
  refine ⟨edge', parts', hedge', htight', ?_⟩
  rw [Expr.tokens, feedAll_append_eq_ok]
  exact ⟨_, hf, hf'⟩

theorem looser {level : Int} {e : Expr} (h : Reads scope (level + 1) e) : Reads scope level e := by
  intro pending operands hawait
  obtain ⟨edge, parts, hedge, htight, hf⟩ := h pending operands (hawait.tighter (by omega))
  exact ⟨edge, parts, hedge, fun q hq => by have := htight q hq; omega, hf⟩

/-- **Completeness**: every tree of the grammar is read from its tokens. -/
theorem of_derives {level : Int} {e : Expr} (h : e.Derives scope level) :
    Reads scope level e := by
  induction h with
  | atom ha => exact atom ha
  | group _ ih => exact group ih
  | member name _ ih => exact member name ih
  | index _ _ ihs ihp => exact index ihs ihp
  | unary op _ ih => exact unary op ih
  | binary op _ _ ihl ihr => exact binary op ihl ihr
  | ifElse _ _ _ ihc iht ihf => exact ifElse ihc iht ihf
  | annotated word _ ih => exact annotated word ih
  | @seq items hlen hitems ih =>
    have hflat : ∀ e ∈ items, ∀ inner, e ≠ .seq inner := by
      rintro e he inner rfl
      have := (hitems _ he).level_of_seq
      omega
    match items, hlen with
    | _ :: _ :: _, _ => exact seq hflat ih
  | looser _ ih => exact looser ih

end Reads

/-- A tree of the grammar is built from its tokens. -/
theorem builds_of_derives {scope : ScopeId} {e : Expr} (h : e.Derives scope (-2)) :
    ∃ b, feedAll (e.tokens scope) {} = .ok () b ∧ b.finish = .ok (some e) := by
  obtain ⟨edge, parts, hedge, _, hf⟩ := Reads.of_derives h [] [] (by rintro _ ⟨⟩)
  refine ⟨_, hf, finish_eq_some.mpr ⟨rfl, ?_⟩⟩
  rw [hedge.reduceWhile [] [] (fun _ _ => rfl)]
  rfl

/-- **Building accepts exactly the grammar.** Tokens whose values are atoms of one scope are all
    taken and give `e` if and only if `e` is a comma list, or what can stand for one, and the tokens
    are the way to write it. In particular no two trees are written alike. -/
theorem builds_iff_derives (scope : ScopeId) (ts : List Token) (e : Expr) :
    ((∀ t ∈ ts, t.IsAtomic scope) ∧
        ∃ b, feedAll ts {} = .ok () b ∧ b.finish = .ok (some e)) ↔
      e.Derives scope (-2) ∧ ts = e.tokens scope := by
  constructor
  · rintro ⟨hatoms, b, hf, he⟩
    exact derives_of_builds hatoms hf he
  · rintro ⟨hd, rfl⟩
    exact ⟨hd.isAtomic_tokens, builds_of_derives hd⟩

end Z80Asm.Builder
