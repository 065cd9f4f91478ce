import Mathlib.Data.Fintype.Pigeonhole
import Mathlib.Data.Set.Finite.List
import Mathlib.Logic.Relation
import Z80Asm.Proofs.Expr.Parts

/-!
# Evaluation without bounds

The steps of an evaluation are counted, but not all that it does are steps of its own: to find out
whether a bound name denotes a scope, and to open parentheses, it starts another evaluation, which
may start further ones. Here these are the questions of an inquiry, and `answers` are those found
when evaluations nest at most so deep. An evaluation `Ends` if it does so at some depth.

If it does not, it gets stuck at a question, whose own inquiry gets stuck at a question, and so on.
Only finitely many questions come up (`Query.Concerns.mem_queries`), so some question waits for
itself: an evaluation ends or is `Circular`, and never both.

That only finitely many questions come up is what makes this a case distinction. Without it an
evaluation could go on for ever with ever new questions, and no circle would be there to report.
-/
set_option autoImplicit false

namespace Z80Asm

/-- What evaluation starts another evaluation for. -/
inductive Query
  /-- The scope that a name denotes. -/
  | scope (name : String) (id : ScopeId)
  /-- What is in parentheses, with some steps left. -/
  | opened (steps : Nat) (inner : Expr)

abbrev Query.Reply : Query → Type
  | scope _ _ => Option ScopeId
  | opened _ _ => Option Expr

abbrev Asking := Inquiry Query.Reply

namespace Asking

def scopeOf : Expr → Asking ScopeId
  | .ident name id => OptionT.mk (.ask (.scope name id) .done)
  | e => e.contextScope?.getM

def opened (steps : Nat) (inner : Expr) : Asking Expr :=
  OptionT.mk (.ask (.opened steps inner) .done)

mutual

def resolveAt (s : Scopes) : Nat → Expr → Asking Expr
  | 0, _ => failure
  | steps + 1, e =>
    resolveBy s scopeOf (numberAt s steps) (resolveAt s steps) (fun _ => opened steps) e

def numberAt (s : Scopes) : Nat → Expr → Asking Int64
  | 0, _ => failure
  | steps + 1, e => numberBy s scopeOf (numberAt s steps) (resolveAt s steps) e

end

/-- What is found out for a question. -/
def inquiry (s : Scopes) : (q : Query) → Dialogue Query.Reply q.Reply
  | .scope name id =>
    (do (← resolveAt s (maxDepth + 1) (.ident name id)).contextScope?.getM : Asking ScopeId).run
  | .opened steps inner =>
    (do
      match ← resolveAt s steps inner with
      | .group next => opened steps next
      | value => pure value : Asking Expr).run

/-- The answers that are found with evaluations nested less than `depth` deep. -/
def answers (s : Scopes) : Nat → (q : Query) → Option q.Reply
  | 0, _ => none
  | depth + 1, q => ((inquiry s q).settle (answers s depth)).toOption

end Asking

open Asking

section
variable {α β : Type} {s : Scopes}

/-- An evaluation comes to an end: there is a depth at which all questions that come up are answered,
    and with more depth the outcome is the same. -/
def Ends (s : Scopes) (x : Dialogue Query.Reply α) (r : α) : Prop :=
  ∃ depth, x.settle (answers s depth) = .ok r

/-- However deep evaluations may nest, this question stays open. -/
def StuckAt (s : Scopes) (x : Dialogue Query.Reply α) (q : Query) : Prop :=
  ∃ depth, ∀ more, depth ≤ more → x.settle (answers s more) = .error q

/-- To answer a question, another has to be answered, which stays open. -/
def Waits (s : Scopes) (q p : Query) : Prop :=
  StuckAt s (inquiry s q) p

/-- An evaluation gets to a question that waits for itself. This is a chain of questions that can be
    shown, and not the absence of an outcome. -/
def Circular (s : Scopes) (x : Dialogue Query.Reply α) : Prop :=
  ∃ q p, StuckAt s x q ∧ Relation.ReflTransGen (Waits s) q p ∧ Relation.TransGen (Waits s) p p

end

/-! ## Answers -/

namespace Asking
variable {s : Scopes}

theorem answers_succ {depth : Nat} {q : Query} {r : q.Reply} (h : answers s depth q = some r) :
    answers s (depth + 1) q = some r := by
  induction depth generalizing q with
  | zero => cases h
  | succ depth ih =>
    have hsettle := eq_ok_of_toOption h
    rw [answers, Dialogue.settle_mono (fun p r hp => ih hp) hsettle]
    rfl

theorem answers_mono {depth more : Nat} (hle : depth ≤ more) {q : Query} {r : q.Reply}
    (h : answers s depth q = some r) : answers s more q = some r := by
  induction hle with
  | refl => exact h
  | step _ ih => exact answers_succ ih

/-- A depth from which on no question of a list is answered that was not before. -/
theorem exists_stable (qs : List Query) :
    ∃ depth, ∀ more, depth ≤ more → ∀ q ∈ qs, answers s more q = answers s depth q := by
  induction qs with
  | nil => exact ⟨0, fun _ _ q hq => nomatch hq⟩
  | cons q rest ih =>
    obtain ⟨depth, hrest⟩ := ih
    have hone : ∃ depth, ∀ more, depth ≤ more → answers s more q = answers s depth q := by
      by_cases hopen : ∀ depth, answers s depth q = none
      · exact ⟨0, fun more _ => (hopen more).trans (hopen 0).symm⟩
      · obtain ⟨depth, hdepth⟩ := not_forall.mp hopen
        obtain ⟨r, hr⟩ := Option.ne_none_iff_exists'.mp hdepth
        exact ⟨depth, fun more hle => (answers_mono hle hr).trans hr.symm⟩
    obtain ⟨depth', hone⟩ := hone
    refine ⟨max depth depth', fun more hle p hp => ?_⟩
    have hle := Nat.max_le.mp hle
    cases hp with
    | head =>
      rw [hone more hle.2, hone _ (Nat.le_max_right _ _)]
    | tail _ hp =>
      rw [hrest more hle.1 p hp, hrest _ (Nat.le_max_left _ _) p hp]

end Asking

/-- In a finite set where everything leads on, one comes back to where one was. -/
theorem exists_cycle {α : Type} {R : α → α → Prop} {P : α → Prop} {as : List α}
    (hP : ∀ a, P a → a ∈ as ∧ ∃ b, R a b ∧ P b) {a : α} (ha : P a) :
    ∃ b, Relation.ReflTransGen R a b ∧ Relation.TransGen R b b := by
  have hnext : ∀ x : {x // P x}, ∃ y : {x // P x}, R x y := by
    intro x
    obtain ⟨b, hb, hPb⟩ := (hP x x.2).2
    exact ⟨⟨b, hPb⟩, hb⟩
  choose next hnext using hnext
  let path (n : ℕ) : {x // P x} := next^[n] ⟨a, ha⟩
  have hstep : ∀ n, R (path n) (path (n + 1)) := by
    intro n
    show R _ (next^[n + 1] _).1
    rw [Function.iterate_succ_apply']
    exact hnext _
  have hpath : ∀ m n, Relation.ReflTransGen R (path m).1 (path (m + n)).1 := by
    intro m n
    induction n with
    | zero => exact .refl
    | succ n ih => exact ih.tail (hstep _)
  have hfinite : Finite {x // P x} := as.finite_toSet.subset fun x hx => (hP x hx).1
  obtain ⟨m, n, hlt, heq⟩ : ∃ m n, m < n ∧ path m = path n := by
    obtain ⟨m, n, hne, heq⟩ := Finite.exists_ne_map_eq_of_infinite path
    rcases Nat.lt_or_gt_of_ne hne with hlt | hlt
    · exact ⟨m, n, hlt, heq⟩
    · exact ⟨n, m, hlt, heq.symm⟩
  obtain ⟨k, rfl⟩ := Nat.exists_eq_add_of_lt hlt
  refine ⟨path m, Nat.zero_add m ▸ hpath 0 m, ?_⟩
  have hloop := Relation.TransGen.tail' (hpath m k) (hstep (m + k))
  rw [← heq] at hloop
  exact hloop

/-! ## The questions that come up -/

/-- The question is about a bound value, or about one of these parts. -/
def Query.Concerns (s : Scopes) (parts : List Expr) : Query → Prop
  | scope name id => .ident name id ∈ s.values
  | opened steps inner => steps ≤ maxDepth + 1 ∧ inner ∈ parts

/-- What is found holds no parentheses but these. -/
def Query.Fair (parts : List Expr) : (q : Query) → q.Reply → Prop
  | scope _ _, _ => True
  | opened _ _, r => ∀ v : Expr, r = some v → v.enclosed ⊆ parts

/-- The questions that concern an expression, one after the other. -/
def Scopes.queries (s : Scopes) (e : Expr) : List Query :=
  (s.values.filterMap fun
    | .ident name id => some (.scope name id)
    | _ => none) ++
  (List.range (maxDepth + 2)).flatMap fun steps => (s.parts e).map (.opened steps)

section

variable {s : Scopes} {e : Expr}

theorem Query.Concerns.mem_queries {q : Query} (h : q.Concerns s (s.parts e)) :
    q ∈ s.queries e := by
  cases q with
  | scope name id =>
    exact List.mem_append_left _ (List.mem_filterMap.mpr ⟨.ident name id, h, rfl⟩)
  | opened steps inner =>
    refine List.mem_append_right _ (List.mem_flatMap.mpr ⟨steps, ?_, List.mem_map_of_mem h.2⟩)
    exact List.mem_range.mpr (Nat.lt_succ_of_le h.1)

namespace Asking

theorem asks_scopeOf (parts : List Expr) {v : Expr} (hv : v ∈ s.values) :
    (scopeOf v).Asks (Query.Concerns s parts) (Query.Fair parts) fun _ => True := by
  cases v with
  | ident name id => exact ⟨hv, fun _ _ _ _ => trivial⟩
  | _ =>
    rw [scopeOf]
    · exact Inquiry.asks_getM fun _ _ => trivial
    · simp

theorem asks_opened {parts : List Expr} {steps : Nat} {inner : Expr} (hsteps : steps ≤ maxDepth + 1)
    (h : inner ∈ parts) :
    (opened steps inner).Asks (Query.Concerns s parts) (Query.Fair parts) (·.enclosed ⊆ parts) :=
  ⟨⟨hsteps, h⟩, fun _ hr => hr⟩

theorem asks_at {steps : Nat} (hsteps : steps ≤ maxDepth + 1) (e' : Expr)
    (he : e'.enclosed ⊆ s.parts e) :
    (resolveAt s steps e').Asks (Query.Concerns s (s.parts e)) (Query.Fair (s.parts e))
        (·.enclosed ⊆ s.parts e) ∧
      (numberAt s steps e').Asks (Query.Concerns s (s.parts e)) (Query.Fair (s.parts e))
        fun _ => True := by
  induction steps generalizing e' with
  | zero => exact ⟨Inquiry.asks_failure, Inquiry.asks_failure⟩
  | succ steps ih =>
    have hle := Nat.le_of_succ_le hsteps
    have hscope := fun (v : Expr) (hv : v ∈ s.values) => asks_scopeOf (s.parts e) hv
    have hvalues := s.values_subset_parts e
    have hnumber := fun c hc => (ih hle c hc).2
    have hresolve := fun c hc => (ih hle c hc).1
    constructor
    · rw [resolveAt]
      exact asks_resolveBy hscope hvalues hnumber hresolve
        (fun _ inner hinner => asks_opened hle (List.cons_subset.mp hinner).1) e' he
    · rw [numberAt]
      exact asks_numberBy hscope hvalues hnumber hresolve e' he

theorem asks_inquiry {q : Query} (hq : q.Concerns s (s.parts e)) :
    (inquiry s q).Asks (Query.Concerns s (s.parts e)) (Query.Fair (s.parts e))
      (q.Fair (s.parts e)) := by
  cases q with
  | scope name id =>
    have hasks : Inquiry.Asks _ _ (fun _ => True)
        (do (← resolveAt s (maxDepth + 1) (.ident name id)).contextScope?.getM : Asking ScopeId) :=
      (asks_at (Nat.le_refl _) (.ident name id) (List.nil_subset (s.parts e))).1.bind
        fun _ _ => Inquiry.asks_getM fun _ _ => trivial
    exact Dialogue.Asks.mono hasks fun _ _ => trivial
  | opened steps inner =>
    refine Inquiry.Asks.bind (asks_at hq.1 inner (Scopes.parts_closed hq.2)).1 fun v hv => ?_
    split
    · exact asks_opened hq.1 (List.cons_subset.mp hv).1
    · exact Inquiry.asks_pure hv

theorem answers_fair {depth : Nat} {q : Query} {r : q.Reply} (hq : q.Concerns s (s.parts e))
    (h : answers s depth q = some r) : q.Fair (s.parts e) r := by
  induction depth generalizing q with
  | zero => cases h
  | succ depth ih =>
    exact (asks_inquiry hq).of_settle (fun q r hq hr => ih hq hr) (eq_ok_of_toOption h)

end Asking

variable {α : Type} {post : α → Prop} {x : Dialogue Query.Reply α}

theorem not_circular_of_ends {r : α} (h : Ends s x r) : ¬ Circular s x := by
  rintro ⟨q, p, ⟨depth, hstuck⟩, -, -⟩
  obtain ⟨depth', hends⟩ := h
  have hmore := Dialogue.settle_mono (fun q r hr => answers_mono (Nat.le_max_right depth depth') hr)
    hends
  rw [hstuck _ (Nat.le_max_left _ _)] at hmore
  cases hmore

/-- A question that is the first to come up in its own inquiry is never answered. -/
theorem Asking.answers_eq_none {q : Query}
    (hq : (inquiry s q).settle (fun _ => none) = .error q) (depth : Nat) :
    answers s depth q = none := by
  induction depth with
  | zero => rfl
  | succ depth ih =>
    obtain ⟨next, hask⟩ := Dialogue.eq_ask hq
    rw [answers, hask, Dialogue.settle, ih]
    rfl

theorem circular_of_first {q : Query} (hx : x.settle (fun _ => none) = .error q)
    (hq : (inquiry s q).settle (fun _ => none) = .error q) : Circular s x := by
  have hstuck : ∀ {β : Type} {y : Dialogue Query.Reply β},
      y.settle (fun _ => none) = .error q → StuckAt s y q := by
    intro β y hy
    obtain ⟨next, rfl⟩ := Dialogue.eq_ask hy
    refine ⟨0, fun more _ => ?_⟩
    rw [Dialogue.settle, answers_eq_none hq]
  exact ⟨q, q, hstuck hx, .refl, .single (hstuck hq)⟩

theorem ends_or_stuck (hx : x.Asks (Query.Concerns s (s.parts e)) (Query.Fair (s.parts e)) post) :
    (∃ r, Ends s x r) ∨
      ∃ q, StuckAt s x q ∧ q.Concerns s (s.parts e) ∧ ∀ depth, answers s depth q = none := by
  obtain ⟨depth, hstable⟩ := exists_stable (s := s) (s.queries e)
  have hsettle : ∀ more, depth ≤ more →
      x.settle (answers s more) = x.settle (answers s depth) := by
    intro more hle
    exact hx.settle_congr (fun q r hq hr => answers_fair hq hr)
      fun q hq => hstable more hle q hq.mem_queries
  cases hr : x.settle (answers s depth) with
  | ok r => exact .inl ⟨r, depth, hr⟩
  | error q =>
    have hresult := hx.good_of_settle (fun q r hq hr => answers_fair hq hr) hr
    refine .inr ⟨q, ⟨depth, fun more hle => (hsettle more hle).trans hr⟩, hresult, fun more => ?_⟩
    have hopen : ∀ more, depth ≤ more → answers s more q = none := by
      intro more hle
      rw [hstable more hle q hresult.mem_queries]
      exact Dialogue.settle_error hr
    -- an answer that is found is kept, so an earlier one would still be there
    cases hmore : answers s more q with
    | none => rfl
    | some r =>
      have hlate := answers_mono (Nat.le_max_left more depth) hmore
      rw [hopen _ (Nat.le_max_right more depth)] at hlate
      cases hlate

/-- **An evaluation ends or is circular.** -/
theorem ends_or_circular
    (hx : x.Asks (Query.Concerns s (s.parts e)) (Query.Fair (s.parts e)) post) :
    (∃ r, Ends s x r) ∨ Circular s x := by
  rcases ends_or_stuck hx with hends | ⟨q, hstuck, hq⟩
  · exact .inl hends
  · have hleads : ∀ q : Query,
        (q.Concerns s (s.parts e) ∧ ∀ depth, answers s depth q = none) →
        q ∈ s.queries e ∧
          ∃ p, Waits s q p ∧ p.Concerns s (s.parts e) ∧ ∀ depth, answers s depth p = none := by
      intro q ⟨hq, hopen⟩
      refine ⟨hq.mem_queries, ?_⟩
      rcases ends_or_stuck (asks_inquiry hq) with ⟨r, depth, hends⟩ | hwaits
      · have hanswer : answers s (depth + 1) q = some r := by
          rw [answers, hends]
          rfl
        rw [hopen] at hanswer
        cases hanswer
      · exact hwaits
    obtain ⟨p, hpath, hcycle⟩ := exists_cycle hleads hq
    exact .inr ⟨q, p, hstuck, hpath, hcycle⟩

end

end Z80Asm
