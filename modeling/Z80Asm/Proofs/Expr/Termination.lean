import Z80Asm.Proofs.Expr.Circularity

/-!
# When evaluation ends

Evaluation follows a chain of names through no more links than there are names bound to names, and
opens no more parentheses than there are. These bounds are never in the way: each link of a chain that
comes to an end is a name that was not answered before, and so is what is in each pair of parentheses
(`Asking.agrees`). Hence evaluation has the outcome that it would have without bounds, whenever that
is one, and it is one unless the evaluation is circular (`Terminates`).

`Terminates` compares outcomes up to the text of failures, since a bound that is met has a cause of
its own. To look up a name without dots takes no evaluation, so `Asking.symbol` ends there at once.
-/
set_option autoImplicit false

namespace Z80Asm

/-- The names among the bound values, and what is in parentheses in bound values, are no more than
    the arena has counted. -/
structure Scopes.Counted (s : Scopes) : Prop where
  names : s.values.countP (·.name?.isSome) ≤ s.aliases
  groups : (s.values.flatMap Expr.enclosed).length ≤ s.groups

section

variable {s : Scopes} (hs : s.Counted)

include hs

theorem Scopes.Counted.create (parent : Option ScopeId) : (s.create parent).2.Counted where
  names := by
    rw [values_create, List.countP_append]
    exact hs.names
  groups := by
    rw [values_create, List.flatMap_append, List.length_append]
    exact hs.groups

theorem Scopes.Counted.bind {id : ScopeId} {scope : Scope} (hid : s.get? id = some scope)
    (name : String) (value : Expr) : (s.bind id name value).Counted := by
  have hperm := values_bind hid name value
  constructor
  · rw [hperm.countP_eq, List.countP_cons]
    refine Nat.add_le_add hs.names ?_
    cases value with
    | ident _ _ => exact Nat.le_refl _
    | _ => exact Nat.zero_le _
  · rw [(hperm.flatMap_right Expr.enclosed).length_eq, List.flatMap_cons, List.length_append,
      Expr.length_enclosed, Nat.add_comm]
    exact Nat.add_le_add_right hs.groups _

theorem Scopes.Counted.modify {f : Scope → Scope}
    (hf : ∀ scope, (f scope).bindings = scope.bindings) (id : ScopeId) : (s.modify id f).Counted where
  names := by
    rw [values_modify hf]
    exact hs.names
  groups := by
    rw [values_modify hf]
    exact hs.groups

end

theorem Scopes.Steps.counted {marked : ScopeId → Prop} {s t : Scopes} (h : Steps marked s t)
    (hs : s.Counted) : t.Counted := by
  induction h with
  | refl => exact hs
  | create _ parent ih => exact ih.create parent
  | bind _ hid _ value ih => exact ih.bind hid _ value
  | modify _ hf _ _ ih => exact ih.modify hf.bindings _

theorem counted_predefined : predefinedScopes.Counted where
  names := by
    have hnone : ∀ value ∈ predefinedScopes.values, ¬ value.name?.isSome = true :=
      Scopes.forall_mem_values_predefined (fun _ => Bool.false_ne_true)
        (fun _ => Bool.false_ne_true) (fun _ => Bool.false_ne_true) (fun _ => Bool.false_ne_true)
    rw [List.countP_eq_zero.mpr hnone]
    exact Nat.zero_le _
  groups := by
    have hnone : ∀ value ∈ predefinedScopes.values, value.enclosed = [] :=
      Scopes.forall_mem_values_predefined (fun _ => rfl) (fun _ => rfl) (fun _ => rfl) fun _ => rfl
    rw [List.flatMap_eq_nil_iff.mpr hnone]
    exact Nat.zero_le _

namespace Asking

variable {s : Scopes}

/-- The names among the bound values of which it is known which scope they denote. -/
def answeredNames (s : Scopes) (depth : Nat) : Nat :=
  s.values.countP fun
    | .ident name id => (answers s depth (.scope name id)).isSome
    | _ => false

/-- The parts of which it is known what is inside. -/
def answeredParts (s : Scopes) (depth : Nat) (e : Expr) (steps : Nat) : Nat :=
  (s.parts e).countP fun inner => (answers s depth (.opened steps inner)).isSome

/-- What is answered agrees with evaluation, as soon as the bounds of evaluation allow for the
    questions that have been answered. -/
structure Agrees (s : Scopes) (depth : Nat) : Prop where
  scope : ∀ name id r, .ident name id ∈ s.values → answers s depth (.scope name id) = some r →
    ∀ links, answeredNames s depth ≤ links → scopeThrough s links (.ident name id) = r
  opened : ∀ e steps inner r, inner ∈ s.parts e → answers s depth (.opened steps inner) = some r →
    ∀ links, answeredNames s depth ≤ links → ∀ turns, answeredParts s depth e steps ≤ turns →
      (unwrap (Z80Asm.resolveAt s (scopeThrough s links) steps) turns (.group inner)).toOption = r

theorem answeredNames_le (hs : s.Counted) (depth : Nat) : answeredNames s depth ≤ s.aliases := by
  refine Nat.le_trans (List.countP_mono_left fun v _ hv => ?_) hs.names
  cases v with
  | ident name id => rfl
  | _ => cases hv

theorem answeredParts_le (hs : s.Counted) (depth : Nat) (e : Expr) (steps : Nat) :
    answeredParts s depth e steps ≤ s.groups + e.groupCount := by
  have hlength : (s.parts e).length = e.groupCount + (s.values.flatMap Expr.enclosed).length := by
    rw [Scopes.parts, List.length_append, Expr.length_enclosed]
  have hcount : answeredParts s depth e steps ≤ (s.parts e).length := List.countP_le_length
  have hgroups := hs.groups
  omega

section

variable {depth links : Nat} (h : Agrees s depth) (hlinks : answeredNames s depth ≤ links)

include h hlinks

theorem yields_scopeOf {v : Expr} (hv : v ∈ s.values) :
    (scopeOf v).Yields (answers s depth) (scopeThrough s links v) := by
  cases v with
  | ident name id =>
    intro r hr
    exact h.scope name id r hv (Dialogue.settle_ask.mp hr) links hlinks
  | _ =>
    rw [scopeOf, scopeThrough]
    · exact Inquiry.yields_getM _
    · simp
    · simp

theorem yields_opened {e inner : Expr} {steps : Nat} (hinner : inner ∈ s.parts e) {turns : Nat}
    (hturns : answeredParts s depth e steps ≤ turns) :
    (opened steps inner).Yields (answers s depth)
      (unwrap (Z80Asm.resolveAt s (scopeThrough s links) steps) turns (.group inner)).toOption := by
  intro r hr
  exact h.opened e steps inner r hinner (Dialogue.settle_ask.mp hr) links hlinks turns hturns

theorem yields_at (hs : s.Counted) (steps : Nat) (e : Expr) :
    (resolveAt s steps e).Yields (answers s depth)
        (Z80Asm.resolveAt s (scopeThrough s links) steps e).toOption ∧
      (numberAt s steps e).Yields (answers s depth)
        (integerAt s (scopeThrough s links) steps e).toOption := by
  induction steps generalizing e with
  | zero => exact ⟨Inquiry.yields_failure, Inquiry.yields_failure⟩
  | succ steps ih =>
    have hscope := fun v (hv : v ∈ s.values) => yields_scopeOf h hlinks hv
    constructor
    · rw [resolveAt]
      refine yields_resolveBy hscope (fun c => (ih c).2) (fun c => (ih c).1) ?_ e
      intro sequence inner hinner
      refine yields_opened h hlinks (List.cons_subset.mp (enclosed_resolveAt hinner)).1 ?_
      exact Nat.le_succ_of_le (answeredParts_le hs depth sequence steps)
    · rw [numberAt]
      exact yields_numberBy hscope (fun c => (ih c).2) (fun c => (ih c).1) e

end

theorem answeredNames_succ (depth : Nat) : answeredNames s depth ≤ answeredNames s (depth + 1) := by
  refine List.countP_mono_left fun v _ hv => ?_
  cases v with
  | ident name id =>
    obtain ⟨r, hr⟩ := Option.isSome_iff_exists.mp hv
    exact Option.isSome_iff_exists.mpr ⟨r, answers_succ hr⟩
  | _ => cases hv

theorem answeredNames_lt {depth : Nat} {name : String} {id : ScopeId} {r : Option ScopeId}
    (hv : .ident name id ∈ s.values) (hopen : answers s depth (.scope name id) = none)
    (h : answers s (depth + 1) (.scope name id) = some r) :
    answeredNames s depth < answeredNames s (depth + 1) := by
  refine countP_lt (fun v _ hv => ?_) hv ?_ ?_
  · cases v with
    | ident name id =>
      obtain ⟨r, hr⟩ := Option.isSome_iff_exists.mp hv
      exact Option.isSome_iff_exists.mpr ⟨r, answers_succ hr⟩
    | _ => cases hv
  · exact Option.isSome_eq_false_iff.mpr (Option.isNone_iff_eq_none.mpr hopen)
  · exact Option.isSome_iff_exists.mpr ⟨r, h⟩

theorem answeredParts_lt {depth steps : Nat} {e inner : Expr} {r : Option Expr}
    (hinner : inner ∈ s.parts e) (hopen : answers s depth (.opened steps inner) = none)
    (h : answers s (depth + 1) (.opened steps inner) = some r) :
    answeredParts s depth e steps < answeredParts s (depth + 1) e steps := by
  refine countP_lt (fun v _ hv => ?_) hinner ?_ ?_
  · obtain ⟨r, hr⟩ := Option.isSome_iff_exists.mp hv
    exact Option.isSome_iff_exists.mpr ⟨r, answers_succ hr⟩
  · exact Option.isSome_eq_false_iff.mpr (Option.isNone_iff_eq_none.mpr hopen)
  · exact Option.isSome_iff_exists.mpr ⟨r, h⟩

theorem answeredParts_succ (depth : Nat) (e : Expr) (steps : Nat) :
    answeredParts s depth e steps ≤ answeredParts s (depth + 1) e steps := by
  refine List.countP_mono_left fun v _ hv => ?_
  obtain ⟨r, hr⟩ := Option.isSome_iff_exists.mp hv
  exact Option.isSome_iff_exists.mpr ⟨r, answers_succ hr⟩

/-- **Whatever is answered without bounds, evaluation answers alike with its bounds.** -/
theorem agrees (hs : s.Counted) (depth : Nat) : Agrees s depth := by
  induction depth with
  | zero =>
    constructor
    · intro _ _ _ _ h
      cases h
    · intro _ _ _ _ _ h
      cases h
  | succ depth ih =>
    have hnames := answeredNames_succ (s := s) depth
    constructor
    · intro name id r hv hr links hlinks
      cases hold : answers s depth (.scope name id) with
      | some r' =>
        cases (answers_succ hold).symm.trans hr
        exact ih.scope name id _ hv hold links (by omega)
      | none =>
        -- one more name is answered, so there is a link to spare
        have hlt := answeredNames_lt hv hold hr
        obtain ⟨links, rfl⟩ : ∃ n, links = n + 1 := ⟨links - 1, by omega⟩
        have hyields := ((yields_at ih (Nat.le_of_lt_succ (Nat.lt_of_lt_of_le hlt hlinks)) hs
          (maxDepth + 1) (.ident name id)).1.bind fun v _ => Inquiry.yields_getM v.contextScope?) r
            (eq_ok_of_toOption hr)
        rw [← hyields, scopeThrough]
        cases Z80Asm.resolveAt s (scopeThrough s links) (maxDepth + 1) (.ident name id) <;> rfl
    · intro e steps inner r hinner hr links hlinks turns hturns
      have hparts := answeredParts_succ (s := s) depth e steps
      cases hold : answers s depth (.opened steps inner) with
      | some r' =>
        cases (answers_succ hold).symm.trans hr
        exact ih.opened e steps inner _ hinner hold links (by omega) turns (by omega)
      | none =>
        have hlt := answeredParts_lt hinner hold hr
        obtain ⟨turns, rfl⟩ : ∃ n, turns = n + 1 := ⟨turns - 1, by omega⟩
        rw [unwrap, toOption_bind]
        refine ((yields_at ih (Nat.le_trans hnames hlinks) hs steps inner).1.bind fun v hv => ?_) r
          (eq_ok_of_toOption hr)
        cases v with
        | group next =>
          have hnext := (List.cons_subset.mp (enclosed_resolveAt (eq_ok_of_toOption hv))).1
          have hturns : answeredParts s depth e steps ≤ turns := by omega
          exact yields_opened ih (by omega) (Scopes.parts_subset hinner hnext) hturns
        | _ =>
          rw [unwrap_of_ne_group (by simp)]
          exact Inquiry.yields_pure _

/-! ## The evaluations -/

/-- The value of a name as seen from a scope. -/
def symbol (s : Scopes) (id : ScopeId) (name : String) : Dialogue Query.Reply (Option Expr) :=
  (symbolBy s scopeOf id name).run

/-- The value of a name inside a scope. -/
def member (s : Scopes) (id : ScopeId) (name : String) : Dialogue Query.Reply (Option Expr) :=
  (memberBy s scopeOf id name).run

def resolve (s : Scopes) (e : Expr) : Dialogue Query.Reply (Option Expr) :=
  (resolveAt s (maxDepth + 1) e).run

def integer (s : Scopes) (e : Expr) : Dialogue Query.Reply (Option Int64) :=
  (numberAt s (maxDepth + 1) e).run

def string (s : Scopes) (e : Expr) : Dialogue Query.Reply (Option (List UInt8)) :=
  (do
    match ← ungroupedBy s (resolveAt s (maxDepth + 1)) (fun _ => opened (maxDepth + 1)) e with
    | .str bytes => pure bytes.toList
    | _ => failure : Asking (List UInt8)).run

end Asking

open Asking

/-- Without bounds an evaluation ends unless it is circular, and then with the outcome of the
    evaluation that has bounds. -/
structure Terminates {α : Type} (s : Scopes) (unbounded : Dialogue Query.Reply (Option α))
    (bounded : Except Cause α) : Prop where
  ends_iff : (∃ r, Ends s unbounded r) ↔ ¬ Circular s unbounded
  outcome : ∀ r, Ends s unbounded r → bounded.toOption = r

theorem Ends.of_outright {α : Type} {s : Scopes} {x : Asking α} {r : Option α} (h : x.Outright r) :
    Ends s x.run r :=
  ⟨0, h _⟩

/-! ## Inquiries that mirror an evaluation -/

/-- An inquiry about an arena and an expression mirrors an evaluation: it asks only about what these
    hold in parentheses or bind, and if it ends, then as the evaluation does. What comes out has
    `post`. -/
structure Mirrors {α : Type} (s : Scopes) (e : Expr) (post : α → Prop) (x : Asking α) (y : Option α) :
    Prop where
  asks : x.Asks (Query.Concerns s (s.parts e)) (Query.Fair (s.parts e)) post
  yields : ∀ depth, x.Yields (answers s depth) y
  holds : ∀ a, y = some a → post a

/-- The outcome of an inquiry, which may be that it fails. -/
def Asking.attempt {α : Type} (x : Asking α) : Asking (Option α) :=
  OptionT.lift x.run

section

variable {α β : Type} {s : Scopes} {e : Expr} {post : α → Prop} {x : Asking α} {y : Option α}

theorem Mirrors.terminates {z : Except Cause α} (h : Mirrors s e post x z.toOption) :
    Terminates s x.run z where
  ends_iff := by
    constructor
    · rintro ⟨r, hends⟩
      exact not_circular_of_ends hends
    · intro hcircular
      exact (ends_or_circular h.asks).resolve_right hcircular
  outcome := by
    intro r ⟨depth, hends⟩
    exact h.yields depth r hends

theorem mirrors_pure {a : α} (h : post a) : Mirrors s e post (pure a) (some a) where
  asks := Inquiry.asks_pure h
  yields _ := Inquiry.yields_pure a
  holds _ heq := Option.some.inj heq ▸ h

theorem mirrors_failure : Mirrors s e post failure none where
  asks := Inquiry.asks_failure
  yields _ := Inquiry.yields_failure
  holds _ heq := nomatch heq

theorem mirrors_getM {o : Option α} (h : ∀ a, o = some a → post a) : Mirrors s e post o.getM o where
  asks := Inquiry.asks_getM h
  yields _ := Inquiry.yields_getM o
  holds := h

theorem Mirrors.bind {post' : β → Prop} {f : α → Asking β} {g : α → Option β}
    (hx : Mirrors s e post x y) (hf : ∀ a, post a → Mirrors s e post' (f a) (g a)) :
    Mirrors s e post' (x >>= f) (y.bind g) where
  asks := hx.asks.bind fun a ha => (hf a ha).asks
  yields depth := (hx.yields depth).bind fun a ha => (hf a (hx.holds a ha)).yields depth
  holds b hb := by
    obtain ⟨a, ha, hb⟩ := Option.bind_eq_some_iff.mp hb
    exact (hf a (hx.holds a ha)).holds b hb

theorem Mirrors.attempt (hx : Mirrors s e post x y) :
    Mirrors s e (fun o => ∀ a, o = some a → post a) (Asking.attempt x) (some y) where
  asks := by
    refine Dialogue.Asks.bind hx.asks fun o ho => ?_
    exact Inquiry.asks_pure ho
  yields depth r h := by
    change Dialogue.settle _ (x.run >>= fun o => Dialogue.done (some o)) = _ at h
    rw [Dialogue.settle_bind] at h
    cases hr : x.run.settle (answers s depth) with
    | error q => rw [hr] at h; cases h
    | ok o =>
      rw [hr] at h
      cases hx.yields depth o hr
      exact Except.ok.inj h
  holds _ heq := Option.some.inj heq ▸ hx.holds

variable {e' : Expr} (hs : s.Counted)

include hs

theorem mirrors_resolve (he : e'.enclosed ⊆ s.parts e) :
    Mirrors s e (·.enclosed ⊆ s.parts e) (Asking.resolveAt s (maxDepth + 1) e')
      (e'.resolve s).toOption where
  asks := (asks_at (Nat.le_refl _) e' he).1
  yields depth :=
    (yields_at (agrees hs depth) (Nat.le_succ_of_le (answeredNames_le hs depth)) hs _ e').1
  holds _ hv := List.Subset.trans (enclosed_resolveAt (eq_ok_of_toOption hv))
    (Scopes.parts_subset_parts he)

theorem mirrors_ungrouped (e : Expr) :
    Mirrors s e (fun _ => True)
      (ungroupedBy s (Asking.resolveAt s (maxDepth + 1)) (fun _ => opened (maxDepth + 1)) e)
      (resolveUngrouped s (Expr.resolve s) e).toOption where
  asks := by
    refine (asks_ungroupedBy (s := s)
      (asks_at (s := s) (Nat.le_refl (maxDepth + 1)) e (List.subset_append_left _ _)).1 ?_).mono
        fun _ _ _ _ => trivial
    exact fun _ inner hinner => asks_opened (Nat.le_refl _) (List.cons_subset.mp hinner).1
  yields depth := by
    have hlinks := Nat.le_succ_of_le (answeredNames_le hs depth)
    refine yields_ungroupedBy (yields_at (agrees hs depth) hlinks hs (maxDepth + 1) e).1 ?_
    intro inner hinner
    exact yields_opened (agrees hs depth) hlinks (List.cons_subset.mp (enclosed_resolveAt hinner)).1
      (Nat.le_succ_of_le (answeredParts_le hs depth e (maxDepth + 1)))
  holds _ _ := trivial

theorem mirrors_number (he : e'.enclosed ⊆ s.parts e) :
    Mirrors s e (fun _ => True) (numberAt s (maxDepth + 1) e') (e'.integer s).toOption where
  asks := (asks_at (Nat.le_refl _) e' he).2
  yields depth :=
    (yields_at (agrees hs depth) (Nat.le_succ_of_le (answeredNames_le hs depth)) hs _ e').2
  holds _ _ := trivial

theorem mirrors_symbol (id : ScopeId) (name : String) :
    Mirrors s e (fun _ => True) (symbolBy s scopeOf id name) (s.symbol id name).toOption where
  asks := (asks_symbolBy (fun _ hv => asks_scopeOf (s.parts e) hv) _ _).mono fun _ _ _ _ => trivial
  yields depth := by
    have hlinks := Nat.le_succ_of_le (answeredNames_le hs depth)
    exact yields_symbolBy (fun v hv => yields_scopeOf (agrees hs depth) hlinks hv) id name
  holds _ _ := trivial

theorem mirrors_member (id : ScopeId) (name : String) :
    Mirrors s e (fun _ => True) (memberBy s scopeOf id name) (s.member id name).toOption where
  asks := (asks_insideBy (fun _ hv => asks_scopeOf (s.parts e) hv) _ _ _ _).mono
    fun _ _ _ _ => trivial
  yields depth := by
    have hlinks := Nat.le_succ_of_le (answeredNames_le hs depth)
    exact yields_memberBy (fun v hv => yields_scopeOf (agrees hs depth) hlinks hv) id name
  holds _ _ := trivial

end

section

variable {s : Scopes} (hs : s.Counted) (e : Expr)

include hs

theorem terminates_resolve : Terminates s (Asking.resolve s e) (e.resolve s) :=
  (mirrors_resolve hs (List.subset_append_left _ _)).terminates

theorem terminates_integer : Terminates s (Asking.integer s e) (e.integer s) :=
  (mirrors_number hs (List.subset_append_left _ _)).terminates

theorem terminates_string : Terminates s (Asking.string s e) (e.string s) := by
  suffices h : Mirrors s e (fun _ => True) _ (e.string s).toOption from h.terminates
  rw [Expr.string, toOption_bind]
  refine (mirrors_ungrouped hs e).bind fun v _ => ?_
  cases v with
  | str bytes => exact mirrors_pure trivial
  | _ => exact mirrors_failure

/-- To look a name up takes an evaluation where it has dots, and a name before a dot is an alias. -/
theorem terminates_lookup (id : ScopeId) (name : String) :
    Terminates s (Asking.symbol s id name) (s.symbol id name) ∧
      Terminates s (Asking.member s id name) (s.member id name) :=
  ⟨(mirrors_symbol (e := .int 0) hs id name).terminates,
    (mirrors_member (e := .int 0) hs id name).terminates⟩

end

namespace Scopes

/-- An expression has a number, and evaluation gets to it also where nothing bounds it. -/
def Evaluates (s : Scopes) (e : Expr) (v : Int64) : Prop :=
  e.integer s = .ok v ∧ Ends s (Asking.integer s e) (some v)

theorem Counted.evaluates_iff {s : Scopes} (hs : s.Counted) {e : Expr} {v : Int64}
    (hends : ∃ r, Ends s (Asking.integer s e) r) : s.Evaluates e v ↔ e.integer s = .ok v := by
  refine ⟨And.left, fun hv => ⟨hv, ?_⟩⟩
  obtain ⟨r, hr⟩ := hends
  obtain rfl : some v = r := by rw [← (terminates_integer hs e).outcome r hr, hv]; rfl
  exact hr

end Scopes

end Z80Asm
