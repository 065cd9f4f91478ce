import Z80Asm.Error.Report
import Z80Asm.Proofs.Failure

/-!
# What a failure tells

A failure has a cause, and a context that says where it happened. The context is not there from the
start: a computation that works on behalf of a line fails without one, and gets the position of the
line where it leaves the line. A position that is there already stays, so the innermost line wins.

Two predicates follow this. Behind a line a failure `Tells`: its context starts at a site. Inside a
line it only `Hints`: it has no context yet, or one that starts at a site, left by a line inside
this one. Both take the causes that are possible as well, because it is the same traversal of the
phases that shows what can go wrong in them and where.

`Ensures` is what such a traversal proves of a computation: an invariant of the state is kept, what
is returned is as described, and a failure is one of these. It says nothing about the state that a
failure leaves behind, since nobody goes on from there.
-/
set_option autoImplicit false

namespace Z80Asm

open Success

/-! ## Contexts -/

/-- The context starts at one of these sites. -/
def Traced.StartsAt {α : Type} (sites : Site → Prop) (t : Traced α) : Prop :=
  ∃ frame outer, t.frames = frame :: outer ∧ sites frame.site

/-- There is no context yet, or it starts at one of these sites. -/
def Traced.Within {α : Type} (sites : Site → Prop) (t : Traced α) : Prop :=
  t.frames = [] ∨ t.StartsAt sites

section

variable {α : Type} {sites others : Site → Prop} {t : Traced α} {p : Position} {column : Option Nat}

theorem Traced.StartsAt.mono (h : t.StartsAt sites) (hsub : ∀ site, sites site → others site) :
    t.StartsAt others := by
  obtain ⟨frame, outer, hframes, hsite⟩ := h
  exact ⟨frame, outer, hframes, hsub _ hsite⟩

/-- Behind a line a failure has a context. -/
theorem Traced.Within.startsAt (h : t.Within sites) (hp : sites p.here) :
    (t.at p column).StartsAt sites := by
  rcases h with h | ⟨frame, outer, hframes, hsite⟩
  · refine ⟨⟨p.here, column⟩, p.outer.map fun site => ⟨site, none⟩, ?_, hp⟩
    rw [Traced.at, h]
    rfl
  · refine ⟨frame, outer, ?_, hsite⟩
    rw [Traced.at, hframes]
    exact hframes

theorem Cause.startsAt_at (cause : Cause) (hp : sites p.here) : (cause.at p column).StartsAt sites :=
  Traced.Within.startsAt (.inl rfl) hp

theorem Traced.what_at (t : Traced α) (p : Position) (column : Option Nat) :
    (t.at p column).what = t.what := by
  unfold Traced.at
  split
  · rfl
  · rfl

end

/-- A failure for one of these causes, with a context that starts at one of these sites. -/
structure Traced.Tells (causes : Cause → Prop) (sites : Site → Prop) (failure : Failure) : Prop where
  cause : causes failure.what
  site : failure.StartsAt sites

/-- A failure for one of these causes whose context, if it has one yet, starts at one of these sites. -/
structure Traced.Hints (causes : Cause → Prop) (sites : Site → Prop) (failure : Failure) : Prop where
  cause : causes failure.what
  site : failure.Within sites

section

variable {causes : Cause → Prop} {sites : Site → Prop} {failure : Failure} {cause : Cause}

theorem Traced.Tells.hints (h : failure.Tells causes sites) : failure.Hints causes sites :=
  ⟨h.cause, .inr h.site⟩

/-- **Where a failure leaves a line, it gets a context.** -/
theorem Traced.Hints.tells (h : failure.Hints causes sites) {p : Position} (hp : sites p.here)
    (column : Option Nat) : (failure.at p column).Tells causes sites :=
  ⟨(failure.what_at p column).symm ▸ h.cause, h.site.startsAt hp⟩

theorem Cause.hints (h : causes cause) : cause.untraced.Hints causes sites :=
  ⟨h, .inl rfl⟩

theorem Cause.tells (h : causes cause) {p : Position} (hp : sites p.here) (column : Option Nat) :
    (cause.at p column).Tells causes sites :=
  ⟨(Traced.what_at _ p column).symm ▸ h, cause.startsAt_at hp⟩

end

/-! ## Computations -/

/-- A computation that keeps an invariant of its state: what it gives, and how it fails. -/
structure Ensures {σ α : Type} (inv : σ → Prop) (fails : Failure → Prop) (good : α → Prop)
    (x : EStateM Failure σ α) : Prop where
  ok : ∀ ⦃s a s'⦄, x s = .ok a s' → inv s → inv s' ∧ good a
  error : ∀ ⦃s failure s'⦄, x s = .error failure s' → inv s → fails failure

namespace Ensures

variable {σ α β : Type} {inv : σ → Prop} {fails : Failure → Prop} {good : α → Prop} {post : β → Prop}
  {x : EStateM Failure σ α} {causes : Cause → Prop} {sites : Site → Prop}

theorem pure {a : α} (h : good a) : Ensures inv fails good (Pure.pure a) where
  ok _ _ _ hrun hs := by
    obtain ⟨rfl, rfl⟩ := pure_eq_ok.mp hrun
    exact ⟨hs, h⟩
  error _ _ _ hrun := (pure_eq_error.mp hrun).elim

theorem throw {failure : Failure} (h : fails failure) :
    Ensures inv fails good (MonadExcept.throw failure) where
  ok _ _ _ hrun := (throw_eq_ok.mp hrun).elim
  error _ _ _ hrun _ := (throw_eq_error.mp hrun).1 ▸ h

theorem get : Ensures inv fails inv (MonadState.get : EStateM Failure σ σ) where
  ok _ _ _ hrun hs := by
    obtain ⟨rfl, rfl⟩ := get_eq_ok.mp hrun
    exact ⟨hs, hs⟩
  error _ _ _ hrun := nomatch hrun

theorem update {f : σ → σ} (h : ∀ s, inv s → inv (f s)) :
    Ensures inv fails (fun _ => True) (modify f : EStateM Failure σ PUnit) where
  ok _ _ _ hrun hs := by
    cases modify_eq_ok.mp hrun
    exact ⟨h _ hs, trivial⟩
  error _ _ _ hrun := nomatch hrun

theorem bind {f : α → EStateM Failure σ β} (hx : Ensures inv fails good x)
    (hf : ∀ a, good a → Ensures inv fails post (f a)) : Ensures inv fails post (x >>= f) where
  ok _ _ _ hrun hs := by
    obtain ⟨a, s', hx', hrun⟩ := bind_eq_ok.mp hrun
    obtain ⟨hs', ha⟩ := hx.ok hx' hs
    exact (hf a ha).ok hrun hs'
  error _ _ _ hrun hs := by
    rcases bind_eq_error.mp hrun with hrun | ⟨a, s', hx', hrun⟩
    · exact hx.error hrun hs
    · obtain ⟨hs', ha⟩ := hx.ok hx' hs
      exact (hf a ha).error hrun hs'

theorem mapM {f : α → EStateM Failure σ β} {as : List α}
    (hf : ∀ a ∈ as, Ensures inv fails post (f a)) :
    Ensures inv fails (fun bs => ∀ b ∈ bs, post b) (as.mapM f) := by
  induction as with
  | nil => exact .pure (fun _ hb => nomatch hb)
  | cons a rest ih =>
    rw [List.mapM_cons]
    refine (hf a List.mem_cons_self).bind fun b hb => ?_
    refine (ih fun a ha => hf a (List.mem_cons_of_mem _ ha)).bind fun bs hbs => .pure ?_
    exact List.forall_mem_cons.mpr ⟨hb, hbs⟩

/-- Fewer ways to fail are fewer. -/
theorem mono {others : Failure → Prop} (hx : Ensures inv fails good x)
    (h : ∀ failure, fails failure → others failure) : Ensures inv others good x where
  ok := hx.ok
  error _ _ _ hrun hs := h _ (hx.error hrun hs)

/-- What leaves a line has a context. -/
theorem traced (hx : Ensures inv (·.Hints causes sites) good x) {p : Position} (hp : sites p.here) :
    Ensures inv (·.Tells causes sites) good (EStateM.adaptExcept (·.at p none) x) where
  ok _ _ _ hrun hs := hx.ok (adaptExcept_eq_ok.mp hrun) hs
  error _ _ _ hrun hs := by
    obtain ⟨failure, hfails, rfl⟩ := adaptExcept_eq_error.mp hrun
    exact (hx.error hfails hs).tells hp none

theorem hints (hx : Ensures inv (·.Tells causes sites) good x) :
    Ensures inv (·.Hints causes sites) good x :=
  hx.mono fun _ h => h.hints

end Ensures

end Z80Asm
