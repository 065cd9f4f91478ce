import Mathlib.Data.List.Perm.Basic
import Z80Asm.Scope.Listing
import Z80Asm.Proofs.Program.Naming

/-!
# The symbols of a listing

A listing has one line for each symbol that is reached from a scope and has a number (`numbered`,
`listing_eq`). Full names are put together from bound names and dots, so those reached from a root
begin as words do, and are words unless they have an apostrophe in them. The same symbols are found
when the bindings are taken as they stand, without sorting them, which makes what a listing says of
its names a matter of computation (`namesApart_iff`).

A name may be listed twice, and then the lines stand for different symbols; which of them a lookup
finds is not said here.
-/
set_option autoImplicit false

namespace Z80Asm.Scopes

/-- The symbols that are reached from a scope, with their full names. `bindings` gives the bindings
    of each scope, and the scope itself is reached under `path`. -/
def reachedFrom (bindings : ScopeId → List Binding) :
    Nat → ScopeId → String → List (String × Expr)
  | 0, _, _ => []
  | levels + 1, id, path =>
    (bindings id).flatMap fun binding =>
      let name := path ++ binding.name
      (name, binding.value) ::
        match binding.value with
        | .context inner =>
          if inner = id then [] else reachedFrom bindings levels inner (name ++ ".")
        | _ => []

/-- A symbol with its number, if it has one. -/
def numberOf? (s : Scopes) (symbol : String × Expr) : Option (String × Int64) :=
  (symbol.2.integer s).toOption.map fun number => (symbol.1, number)

/-- The symbols that are reached from a scope and have a number, with their full names, in the order
    of the listing. -/
def numbered (s : Scopes) (id : ScopeId) : List (String × Int64) :=
  (reachedFrom s.listed (maxDepth + 1) id "").filterMap s.numberOf?

variable {s : Scopes} {root id : ScopeId}

theorem listingFrom_eq (levels : Nat) (id : ScopeId) (path : String) :
    s.listingFrom levels id path =
      ((reachedFrom s.listed levels id path).filterMap s.numberOf?).map
        fun entry => listingLine entry.1 entry.2 := by
  induction levels generalizing id path with
  | zero => rfl
  | succ levels ih =>
    rw [listingFrom, reachedFrom, List.filterMap_flatMap, List.map_flatMap]
    refine congrArg (List.flatMap · (s.listed id)) (funext fun binding => ?_)
    -- The line of a binding comes before those of what is inside.
    rw [← List.singleton_append, List.filterMap_append, List.map_append]
    refine congrArg₂ (· ++ ·) ?_ ?_
    · rw [List.filterMap_cons, numberOf?]
      cases binding.value.integer s with
      | ok number => rfl
      | error cause => rfl
    · cases binding.value with
      | context inner =>
        dsimp only
        split
        · rfl
        · exact ih inner _
      | _ => rfl

/-- **The lines of a listing.** -/
theorem listing_eq (id : ScopeId) :
    s.listing id =
      String.join ((s.numbered id).map fun entry => listingLine entry.1 entry.2) := by
  rw [listing, listingFrom_eq, numbered]

/-! ## Full names -/

/-- The bindings of a scope and of its body as they stand, but for `$`. -/
def unsorted (s : Scopes) (id : ScopeId) : List Binding :=
  let own := ((s.get? id).map Scope.bindings).getD []
  let body := (((s.get? id).bind Scope.body).bind s.get?).map Scope.bindings
  (own ++ body.getD []).filter (·.name != selfName)

theorem listed_perm (id : ScopeId) : (s.listed id).Perm (s.unsorted id) :=
  (List.mergeSort_perm _ _).filter _

theorem mem_listed {binding : Binding} (h : binding ∈ s.listed id) :
    binding.name ≠ selfName ∧
      (s.HasBinding id binding ∨ ∃ body, s.body? id = some body ∧ s.HasBinding body binding) := by
  obtain ⟨hmem, hname⟩ := List.mem_filter.mp ((listed_perm id).mem_iff.mp h)
  refine ⟨by simpa using hname, ?_⟩
  rcases List.mem_append.mp hmem with hown | hbody
  · cases hscope : s.get? id with
    | none => simp [hscope] at hown
    | some scope => exact .inl ⟨scope, hscope, by simpa [hscope] using hown⟩
  · cases hlink : (s.get? id).bind Scope.body with
    | none => simp [hlink] at hbody
    | some body =>
      cases hscope : s.get? body with
      | none => simp [hlink, hscope] at hbody
      | some scope =>
        exact .inr ⟨body, hlink, scope, hscope, by simpa [hlink, hscope] using hbody⟩

/-- A full name goes on behind the name that is bound here. -/
theorem exists_of_mem_reachedFrom
    (hnames : ∀ id binding, s.HasBinding id binding → Text.IsName binding.name) {levels : Nat}
    {path name : String} {value : Expr} (h : (name, value) ∈ reachedFrom s.listed levels id path) :
    ∃ binding ∈ s.listed id, ∃ tail, name = path ++ binding.name ++ tail ∧ Text.IsName tail := by
  induction levels generalizing id path with
  | zero => cases h
  | succ levels ih =>
    obtain ⟨binding, hbinding, hmem⟩ := List.mem_flatMap.mp h
    refine ⟨binding, hbinding, ?_⟩
    rcases List.mem_cons.mp hmem with heq | hinside
    · cases heq
      exact ⟨"", by simp, by simp [Text.IsName]⟩
    · split at hinside
      · next inner _ =>
        split at hinside
        · cases hinside
        · obtain ⟨other, hother, tail, hname, htail⟩ := ih hinside
          refine ⟨"." ++ other.name ++ tail, by simp [hname, String.append_assoc], ?_⟩
          have hdot : Text.IsName "." := by
            intro c hc
            rw [List.mem_singleton.mp hc]
            exact .inl (by decide)
          have hbound : Text.IsName other.name := by
            rcases (mem_listed hother).2 with hown | ⟨body, -, hbody⟩
            · exact hnames _ _ hown
            · exact hnames _ _ hbody
          exact (hdot.append hbound).append htail
      · cases hinside

/-- What is reached from a root begins as a word does. -/
theorem Rooted.isFullName (h : s.Rooted root) {entry : String × Int64}
    (hmem : entry ∈ s.numbered root) : Text.IsFullName entry.1 := by
  obtain ⟨⟨name, value⟩, hreached, hsome⟩ := List.mem_filterMap.mp hmem
  obtain ⟨number, -, rfl⟩ := Option.map_eq_some_iff.mp hsome
  obtain ⟨binding, hbinding, tail, hname, htail⟩ := exists_of_mem_reachedFrom h.names hreached
  refine ⟨binding.name, tail, by simpa using hname, ?_, htail⟩
  obtain ⟨hself, hown | ⟨body, hbody, -⟩⟩ := mem_listed hbinding
  · exact (h.words binding hown).resolve_left hself
  · rw [h.bare] at hbody
    cases hbody

/-! ## Order -/

theorem reachedFrom_perm {f g : ScopeId → List Binding} (h : ∀ id, (f id).Perm (g id))
    (levels : Nat) (id : ScopeId) (path : String) :
    (reachedFrom f levels id path).Perm (reachedFrom g levels id path) := by
  induction levels generalizing id path with
  | zero => exact .refl _
  | succ levels ih =>
    apply (h id).flatMap
    intro binding _
    apply List.Perm.cons
    cases binding.value with
    | context inner =>
      dsimp only
      split
      · exact .refl _
      · exact ih inner _
    | _ => exact .refl _

/-- The symbols of `numbered`, in an order that needs no sorting. -/
def gathered (s : Scopes) (id : ScopeId) : List (String × Int64) :=
  (reachedFrom s.unsorted (maxDepth + 1) id "").filterMap s.numberOf?

theorem numbered_perm (id : ScopeId) : (s.numbered id).Perm (s.gathered id) :=
  (reachedFrom_perm listed_perm _ _ _).filterMap _

/-- Whether all full names of a listing are different and none has an apostrophe. -/
def namesApart (s : Scopes) (id : ScopeId) : Bool :=
  decide ((s.gathered id).map Prod.fst).Nodup &&
    (s.gathered id).all fun entry => !entry.1.toList.contains '\''

theorem namesApart_iff :
    s.namesApart id = true ↔ ((s.numbered id).map Prod.fst).Nodup ∧
      ∀ entry ∈ s.numbered id, '\'' ∉ entry.1.toList := by
  have hperm := numbered_perm (s := s) id
  rw [(hperm.map Prod.fst).nodup_iff, namesApart, Bool.and_eq_true, decide_eq_true_iff,
    List.all_eq_true]
  simp [hperm.mem_iff]

end Z80Asm.Scopes
