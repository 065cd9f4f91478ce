import Z80Asm.Proofs.Expr.Termination
import Z80Asm.Proofs.Line.Definition
import Z80Asm.Proofs.Scope.Dotted
import Z80Asm.Proofs.Scope.Listed

/-!
# The listing and lookups

A path is a list of names, each of which is bound in the scope that the one before it is bound to,
or in the body of that scope. A listing goes along all paths from a scope, in their lexicographic
order (`listed_sorted`, `pathsFrom_sorted`), and has a line for those that lead to something with a
number. Looking the dotted name up goes along the same path (`Leads.lookupInside_eq`), so that both
agree (`listing_agrees`), if names have no dots, no body binds what its scope binds, and paths are
not so long that either gives up.

The conditions on names and bodies are met if no label has a dot and no body declares a name that
the scope of its line binds. Without them a dotted name may be found at another symbol of the same
name.

Paths are lists of names and not scopes, as one scope can be reached on several paths, and each of
them is a line of its own.
-/
set_option autoImplicit false

namespace Z80Asm

/-- The number of a literal, with the sign in front of it. -/
def Number.ofLiteral (literal : String) : Except Cause Int64 :=
  match literal.toList with
  | '-' :: digits => (parse (String.ofList digits)).map (-·)
  | _ => parse literal

theorem Number.ofLiteral_hexLiteral (v : Int64) : ofLiteral (Text.hexLiteral v) = .ok v := by
  have hbound := Int64.natAbs_toInt_lt_size v
  have htext := Text.toList_hexLiteral v
  by_cases hneg : v < 0
  · rw [if_pos hneg, List.append_assoc] at htext
    rw [ofLiteral, htext]
    show (parse (String.ofList (Text.literalDigits v.toInt.natAbs ++ ['H']))).map (-·) = .ok v
    rw [parse_literalDigits hbound]
    exact congrArg Except.ok (Int64.neg_ofNat_natAbs_of_neg hneg)
  · rw [if_neg hneg, List.nil_append] at htext
    have hparse : parse (Text.hexLiteral v) = .ok v := by
      rw [← String.ofList_toList (s := Text.hexLiteral v), htext, parse_literalDigits hbound,
        Int64.ofNat_natAbs_of_nonneg hneg]
    obtain ⟨c, rest, hdigits, hc⟩ := Text.exists_literalDigits_eq v.toInt.natAbs
    rw [ofLiteral, htext, hdigits]
    split
    · next heq =>
      rw [(List.cons.inj heq).1] at hc
      cases hc
    · exact hparse

/-- The dotted name that spells a path. -/
def dotted : List String → String
  | [] => ""
  | [name] => name
  | name :: path => name ++ "." ++ dotted path

theorem dotted_cons (name : String) {path : List String} (h : path ≠ []) :
    dotted (name :: path) = name ++ "." ++ dotted path := by
  cases path with
  | nil => exact absurd rfl h
  | cons next rest => rfl

theorem dotted_ne_empty {path : List String} (hne : path ≠ []) (h : ∀ name ∈ path, name ≠ "") :
    dotted path ≠ "" := by
  cases path with
  | nil => exact absurd rfl hne
  | cons name rest =>
    cases rest with
    | nil => exact h name List.mem_cons_self
    | cons next rest => simp [dotted]

/-- The text before the first dot, and that behind it. -/
theorem append_dot_inj {a b x y : List Char} (ha : '.' ∉ a) (hb : '.' ∉ b)
    (h : a ++ '.' :: x = b ++ '.' :: y) : a = b ∧ x = y := by
  induction a generalizing b with
  | nil =>
    cases b with
    | nil =>
      cases h
      exact ⟨rfl, rfl⟩
    | cons c rest =>
      cases h
      exact absurd List.mem_cons_self hb
  | cons c rest ih =>
    cases b with
    | nil =>
      cases h
      exact absurd List.mem_cons_self ha
    | cons d rest' =>
      obtain ⟨rfl, hrest⟩ := List.cons.inj h
      obtain ⟨rfl, rfl⟩ := ih (fun hc => ha (List.mem_cons_of_mem _ hc))
        (fun hc => hb (List.mem_cons_of_mem _ hc)) hrest
      exact ⟨rfl, rfl⟩

theorem dotted_inj {path path' : List String} (hne : path ≠ []) (hne' : path' ≠ [])
    (h : ∀ name ∈ path, '.' ∉ name.toList) (h' : ∀ name ∈ path', '.' ∉ name.toList)
    (heq : dotted path = dotted path') : path = path' := by
  induction path generalizing path' with
  | nil => exact absurd rfl hne
  | cons name rest ih =>
    cases path' with
    | nil => exact absurd rfl hne'
    | cons name' rest' =>
      obtain ⟨hname, hrest⟩ := List.forall_mem_cons.mp h
      obtain ⟨hname', hrest'⟩ := List.forall_mem_cons.mp h'
      by_cases hlast : rest = []
      · subst hlast
        by_cases hlast' : rest' = []
        · subst hlast'
          rw [show name = name' from heq]
        · rw [dotted_cons name' hlast'] at heq
          exact absurd (by rw [show name = _ from heq]; simp) hname
      · rw [dotted_cons name hlast] at heq
        by_cases hlast' : rest' = []
        · subst hlast'
          exact absurd (by rw [show name' = _ from heq.symm]; simp) hname'
        · rw [dotted_cons name' hlast'] at heq
          have hlists : name.toList ++ '.' :: (dotted rest).toList =
              name'.toList ++ '.' :: (dotted rest').toList := by
            simpa using congrArg String.toList heq
          obtain ⟨hfront, hback⟩ := append_dot_inj hname hname' hlists
          rw [String.toList_inj.mp hfront,
            ih hlast hlast' hrest hrest' (String.toList_inj.mp hback)]

namespace Scopes

variable {s : Scopes} {id : ScopeId}

/-- A binding of a scope or of its body, `$` apart. -/
def Offers (s : Scopes) (id : ScopeId) (binding : Binding) : Prop :=
  binding.name ≠ selfName ∧
    (s.HasBinding id binding ∨ ∃ body, s.body? id = some body ∧ s.HasBinding body binding)

/-- The ways from a scope to a bound value, by the names on the way. The names are the index because
    they are all that a listing shows. -/
inductive Leads (s : Scopes) : ScopeId → List String → Expr → Prop
  | last {id : ScopeId} {binding : Binding} (h : s.Offers id binding) :
      Leads s id [binding.name] binding.value
  | inside {id inner : ScopeId} {binding : Binding} {path : List String} {value : Expr}
      (h : s.Offers id binding) (hinner : binding.value = .context inner)
      (hpath : Leads s inner path value) : Leads s id (binding.name :: path) value

/-- No body binds what its scope binds, `$` apart. -/
def BodiesApart (s : Scopes) : Prop :=
  ∀ id body binding binding', s.body? id = some body → s.HasBinding id binding →
    s.HasBinding body binding' → binding.name = binding'.name → binding.name = selfName

/-- The scopes that are reached from a scope nest at most so deep. Lookups and listings give up at a
    depth, each at its own. -/
def Nests (s : Scopes) (depth : Nat) (id : ScopeId) : Prop :=
  ∀ path inner, s.Leads id path (.context inner) → path.length ≤ depth

theorem Leads.ne_nil {path : List String} {value : Expr} (h : s.Leads id path value) : path ≠ [] := by
  cases h <;> exact List.cons_ne_nil _ _

/-- All names on a way have what all bound names have. -/
theorem Leads.forall_mem {P : String → Prop}
    (hs : ∀ id binding, s.HasBinding id binding → P binding.name) {path : List String} {value : Expr}
    (h : s.Leads id path value) : ∀ name ∈ path, P name := by
  have hoffers : ∀ {id binding}, s.Offers id binding → P binding.name := by
    rintro id binding ⟨-, hown | ⟨body, -, hbody⟩⟩
    · exact hs id binding hown
    · exact hs body binding hbody
  induction h with
  | last h => exact List.forall_mem_singleton.mpr (hoffers h)
  | inside h _ _ ih => exact List.forall_mem_cons.mpr ⟨hoffers h, ih⟩

theorem Leads.mem_values {path : List String} {value : Expr} (h : s.Leads id path value) :
    value ∈ s.values := by
  induction h with
  | last h =>
    obtain ⟨-, ⟨_, hscope, hbinding⟩ | ⟨_, -, _, hscope, hbinding⟩⟩ := h
    · exact mem_values_of_binding hscope hbinding
    · exact mem_values_of_binding hscope hbinding
  | inside _ _ _ ih => exact ih

theorem Leads.undotted (hs : s.Undotted) {path : List String} {value : Expr}
    (h : s.Leads id path value) : ∀ name ∈ path, '.' ∉ name.toList :=
  h.forall_mem (P := fun name => '.' ∉ name.toList) hs

theorem Leads.nonempty (hs : s.Named) {path : List String} {value : Expr}
    (h : s.Leads id path value) : ∀ name ∈ path, name ≠ "" :=
  h.forall_mem (P := fun name => name ≠ "") hs.nonempty

/-! ## How deep scopes nest -/

theorem Nests.inside {depth : Nat} {binding : Binding} {inner : ScopeId} (h : s.Nests depth id)
    (hoffers : s.Offers id binding) (hinner : binding.value = .context inner) :
    ∃ less, depth = less + 1 ∧ s.Nests less inner := by
  have hone := h [binding.name] inner (hinner ▸ .last hoffers)
  refine ⟨depth - 1, by simp at hone; omega, fun path next hpath => ?_⟩
  have hmore := h (binding.name :: path) next (.inside hoffers hinner hpath)
  simp at hmore
  omega

theorem Nests.length_le {depth : Nat} {path : List String} {value : Expr} (h : s.Nests depth id)
    (hpath : s.Leads id path value) : path.length ≤ depth + 1 := by
  induction hpath generalizing depth with
  | last => simp
  | inside hoffers hinner _ ih =>
    obtain ⟨less, rfl, hless⟩ := h.inside hoffers hinner
    exact Nat.succ_le_succ (ih hless)

/-- A scope that is inside itself would nest without end. -/
theorem Nests.inner_ne {depth : Nat} {binding : Binding} {inner : ScopeId} (h : s.Nests depth id)
    (hoffers : s.Offers id binding) (hinner : binding.value = .context inner) : inner ≠ id := by
  rintro rfl
  induction depth with
  | zero =>
    obtain ⟨less, hless, -⟩ := h.inside hoffers hinner
    cases hless
  | succ depth ih =>
    obtain ⟨less, hless, hnests⟩ := h.inside hoffers hinner
    cases hless
    exact ih hnests

/-! ## Looking a path up -/

theorem Named.find?_eq (hs : s.Named) {binding : Binding} (h : s.HasBinding id binding) :
    (s.get? id).bind (·.find? binding.name none) = some binding.value := by
  obtain ⟨scope, hscope, hbinding⟩ := Option.bind_eq_some_iff.mp (hs.binding?_eq h)
  exact binds_iff.mp ⟨scope, binding, hscope, hbinding, rfl⟩

/-- What is in the body is not in the scope itself. -/
theorem BodiesApart.find?_eq_none (hs : s.BodiesApart) {binding : Binding} {body : ScopeId}
    (hself : binding.name ≠ selfName) (hlink : s.body? id = some body)
    (h : s.HasBinding body binding) : (s.get? id).bind (·.find? binding.name none) = none := by
  rw [Option.eq_none_iff_forall_ne_some]
  intro value hvalue
  obtain ⟨scope, own, hscope, hbinding, -⟩ := binds_iff.mpr hvalue
  obtain ⟨hown, hname⟩ := hasBinding_of_binding? hscope hbinding
  exact hself (hname ▸ hs id body own binding hlink hown h hname)

/-- The lookup of a name at one of its dots. -/
def atSplit (s : Scopes) (levels : Nat) (scope : Scope) (split : String × String) : Asking Expr := do
  let value ← (scope.find? split.1 none).getM
  let inner ← Asking.scopeOf value
  insideBy s Asking.scopeOf levels inner split.2 none

section

variable {name : String} {value : Expr} {levels : Nat}

theorem outright_insideBy_own (h : (s.get? id).bind (·.find? name none) = some value) :
    (insideBy s Asking.scopeOf (levels + 1) id name none).Outright (some value) := by
  obtain ⟨scope, hscope, hfind⟩ := Option.bind_eq_some_iff.mp h
  rw [insideBy, hscope]
  simp only [hfind]
  exact (Inquiry.outright_pure value).orElse_of_some _

theorem outright_insideBy_body {body : ScopeId} (h : (s.get? id).bind (·.find? name none) = none)
    (hsplits : ∀ scope, s.get? id = some scope →
      ((dotSplits name).firstM (s.atSplit levels scope)).Outright none)
    (hlink : s.body? id = some body)
    (hbody : (insideBy s Asking.scopeOf levels body name none).Outright (some value)) :
    (insideBy s Asking.scopeOf (levels + 1) id name none).Outright (some value) := by
  obtain ⟨scope, hscope, hscopeBody⟩ := Option.bind_eq_some_iff.mp hlink
  rw [hscope, Option.bind_some] at h
  rw [insideBy, hscope]
  simp only [h, hscopeBody]
  refine Inquiry.outright_failure.orElse_of_none ((hsplits scope hscope).orElse_of_none ?_)
  exact (Inquiry.outright_pure body).bind_some hbody

variable {front rest : String} (hs : s.Undotted) (hdot : '.' ∉ front.toList) (hfront : front ≠ "")
  (hrest : rest ≠ "")

include hs

theorem Undotted.find?_dotted (id : ScopeId) :
    (s.get? id).bind (·.find? (front ++ "." ++ rest) none) = none := by
  cases hid : s.get? id with
  | none => rfl
  | some scope => exact hs.find?_eq_none hid (by simp) none

include hdot hfront hrest

/-- A dotted name whose front is not bound here is found at none of its dots. -/
theorem Undotted.outright_splits (h : (s.get? id).bind (·.find? front none) = none) (scope : Scope)
    (hscope : s.get? id = some scope) :
    ((dotSplits (front ++ "." ++ rest)).firstM (s.atSplit levels scope)).Outright none := by
  obtain ⟨later, hsplits, hlater⟩ := dotSplits_dotted hdot hfront hrest
  rw [hscope, Option.bind_some] at h
  refine Inquiry.outright_firstM_of_none fun split hsplit => ?_
  have hnone : scope.find? split.1 none = none := by
    rw [hsplits] at hsplit
    cases hsplit with
    | head => exact h
    | tail _ hsplit => exact hs.find?_eq_none hscope (hlater split hsplit) none
  rw [atSplit, hnone]
  exact Inquiry.outright_failure.bind_none _

/-- A dotted name whose front is bound to a scope is looked up in there. -/
theorem Undotted.outright_insideBy {inner : ScopeId}
    (h : (s.get? id).bind (·.find? front none) = some (.context inner))
    (hinner : (insideBy s Asking.scopeOf levels inner rest none).Outright (some value)) :
    (insideBy s Asking.scopeOf (levels + 1) id (front ++ "." ++ rest) none).Outright (some value) := by
  obtain ⟨later, hsplits, -⟩ := dotSplits_dotted hdot hfront hrest
  obtain ⟨scope, hscope, hfind⟩ := Option.bind_eq_some_iff.mp h
  have hwhole : scope.find? (front ++ "." ++ rest) none = none :=
    hs.find?_eq_none hscope (by simp) none
  have hfound : (s.atSplit levels scope (front, rest)).Outright (some value) := by
    rw [atSplit, hfind]
    exact (Inquiry.outright_pure (Expr.context inner)).bind_some
      ((Inquiry.outright_pure inner).bind_some hinner)
  rw [insideBy, hscope]
  simp only [hwhole, hsplits, List.firstM]
  exact Inquiry.outright_failure.orElse_of_none ((hfound.orElse_of_some _).orElse_of_some _)

end

/-- A dotted name is looked up along the path that it spells, with two levels for each name. -/
theorem Leads.lookupInside_eq (hnamed : s.Named) (hdots : s.Undotted) (hapart : s.BodiesApart)
    {path : List String} {value : Expr} (h : s.Leads id path value) {levels : Nat}
    (hlevels : 2 * path.length ≤ levels) :
    s.lookupInside s.scopeOf levels id (dotted path) none = some value := by
  induction h generalizing levels with
  | last h =>
    next id binding =>
    obtain ⟨levels, rfl⟩ : ∃ k, levels = k + 2 := ⟨levels - 2, by simp at hlevels; omega⟩
    have hsplits := dotSplits_eq_nil ((Leads.last h).undotted hdots binding.name List.mem_cons_self)
    obtain ⟨hself, hown | ⟨body, hlink, hbody⟩⟩ := h
    · rw [dotted, lookupInside_eq_or hsplits, hnamed.find?_eq hown]
      rfl
    · rw [dotted, lookupInside_eq_or hsplits, hapart.find?_eq_none hself hlink hbody, hlink,
        Option.none_or, Option.bind_some, lookupInside_eq_or hsplits, hnamed.find?_eq hbody]
      rfl
  | inside h hinner hpath ih =>
    next id inner binding path value =>
    obtain ⟨levels, rfl⟩ : ∃ k, levels = k + 2 := ⟨levels - 2, by simp at hlevels; omega⟩
    have hfits : 2 * path.length ≤ levels := by
      simp at hlevels
      omega
    have hwhole := Leads.inside h hinner hpath
    have hdot := hwhole.undotted hdots binding.name List.mem_cons_self
    have hname := hwhole.nonempty hnamed binding.name List.mem_cons_self
    have hrest := dotted_ne_empty hpath.ne_nil (hpath.nonempty hnamed)
    rw [dotted_cons binding.name hpath.ne_nil, hdots.lookupInside_dotted hdot hname hrest]
    obtain ⟨hself, hown | ⟨body, hlink, hbody⟩⟩ := h
    · rw [hnamed.find?_eq hown, hinner, Option.bind_some, scopeOf_context, Option.bind_some,
        ih (by omega)]
      rfl
    · rw [hapart.find?_eq_none hself hlink hbody, hlink, Option.bind_none, Option.bind_none,
        Option.none_or, Option.bind_some, hdots.lookupInside_dotted hdot hname hrest,
        hnamed.find?_eq hbody, hinner, Option.bind_some, scopeOf_context, Option.bind_some, ih hfits]
      rfl

/-- Nothing has to be evaluated to look a path up: each name on the way is bound to a scope. -/
theorem Leads.outright (hnamed : s.Named) (hdots : s.Undotted) (hapart : s.BodiesApart)
    {path : List String} {value : Expr} (h : s.Leads id path value) {levels : Nat}
    (hlevels : 2 * path.length ≤ levels) :
    (insideBy s Asking.scopeOf levels id (dotted path) none).Outright (some value) := by
  induction h generalizing levels with
  | last h =>
    next id binding =>
    obtain ⟨levels, rfl⟩ : ∃ k, levels = k + 2 := ⟨levels - 2, by simp at hlevels; omega⟩
    have hsplits := dotSplits_eq_nil ((Leads.last h).undotted hdots binding.name List.mem_cons_self)
    obtain ⟨hself, hown | ⟨body, hlink, hbody⟩⟩ := h
    · exact outright_insideBy_own (hnamed.find?_eq hown)
    · refine outright_insideBy_body (hapart.find?_eq_none hself hlink hbody) (fun _ _ => ?_) hlink
        (outright_insideBy_own (hnamed.find?_eq hbody))
      rw [dotted, hsplits]
      exact Inquiry.outright_failure
  | inside h hinner hpath ih =>
    next id inner binding path value =>
    obtain ⟨levels, rfl⟩ : ∃ k, levels = k + 2 := ⟨levels - 2, by simp at hlevels; omega⟩
    have hfits : 2 * path.length ≤ levels := by
      simp at hlevels
      omega
    have hwhole := Leads.inside h hinner hpath
    have hdot := hwhole.undotted hdots binding.name List.mem_cons_self
    have hname := hwhole.nonempty hnamed binding.name List.mem_cons_self
    have hrest := dotted_ne_empty hpath.ne_nil (hpath.nonempty hnamed)
    rw [dotted_cons binding.name hpath.ne_nil]
    obtain ⟨hself, hown | ⟨body, hlink, hbody⟩⟩ := h
    · exact hdots.outright_insideBy hdot hname hrest (hinner ▸ hnamed.find?_eq hown) (ih (by omega))
    · refine outright_insideBy_body (hdots.find?_dotted id) ?_ hlink
        (hdots.outright_insideBy hdot hname hrest (hinner ▸ hnamed.find?_eq hbody) (ih hfits))
      exact hdots.outright_splits hdot hname hrest (hapart.find?_eq_none hself hlink hbody)

/-! ## Listing the paths -/

theorem mem_listed_iff {binding : Binding} : binding ∈ s.listed id ↔ s.Offers id binding := by
  refine ⟨mem_listed, ?_⟩
  rintro ⟨hself, hbound⟩
  refine (listed_perm id).mem_iff.mpr ?_
  refine List.mem_filter.mpr ⟨List.mem_append.mpr ?_, by simpa using hself⟩
  rcases hbound with ⟨scope, hscope, hmem⟩ | ⟨body, hlink, scope, hscope, hmem⟩
  · rw [hscope]
    exact .inl hmem
  · rw [show (s.get? id).bind Scope.body = some body from hlink, Option.bind_some, hscope]
    exact .inr hmem

theorem Named.pairwise_bindings (hs : s.Named) (link : Option ScopeId) :
    (((link.bind s.get?).map Scope.bindings).getD []).Pairwise (·.name ≠ ·.name) := by
  cases hfound : link.bind s.get? with
  | none => exact .nil
  | some scope =>
    obtain ⟨id, -, hid⟩ := Option.bind_eq_some_iff.mp hfound
    exact List.pairwise_map.mp (hs.nodup id scope hid)

theorem hasBinding_of_mem_getD (link : Option ScopeId) {binding : Binding}
    (h : binding ∈ ((link.bind s.get?).map Scope.bindings).getD []) :
    ∃ id, link = some id ∧ s.HasBinding id binding := by
  cases hfound : link.bind s.get? with
  | none =>
    rw [hfound] at h
    cases h
  | some scope =>
    obtain ⟨id, hlink, hid⟩ := Option.bind_eq_some_iff.mp hfound
    rw [hfound] at h
    exact ⟨id, hlink, scope, hid, h⟩

/-- No name is listed twice for a scope. -/
theorem unsorted_pairwise (hs : s.Named) (hapart : s.BodiesApart) (id : ScopeId) :
    (s.unsorted id).Pairwise (·.name ≠ ·.name) := by
  refine List.pairwise_filter.mpr (List.pairwise_append.mpr ⟨?_, ?_, ?_⟩)
  · exact (hs.pairwise_bindings (some id)).imp fun h _ _ => h
  · exact (hs.pairwise_bindings (s.body? id)).imp fun h _ _ => h
  · intro a ha b hb hself _ heq
    obtain ⟨_, hid, hown⟩ := hasBinding_of_mem_getD (some id) ha
    cases hid
    obtain ⟨body, hlink, hbody⟩ := hasBinding_of_mem_getD (s.body? id) hb
    simp [hapart id body a b hlink hown hbody heq] at hself

/-- The names of a scope are listed in their order. -/
theorem listed_sorted (hs : s.Named) (hapart : s.BodiesApart) (id : ScopeId) :
    (s.listed id).Pairwise (·.name < ·.name) := by
  have hne : (s.listed id).Pairwise (·.name ≠ ·.name) :=
    (listed_perm id).symm.pairwise (unsorted_pairwise hs hapart id) fun h => h.symm
  have hle : (s.listed id).Pairwise (·.name ≤ ·.name) := by
    refine List.Pairwise.filter _ ((List.pairwise_mergeSort ?_ ?_ _).imp fun h => of_decide_eq_true h)
    · intro a b c hab hbc
      exact decide_eq_true (String.le_trans (of_decide_eq_true hab) (of_decide_eq_true hbc))
    · intro a b
      simpa using String.le_total a.name b.name
  refine (hle.and hne).imp fun {a b} h => ?_
  exact String.not_le.mp fun hba => h.2 (String.le_antisymm h.1 hba)

/-- The paths through a binding, of those that go on `inside` a scope. -/
def pathsThrough (id : ScopeId) (inside : ScopeId → List (List String × Expr)) (binding : Binding) :
    List (List String × Expr) :=
  ([binding.name], binding.value) ::
    match binding.value with
    | .context inner =>
      if inner = id then []
      else (inside inner).map fun entry => (binding.name :: entry.1, entry.2)
    | _ => []

/-- The paths that a listing goes along. -/
def pathsFrom (s : Scopes) : Nat → ScopeId → List (List String × Expr)
  | 0, _ => []
  | levels + 1, id => (s.listed id).flatMap (pathsThrough id (s.pathsFrom levels))

theorem mem_pathsThrough {inside : ScopeId → List (List String × Expr)} {binding : Binding}
    {path : List String} {value : Expr} :
    (path, value) ∈ pathsThrough id inside binding ↔
      path = [binding.name] ∧ value = binding.value ∨
        ∃ inner rest, binding.value = .context inner ∧ inner ≠ id ∧ path = binding.name :: rest ∧
          (rest, value) ∈ inside inner := by
  rw [pathsThrough, List.mem_cons, Prod.mk.injEq]
  refine or_congr Iff.rfl ?_
  split
  · next inner hinner =>
    split
    · next hloop => simp [hinner, hloop]
    · next hinside =>
      constructor
      · intro h
        obtain ⟨⟨rest, value'⟩, hmem, heq⟩ := List.mem_map.mp h
        cases heq
        exact ⟨inner, rest, hinner, hinside, rfl, hmem⟩
      · rintro ⟨_, rest, heq, -, rfl, hmem⟩
        cases hinner.symm.trans heq
        exact List.mem_map.mpr ⟨(rest, value), hmem, rfl⟩
  · next hother =>
    refine iff_of_false List.not_mem_nil ?_
    rintro ⟨inner, rest, hinner, -⟩
    exact hother inner hinner

theorem exists_eq_cons_of_mem_pathsThrough {inside : ScopeId → List (List String × Expr)}
    {binding : Binding} {entry : List String × Expr} (h : entry ∈ pathsThrough id inside binding) :
    ∃ rest, entry.1 = binding.name :: rest := by
  obtain ⟨path, value⟩ := entry
  obtain ⟨rfl, -⟩ | ⟨_, rest, -, -, rfl, -⟩ := mem_pathsThrough.mp h
  · exact ⟨[], rfl⟩
  · exact ⟨rest, rfl⟩

/-- A listing that does not give up goes along all paths. -/
theorem Nests.mem_pathsFrom {depth : Nat} (h : s.Nests depth id) {levels : Nat}
    (hlevels : depth < levels) {path : List String} {value : Expr} :
    (path, value) ∈ s.pathsFrom levels id ↔ s.Leads id path value := by
  induction levels generalizing depth id path with
  | zero => omega
  | succ levels ih =>
    simp only [pathsFrom, List.mem_flatMap, mem_pathsThrough]
    constructor
    · rintro ⟨binding, hmem, ⟨rfl, rfl⟩ | ⟨inner, rest, hinner, -, rfl, hrest⟩⟩
      · exact .last (mem_listed_iff.mp hmem)
      · obtain ⟨less, rfl, hless⟩ := h.inside (mem_listed_iff.mp hmem) hinner
        exact .inside (mem_listed_iff.mp hmem) hinner ((ih hless (by omega)).mp hrest)
    · intro hpath
      cases hpath with
      | last hoffers => exact ⟨_, mem_listed_iff.mpr hoffers, .inl ⟨rfl, rfl⟩⟩
      | inside hoffers hinner hrest =>
        obtain ⟨less, rfl, hless⟩ := h.inside hoffers hinner
        exact ⟨_, mem_listed_iff.mpr hoffers, .inr ⟨_, _, hinner, h.inner_ne hoffers hinner, rfl,
          (ih hless (by omega)).mpr hrest⟩⟩

theorem ne_nil_of_mem_pathsFrom {levels : Nat} {entry : List String × Expr}
    (h : entry ∈ s.pathsFrom levels id) : entry.1 ≠ [] := by
  cases levels with
  | zero => cases h
  | succ levels =>
    obtain ⟨binding, -, hmem⟩ := List.mem_flatMap.mp h
    obtain ⟨rest, hpath⟩ := exists_eq_cons_of_mem_pathsThrough hmem
    rw [hpath]
    exact List.cons_ne_nil _ _

/-- A listing goes along its paths in their lexicographic order. -/
theorem pathsFrom_sorted (hs : s.Named) (hapart : s.BodiesApart) (levels : Nat) (id : ScopeId) :
    (s.pathsFrom levels id).Pairwise (·.1 < ·.1) := by
  induction levels generalizing id with
  | zero => exact .nil
  | succ levels ih =>
    refine List.pairwise_flatMap.mpr ⟨fun binding _ => ?_, ?_⟩
    · -- Behind one binding come the paths inside it, which are longer and sorted.
      rw [pathsThrough]
      cases binding.value with
      | context inner =>
        dsimp only
        split
        · exact List.pairwise_singleton _ _
        · refine .cons (fun entry hentry => ?_) (List.pairwise_map.mpr ((ih inner).imp fun h => ?_))
          · obtain ⟨⟨rest, value⟩, hmem, rfl⟩ := List.mem_map.mp hentry
            obtain ⟨next, rest, rfl⟩ := List.exists_cons_of_ne_nil (ne_nil_of_mem_pathsFrom hmem)
            exact List.cons_lt_cons_iff.mpr (.inr ⟨rfl, List.nil_lt_cons _ _⟩)
          · exact List.cons_lt_cons_iff.mpr (.inr ⟨rfl, h⟩)
      | _ => exact List.pairwise_singleton _ _
    · -- Of two bindings, the names decide.
      refine (listed_sorted hs hapart id).imp fun hlt entry hentry entry' hentry' => ?_
      obtain ⟨rest, hpath⟩ := exists_eq_cons_of_mem_pathsThrough hentry
      obtain ⟨rest', hpath'⟩ := exists_eq_cons_of_mem_pathsThrough hentry'
      rw [hpath, hpath']
      exact List.cons_lt_cons_iff.mpr (.inl hlt)

/-- Full names are dotted names of paths. -/
theorem reachedFrom_eq (levels : Nat) (id : ScopeId) (front : String) :
    reachedFrom s.listed levels id front =
      (s.pathsFrom levels id).map fun entry => (front ++ dotted entry.1, entry.2) := by
  induction levels generalizing id front with
  | zero => rfl
  | succ levels ih =>
    rw [reachedFrom, pathsFrom, List.map_flatMap]
    refine congrArg (List.flatMap · (s.listed id)) (funext fun binding => ?_)
    rw [pathsThrough, List.map_cons]
    refine congrArg (List.cons _) ?_
    cases binding.value with
    | context inner =>
      dsimp only
      split
      · rfl
      · rw [ih, List.map_map]
        refine List.map_congr_left fun entry hentry => ?_
        simp only [Function.comp_apply, dotted_cons binding.name (ne_nil_of_mem_pathsFrom hentry),
          String.append_assoc]
    | _ => rfl

/-! ## Deciding the assumptions -/

theorem bodiesApart_iff :
    s.BodiesApart ↔ ∀ scope ∈ s.nodes.toList, ∀ other ∈ (scope.body.bind s.get?).toList,
      ∀ binding ∈ scope.bindings, ∀ binding' ∈ other.bindings,
        binding.name = binding'.name → binding.name = selfName := by
  constructor
  · intro hs scope hscope other hother binding hbinding binding' hbinding'
    obtain ⟨i, hi⟩ := List.mem_iff_getElem?.mp hscope
    have hid : s.get? ⟨i⟩ = some scope := by rwa [get?, ← Array.getElem?_toList]
    obtain ⟨body, hbody, hlinked⟩ := Option.bind_eq_some_iff.mp (Option.mem_toList.mp hother)
    exact hs ⟨i⟩ body binding binding' (by rw [body?, hid]; exact hbody) ⟨scope, hid, hbinding⟩
      ⟨other, hlinked, hbinding'⟩
  · rintro hs id body binding binding' hlink ⟨scope, hscope, hbinding⟩ ⟨other, hother, hbinding'⟩
    have hbody : scope.body = some body := by rwa [body?, hscope] at hlink
    refine hs scope (Array.mem_of_getElem? hscope).val other ?_ binding hbinding binding' hbinding'
    rw [hbody, Option.mem_toList]
    exact hother

instance (s : Scopes) : Decidable s.BodiesApart :=
  decidable_of_iff _ bodiesApart_iff.symm

/-- The scopes that are bound in a scope or in its body. -/
def innerScopes (s : Scopes) (id : ScopeId) : List ScopeId :=
  (s.unsorted id).filterMap fun binding =>
    match binding.value with
    | .context inner => some inner
    | _ => none

theorem mem_innerScopes {inner : ScopeId} :
    inner ∈ s.innerScopes id ↔ ∃ binding, s.Offers id binding ∧ binding.value = .context inner := by
  rw [innerScopes, List.mem_filterMap]
  refine exists_congr fun binding => and_congr ((listed_perm id).mem_iff.symm.trans mem_listed_iff) ?_
  split
  · next hvalue => simp [hvalue]
  · next hother => exact iff_of_false (fun h => by cases h) (hother inner)

/-- Whether scopes nest at most so deep. -/
def nestsWithin (s : Scopes) : Nat → ScopeId → Bool
  | 0, id => (s.innerScopes id).isEmpty
  | depth + 1, id => (s.innerScopes id).all (s.nestsWithin depth)

/-- A way to a scope goes through one that is bound here. -/
theorem Leads.exists_mem_innerScopes {path : List String} {inner : ScopeId}
    (h : s.Leads id path (.context inner)) :
    ∃ next ∈ s.innerScopes id, path.length = 1 ∨
      ∃ rest, path.length = rest.length + 1 ∧ s.Leads next rest (.context inner) := by
  generalize hvalue : Expr.context inner = value at h
  cases h with
  | last hoffers => exact ⟨inner, mem_innerScopes.mpr ⟨_, hoffers, hvalue.symm⟩, .inl rfl⟩
  | inside hoffers hnext hrest =>
    exact ⟨_, mem_innerScopes.mpr ⟨_, hoffers, hnext⟩, .inr ⟨_, rfl, hrest⟩⟩

theorem nestsWithin_iff {depth : Nat} : s.nestsWithin depth id = true ↔ s.Nests depth id := by
  induction depth generalizing id with
  | zero =>
    rw [nestsWithin, List.isEmpty_iff, List.eq_nil_iff_forall_not_mem]
    constructor
    · intro hnone path inner hpath
      obtain ⟨next, hnext, -⟩ := hpath.exists_mem_innerScopes
      exact absurd hnext (hnone next)
    · intro h inner hinner
      obtain ⟨binding, hoffers, hvalue⟩ := mem_innerScopes.mp hinner
      obtain ⟨less, hless, -⟩ := h.inside hoffers hvalue
      cases hless
  | succ depth ih =>
    rw [nestsWithin, List.all_eq_true]
    constructor
    · intro hall path inner hpath
      obtain ⟨next, hnext, hone | ⟨rest, hlength, hrest⟩⟩ := hpath.exists_mem_innerScopes
      · omega
      · have hless := ih.mp (hall next hnext) rest inner hrest
        omega
    · intro h inner hinner
      obtain ⟨binding, hoffers, hvalue⟩ := mem_innerScopes.mp hinner
      obtain ⟨less, hless, hnests⟩ := h.inside hoffers hvalue
      cases hless
      exact ih.mpr hnests

instance (s : Scopes) (depth : Nat) (id : ScopeId) : Decidable (s.Nests depth id) :=
  decidable_of_iff _ nestsWithin_iff

/-! ## Agreement -/

/-- The paths of a listing that lead to a number, with the number. -/
def symbolPaths (s : Scopes) (id : ScopeId) : List (List String × Int64) :=
  (s.pathsFrom (maxDepth + 1) id).filterMap fun entry =>
    (entry.2.integer s).toOption.map fun number => (entry.1, number)

theorem numbered_eq (id : ScopeId) :
    s.numbered id = (s.symbolPaths id).map fun symbol => (dotted symbol.1, symbol.2) := by
  rw [numbered, symbolPaths, reachedFrom_eq, List.filterMap_map, List.map_filterMap]
  refine List.filterMap_congr fun entry _ => ?_
  simp [numberOf?, Function.comp_def]

theorem mem_symbolPaths {path : List String} {v : Int64} :
    (path, v) ∈ s.symbolPaths id ↔
      ∃ value, (path, value) ∈ s.pathsFrom (maxDepth + 1) id ∧ value.integer s = .ok v := by
  rw [symbolPaths, List.mem_filterMap]
  constructor
  · rintro ⟨⟨path', value⟩, hmem, hsome⟩
    obtain ⟨v', hv, heq⟩ := Option.map_eq_some_iff.mp hsome
    cases heq
    cases hinteger : value.integer s with
    | ok number =>
      rw [hinteger] at hv
      cases hv
      exact ⟨value, hmem, hinteger⟩
    | error cause =>
      rw [hinteger] at hv
      cases hv
  · rintro ⟨value, hmem, hv⟩
    exact ⟨(path, value), hmem, by rw [hv]; rfl⟩

theorem Nests.mem_symbolPaths_iff (h : s.Nests 100 id) {path : List String} {v : Int64} :
    (path, v) ∈ s.symbolPaths id ↔ ∃ value, s.Leads id path value ∧ value.integer s = .ok v := by
  rw [mem_symbolPaths]
  exact exists_congr fun value => and_congr_left fun _ => h.mem_pathsFrom (by decide)

/-- What a path leads to is the member of its dotted name. -/
theorem Leads.member_eq (hnamed : s.Named) (hdots : s.Undotted) (hapart : s.BodiesApart)
    (hnest : s.Nests 100 id) {path : List String} {value : Expr} (h : s.Leads id path value) :
    s.member id (dotted path) = .ok value := by
  have hlength := hnest.length_le h
  exact member_eq_ok.mpr (h.lookupInside_eq hnamed hdots hapart (by simp only [maxDepth]; omega))

theorem Leads.ends_member (hnamed : s.Named) (hdots : s.Undotted) (hapart : s.BodiesApart)
    (hnest : s.Nests 100 id) {path : List String} {value : Expr} (h : s.Leads id path value) :
    Ends s (Asking.member s id (dotted path)) (some value) := by
  have hlength := hnest.length_le h
  exact .of_outright (h.outright hnamed hdots hapart (by simp only [maxDepth]; omega))

theorem symbolPaths_sorted (hs : s.Named) (hapart : s.BodiesApart) (id : ScopeId) :
    (s.symbolPaths id).Pairwise (·.1 < ·.1) := by
  refine (pathsFrom_sorted hs hapart (maxDepth + 1) id).filterMap _ ?_
  intro a a' hlt b hb b' hb'
  obtain ⟨_, -, rfl⟩ := Option.map_eq_some_iff.mp hb
  obtain ⟨_, -, rfl⟩ := Option.map_eq_some_iff.mp hb'
  exact hlt

/-- Different paths have different dotted names. -/
theorem nodup_map_dotted (hs : s.Named) (hdots : s.Undotted) (hapart : s.BodiesApart)
    (hnest : s.Nests 100 id) : ((s.symbolPaths id).map fun symbol => dotted symbol.1).Nodup := by
  refine List.pairwise_map.mpr ((symbolPaths_sorted hs hapart id).imp_of_mem ?_)
  intro a b ha hb hlt heq
  obtain ⟨value, hled, -⟩ := hnest.mem_symbolPaths_iff.mp ha
  obtain ⟨value', hled', -⟩ := hnest.mem_symbolPaths_iff.mp hb
  have hsame := dotted_inj hled.ne_nil hled'.ne_nil (hled.undotted hdots) (hled'.undotted hdots) heq
  exact List.lt_irrefl _ (hsame ▸ hlt)

theorem Made.counted (hs : s.Made) : s.Counted := by
  obtain ⟨ops, hops, rfl⟩ := hs
  refine run_induction (P := Counted) ⟨Nat.le_refl 0, Nat.le_refl 0⟩ hops ?_
  intro s t op _ h hcounted
  cases op with
  | create parent =>
    cases h
    exact hcounted.create parent
  | add id name value =>
    obtain ⟨scope, hscope, -, rfl⟩ := add_eq_ok h
    exact hcounted.bind hscope name value
  | setBody id body | markRegistered id | setHorizon id =>
    cases h
    refine hcounted.modify ?_ id
    intro scope
    rfl
  | setAddress id address =>
    obtain ⟨-, rfl⟩ := setAddress_eq_ok h
    refine hcounted.modify ?_ id
    intro scope
    rfl

/-- **The listing agrees with lookups.** A listing has a line for each path from the scope to something
    with a number, and no other lines; the lines are in the lexicographic order of the paths, each has
    a name of its own, and to look that name up in the scope gives what has the number of the line.

    The listing evaluates all that it gets to, so each of these evaluations has to come to an end: with
    `a: equ a.b` below the scope there would be no listing. To look a listed name up nothing is
    evaluated, since the names on the way are bound to scopes. -/
theorem listing_agrees (hs : s.Made) (hdots : s.Undotted) (hapart : s.BodiesApart)
    (hnest : s.Nests 100 id)
    (hends : ∀ path value, s.Leads id path value → ∃ r, Ends s (Asking.integer s value) r) :
    ∃ symbols : List (List String × Int64),
      s.listing id =
          String.join (symbols.map fun symbol => listingLine (dotted symbol.1) symbol.2) ∧
        (∀ path v, (path, v) ∈ symbols ↔ ∃ value, s.Leads id path value ∧ s.Evaluates value v) ∧
        (∀ path v, (path, v) ∈ symbols →
          Number.ofLiteral (Text.hexLiteral v) = .ok v ∧
            ∃ value, s.member id (dotted path) = .ok value ∧
              Ends s (Asking.member s id (dotted path)) (some value) ∧ s.Evaluates value v) ∧
        (symbols.map fun symbol => dotted symbol.1).Nodup ∧
        symbols.Pairwise (·.1 < ·.1) := by
  have hnamed := hs.named
  have hmem : ∀ path v, (path, v) ∈ s.symbolPaths id ↔
      ∃ value, s.Leads id path value ∧ s.Evaluates value v := fun path v =>
    hnest.mem_symbolPaths_iff.trans <| exists_congr fun value => and_congr_right fun hled =>
      (hs.counted.evaluates_iff (hends path value hled)).symm
  refine ⟨s.symbolPaths id, ?_, hmem, fun path v hsymbol => ?_,
    nodup_map_dotted hnamed hdots hapart hnest, symbolPaths_sorted hnamed hapart id⟩
  · rw [listing_eq, numbered_eq, List.map_map]
    rfl
  · obtain ⟨value, hled, hv⟩ := (hmem path v).mp hsymbol
    exact ⟨Number.ofLiteral_hexLiteral v, value, hled.member_eq hnamed hdots hapart hnest,
      hled.ends_member hnamed hdots hapart hnest, hv⟩

/-- A line that has an address and a body, and a number with a name that comes before. -/
def nestedOps : List Op :=
  [.create none, .create (some ⟨0⟩), .create (some ⟨0⟩), .add ⟨0⟩ "line" (.context ⟨1⟩),
    .setBody ⟨1⟩ ⟨2⟩, .add ⟨2⟩ "inner" (.int (-3)), .setAddress ⟨1⟩ 0x8000, .add ⟨0⟩ "base" (.int 7),
    .add ⟨1⟩ "open" (.ident "missing" ⟨1⟩)]

theorem nestedOps_ends : ∀ value ∈ (run nestedOps {}).values,
    ∃ r, Ends (run nestedOps {}) (Asking.integer (run nestedOps {}) value) r := by
  intro value hvalue
  have hall : ((run nestedOps {}).values.all fun value =>
      ((Asking.integer (run nestedOps {}) value).settle fun _ => none).toOption.isSome) = true := by
    decide +kernel
  obtain ⟨r, hr⟩ := Option.isSome_iff_exists.mp (List.all_eq_true.mp hall value hvalue)
  exact ⟨r, 0, eq_ok_of_toOption hr⟩

theorem listing_agrees_nested :
    ∃ symbols : List (List String × Int64),
      (run nestedOps {}).listing ⟨0⟩ =
          String.join (symbols.map fun symbol => listingLine (dotted symbol.1) symbol.2) ∧
        (["line", "inner"], -3) ∈ symbols ∧
        ∃ value, (run nestedOps {}).member ⟨0⟩ "line.inner" = .ok value ∧
          (run nestedOps {}).Evaluates value (-3) := by
  have hs : (run nestedOps {}).Made := ⟨nestedOps, by decide, rfl⟩
  have hnest : (run nestedOps {}).Nests 100 ⟨0⟩ := by decide +kernel
  obtain ⟨symbols, hlisting, hled, hfound, -, -⟩ :=
    listing_agrees hs (by decide +kernel) (by decide +kernel) hnest fun path value hled =>
      nestedOps_ends value hled.mem_values
  have hline : (run nestedOps {}).Offers ⟨0⟩ ⟨"line", .context ⟨1⟩, 1⟩ :=
    ⟨by decide, .inl ⟨_, rfl, .tail _ (.head _)⟩⟩
  have hinner : (run nestedOps {}).Offers ⟨1⟩ ⟨"inner", .int (-3), 2⟩ :=
    ⟨by decide, .inr ⟨⟨2⟩, rfl, _, rfl, .head _⟩⟩
  have hmem : (["line", "inner"], -3) ∈ symbols :=
    (hled _ _).mpr ⟨.int (-3), .inside hline rfl (.last hinner), rfl, 0, rfl⟩
  obtain ⟨-, value, hmember, -, hnumber⟩ := hfound _ _ hmem
  exact ⟨symbols, hlisting, hmem, value, hmember, hnumber⟩

end Scopes

end Z80Asm
