import Z80Asm.Proofs.Scope.History
import Z80Asm.Proofs.Scope.Past

/-!
# Dotted names

A dotted name is tried at each of its dots. In an arena in which no bound name has a dot, only the
first one can be the right one (`lookupInside_dotted`): what stands before it is bound in the scope or
in a body, to something that is a scope, and the rest is found in there. Hence `a.b` is the member `b`
of what `a` is, wherever that is found (`symbol_dotted`).

Lookups give up after a number of dots and bodies. A name without dots needs as many levels as there
are bodies in a row (`bodyAfter`).

Names with several dots are not treated as such. They are members of members, and can be taken apart
from the left one dot at a time.
-/
set_option autoImplicit false

namespace Z80Asm

/-! ## Dots in a name -/

theorem dotSplitsFrom_eq_nil {front back : List Char} (h : '.' ∉ back) :
    dotSplitsFrom front back = [] := by
  induction back generalizing front with
  | nil => rfl
  | cons c rest ih =>
    rw [List.mem_cons, not_or] at h
    obtain ⟨hc, hrest⟩ := h
    rw [dotSplitsFrom, if_neg (by simp [Ne.symm hc])]
    exact ih hrest

/-- The fronts of later splits begin with what was before. -/
theorem mem_dotSplitsFrom {front back : List Char} {split : List Char × List Char}
    (h : split ∈ dotSplitsFrom front back) : front.reverse ⊆ split.1 := by
  induction back generalizing front with
  | nil => cases h
  | cons c rest ih =>
    rw [dotSplitsFrom] at h
    have hlater : split ∈ dotSplitsFrom (c :: front) rest → front.reverse ⊆ split.1 := by
      intro h
      refine fun d hd => ih h ?_
      rw [List.reverse_cons]
      exact List.mem_append_left _ hd
    split at h
    · rcases List.mem_cons.mp h with rfl | h
      · exact List.Subset.refl _
      · exact hlater h
    · exact hlater h

theorem dotSplitsFrom_append {front cs back : List Char} (hcs : '.' ∉ cs) (hfront : front ++ cs ≠ [])
    (hback : back ≠ []) :
    dotSplitsFrom front (cs ++ '.' :: back) =
      (front.reverse ++ cs, back) :: dotSplitsFrom ('.' :: (cs.reverse ++ front)) back := by
  induction cs generalizing front with
  | nil =>
    have hne : front ≠ [] := by simpa using hfront
    simp [dotSplitsFrom, hne, hback]
  | cons c rest ih =>
    rw [List.mem_cons, not_or] at hcs
    obtain ⟨hc, hrest⟩ := hcs
    rw [List.cons_append, dotSplitsFrom, if_neg (by simp [Ne.symm hc]), ih hrest (by simp)]
    simp

theorem dotSplits_eq_nil {name : String} (h : '.' ∉ name.toList) : dotSplits name = [] := by
  rw [dotSplits, dotSplitsFrom_eq_nil h, List.map_nil]

/-- Of the splits of a dotted name, only the first has no dot in front. -/
theorem dotSplits_dotted {front rest : String} (hdot : '.' ∉ front.toList) (hfront : front ≠ "")
    (hrest : rest ≠ "") :
    ∃ later, dotSplits (front ++ "." ++ rest) = (front, rest) :: later ∧
      ∀ split ∈ later, '.' ∈ split.1.toList := by
  have hlist : (front ++ "." ++ rest).toList = front.toList ++ '.' :: rest.toList := by simp
  have hback : rest.toList ≠ [] := by simpa using hrest
  have hsplits := dotSplitsFrom_append hdot (by simpa using hfront : [] ++ front.toList ≠ []) hback
  rw [dotSplits, hlist, hsplits, List.map_cons]
  refine ⟨_, List.cons_eq_cons.mpr ⟨by simp, rfl⟩, fun split hsplit => ?_⟩
  obtain ⟨⟨f, r⟩, hmem, rfl⟩ := List.mem_map.mp hsplit
  have hsub := mem_dotSplitsFrom hmem
  simpa using hsub (a := '.') (by simp)

namespace Scopes

variable {s : Scopes} {id : ScopeId}

/-- No bound name has a dot in it. -/
def Undotted (s : Scopes) : Prop :=
  ∀ id binding, s.HasBinding id binding → '.' ∉ binding.name.toList

theorem undotted_iff :
    s.Undotted ↔ ∀ scope ∈ s.nodes.toList, ∀ binding ∈ scope.bindings, '.' ∉ binding.name.toList := by
  constructor
  · intro hs scope hscope binding hbinding
    obtain ⟨i, hi⟩ := List.mem_iff_getElem?.mp hscope
    exact hs ⟨i⟩ binding ⟨scope, by rwa [get?, ← Array.getElem?_toList], hbinding⟩
  · rintro hs id binding ⟨scope, hscope, hbinding⟩
    exact hs scope (Array.mem_of_getElem? hscope).val binding hbinding

instance (s : Scopes) : Decidable s.Undotted :=
  decidable_of_iff _ undotted_iff.symm

theorem Undotted.find?_eq_none (hs : s.Undotted) {scope : Scope} (hid : s.get? id = some scope)
    {name : String} (hname : '.' ∈ name.toList) (horizon : Option Nat) :
    scope.find? name horizon = none := by
  rw [Option.eq_none_iff_forall_ne_some]
  intro value hvalue
  obtain ⟨binding, hbinding, -⟩ := find?_eq_some_iff.mp hvalue
  obtain ⟨hhas, rfl⟩ := hasBinding_of_binding? hid hbinding
  exact hs id binding hhas hname

/-- A dotted name is looked up at its first dot, here and then in the body. -/
theorem Undotted.lookupInside_dotted (hs : s.Undotted) {front rest : String}
    (hdot : '.' ∉ front.toList) (hfront : front ≠ "") (hrest : rest ≠ "")
    (scopeOf : Expr → Option ScopeId) (levels : Nat) (id : ScopeId) (horizon : Option Nat) :
    s.lookupInside scopeOf (levels + 1) id (front ++ "." ++ rest) horizon =
      ((((s.get? id).bind (·.find? front horizon)).bind scopeOf).bind
          (s.lookupInside scopeOf levels · rest none)).or
        ((s.body? id).bind (s.lookupInside scopeOf levels · (front ++ "." ++ rest) none)) := by
  obtain ⟨later, hsplits, hlater⟩ := dotSplits_dotted hdot hfront hrest
  rw [lookupInside, body?]
  cases hid : s.get? id with
  | none => rfl
  | some scope =>
    have hwhole : scope.find? (front ++ "." ++ rest) horizon = none :=
      hs.find?_eq_none hid (by simp) horizon
    have hnone : ∀ split ∈ later, scope.find? split.1 horizon = none :=
      fun split hsplit => hs.find?_eq_none hid (hlater split hsplit) horizon
    simp only [hwhole, hsplits, List.findSome?_cons, Option.bind_some]
    rw [List.findSome?_eq_none_iff.mpr fun split hsplit => by rw [hnone split hsplit]; rfl]
    cases ((scope.find? front horizon).bind scopeOf).bind
        fun inner => s.lookupInside scopeOf levels inner rest none with
    | none => rfl
    | some value => rfl

/-! ## Bodies in a row -/

/-- The body of the body, and so on, for a number of links. -/
def bodyAfter (s : Scopes) : Nat → ScopeId → Option ScopeId
  | 0, id => some id
  | links + 1, id => (s.body? id).bind (s.bodyAfter links)

theorem bodyAfter_eq_none_of_le (h : s.size ≤ id.index) (links : Nat) :
    s.bodyAfter (links + 1) id = none := by
  rw [bodyAfter, body?, get?, Array.getElem?_eq_none h]
  rfl

section

variable {scopeOf : Expr → Option ScopeId} {name : String} (hname : '.' ∉ name.toList)

include hname

theorem lookupInside_mono {levels levels' : Nat} (hle : levels ≤ levels') {horizon : Option Nat}
    {value : Expr} (h : s.lookupInside scopeOf levels id name horizon = some value) :
    s.lookupInside scopeOf levels' id name horizon = some value := by
  induction levels generalizing id horizon levels' with
  | zero => cases h
  | succ levels ih =>
    obtain ⟨levels', rfl⟩ : ∃ k, levels' = k + 1 := ⟨levels' - 1, by omega⟩
    rw [lookupInside_eq_or (dotSplits_eq_nil hname), Option.or_eq_some_iff] at h ⊢
    refine h.imp_right fun ⟨hown, hbody⟩ => ⟨hown, ?_⟩
    obtain ⟨body, hbody, hvalue⟩ := Option.bind_eq_some_iff.mp hbody
    exact Option.bind_eq_some_iff.mpr ⟨body, hbody, ih (Nat.le_of_succ_le_succ hle) hvalue⟩

/-- A name without dots is found with as many levels as there are bodies in a row. -/
theorem lookupInside_of_bodyAfter {links levels : Nat} (hlinks : s.bodyAfter (links + 1) id = none)
    {horizon : Option Nat} {value : Expr}
    (h : s.lookupInside scopeOf levels id name horizon = some value) :
    s.lookupInside scopeOf (links + 1) id name horizon = some value := by
  induction links generalizing id levels horizon with
  | zero =>
    cases levels with
    | zero => cases h
    | succ levels =>
      have hbare : s.body? id = none := by simpa [bodyAfter] using hlinks
      rw [lookupInside_eq_or (dotSplits_eq_nil hname), hbare] at h ⊢
      exact h
  | succ links ih =>
    cases levels with
    | zero => cases h
    | succ levels =>
      rw [lookupInside_eq_or (dotSplits_eq_nil hname), Option.or_eq_some_iff] at h ⊢
      refine h.imp_right fun ⟨hown, hbody⟩ => ⟨hown, ?_⟩
      obtain ⟨body, hbody, hvalue⟩ := Option.bind_eq_some_iff.mp hbody
      rw [bodyAfter, hbody, Option.bind_some] at hlinks
      exact Option.bind_eq_some_iff.mpr ⟨body, hbody, ih hlinks hvalue⟩

/-- A name without dots that is found is bound somewhere. -/
theorem exists_hasBinding_of_lookupInside {levels : Nat} {horizon : Option Nat} {value : Expr}
    (h : s.lookupInside scopeOf levels id name horizon = some value) :
    ∃ other binding, s.HasBinding other binding ∧ binding.name = name := by
  induction levels generalizing id horizon with
  | zero => cases h
  | succ levels ih =>
    rw [lookupInside_eq_or (dotSplits_eq_nil hname), Option.or_eq_some_iff] at h
    rcases h with h | ⟨-, h⟩
    · obtain ⟨scope, hscope, hfind⟩ := Option.bind_eq_some_iff.mp h
      obtain ⟨binding, hbinding, -⟩ := find?_eq_some_iff.mp hfind
      exact ⟨id, binding, hasBinding_of_binding? hscope hbinding⟩
    · obtain ⟨body, -, hvalue⟩ := Option.bind_eq_some_iff.mp h
      exact ih hvalue

end

/-! ## A name and what is inside -/

section

variable (hs : s.Undotted) {scopeOf : Expr → Option ScopeId} {front rest : String}
  (hdot : '.' ∉ front.toList) (hfront : front ≠ "") (hrest : rest ≠ "")

include hs hdot hfront hrest

/-- Where the front is not found, nothing is found inside it. -/
theorem Undotted.lookupInside_eq_none {levels : Nat} {horizon : Option Nat}
    (h : s.lookupInside scopeOf levels id front horizon = none) :
    s.lookupInside scopeOf levels id (front ++ "." ++ rest) horizon = none := by
  induction levels generalizing id horizon with
  | zero => rfl
  | succ levels ih =>
    rw [lookupInside_eq_or (dotSplits_eq_nil hdot), Option.or_eq_none_iff] at h
    obtain ⟨hown, hbody⟩ := h
    rw [hs.lookupInside_dotted hdot hfront hrest, hown, Option.or_eq_none_iff]
    refine ⟨rfl, Option.bind_eq_none_iff.mpr fun body hlink => ih ?_⟩
    exact Option.bind_eq_none_iff.mp hbody body hlink

/-- Where the front is found, the rest is looked up in what it is. -/
theorem Undotted.lookupInside_eq_some (hdot' : '.' ∉ rest.toList) {links levels : Nat}
    (hlinks : s.bodyAfter (links + 1) id = none) {horizon : Option Nat} {found value : Expr}
    {inner : ScopeId}
    (h : s.lookupInside scopeOf (levels + links + 1) id front horizon = some found)
    (hinner : scopeOf found = some inner)
    (hvalue : s.lookupInside scopeOf levels inner rest none = some value) :
    s.lookupInside scopeOf (levels + links + 1) id (front ++ "." ++ rest) horizon = some value := by
  induction links generalizing id horizon with
  | zero =>
    have hbare : s.body? id = none := by simpa [bodyAfter] using hlinks
    rw [lookupInside_eq_or (dotSplits_eq_nil hdot), hbare, Option.bind_none, Option.or_none] at h
    rw [hs.lookupInside_dotted hdot hfront hrest, h, Option.bind_some, hinner, Option.bind_some]
    simp [hvalue]
  | succ links ih =>
    rw [lookupInside_eq_or (dotSplits_eq_nil hdot), Option.or_eq_some_iff] at h
    rw [hs.lookupInside_dotted hdot hfront hrest]
    rcases h with hown | ⟨hown, hbody⟩
    · have hmore := lookupInside_mono hdot' (Nat.le_add_right levels (links + 1)) hvalue
      rw [hown, Option.bind_some, hinner, Option.bind_some, hmore, Option.some_or]
    · obtain ⟨body, hlink, hfound⟩ := Option.bind_eq_some_iff.mp hbody
      rw [bodyAfter, hlink, Option.bind_some] at hlinks
      rw [hown, hlink]
      exact ih hlinks hfound

end

/-! ## Arenas with a history -/

/-- An arena that operations have made of the empty one. Theorems about lookups ask for this, and
    not for a list of invariants that a reader would have to check one by one. -/
def Made (s : Scopes) : Prop :=
  ∃ ops, Grounded ops {} ∧ run ops {} = s

theorem Made.sound (hs : s.Made) : s.Sound := by
  obtain ⟨ops, hops, rfl⟩ := hs
  exact sound_run sound_empty hops

/-- Bound names are not empty, and a scope binds each only once. -/
structure Named (s : Scopes) : Prop where
  nonempty : ∀ id binding, s.HasBinding id binding → binding.name ≠ ""
  nodup : ∀ id scope, s.get? id = some scope → (scope.bindings.map Binding.name).Nodup

/-- What is bound under a name is found under it. -/
theorem Named.binding?_eq (hs : s.Named) {binding : Binding} (h : s.HasBinding id binding) :
    s.binding? id binding.name = some binding := by
  obtain ⟨scope, hscope, hmem⟩ := h
  have hnodup := hs.nodup id scope hscope
  rw [binding?, hscope, Option.bind_some, Scope.binding?]
  generalize scope.bindings = bindings at hmem hnodup
  induction bindings with
  | nil => cases hmem
  | cons first rest ih =>
    obtain ⟨hfirst, hrest⟩ := List.nodup_cons.mp hnodup
    rcases List.mem_cons.mp hmem with rfl | hmem
    · exact List.find?_cons_of_pos (by simp)
    · have hne : first.name ≠ binding.name :=
        fun heq => hfirst (heq ▸ List.mem_map_of_mem hmem)
      rw [List.find?_cons_of_neg (by simpa using hne)]
      exact ih hmem hrest

theorem Named.modify (hs : s.Named) {f : Scope → Scope}
    (hf : ∀ scope, (f scope).bindings = scope.bindings) (id : ScopeId) : (s.modify id f).Named where
  nonempty other binding h := hs.nonempty other binding ((hasBinding_modify hf).mp h)
  nodup other scope h := by
    rw [get?_modify] at h
    split at h
    · obtain ⟨before, hbefore, rfl⟩ := Option.map_eq_some_iff.mp h
      rw [hf]
      exact hs.nodup other before hbefore
    · exact hs.nodup other scope h

theorem Named.create (hs : s.Named) (parent : Option ScopeId) : (s.create parent).2.Named where
  nonempty id binding h := by
    rcases hasBinding_create.mp h with h | ⟨-, rfl⟩
    · exact hs.nonempty id binding h
    · simp [selfName]
  nodup id scope h := by
    rw [get?_create] at h
    split at h
    · cases h
      exact List.nodup_cons.mpr ⟨List.not_mem_nil, .nil⟩
    · exact hs.nodup id scope h

theorem Named.add (hs : s.Named) {t : Scopes} {name : String} {value : Expr}
    (h : s.add id name value = .ok t) : t.Named := by
  have hname : name ≠ "" := by
    rintro rfl
    cases h
  obtain ⟨scope, hscope, hnew, rfl⟩ := add_eq_ok h
  constructor
  · intro other binding hbinding
    rcases hasBinding_bind hbinding with hbinding | ⟨-, rfl⟩
    · exact hs.nonempty other binding hbinding
    · exact hname
  · intro other changed hchanged
    replace hchanged : (s.modify id _).get? other = some changed := hchanged
    rw [get?_modify] at hchanged
    split at hchanged
    · obtain ⟨before, hbefore, rfl⟩ := Option.map_eq_some_iff.mp hchanged
      next heq =>
      cases heq
      cases hscope.symm.trans hbefore
      refine List.nodup_cons.mpr ⟨fun hmem => ?_, hs.nodup id scope hscope⟩
      obtain ⟨binding, hbinding, hsame⟩ := List.mem_map.mp hmem
      simpa [hsame] using List.find?_eq_none.mp hnew binding hbinding
    · exact hs.nodup other changed hchanged

theorem Op.named {op : Op} {t : Scopes} (h : op.result s = .ok t) (hs : s.Named) : t.Named := by
  cases op with
  | create parent =>
    cases h
    exact hs.create parent
  | add id name value => exact hs.add h
  | setBody id | markRegistered id | setHorizon id =>
    cases h
    refine hs.modify ?_ id
    intro scope
    rfl
  | setAddress id address =>
    obtain ⟨-, rfl⟩ := setAddress_eq_ok h
    refine hs.modify ?_ id
    intro scope
    rfl

theorem Made.named (hs : s.Made) : s.Named := by
  obtain ⟨ops, hops, rfl⟩ := hs
  refine run_induction (P := Named) ⟨?_, ?_⟩ hops fun _ => Op.named
  · rintro id binding ⟨scope, hscope, -⟩
    cases hscope
  · intro id scope hscope
    cases hscope

/-! ## The member that a dotted name spells -/

theorem scopeOf_context (s : Scopes) (inner : ScopeId) : s.scopeOf (.context inner) = some inner :=
  rfl

/-- What a dotted name is from a scope is what its second part is inside of what the first is from
    there. -/
theorem Undotted.symbol_eq (hdots : s.Undotted) (hnamed : s.Named)
    (hbodies : ∀ id, s.bodyAfter 101 id = none) {inner : ScopeId} {a b : String} {value : Expr}
    (ha : '.' ∉ a.toList) (hb : '.' ∉ b.toList) (hcontext : s.symbol id a = .ok (.context inner))
    (hmember : s.member inner b = .ok value) : s.symbol id (a ++ "." ++ b) = .ok value := by
  rw [symbol_eq_ok, symbol?, List.findSome?_eq_some_iff] at hcontext
  obtain ⟨before, ⟨found, horizon⟩, after, hway, hfound, hbefore⟩ := hcontext
  rw [member_eq_ok] at hmember
  -- the names are bound, so they are not empty
  obtain ⟨_, binding, hbinding, rfl⟩ := exists_hasBinding_of_lookupInside ha hfound
  have hane := hnamed.nonempty _ _ hbinding
  obtain ⟨_, binding', hbinding', rfl⟩ := exists_hasBinding_of_lookupInside hb hmember
  have hbne := hnamed.nonempty _ _ hbinding'
  -- a hundred and one levels are enough for each of the two
  have hinside : s.lookupInside s.scopeOf 156 inner binding'.name none = some value :=
    lookupInside_mono hb (by omega) (lookupInside_of_bodyAfter hb (hbodies inner) hmember)
  rw [symbol_eq_ok, symbol?, List.findSome?_eq_some_iff]
  refine ⟨before, (found, horizon), after, hway, ?_, fun scope hscope => ?_⟩
  · exact hdots.lookupInside_eq_some ha hane hbne hb (hbodies found) hfound rfl hinside
  · exact hdots.lookupInside_eq_none ha hane hbne (hbefore scope hscope)

/-- A member of a name resolves to what its value resolves to. -/
theorem resolve_member_ident {inner : ScopeId} {a b : String} {value : Expr}
    (hcontext : s.symbol id a = .ok (.context inner)) (hmember : s.member inner b = .ok value) :
    (Expr.member (.ident a id) b).resolve s = resolveAt s s.scopeOf maxDepth value := by
  have hobject : resolveAt s s.scopeOf (255 + 1) (.ident a id) = .ok (.context inner) := by
    rw [resolveAt, show symbolValue s s.scopeOf id a = _ from hcontext]
    rfl
  rw [Expr.resolve, show maxDepth = 255 + 1 from rfl, resolveAt, hobject]
  show (memberValue s s.scopeOf inner b >>= _) = _
  rw [show memberValue s s.scopeOf inner b = _ from hmember]
  rfl

/-- **A dotted name means the member access that it spells.** A bound name with a dot would be found
    as well, hence `hdots`, and with a dot in `a` or `b` there would be several ways to divide the
    name. `hbodies` keeps bodies inside bodies from being deeper than a lookup goes. -/
theorem symbol_dotted (hs : s.Made) (hdots : s.Undotted) (hbodies : ∀ id, s.bodyAfter 101 id = none)
    {inner : ScopeId} {a b : String} {value : Expr} (ha : '.' ∉ a.toList) (hb : '.' ∉ b.toList)
    (hcontext : s.symbol id a = .ok (.context inner)) (hmember : s.member inner b = .ok value) :
    s.symbol id (a ++ "." ++ b) = .ok value ∧
      (Expr.ident (a ++ "." ++ b) id).resolve s = (Expr.member (.ident a id) b).resolve s := by
  have hsymbol := hdots.symbol_eq hs.named hbodies ha hb hcontext hmember
  refine ⟨hsymbol, ?_⟩
  rw [resolve_member_ident hcontext hmember, Expr.resolve, resolveAt,
    show symbolValue s s.scopeOf id _ = _ from hsymbol]
  rfl

/-- A line with a body, and around a scope with a horizon the name of the line, bound once before and
    once behind the horizon. -/
def invokedOps : List Op :=
  [.create none, .create (some ⟨0⟩), .create (some ⟨0⟩), .add ⟨0⟩ "line" (.context ⟨1⟩),
    .setBody ⟨1⟩ ⟨2⟩, .add ⟨2⟩ "inner" (.int 3), .create (some ⟨0⟩), .create (some ⟨3⟩),
    .create (some ⟨4⟩), .setHorizon ⟨4⟩ 1, .add ⟨3⟩ "line" (.int 9)]

theorem symbol_dotted_body :
    (run invokedOps {}).symbol ⟨5⟩ "line" = .ok (.context ⟨1⟩) ∧
      (run invokedOps {}).member ⟨1⟩ "inner" = .ok (.int 3) ∧
      (run invokedOps {}).symbol ⟨5⟩ "line.inner" = .ok (.int 3) ∧
      (Expr.ident "line.inner" ⟨5⟩).resolve (run invokedOps {}) =
        (Expr.member (.ident "line" ⟨5⟩) "inner").resolve (run invokedOps {}) := by
  have hs : (run invokedOps {}).Made := ⟨invokedOps, by decide, rfl⟩
  have hbodies : ∀ id, (run invokedOps {}).bodyAfter 101 id = none := by
    have hinside : ∀ i < 6, (run invokedOps {}).bodyAfter 101 ⟨i⟩ = none := by decide
    intro id
    rcases Nat.lt_or_ge id.index 6 with hlt | hle
    · exact hinside id.index hlt
    · exact bodyAfter_eq_none_of_le (show (run invokedOps {}).size ≤ id.index from hle) 100
  have hcontext : (run invokedOps {}).symbol ⟨5⟩ "line" = .ok (.context ⟨1⟩) := rfl
  have hmember : (run invokedOps {}).member ⟨1⟩ "inner" = .ok (.int 3) := rfl
  exact ⟨hcontext, hmember,
    symbol_dotted hs (by decide +kernel) hbodies (by decide) (by decide) hcontext hmember⟩

end Scopes

end Z80Asm
