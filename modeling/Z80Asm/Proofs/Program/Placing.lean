import Z80Asm.Proofs.Program.Reports
import Z80Asm.Proofs.Program.Spaces

/-!
# Every line is placed once

Expanding gives lines that own different scopes: those of the items, each of which is expanded in one
place only, and new ones (`Unfolds.draws`). None has an address before lines are placed. Placing takes
each line that stands in place, and each that waits for a space, once: the lines of the entries,
together with those that still wait, are a permutation of the lines to be placed and those that waited
(`Session.Places`). So no line meets an address that is set already, and if a program is assembled at
all, each of the lines has got its address, and nothing else has.

A permutation is what is needed, and the order is not: sections are placed where their space is, and
that may be before or behind the lines that were written in front of them.
-/
set_option autoImplicit false

namespace Z80Asm

open Success

/-! ## The scopes of expanded lines -/

/-- From `s` to `t`, these scopes are drawn from those in `owned` and from new ones, each once. -/
structure Scopes.Draws (s t : Scopes) (owned ids : List ScopeId) : Prop where
  size_le : s.size ≤ t.size
  distinct : ids.Nodup
  drawn : ∀ id ∈ ids, id ∈ owned ∨ s.size ≤ id.index ∧ id.index < t.size

namespace Scopes.Draws

variable {s t u : Scopes} {owned others ids more : List ScopeId}

theorem subset (h : s.Draws t owned ids) (hsub : owned ⊆ others) : s.Draws t others ids :=
  ⟨h.size_le, h.distinct, fun id hid => (h.drawn id hid).imp_left fun hid => hsub hid⟩

theorem perm (h : s.Draws t owned ids) (hperm : ids.Perm more) : s.Draws t owned more :=
  ⟨h.size_le, hperm.nodup_iff.mp h.distinct, fun id hid => h.drawn id (hperm.mem_iff.mpr hid)⟩

theorem nil (h : s.size ≤ t.size) : s.Draws t owned [] :=
  ⟨h, .nil, List.forall_mem_nil _⟩

theorem single {id : ScopeId} (hid : id ∈ owned) : s.Draws s owned [id] :=
  ⟨Nat.le_refl _, List.pairwise_singleton _ id, List.forall_mem_singleton.mpr (.inl hid)⟩

/-- What is drawn later is drawn from other scopes, or is newer. -/
theorem append (h : s.Draws t owned ids) (h' : t.Draws u others more)
    (hdistinct : (owned ++ others).Nodup) (hknown : ∀ id ∈ owned ++ others, id.index < s.size) :
    s.Draws u (owned ++ others) (ids ++ more) where
  size_le := Nat.le_trans h.size_le h'.size_le
  distinct := by
    refine List.nodup_append.mpr ⟨h.distinct, h'.distinct, ?_⟩
    rintro id hid other hother rfl
    have hsize := h.size_le
    rcases h.drawn id hid with hid | ⟨hle, hlt⟩
    · rcases h'.drawn id hother with hother | ⟨hle', -⟩
      · exact (List.nodup_append.mp hdistinct).2.2 id hid id hother rfl
      · have hold := hknown id (List.mem_append_left _ hid)
        omega
    · rcases h'.drawn id hother with hother | ⟨hle', -⟩
      · have hold := hknown id (List.mem_append_right _ hother)
        omega
      · omega
  drawn := by
    have hsize := h.size_le
    have hsize' := h'.size_le
    refine List.forall_mem_append.mpr ⟨fun id hid => ?_, fun id hid => ?_⟩
    · rcases h.drawn id hid with hid | ⟨hle, hlt⟩
      · exact .inl (List.mem_append_left _ hid)
      · exact .inr ⟨hle, Nat.lt_of_lt_of_le hlt hsize'⟩
    · rcases h'.drawn id hid with hid | ⟨hle, hlt⟩
      · exact .inl (List.mem_append_right _ hid)
      · exact .inr ⟨Nat.le_trans hsize hle, hlt⟩

/-- The line of a statement is drawn before what is inside. -/
theorem line {id : ScopeId} (h : s.Draws t owned ids) (hdistinct : (id :: owned).Nodup)
    (hknown : ∀ other ∈ id :: owned, other.index < s.size) :
    s.Draws t (id :: owned) (id :: ids) :=
  (single List.mem_cons_self : s.Draws s [id] [id]).append h hdistinct hknown

theorem older (hst : s.size ≤ t.size) (h : t.Draws u owned ids) : s.Draws u owned ids :=
  ⟨Nat.le_trans hst h.size_le, h.distinct, fun id hid =>
    (h.drawn id hid).imp_right fun hnew => ⟨Nat.le_trans hst hnew.1, hnew.2⟩⟩

/-- What is drawn from new scopes is new. -/
theorem of_fresh (hfresh : s.Fresh t owned) (htu : t.size ≤ u.size) {v : Scopes}
    (h : u.Draws v owned ids) : s.Draws v others ids where
  size_le := Nat.le_trans (Nat.le_trans hfresh.1 htu) h.size_le
  distinct := h.distinct
  drawn := by
    intro id hid
    have hsize := hfresh.1
    have hsize' := h.size_le
    rcases h.drawn id hid with hid | ⟨hle, hlt⟩
    · obtain ⟨hle, hlt⟩ := hfresh.2.2 id hid
      exact .inr ⟨hle, by omega⟩
    · exact .inr ⟨by omega, hlt⟩

end Scopes.Draws

namespace Assembly

/-- The scopes of the lines of what is expanded. The lines of iterations are yet to be made. -/
def Work.owned : Work → List ScopeId
  | .items statements => ownedBy statements
  | .item statement | .operation _ statement => statement.owned
  | .iterations _ _ _ _ _ => []

variable {s s' : Session}

/-- An instance of a body owns new scopes, so what it is expanded into does. -/
theorem Issues.draws {x : Assembly (List Item)} (hx : Issues x) {items : List Item}
    {ids : List ScopeId} {s₁ s₂ : Session} (hopen : x s = .ok items s₁)
    (hregister : register items s₁ = .ok () s₂)
    (ih : (ownedBy items).Nodup → (∀ id ∈ ownedBy items, id.index < s₂.scopes.size) →
      s₂.scopes.Draws s'.scopes (ownedBy items) ids)
    (owned : List ScopeId) : s.scopes.Draws s'.scopes owned ids := by
  obtain ⟨-, hfresh⟩ := hx hopen
  have hsize : s₁.scopes.size ≤ s₂.scopes.size := (leads_register items hregister).size_le
  refine Scopes.Draws.of_fresh hfresh hsize (ih ?_ ?_)
  · exact hfresh.2.1.imp fun hlt heq => Nat.ne_of_lt hlt (congrArg ScopeId.index heq)
  · intro id hid
    exact Nat.lt_of_lt_of_le (hfresh.2.2 id hid).2 hsize

theorem perm_append_swap {α : Type} (as bs cs ds : List α) :
    ((as ++ bs) ++ (cs ++ ds)).Perm ((as ++ cs) ++ (bs ++ ds)) := by
  rw [List.append_assoc, List.append_assoc]
  refine List.Perm.append_left as ?_
  rw [← List.append_assoc, ← List.append_assoc]
  exact List.perm_append_comm.append_right ds

/-- The lines that expanding gives own different scopes, which are those of the work or new. -/
theorem Unfolds.draws {within : List Line} {work : Work} {lines sent : List Product}
    {log : List Sending} (h : Unfolds within work s lines sent log s')
    (hdistinct : work.owned.Nodup) (hknown : ∀ id ∈ work.owned, id.index < s.scopes.size) :
    s.scopes.Draws s'.scopes work.owned ((lines ++ sent).map (·.item.line.scope)) := by
  induction h with
  | nil => exact .nil (Nat.le_refl _)
  | @cons _ _ _ _ _ _ lines sent lines' sent' _ _ _ _ ih ih' =>
    obtain ⟨hitem, hrest, -⟩ := List.nodup_append.mp hdistinct
    obtain ⟨hknownItem, hknownRest⟩ := List.forall_mem_append.mp hknown
    have hfirst := ih hitem hknownItem
    have hothers := ih' hrest fun id hid => Nat.lt_of_lt_of_le (hknownRest id hid) hfirst.size_le
    refine (hfirst.append hothers hdistinct hknown).perm ?_
    rw [← List.map_append]
    exact (perm_append_swap lines sent lines' sent').map _
  | bare _ => exact .single (Item.scope_mem_owned _)
  | @named _ item _ op _ _ _ _ _ _ _ _ ih =>
    have howned : (Work.operation op (item.withOperation op)).owned = item.owned :=
      item.owned_withOperation op
    rw [howned] at ih
    exact ih hdistinct hknown
  | single _ => exact .single (Item.scope_mem_owned _)
  | unknown _ => exact .single (Item.scope_mem_owned _)
  | @invoke _ _ item template _ _ _ _ _ _ _ _ _ hopen hregister _ ih =>
    have hinside := (issues_openInvocation item.line template).draws hopen hregister ih []
    refine (hinside.line (List.pairwise_singleton _ _) ?_).subset ?_
    · exact List.forall_mem_singleton.mpr (hknown _ item.scope_mem_owned)
    · exact List.cons_subset.mpr ⟨item.scope_mem_owned, List.nil_subset _⟩
  | @rept _ line _ _ _ _ _ _ _ _ _ _ ih | @irp _ line _ _ _ _ _ _ _ _ _ _ ih =>
    have hinside := ih List.nodup_nil (List.forall_mem_nil _)
    refine (hinside.line (List.pairwise_singleton _ line.scope) ?_).subset ?_
    · exact List.forall_mem_singleton.mpr (hknown _ List.mem_cons_self)
    · exact List.cons_subset.mpr ⟨List.mem_cons_self, List.nil_subset _⟩
  | @choice _ line onTrue onFalse branch _ _ _ _ _ s s₁ _ _ _ hbranch hregister _ ih =>
    -- Of the two branches one is expanded.
    have hsub : (ownedBy branch).Sublist (ownedBy onTrue ++ ownedBy onFalse) := by
      rw [hbranch]
      split
      · exact List.sublist_append_left _ _
      · exact List.sublist_append_right _ _
    have hdistinct' := hdistinct.sublist (hsub.cons_cons line.scope)
    have hknown' : ∀ id ∈ line.scope :: ownedBy branch, id.index < s.scopes.size :=
      fun id hid => hknown id ((hsub.cons_cons line.scope).subset hid)
    have hsize : s.scopes.size ≤ s₁.scopes.size := (leads_register branch hregister).size_le
    have hinside := ih hdistinct'.of_cons fun id hid =>
      Nat.lt_of_lt_of_le (hknown' id (List.mem_cons_of_mem _ hid)) hsize
    exact ((hinside.older hsize).line hdistinct' hknown').subset (hsub.cons_cons line.scope).subset
  | proc _ ih =>
    exact (ih hdistinct.of_cons (List.forall_mem_cons.mp hknown).2).line hdistinct hknown
  | segment _ _ ih =>
    exact (ih hdistinct.of_cons (List.forall_mem_cons.mp hknown).2).line hdistinct hknown
  | done => exact .nil (Nat.le_refl _)
  | @iteration _ line var body _ i value _ lines sent lines' sent' _ _ _ _ _ _ _ hopen hregister _ _ ih
      ih' =>
    have hfirst := (issues_openIteration line var body i value).draws hopen hregister ih []
    have hothers := ih' List.nodup_nil (List.forall_mem_nil _)
    refine (hfirst.append hothers List.nodup_nil (List.forall_mem_nil _)).perm ?_
    rw [← List.map_append]
    exact (perm_append_swap lines sent lines' sent').map _

end Assembly

/-! ## Lines without addresses -/

namespace Scopes

/-- These lines own different scopes of the arena, and none of them has an address. -/
structure Awaits (s : Scopes) (lines : List Line) : Prop where
  distinct : (lines.map Line.scope).Nodup
  known : ∀ line ∈ lines, line.scope.index < s.size
  bare : ∀ line ∈ lines, s.address? line.scope = none

variable {s t : Scopes} {id : ScopeId}

theorem Awaits.perm {lines others : List Line} (h : s.Awaits lines) (hperm : lines.Perm others) :
    s.Awaits others :=
  ⟨(hperm.map _).nodup_iff.mp h.distinct, fun line hline => h.known line (hperm.mem_iff.mpr hline),
    fun line hline => h.bare line (hperm.mem_iff.mpr hline)⟩

theorem Awaits.sublist {lines others : List Line} (h : s.Awaits lines) (hsub : others.Sublist lines) :
    s.Awaits others :=
  ⟨h.distinct.sublist (hsub.map _), fun line hline => h.known line (hsub.subset hline),
    fun line hline => h.bare line (hsub.subset hline)⟩

/-- A scope without an address can be given one. It has that one then, and nothing else changes. -/
theorem setAddress_of_bare (address : UInt32) (hbare : s.address? id = none)
    (hid : id.index < s.size) :
    ∃ t, s.setAddress id address = .ok t ∧ t.size = s.size ∧ ∀ other a,
      t.address? other = some a ↔ s.address? other = some a ∨ id = other ∧ address = a := by
  refine ⟨s.modify id fun scope => { scope with address := some address }, ?_, size_modify _ _ _,
    fun other a => ?_⟩
  · rw [setAddress_eq]
    rw [address?] at hbare
    rw [hbare]
  · obtain ⟨scope, hscope⟩ := exists_get?_of_lt hid
    rw [address?, get?_modify]
    by_cases hsame : id = other
    · rw [if_pos hsame, ← hsame, hbare, hscope]
      simp
    · rw [if_neg hsame]
      simp [hsame, address?]

end Scopes

/-! ## Placed lines -/

theorem entriesOf_append (entries others : List Entry) :
    entriesOf (entries ++ others) = entriesOf entries ++ entriesOf others := by
  induction entries with
  | nil => rfl
  | cons entry rest ih => rw [List.cons_append, entriesOf, entriesOf, ih, List.append_assoc]

namespace Session

/-- The lines that wait for spaces. -/
def waitingLines (s : Session) : List Line :=
  s.spaces.toList.flatten.map Item.line

/-- Between `s` and `s'` these lines are placed as these entries, and lines that waited as entries
    inside them. -/
structure Places (s s' : Session) (lines : List Line) (entries : List Entry) : Prop where
  /-- No line is lost and none is taken twice. -/
  lines : ((entriesOf entries).map Entry.line ++ s'.waitingLines).Perm (lines ++ s.waitingLines)
  size_eq : s'.scopes.size = s.scopes.size
  /-- The scopes of the placed lines get the addresses of the entries. -/
  bound : ∀ id address, s'.scopes.address? id = some address ↔
    s.scopes.address? id = some address ∨
      ∃ e ∈ entriesOf entries, e.line.scope = id ∧ e.address = address

namespace Places

variable {s t u : Session} {lines others rest : List Line} {entries more : List Entry}

theorem nil (s : Session) : s.Places s [] [] :=
  ⟨.refl _, rfl, fun _ _ => by simp [entriesOf]⟩

theorem append (h : s.Places t lines entries) (h' : t.Places u others more) :
    s.Places u (lines ++ others) (entries ++ more) where
  lines := by
    rw [entriesOf_append, List.map_append, List.append_assoc]
    refine (h'.lines.append_left _).trans ?_
    rw [← List.append_assoc]
    refine (List.perm_append_comm.append_right _).trans ?_
    rw [List.append_assoc]
    refine (h.lines.append_left _).trans ?_
    rw [← List.append_assoc]
    exact List.perm_append_comm.append_right _
  size_eq := h'.size_eq.trans h.size_eq
  bound id address := by
    rw [h'.bound, h.bound, entriesOf_append, or_assoc]
    simp only [List.mem_append, or_and_right, exists_or]

/-- Lines that are not placed yet are still to be placed. -/
theorem awaits (h : s.Places t lines entries)
    (hs : s.scopes.Awaits (lines ++ rest ++ s.waitingLines)) :
    t.scopes.Awaits (rest ++ t.waitingLines) := by
  have hperm : (lines ++ rest ++ s.waitingLines).Perm
      ((entriesOf entries).map Entry.line ++ (rest ++ t.waitingLines)) := by
    refine (List.perm_append_comm.append_right _).trans ?_
    rw [List.append_assoc]
    refine (h.lines.symm.append_left _).trans ?_
    rw [← List.append_assoc, ← List.append_assoc]
    exact List.perm_append_comm.append_right _
  have hall := hs.perm hperm
  have hdistinct := hall.distinct
  rw [List.map_append] at hdistinct
  obtain ⟨-, hothers, hapart⟩ := List.nodup_append.mp hdistinct
  refine ⟨hothers, fun line hline => ?_, fun line hline => ?_⟩
  · rw [h.size_eq]
    exact hall.known line (List.mem_append_right _ hline)
  · refine Option.eq_none_iff_forall_ne_some.mpr fun address haddress => ?_
    rcases (h.bound _ _).mp haddress with hold | ⟨e, he, hscope, -⟩
    · rw [hall.bare line (List.mem_append_right _ hline)] at hold
      cases hold
    · exact hapart e.line.scope (List.mem_map_of_mem (List.mem_map_of_mem he)) line.scope
        (List.mem_map_of_mem hline) hscope

/-- A line is placed when its scope has got the address of its entry, and lines that waited are placed
    inside it. -/
theorem around {line : Line} {entry : Entry} {parts : List Entry} {taken : List Line}
    (hsize : t.scopes.size = s.scopes.size)
    (hbound : ∀ id address, t.scopes.address? id = some address ↔
      s.scopes.address? id = some address ∨ line.scope = id ∧ entry.address = address)
    (hline : entry.line = line) (hall : entry.all = entry :: entriesOf parts)
    (htaken : (taken ++ t.waitingLines).Perm s.waitingLines) (h : t.Places u taken parts) :
    s.Places u [line] [entry] where
  lines := by
    rw [entriesOf, entriesOf, List.append_nil, hall, List.map_cons, hline]
    exact (h.lines.trans htaken).cons line
  size_eq := h.size_eq.trans hsize
  bound id address := by
    rw [h.bound, hbound, entriesOf, entriesOf, List.append_nil, hall, or_assoc, ← hline]
    simp only [List.mem_cons, or_and_right, exists_or, exists_eq_left]

end Places

end Session

/-! ## Runs -/

namespace Assembly

variable {α β : Type} {s s' : Session}

/-- From `s` the run leads to a result as described, or fails for another reason than an address that
    is set already. -/
structure Reaches (x : Assembly α) (s : Session) (post : α → Session → Prop) : Prop where
  post : ∀ ⦃a s'⦄, x s = .ok a s' → post a s'
  sober : ∀ ⦃failure s'⦄, x s = .error failure s' → failure.what.Sober

theorem reaches_of_sober {x : Assembly α} (hx : SoberRun x) {post : α → Session → Prop}
    (hpost : ∀ ⦃a s'⦄, x s = .ok a s' → post a s') : Reaches x s post :=
  ⟨hpost, fun _ _ h => hx h⟩

/-- A run whose outcome is known. -/
theorem reaches_of_ok {x : Assembly α} {a : α} {t : Session} (h : x s = .ok a t) :
    Reaches x s fun b s' => b = a ∧ s' = t where
  post b s' hx := by
    cases h.symm.trans hx
    exact ⟨rfl, rfl⟩
  sober failure s' hx := by cases h.symm.trans hx

theorem Reaches.bind {x : Assembly α} {f : α → Assembly β} {mid : α → Session → Prop}
    {post : β → Session → Prop} (hx : Reaches x s mid)
    (hf : ∀ a s', mid a s' → Reaches (f a) s' post) : Reaches (x >>= f) s post where
  post := by
    intro b s' h
    obtain ⟨a, t, ha, h⟩ := bind_eq_ok.mp h
    exact (hf a t (hx.post ha)).post h
  sober := by
    intro failure s' h
    rcases bind_eq_error.mp h with h | ⟨a, t, ha, h⟩
    · exact hx.sober h
    · exact (hf a t (hx.post ha)).sober h

theorem Reaches.pure {a : α} {post : α → Session → Prop} (h : post a s) :
    Reaches (Pure.pure a) s post where
  post _ _ hpure := by
    obtain ⟨rfl, rfl⟩ := pure_eq_ok.mp hpure
    exact h
  sober _ _ hpure := (pure_eq_error.mp hpure).elim

theorem reaches_throw {failure : Failure} (h : failure.what.Sober) {post : α → Session → Prop} :
    Reaches (throw failure) s post where
  post _ _ hthrow := (throw_eq_ok.mp hthrow).elim
  sober _ _ hthrow := (throw_eq_error.mp hthrow).1 ▸ h

theorem reaches_fail {cause : Cause} (h : cause.Sober)
    {post : α → Session → Prop} : Reaches (fail cause) s post :=
  reaches_throw h

theorem Reaches.traced {x : Assembly α} {post : α → Session → Prop} (hx : Reaches x s post)
    (position : Position) : Reaches (traced position x) s post where
  post _ _ h := hx.post (traced_eq_ok.mp h)
  sober := by
    intro failure s' h
    obtain ⟨inner, hinner, rfl⟩ := adaptExcept_eq_error.mp h
    rw [Traced.what_at]
    exact hx.sober hinner

/-! ## Placing -/

@[simp] theorem takeSections_eq_ok {id : SpaceId} {items : List Item} :
    takeSections id s = .ok items s' ↔
      (s.spaces[id.index]?).getD [] = items ∧
        { s with spaces := s.spaces.modify id.index fun _ => [] } = s' := by
  simp [takeSections, and_comm]

theorem perm_taken_flatten (spaces : List (List Item)) (i : Nat) :
    ((spaces[i]?).getD [] ++ (spaces.modify i fun _ => []).flatten).Perm spaces.flatten := by
  induction spaces generalizing i with
  | nil => simp
  | cons first rest ih =>
    cases i with
    | zero => exact .refl _
    | succ i =>
      rw [List.getElem?_cons_succ, List.modify_succ_cons, List.flatten_cons, List.flatten_cons]
      refine (List.perm_append_comm_assoc _ _ _).trans ?_
      exact (ih i).append_left first

/-- What is taken out of a space waits no longer, and all else does. -/
theorem perm_taken_waitingLines (s : Session) (scopes : Scopes) (id : SpaceId) :
    (((s.spaces[id.index]?).getD []).map Item.line ++ Session.waitingLines
      { s with scopes, spaces := s.spaces.modify id.index fun _ => [] }).Perm s.waitingLines := by
  rw [Session.waitingLines, Session.waitingLines, ← List.map_append, Array.toList_modify,
    ← Array.getElem?_toList]
  exact (perm_taken_flatten _ _).map _

/-- A placer that places each of the lines, and of the lines that wait, at most once. -/
def Placer.Once (placeParts : Placer) : Prop :=
  ∀ {items : List Item} {address : UInt32} {s : Session},
    s.scopes.Awaits (items.map Item.line ++ s.waitingLines) →
      Reaches (placeParts items address) s fun placed s' =>
        s.Places s' (items.map Item.line) placed.1

variable {item : Item} {address : UInt32}

theorem placeWith_once {placeParts : Placer} (hparts : placeParts.Once)
    (h : s.scopes.Awaits (item.line :: s.waitingLines)) :
    Reaches (placeWith placeParts item address) s fun entry s' => s.Places s' [item.line] [entry] := by
  obtain ⟨scopes, hset, hsize, hbound⟩ := Scopes.setAddress_of_bare address
    (h.bare item.line List.mem_cons_self) (h.known item.line List.mem_cons_self)
  refine Reaches.traced ?_ _
  have hbind : onScopes (Scopes.bindAddress item.line.scope address) s = .ok () { s with scopes } :=
    bindAddress_eq_ok.mpr ⟨scopes, hset, rfl⟩
  refine .bind (reaches_of_ok hbind) ?_
  rintro _ _ ⟨rfl, rfl⟩
  refine .bind (reaches_of_sober Ensures.get.sober fun _ _ hget => get_eq_ok.mp hget) ?_
  rintro _ _ ⟨rfl, rfl⟩
  refine .bind (reaches_of_sober hints_scopes.sober fun _ _ hscopes => scopes_eq_ok.mp hscopes) ?_
  rintro _ _ ⟨rfl, rfl⟩
  refine .bind (reaches_of_sober (hints_ofExcept (sober_plan _ _ _)).sober fun _ _ hplan =>
    (ofExcept_eq_ok.mp hplan).2) ?_
  rintro plan _ rfl
  split
  · exact .pure (.around hsize hbound rfl rfl (.refl _) (.nil _))
  · exact .pure (.around hsize hbound rfl rfl (.refl _) (.nil _))
  · next region id =>
    refine .bind (reaches_of_sober (hints_takeSections id).sober fun _ _ => takeSections_eq_ok.mp) ?_
    rintro _ _ ⟨rfl, rfl⟩
    have htaken := perm_taken_waitingLines s scopes id
    -- Without its parts the region is placed like any other line.
    have hline : s.Places { s with scopes } [item.line] [.space item.line address region []] :=
      .around hsize hbound rfl rfl (.refl _) (.nil _)
    have hwaiting : scopes.Awaits ([] ++ s.waitingLines) := hline.awaits h
    refine .bind (hparts (hwaiting.perm htaken.symm)) ?_
    rintro ⟨parts, cursor⟩ s' hplaced
    dsimp only
    split
    · exact .bind (reaches_fail (by nofun)) fun _ _ (h : False) => h.elim
    · exact .pure (.around hsize hbound rfl rfl htaken hplaced)

theorem placeAll_once {placeItem : Item → UInt32 → Assembly Entry}
    (hitem : ∀ {item address s}, s.scopes.Awaits (item.line :: s.waitingLines) →
      Reaches (placeItem item address) s fun entry s' => s.Places s' [item.line] [entry]) :
    Placer.Once (placeAll placeItem) := by
  intro items
  induction items with
  | nil => exact fun _ => .pure (.nil _)
  | cons item rest ih =>
    intro address s h
    have hfirst : s.scopes.Awaits (item.line :: s.waitingLines) :=
      h.sublist ((List.sublist_append_right _ _).cons_cons _)
    refine .bind (hitem hfirst) ?_
    intro entry t hplaced
    refine .bind (ih (hplaced.awaits h)) ?_
    rintro ⟨entries, last⟩ u hrest
    exact .pure (hplaced.append hrest)

theorem placeLevels_once {levels : Nat} (h : s.scopes.Awaits (item.line :: s.waitingLines)) :
    Reaches (placeLevels levels item address) s fun entry s' => s.Places s' [item.line] [entry] := by
  induction levels generalizing item address s with
  | zero =>
    refine placeWith_once ?_ h
    intro items address s hs
    dsimp only
    split
    · next hempty =>
      cases List.isEmpty_iff.mp hempty
      exact .pure (.nil _)
    · exact reaches_fail (by nofun)
  | succ levels ih => exact placeWith_once (placeAll_once ih) h

theorem placeLines_once {items : List Item}
    (h : s.scopes.Awaits (items.map Item.line ++ s.waitingLines)) :
    Reaches (placeLines items address) s fun entries s' =>
      s.Places s' (items.map Item.line) entries := by
  induction items generalizing address s with
  | nil => exact .pure (.nil _)
  | cons item rest ih =>
    have hfirst : s.scopes.Awaits (item.line :: s.waitingLines) :=
      h.sublist ((List.sublist_append_right _ _).cons_cons _)
    have hplace : Reaches (place item address) s fun entry s' => s.Places s' [item.line] [entry] := by
      refine .bind (reaches_of_sober Ensures.get.sober fun _ _ hget => get_eq_ok.mp hget) ?_
      rintro _ _ ⟨rfl, rfl⟩
      exact placeLevels_once hfirst
    refine .bind hplace ?_
    intro entry t hplaced
    dsimp only
    split
    · exact reaches_throw (by nofun)
    · refine .bind (ih (hplaced.awaits h)) ?_
      intro entries u hrest
      exact .pure (hplaced.append hrest)

end Assembly

theorem Session.waiting_eq_zero {s : Session} (h : s.waiting = 0) :
    ∀ lines ∈ s.spaces, lines = [] := by
  have hnone : ∀ spaces : List (List Item),
      spaces.foldr (fun lines count => lines.length + count) 0 = 0 →
        ∀ lines ∈ spaces, lines = [] := by
    intro spaces
    induction spaces with
    | nil => exact fun _ => List.forall_mem_nil _
    | cons first rest ih =>
      intro hzero
      obtain ⟨hfirst, hrest⟩ := Nat.add_eq_zero_iff.mp hzero
      exact List.forall_mem_cons.mpr ⟨List.length_eq_zero_iff.mp hfirst, ih hrest⟩
  intro lines hlines
  exact hnone s.spaces.toList h lines hlines.val

theorem Assembly.resolve_once {s : Session} {scope : ScopeId} {items : List Item}
    (h : s.scopes.Awaits (items.map Item.line ++ s.waitingLines)) :
    Reaches (resolve scope items) s fun program s' =>
      s.Places s' (items.map Item.line) program.entries ∧ ∀ lines ∈ s'.spaces, lines = [] := by
  refine .bind (placeLines_once h) ?_
  intro entries t hplaced
  refine .bind (reaches_of_sober Ensures.get.sober fun _ _ hget => get_eq_ok.mp hget) ?_
  rintro _ _ ⟨rfl, rfl⟩
  split
  · exact .bind (reaches_fail (by nofun)) fun _ _ (h : False) => h.elim
  · next hzero =>
    simp only [bne_iff_ne, ne_eq, Decidable.not_not] at hzero
    exact .pure ⟨hplaced, Session.waiting_eq_zero hzero⟩

/-! ## New sessions -/

theorem textual_predefined : ∀ value ∈ predefinedScopes.values, value.Textual :=
  Scopes.forall_mem_values_predefined (fun _ => ⟨rfl, trivial⟩) (fun _ => ⟨rfl, trivial⟩)
    (fun _ => ⟨rfl, trivial⟩) fun _ => ⟨rfl, trivial⟩

theorem prepared_predefined : predefinedScopes.Prepared 0 where
  bare id := by
    rw [Scopes.address?, Scopes.get?]
    cases id with
    | mk index =>
      cases index with
      | zero => rfl
      | succ index => rfl
  values value hvalue := Expr.spacesBelow_of_eq_nil (textual_predefined value hvalue).1
  homes id a b ha := nomatch (textual_predefined _ ha).1
  proper value hvalue := (textual_predefined value hvalue).2

theorem Session.prepared_new (library : Library) : (Session.new library).Prepared 0 [] :=
  ⟨prepared_predefined, fun template h => (Array.not_mem_empty template h).elim, Nat.le_refl _, .nil⟩

theorem Origin.load_prepared {origin : Origin} {source : Source} {s s' : Session} {least : Nat}
    {waiting : List Item} (h : origin.load s = .ok source s') (hs : s.Prepared least waiting) :
    s'.Prepared least waiting ∧ ∀ line ∈ linesOf source.items, line.Textual := by
  obtain ⟨-, hlast, hreads⟩ := Origin.load_reads h
  obtain ⟨hscopes, hlines⟩ :=
    hreads.account (Scopes.account_prepared s.spaces.size) (hs.scopes.create _)
  rw [hlast]
  exact ⟨⟨hscopes, hs.templates, hs.least, hs.waiting⟩, hlines⟩

/-- The lines of a source own different scopes. -/
theorem Origin.load_distinct {origin : Origin} {source : Source} {s s' : Session}
    (h : origin.load s = .ok source s') :
    (ownedBy source.items).Nodup ∧ ∀ id ∈ ownedBy source.items, id.index < s'.scopes.size := by
  have hmakes := (Origin.load_reads h).2.2.account Scopes.account_makes trivial
  rw [← map_scope_linesOf]
  refine ⟨?_, fun id hid => (hmakes.fresh.2.2 id hid).2⟩
  exact hmakes.fresh.2.1.imp fun hlt heq => Nat.ne_of_lt hlt (congrArg ScopeId.index heq)

/-! ## Assembled programs -/

/-- Before lines are placed, in `s`, no scope has an address. In the end, in `t`, each of these lines
    has got one, once, nothing else has, and no line waits. -/
structure Program.PlacesEach (program : Program) (lines : List Line) (s t : Session) : Prop where
  /-- The lines have different scopes. -/
  distinct : (lines.map Line.scope).Nodup
  bare : ∀ id, s.scopes.address? id = none
  /-- Each line has one entry, possibly inside another. -/
  entries : ((entriesOf program.entries).map Entry.line).Perm lines
  bound : ∀ id address, t.scopes.address? id = some address ↔
    ∃ e ∈ entriesOf program.entries, e.line.scope = id ∧ e.address = address
  empty : ∀ waiting ∈ t.spaces, waiting = []

namespace Assembly

variable {s s' : Session}

/-- The lines into which a source is expanded are all to be placed. -/
theorem Expands.awaits {items lines sent : List Item} (h : Expands (.items items) s lines sent s')
    (hdistinct : (ownedBy items).Nodup) (hknown : ∀ id ∈ ownedBy items, id.index < s.scopes.size)
    (hbare : ∀ id, s'.scopes.address? id = none) :
    s'.scopes.Awaits ((lines ++ sent).map Item.line) := by
  obtain ⟨_, products, others, _, h, rfl, rfl⟩ := h
  have hdraws := h.draws hdistinct hknown
  have hscopes : ((products.map Product.item ++ others.map Product.item).map Item.line).map Line.scope =
      (products ++ others).map (·.item.line.scope) := by
    rw [← List.map_append, List.map_map, List.map_map]
    rfl
  refine ⟨hscopes ▸ hdraws.distinct, fun line hline => ?_, fun line _ => hbare line.scope⟩
  have hmem : line.scope ∈ (products ++ others).map (·.item.line.scope) :=
    hscopes ▸ List.mem_map_of_mem hline
  rcases hdraws.drawn line.scope hmem with hold | ⟨-, hlt⟩
  · exact Nat.lt_of_lt_of_le (hknown line.scope hold) hdraws.size_le
  · exact hlt

theorem assemble_once {source : Source} (hs : s.Prepared 0 [])
    (htextual : ∀ line ∈ linesOf source.items, line.Textual)
    (hdistinct : (ownedBy source.items).Nodup)
    (hknown : ∀ id ∈ ownedBy source.items, id.index < s.scopes.size) :
    Reaches (assemble source) s fun program t => ∃ lines sent s₁ s₂,
      register source.items s = .ok () s₁ ∧ Assembly.expand source.items s₁ = .ok lines s₂ ∧
      Expands (.items source.items) s₁ lines sent s₂ ∧ s₂.spaces.toList.flatten.Perm sent ∧
      program.PlacesEach ((lines ++ sent).map Item.line) s₂ t := by
  refine .bind (reaches_of_sober (sober_register source.items) fun _ _ hregister => hregister) ?_
  intro _ s₁ hregister
  refine .bind (reaches_of_sober (sober_expandLevels _ source.items) fun _ _ hexpand => hexpand) ?_
  intro lines s₂ hexpand
  obtain ⟨products, others, log, hunfolds, rfl⟩ := expandLevels_unfolds _ [] hexpand
  generalize hlines : products.map Product.item = lines at *
  generalize hsent : others.map Product.item = sent at *
  have hs₂ : s₂.Prepared 0 sent :=
    hsent ▸ hunfolds.prepared htextual (prepares_register _ htextual hregister hs)
  have hexpands : Expands (.items source.items) s₁ lines sent s₂ :=
    ⟨[], products, others, log, hunfolds, hlines, hsent⟩
  have hsize : s.scopes.size ≤ s₁.scopes.size := (leads_register _ hregister).size_le
  have hawaits := hexpands.awaits hdistinct
    (fun id hid => Nat.lt_of_lt_of_le (hknown id hid) hsize) hs₂.scopes.bare
  have hwaiting : (lines.map Item.line ++ s₂.waitingLines).Perm ((lines ++ sent).map Item.line) := by
    rw [List.map_append]
    exact (hs₂.waiting.map _).append_left _
  refine .bind (resolve_once (hawaits.perm hwaiting.symm)) ?_
  rintro program t ⟨hplaces, hempty⟩
  refine .bind (reaches_of_sober (sober_generate program) fun _ _ hgenerate =>
    emitting_eq_ok.mp hgenerate) ?_
  rintro _ _ ⟨output, -, rfl⟩
  refine .pure ⟨lines, sent, s₁, s₂, hregister, hexpand, hexpands, hs₂.waiting, ?_⟩
  refine ⟨hawaits.distinct, hs₂.scopes.bare, ?_, ?_, hempty⟩
  · have hnone : t.waitingLines = [] := by
      rw [Session.waitingLines, List.flatten_eq_nil_iff.mpr fun lines hlines =>
        hempty lines (Array.mem_toList_iff.mp hlines)]
      rfl
    have hlines := hplaces.lines.trans hwaiting
    rw [hnone, List.append_nil] at hlines
    exact hlines
  · intro id address
    rw [hplaces.bound, hs₂.scopes.bare]
    simp

/-- **Every line is placed once.** In a new session, assembling a source never meets an address that
    is set already. If it succeeds, every line that expanding has left in place or sent to a space
    is placed, and placed once. The session is new because a source that is assembled twice does
    meet the addresses of the first time. -/
theorem assemble_places_each_once {library : Library} {origin : Origin} {source : Source}
    (hload : origin.load (Session.new library) = .ok source s) :
    (∀ failure t, assemble source s = .error failure t → failure.what.kind ≠ .addressAlreadySet) ∧
      ∀ program t, assemble source s = .ok program t → ∃ lines sent s₁ s₂,
        register source.items s = .ok () s₁ ∧ Assembly.expand source.items s₁ = .ok lines s₂ ∧
        Expands (.items source.items) s₁ lines sent s₂ ∧ s₂.spaces.toList.flatten.Perm sent ∧
        program.PlacesEach ((lines ++ sent).map Item.line) s₂ t := by
  obtain ⟨hs, htextual⟩ := Origin.load_prepared hload (Session.prepared_new library)
  obtain ⟨hdistinct, hknown⟩ := Origin.load_distinct hload
  have hreaches := assemble_once hs htextual hdistinct hknown
  exact ⟨fun failure t h => hreaches.sober h, fun program t h => hreaches.post h⟩

/-- A section inside a section, and one in a macro that is repeated. -/
theorem assemble_places_each_once_sections : ∃ source s program t,
    (Origin.text ("m: macro\n section x\n db 1\n ends\n endm\nx: ds 4\ny: ds 2\n rept 2\n m\n" ++
        " endm\n section y\n section x\n db 2\n ends\n db 3\n ends\n")).load (Session.new {}) =
          .ok source s ∧
      assemble source s = .ok program t ∧
      (entriesOf program.entries).map Entry.address =
        [0, 0, 0, 0, 1, 1, 1, 2, 2, 2, 3, 4, 4, 4, 5, 6, 6, 6, 6, 6, 6, 6] ∧
      ∃ lines sent s₁ s₂, register source.items s = .ok () s₁ ∧
        Assembly.expand source.items s₁ = .ok lines s₂ ∧
        Expands (.items source.items) s₁ lines sent s₂ ∧ s₂.spaces.toList.flatten.Perm sent ∧
        program.PlacesEach ((lines ++ sent).map Item.line) s₂ t := by
  have hpasses : passes (fun (program : Program) (_ : Session) =>
      decide ((entriesOf program.entries).map Entry.address =
        [0, 0, 0, 0, 1, 1, 1, 2, 2, 2, 3, 4, 4, 4, 5, 6, 6, 6, 6, 6, 6, 6]))
      (((Origin.text ("m: macro\n section x\n db 1\n ends\n endm\nx: ds 4\ny: ds 2\n rept 2\n m\n" ++
        " endm\n section y\n section x\n db 2\n ends\n db 3\n ends\n")).load >>= assemble)
        (Session.new {})) = true := by
    decide +kernel
  obtain ⟨program, t, hrun, htest⟩ := eq_ok_of_passes hpasses
  obtain ⟨source, s, hload, hassemble⟩ := bind_eq_ok.mp hrun
  exact ⟨source, s, program, t, hload, hassemble, of_decide_eq_true htest,
    (assemble_places_each_once hload).2 program t hassemble⟩

end Assembly

end Z80Asm
