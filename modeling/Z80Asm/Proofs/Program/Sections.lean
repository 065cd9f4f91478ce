import Z80Asm.Proofs.Program.Bodies
import Z80Asm.Proofs.Program.Placing

/-!
# Sections and their spaces

Expanding a `SECTION` block sends its lines to a space, behind those that were sent there before.
The blocks are logged in the order in which expanding is done with them, which puts a block behind
those inside it, and what waits for a space is what the log says (`Unfolds.waitingFor`).

Placing takes the lines of a space when it gets to the `DS` line that the space was made for, and at
no other time. That line has no address before, so the space still holds everything that was sent to
it (`Session.Lays`), and the entries inside the region are those lines in their order.

A `DS` line without a label, or whose label is not bound to a space, takes no sections. Sections of
a space that no line places are reported (`Program/Contexts`).
-/
set_option autoImplicit false

namespace Z80Asm

open Success

/-! ## Sending -/

/-- The lines that wait for a space. -/
def Session.waitingFor (s : Session) (id : SpaceId) : List Item :=
  (s.spaces[id.index]?).getD []

/-- These lines wait for the space. -/
def Session.Queues (id : SpaceId) (items : List Item) (s : Session) : Prop :=
  s.waitingFor id = items

namespace Assembly

section

variable {id : SpaceId} {waiting : List Item}

/-- A space is new when its label is bound, and nothing waits for it then. -/
theorem queues_register (items : List Item) :
    Guards (Session.Queues id waiting) (register items) := by
  have hbind : ∀ item, Guards (Session.Queues id waiting) (bindLabel item) := fun item =>
    moves_bindLabel (fun label => moves_labelValue (fun s hs => ?_) fun _ _ _ _ _ _ hs => hs)
      (fun _ _ _ _ _ _ _ hs => hs) fun _ hs => hs
  · exact moves_register (fun _ _ _ => trivial) (fun _ => hbind _) items fun _ _ => trivial
  · rw [Session.Queues, ← hs, Session.waitingFor, Session.waitingFor, Array.getElem?_push]
    split
    · next hnew => rw [hnew, Array.getElem?_eq_none (Nat.le_refl _)]; rfl
    · rfl

end

/-- The lines that these blocks send to a space, one block behind the other. -/
def sectionLines (id : SpaceId) (log : List Sending) : List Item :=
  log.flatMap fun sending => if sending.space = id then sending.lines else []

theorem sectionLines_append (id : SpaceId) (log others : List Sending) :
    sectionLines id (log ++ others) = sectionLines id log ++ sectionLines id others :=
  List.flatMap_append

/-- Expanding leads from one session to another and gives these lines. On the way it sends these
    blocks to spaces, in the order in which it is done with them. -/
def Sends (work : Work) (s : Session) (lines : List Item) (log : List Sending) (t : Session) : Prop :=
  ∃ within products sent, Unfolds within work s products sent log t ∧
    products.map Product.item = lines

/-- **What waits for a space after expanding is what waited before, and behind it the blocks of the
    log that name the space.** -/
theorem Unfolds.waitingFor {within : List Line} {work : Work} {lines sent : List Product}
    {log : List Sending} {before : List Item} {least : Nat} {s s' : Session}
    (h : Unfolds within work s lines sent log s') (hwork : work.Textual)
    (hs : s.Prepared least before) (id : SpaceId) :
    s'.waitingFor id = s.waitingFor id ++ sectionLines id log := by
  have hopened : ∀ {site : Position} {body items : List Item} {s s₁ s₂ s₃ : Session}
      {log : List Sending}, Instantiates site body s items s₁ → register items s₁ = .ok () s₂ →
      s₃.waitingFor id = s₂.waitingFor id ++ sectionLines id log →
      s₃.waitingFor id = s.waitingFor id ++ sectionLines id log := by
    intro site body items s s₁ s₂ s₃ log hopen hregister hwaiting
    rw [hwaiting, queues_register items hregister rfl, hopen.session]
    rfl
  induction h generalizing least before with
  | nil | bare _ | single _ | unknown _ | done => exact (List.append_nil _).symm
  | cons h _ ih ih' =>
    obtain ⟨hitem, hrest⟩ := List.forall_mem_append.mp hwork
    rw [ih' hrest (h.prepared hitem hs), ih hitem hs, sectionLines_append, List.append_assoc]
  | named _ _ _ ih => exact ih (textual_withOperation _ hwork) hs
  | @invoke _ _ item _ items _ _ _ _ _ _ _ htemplate hopen hregister _ ih =>
    obtain ⟨hs₁, hitems⟩ := openInvocation_prepared hopen hs (hwork _ item.line_mem_lines)
      (Array.mem_of_getElem? htemplate)
    exact hopened (openInvocation_instantiates hopen) hregister
      (ih hitems (prepares_register items hitems hregister hs₁))
  | rept hvalues _ ih =>
    exact ih ⟨(List.forall_mem_cons.mp hwork).2, textual_reptValues hvalues⟩ hs
  | irp hvalues _ ih =>
    obtain ⟨hline, hbody⟩ := List.forall_mem_cons.mp hwork
    exact ih ⟨hbody, textual_irpValues hline hvalues⟩ hs
  | @choice _ _ _ _ branch _ _ _ _ _ _ _ _ _ _ hbranch hregister _ ih =>
    obtain ⟨htrue, hfalse⟩ := List.forall_mem_append.mp (List.forall_mem_cons.mp hwork).2
    have hlines : ∀ line ∈ linesOf branch, line.Textual := by
      rw [hbranch]
      split
      · exact htrue
      · exact hfalse
    rw [ih hlines (prepares_register branch hlines hregister hs), queues_register branch hregister rfl]
  | proc _ ih => exact ih (List.forall_mem_cons.mp hwork).2 hs
  | @segment _ line body lines sent log space s s' hspace h ih =>
    obtain ⟨hline, hbody⟩ := List.forall_mem_cons.mp hwork
    have hknown : space.index < s'.spaces.size :=
      Nat.lt_of_lt_of_le (segmentSpace_lt hspace hs.scopes hline) (h.prepared hbody hs.all).least
    rw [sectionLines_append, ← List.append_assoc, ← ih hbody hs]
    simp only [Session.waitingFor, Array.getElem?_modify, sectionLines, List.flatMap_cons,
      List.flatMap_nil, List.append_nil]
    by_cases hid : space = id
    · subst hid
      simp [hknown]
    · have hindex : space.index ≠ id.index := fun heq => hid (by cases space; cases id; simp_all)
      simp [hid, hindex]
  | iteration hopen hregister h _ ih ih' =>
    obtain ⟨hbody, hvalues⟩ := hwork
    obtain ⟨hvalue, hrest⟩ := List.forall_mem_cons.mp hvalues
    obtain ⟨hs₁, hitems⟩ := openIteration_prepared hopen hs hbody hvalue
    have hs₂ := prepares_register _ hitems hregister hs₁
    rw [ih' ⟨hbody, hrest⟩ (h.prepared hitems hs₂), sectionLines_append, ← List.append_assoc]
    congr 1
    exact hopened (openIteration_instantiates hopen) hregister (ih hitems hs₂)

end Assembly

/-! ## The space of a line -/

/-- A space that belongs to a line is bound for that line, which has a scope. -/
theorem mem_values_of_spaceOf? {s : Scopes} {line : Line} {id : SpaceId}
    (h : spaceOf? s line = some id) :
    .space id line.scope ∈ s.values ∧ line.scope.index < s.size := by
  simp only [spaceOf?, Option.bind_eq_bind, Option.bind_eq_some_iff] at h
  obtain ⟨label, -, parent, hparent, h⟩ := h
  refine ⟨?_, Scopes.index_lt_of_parent? hparent⟩
  split at h
  · next hmember =>
    split at h
    · next hscope =>
      cases h
      exact hscope ▸ memberValue_mem hmember
    · cases h
  · cases h

theorem planSpace_space {s : Scopes} {line : Line} {region : Region} {id : Option SpaceId}
    (h : planSpace s line = .ok (.space region id)) : id = spaceOf? s line := by
  unfold planSpace at h
  simp only at h
  split at h
  · simp only [except_bind_eq_ok] at h
    obtain ⟨count, -, h⟩ := h
    split at h
    · simp only [except_pure_eq_ok, Plan.space.injEq] at h
      exact h.2.symm
    · simp at h
  · simp at h

theorem plan_space {files : FileAccess} {s : Scopes} {item : Item} {region : Region}
    {id : Option SpaceId} (h : item.plan files s = .ok (.space region id)) :
    id = spaceOf? s item.line := by
  unfold Item.plan at h
  simp only at h
  split at h
  case h_2 => exact planSpace_space h
  case h_4 => split at h <;> simp at h
  case h_5 => split at h <;> simp at h
  all_goals simp at h

/-! ## Sessions in which lines are being placed -/

/-- Of the lines that waited in `s`, those that do not wait in `t` are those of spaces whose `DS` lines
    have got an address. -/
structure Session.Lays (s t : Session) : Prop where
  growth : s.scopes.Extends t.scopes
  values : t.scopes.values = s.scopes.values
  waiting : ∀ id, t.waitingFor id = s.waitingFor id ∨
    ∃ scope, .space id scope ∈ s.scopes.values ∧ t.scopes.address? scope ≠ none

namespace Session.Lays

variable {s t : Session}

theorem refl (s : Session) : s.Lays s :=
  ⟨.refl _, rfl, fun _ => .inl rfl⟩

/-- A line without an address still finds everything that waits for its space. -/
theorem waitingFor_eq (h : s.Lays t) {count : Nat} (hs : s.scopes.Prepared count) {id : SpaceId}
    {scope : ScopeId} (hspace : .space id scope ∈ t.scopes.values)
    (hbare : t.scopes.address? scope = none) : t.waitingFor id = s.waitingFor id := by
  rcases h.waiting id with heq | ⟨other, hother, haddress⟩
  · exact heq
  · rw [hs.homes id other scope hother (h.values ▸ hspace)] at haddress
    exact absurd hbare haddress

theorem setAddress (h : s.Lays t) {id : ScopeId} {address : UInt32} {scopes : Scopes}
    (hset : t.scopes.setAddress id address = .ok scopes) : s.Lays { t with scopes } := by
  have hgrowth := Scopes.extends_setAddress hset
  obtain ⟨-, rfl⟩ := Scopes.setAddress_eq_ok hset
  refine ⟨h.growth.trans hgrowth, ?_, fun space => ?_⟩
  · rw [← h.values]
    exact Scopes.values_modify fun _ => rfl
  refine (h.waiting space).imp_right ?_
  rintro ⟨scope, hscope, haddress⟩
  refine ⟨scope, hscope, ?_⟩
  rw [Scopes.address?, Scopes.get?_modify]
  split
  · cases hget : t.scopes.get? scope with
    | none =>
      rw [Scopes.address?, hget] at haddress
      exact absurd rfl haddress
    | some found => simp
  · exact haddress

/-- The lines of a space are taken once its `DS` line has an address. -/
theorem take (h : s.Lays t) {id : SpaceId} {scope : ScopeId}
    (hspace : .space id scope ∈ t.scopes.values) (haddress : t.scopes.address? scope ≠ none) :
    s.Lays { t with spaces := t.spaces.modify id.index fun _ => [] } := by
  refine ⟨h.growth, h.values, fun other => ?_⟩
  by_cases hsame : id = other
  · exact .inr ⟨scope, hsame ▸ h.values ▸ hspace, haddress⟩
  · refine (h.waiting other).imp_left fun heq => ?_
    have hindex : id.index ≠ other.index := fun heq => hsame (by cases id; cases other; simp_all)
    rw [← heq, Session.waitingFor, Session.waitingFor, Array.getElem?_modify, if_neg hindex]

end Session.Lays

/-! ## Placing -/

namespace Assembly

variable {s t t' : Session} {item : Item} {address : UInt32}

/-- Placing a line first gives it the address, and then plans what it contributes. -/
def Opens (s : Session) (item : Item) (address : UInt32) (plan : Plan) (t : Session) : Prop :=
  ∃ scopes, s.scopes.setAddress item.line.scope address = .ok scopes ∧
    item.plan s.library.files scopes = .ok plan ∧ t = { s with scopes }

/-- What placing a line does once the line has an address and a plan. -/
def settle (placeParts : Placer) (line : Line) (address : UInt32) : Plan → Assembly Entry
  | .code code => return .code line address code
  | .space region none => return .space line address region []
  | .space region (some id) => do
    let (parts, cursor) ← placeParts (← takeSections id) address
    let used := cursor - address
    if region.size < used then fail (.sectionTooLarge used region.size)
    return .space line address { region with used } parts

theorem placeWith_eq (placeParts : Placer) (item : Item) (address : UInt32) :
    placeWith placeParts item address = traced item.line.position (do
      onScopes (Scopes.bindAddress item.line.scope address)
      settle placeParts item.line address
        (← ofExcept (item.plan (← get).library.files (← scopes)))) :=
  rfl

theorem placeWith_of_opens {plan : Plan} (h : Opens s item address plan t) (placeParts : Placer) :
    placeWith placeParts item address s =
      traced item.line.position (settle placeParts item.line address plan) t := by
  obtain ⟨scopes, hset, hplan, rfl⟩ := h
  have hrun : (do
      onScopes (Scopes.bindAddress item.line.scope address)
      settle placeParts item.line address
        (← ofExcept (item.plan (← get).library.files (← Assembly.scopes)))) s =
      settle placeParts item.line address plan { s with scopes } := by
    have hbind : onScopes (Scopes.bindAddress item.line.scope address) s = .ok () { s with scopes } :=
      bindAddress_eq_ok.mpr ⟨scopes, hset, rfl⟩
    rw [bind_apply_of_ok hbind]
    show (ofExcept (item.plan s.library.files scopes) >>= _) { s with scopes } = _
    rw [hplan]
    rfl
  rw [placeWith_eq, traced, traced, EStateM.adaptExcept, EStateM.adaptExcept, hrun]

theorem placeWith_eq_ok {placeParts : Placer} {entry : Entry} :
    placeWith placeParts item address s = .ok entry t' ↔
      ∃ plan t, Opens s item address plan t ∧
        settle placeParts item.line address plan t = .ok entry t' := by
  rw [placeWith_eq]
  simp only [traced_eq_ok, bind_eq_ok, bindAddress_eq_ok, scopes_eq_ok, ofExcept_eq_ok, get_eq_ok]
  constructor
  · rintro ⟨_, _, ⟨scopes, hset, rfl⟩, _, _, ⟨rfl, rfl⟩, _, _, ⟨rfl, rfl⟩, plan, _, ⟨hplan, rfl⟩, h⟩
    exact ⟨plan, _, ⟨scopes, hset, hplan, rfl⟩, h⟩
  · rintro ⟨plan, _, ⟨scopes, hset, hplan, rfl⟩, h⟩
    exact ⟨(), _, ⟨scopes, hset, rfl⟩, _, _, ⟨rfl, rfl⟩, _, _, ⟨rfl, rfl⟩, plan, _, ⟨hplan, rfl⟩, h⟩

/-- The placer for the sections of a region. -/
def placeParts : Nat → Placer
  | 0 => fun lines address => if lines.isEmpty then return ([], address) else fail .spaceNeverPlaced
  | levels + 1 => placeAll (placeLevels levels)

theorem placeLevels_eq (levels : Nat) : placeLevels levels = placeWith (placeParts levels) := by
  cases levels with
  | zero => rfl
  | succ levels => rfl

/-- The code of a line was planned with the values of `s`. The entries inside the region of a line
    are the lines that wait in `s` for the space of the line. Which space that is may be looked up
    later than `s`. -/
def TakesFrom (s : Session) : Entry → Prop
  | .code line _ code => ∃ (item : Item) (files : FileAccess) (scopes : Scopes), item.line = line ∧
    scopes.values = s.scopes.values ∧ item.plan files scopes = .ok (.code code)
  | .space line _ _ parts => ∃ scopes, s.scopes.Extends scopes ∧
    parts.map Entry.line = ((spaceOf? scopes line).elim [] s.waitingFor).map Item.line

/-- A placer that gives an entry for each line, and whose regions take all that waits for them. -/
def Placer.Takes (s : Session) (place : Placer) : Prop :=
  ∀ ⦃items : List Item⦄ ⦃address last : UInt32⦄ ⦃parts : List Entry⦄ ⦃t t' : Session⦄,
    s.Lays t → place items address t = .ok (parts, last) t' →
      s.Lays t' ∧ parts.map Entry.line = items.map Item.line ∧ ∀ e ∈ entriesOf parts, TakesFrom s e

theorem Opens.lays {plan : Plan} (h : Opens t item address plan t') (hs : s.Lays t) : s.Lays t' := by
  obtain ⟨scopes, hset, -, rfl⟩ := h
  exact hs.setAddress hset

/-- The line had no address before. -/
theorem Opens.bare {plan : Plan} (h : Opens t item address plan t') :
    t.scopes.address? item.line.scope = none := by
  obtain ⟨scopes, hset, -, -⟩ := h
  exact (Scopes.setAddress_eq_ok hset).1

/-- The sections that are taken for a region are all that were sent there. -/
theorem Opens.taken {count : Nat} (hprepared : s.scopes.Prepared count) {region : Region}
    {id : SpaceId} {lines : List Item} {u : Session}
    (h : Opens t item address (.space region (some id)) t') (hs : s.Lays t)
    (htake : takeSections id t' = .ok lines u) :
    lines = s.waitingFor id ∧ spaceOf? t'.scopes item.line = some id ∧ s.Lays u := by
  have hlays := h.lays hs
  have hbare := h.bare
  obtain ⟨scopes, hset, hplan, rfl⟩ := h
  have hspace := (plan_space hplan).symm
  obtain ⟨hvalue, hknown⟩ := mem_values_of_spaceOf? hspace
  obtain ⟨rfl, rfl⟩ := takeSections_eq_ok.mp htake
  refine ⟨?_, hspace, hlays.take hvalue ?_⟩
  · refine hs.waitingFor_eq hprepared ?_ hbare
    rw [hs.values, ← hlays.values]
    exact hvalue
  · rw [Scopes.address?_setAddress hset hknown]
    exact Option.some_ne_none _

theorem placeWith_takes {count : Nat} (hprepared : s.scopes.Prepared count) {place : Placer}
    (hplace : place.Takes s) {entry : Entry} (hs : s.Lays t)
    (h : placeWith place item address t = .ok entry t') :
    s.Lays t' ∧ entry.line = item.line ∧ ∀ e ∈ entry.all, TakesFrom s e := by
  obtain ⟨plan, u, hopens, h⟩ := placeWith_eq_ok.mp h
  have hu := hopens.lays hs
  cases plan with
  | code code =>
    obtain ⟨rfl, rfl⟩ := pure_eq_ok.mp h
    obtain ⟨scopes, -, hplan, rfl⟩ := hopens
    exact ⟨hu, rfl, List.forall_mem_singleton.mpr ⟨item, _, scopes, rfl, hu.values, hplan⟩⟩
  | space region id =>
    cases id with
    | none =>
      obtain ⟨rfl, rfl⟩ := pure_eq_ok.mp h
      obtain ⟨scopes, -, hplan, rfl⟩ := hopens
      refine ⟨hu, rfl, List.forall_mem_singleton.mpr ⟨scopes, hu.growth, ?_⟩⟩
      rw [← plan_space hplan]
      rfl
    | some id =>
      simp only [settle, bind_eq_ok] at h
      obtain ⟨lines, w, htake, ⟨parts, cursor⟩, _, hparts, h⟩ := h
      obtain ⟨rfl, hspace, hw⟩ := hopens.taken hprepared hs htake
      obtain ⟨hlays, hlines, hall⟩ := hplace hw hparts
      split at h
      · simp at h
      · obtain ⟨rfl, rfl⟩ := pure_eq_ok.mp h
        refine ⟨hlays, rfl, List.forall_mem_cons.mpr ⟨⟨_, hu.growth, ?_⟩, hall⟩⟩
        rw [hspace, hlines]
        rfl

theorem placeAll_takes {placeItem : Item → UInt32 → Assembly Entry}
    (hitem : ∀ ⦃item address entry t t'⦄, s.Lays t → placeItem item address t = .ok entry t' →
      s.Lays t' ∧ entry.line = item.line ∧ ∀ e ∈ entry.all, TakesFrom s e) :
    Placer.Takes s (placeAll placeItem) := by
  intro items
  induction items with
  | nil =>
    intro address last parts t t' hs h
    simp only [placeAll, pure_eq_ok, Prod.mk.injEq] at h
    obtain ⟨⟨rfl, rfl⟩, rfl⟩ := h
    exact ⟨hs, rfl, List.forall_mem_nil _⟩
  | cons item rest ih =>
    intro address last parts t t' hs h
    simp only [placeAll, bind_eq_ok, pure_eq_ok, Prod.mk.injEq] at h
    obtain ⟨entry, u, hentry, ⟨entries, _⟩, _, hrest, ⟨rfl, rfl⟩, rfl⟩ := h
    obtain ⟨hu, hline, hall⟩ := hitem hs hentry
    obtain ⟨hlays, hlines, hothers⟩ := ih hu hrest
    refine ⟨hlays, ?_, List.forall_mem_append.mpr ⟨hall, hothers⟩⟩
    rw [List.map_cons, List.map_cons, hline, hlines]

theorem placeParts_takes {count : Nat} (hprepared : s.scopes.Prepared count) (levels : Nat) :
    Placer.Takes s (placeParts levels) := by
  induction levels with
  | zero =>
    intro items address last parts t t' hs h
    simp only [placeParts] at h
    split at h
    · next hempty =>
      simp only [pure_eq_ok, Prod.mk.injEq] at h
      obtain ⟨⟨rfl, rfl⟩, rfl⟩ := h
      cases List.isEmpty_iff.mp hempty
      exact ⟨hs, rfl, List.forall_mem_nil _⟩
    · simp at h
  | succ levels ih =>
    refine placeAll_takes fun item address entry t t' hs h => ?_
    rw [placeLevels_eq] at h
    exact placeWith_takes hprepared ih hs h

theorem placeLines_takes {count : Nat} (hprepared : s.scopes.Prepared count) {items : List Item}
    {entries : List Entry} (hs : s.Lays t) (h : placeLines items address t = .ok entries t') :
    s.Lays t' ∧ ∀ e ∈ entriesOf entries, TakesFrom s e := by
  induction items generalizing address entries t with
  | nil =>
    obtain ⟨rfl, rfl⟩ := pure_eq_ok.mp h
    exact ⟨hs, List.forall_mem_nil _⟩
  | cons item rest ih =>
    simp only [placeLines, place, bind_eq_ok, get_eq_ok] at h
    obtain ⟨entry, u, ⟨_, _, ⟨rfl, rfl⟩, hentry⟩, h⟩ := h
    rw [placeLevels_eq] at hentry
    obtain ⟨hu, -, hall⟩ := placeWith_takes hprepared (placeParts_takes hprepared _) hs hentry
    split at h
    · simp at h
    · simp only [bind_eq_ok, pure_eq_ok] at h
      obtain ⟨others, _, hrest, rfl, rfl⟩ := h
      obtain ⟨hlays, hothers⟩ := ih hu hrest
      exact ⟨hlays, List.forall_mem_append.mpr ⟨hall, hothers⟩⟩

end Assembly

end Z80Asm
