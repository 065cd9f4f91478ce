import Mathlib.Data.List.Perm.Subperm
import Z80Asm.Proofs.Program.Planning
import Z80Asm.Proofs.Program.Sections

/-!
# Placing comes to an end

Placing the `DS` line of a space places the lines that wait for the space, and among these may be `DS`
lines again, of other spaces or of the same one. So the recursion goes through the table of spaces and
not through a tree. `Placing` is this recursion without a bound, and with evaluations that have none
either: it relates a line to the outcome and to a log of what happened to the waiting lines.

A line can keep placing from coming to an end only by an evaluation that does not end. If each
evaluation that placing gets to does, then so does placing, and the other way round (`place_ends`).
The reason is in the log. Lines are taken out of their space before they are placed, and nothing is
sent to a space meanwhile; `Backlog` is what is left to do, and every event lowers its `weight`. The
number of lines that wait is no such measure by itself: a space that is empty, say because it is
being placed already, is emptied once more without a line being taken.

Whether the lines fit their regions is not a matter of this module, nor what they contribute.
-/
set_option autoImplicit false

namespace Z80Asm.Assembly

open Success

/-! ## The recursion -/

/-- What is placed: a line, or lines one after the other. -/
inductive Job where
  | line (item : Item)
  | lines (items : List Item)

/-- What placing gives: an entry for a line, and for several their entries and the address behind
    them. -/
abbrev Job.Value : Job → Type
  | .line _ => Entry
  | .lines _ => List Entry × UInt32

/-- How work on a session ends. -/
abbrev Outcome (α : Type) := EStateM.Result Failure Session α

/-- The session that an outcome leaves. -/
def Outcome.session {α : Type} : Outcome α → Session
  | .ok _ s => s
  | .error _ s => s

/-- What happens to the lines that wait for spaces. -/
inductive Event where
  /-- Those of one space are taken. -/
  | drain (id : SpaceId) (lines : List Item)
  /-- A line that was taken is placed. -/
  | place (item : Item)

/-- The outcome for lines of which the first one has got an entry. -/
def Outcome.prepend (entry : Entry) : Outcome (List Entry × UInt32) → Outcome (List Entry × UInt32)
  | .ok (entries, last) s => .ok (entry :: entries, last) s
  | .error failure s => .error failure s

/-- A placer whose outcome is known. -/
def Placer.giving (outcome : Outcome (List Entry × UInt32)) : Placer :=
  fun _ _ _ => outcome

/-- A line gets its address, and without bounds the evaluations for its plan end, with this plan or with
    a failure. -/
def Plans (s : Session) (item : Item) (address : UInt32) (plan : Except Cause Plan) (t : Session) :
    Prop :=
  ∃ scopes, s.scopes.setAddress item.line.scope address = .ok scopes ∧
    item.plan s.library.files scopes = plan ∧
    Ends scopes (Asking.plan s.library.files scopes item).run plan.toOption ∧ t = { s with scopes }

/-- The recursion of placing, with no bound on how deep it goes: the outcome for a job at an
    address, and what happened to the waiting lines on the way. A job has an outcome only if its
    recursion comes to an end, and so do all evaluations. -/
inductive Placing : (job : Job) → UInt32 → Session → Outcome job.Value → List Event → Prop
  /-- A line that has an address already. -/
  | refused {item : Item} {address : UInt32} {s : Session} {cause : Cause}
      (h : s.scopes.setAddress item.line.scope address = .error cause) (placeParts : Placer) :
      Placing (.line item) address s (placeWith placeParts item address s) []
  /-- A line without a space of its own needs no other line. -/
  | single {item : Item} {address : UInt32} {s t : Session} {plan : Except Cause Plan}
      (h : Plans s item address plan t)
      (hplain : ∀ region id, plan ≠ .ok (.space region (some id))) (placeParts : Placer) :
      Placing (.line item) address s (placeWith placeParts item address s) []
  /-- A line with a space takes the lines that wait for it, and places them inside. -/
  | region {item : Item} {address : UInt32} {s t t' : Session} {region : Region} {id : SpaceId}
      {items : List Item} {outcome : Outcome (List Entry × UInt32)} {log : List Event}
      (h : Plans s item address (.ok (.space region (some id))) t)
      (htake : takeSections id t = .ok items t')
      (hparts : Placing (.lines items) address t' outcome log) :
      Placing (.line item) address s (placeWith (.giving outcome) item address s)
        (.drain id items :: log)
  | nil {address : UInt32} {s : Session} : Placing (.lines []) address s (.ok ([], address) s) []
  /-- A line that fails is the last one. -/
  | stop {item : Item} {rest : List Item} {address : UInt32} {s t : Session} {failure : Failure}
      {log : List Event} (h : Placing (.line item) address s (.error failure t) log) :
      Placing (.lines (item :: rest)) address s (.error failure t) (.place item :: log)
  | cons {item : Item} {rest : List Item} {address : UInt32} {s t : Session} {entry : Entry}
      {outcome : Outcome (List Entry × UInt32)} {log log' : List Event}
      (h : Placing (.line item) address s (.ok entry t) log)
      (h' : Placing (.lines rest) entry.next t outcome log') :
      Placing (.lines (item :: rest)) address s (outcome.prepend entry)
        (.place item :: (log ++ log'))

/-- The lines that placing gets to, each with the arena in which it is planned. -/
inductive GetsTo : Job → UInt32 → Session → Item → Scopes → Prop
  | here {item : Item} {address : UInt32} {s : Session} {scopes : Scopes}
      (h : s.scopes.setAddress item.line.scope address = .ok scopes) :
      GetsTo (.line item) address s item scopes
  | inside {item line : Item} {address : UInt32} {s t t' : Session} {region : Region} {id : SpaceId}
      {items : List Item} {scopes : Scopes}
      (h : Opens s item address (.space region (some id)) t)
      (htake : takeSections id t = .ok items t')
      (hline : GetsTo (.lines items) address t' line scopes) :
      GetsTo (.line item) address s line scopes
  | first {item line : Item} {rest : List Item} {address : UInt32} {s : Session} {scopes : Scopes}
      (h : GetsTo (.line item) address s line scopes) :
      GetsTo (.lines (item :: rest)) address s line scopes
  | later {item line : Item} {rest : List Item} {address : UInt32} {s t : Session} {entry : Entry}
      {log : List Event} {scopes : Scopes} (h : Placing (.line item) address s (.ok entry t) log)
      (hline : GetsTo (.lines rest) entry.next t line scopes) :
      GetsTo (.lines (item :: rest)) address s line scopes

/-- Every evaluation that placing gets to comes to an end. What it gets to depends on what came out
    before, so this follows the recursion and is not a condition on all lines. -/
def Ending (job : Job) (address : UInt32) (s : Session) : Prop :=
  ∀ line scopes, GetsTo job address s line scopes →
    ∃ r, Ends scopes (Asking.plan s.library.files scopes line).run r

/-! ## The steps -/

section

variable {s t t' : Session} {item : Item} {address : UInt32}

theorem Plans.unique {plan plan' : Except Cause Plan} (h : Plans s item address plan t)
    (h' : Plans s item address plan' t') : plan' = plan ∧ t' = t := by
  obtain ⟨scopes, hset, hplan, -, rfl⟩ := h
  obtain ⟨scopes', hset', hplan', -, rfl⟩ := h'
  cases hset.symm.trans hset'
  exact ⟨hplan'.symm.trans hplan, rfl⟩

theorem Plans.opens {plan : Plan} (h : Plans s item address (.ok plan) t) :
    Opens s item address plan t := by
  obtain ⟨scopes, hset, hplan, -, rfl⟩ := h
  exact ⟨scopes, hset, hplan, rfl⟩

theorem Plans.counted {plan : Except Cause Plan} (h : Plans s item address plan t)
    (hs : s.scopes.Counted) : t.scopes.Counted := by
  obtain ⟨scopes, hset, -, -, rfl⟩ := h
  obtain ⟨-, rfl⟩ := Scopes.setAddress_eq_ok hset
  refine hs.modify ?_ _
  intro scope
  rfl

theorem Plans.not_refused {plan : Except Cause Plan} {cause : Cause} (h : Plans s item address plan t) :
    s.scopes.setAddress item.line.scope address ≠ .error cause := by
  obtain ⟨scopes, hset, -⟩ := h
  rw [hset]
  exact nofun

theorem Opens.unique {plan plan' : Plan} (h : Opens s item address plan t)
    (h' : Opens s item address plan' t') : plan' = plan ∧ t' = t := by
  obtain ⟨scopes, hset, hplan, rfl⟩ := h
  obtain ⟨scopes', hset', hplan', rfl⟩ := h'
  cases hset.symm.trans hset'
  cases hplan.symm.trans hplan'
  exact ⟨rfl, rfl⟩

theorem Opens.spaces_eq {plan : Plan} (h : Opens s item address plan t) : t.spaces = s.spaces := by
  obtain ⟨scopes, -, -, rfl⟩ := h
  rfl

theorem session_traced {α : Type} (position : Position) (x : Assembly α) (s : Session) :
    Outcome.session (traced position x s) = Outcome.session (x s) := by
  unfold traced EStateM.adaptExcept
  cases x s with
  | ok a t => rfl
  | error failure t => rfl

/-- A line that gets no address fails before anything is placed. -/
theorem placeWith_of_refused {cause : Cause}
    (h : s.scopes.setAddress item.line.scope address = .error cause) :
    ∃ failure, ∀ placeParts, placeWith placeParts item address s = .error failure s := by
  have hbind : onScopes (Scopes.bindAddress item.line.scope address) s = .error cause.untraced s := by
    rw [onScopes_of_atomic (Scopes.atomic_bindAddress _ _), get_bind_apply]
    show (ofExcept (s.scopes.setAddress item.line.scope address) >>= setScopes) s = _
    rw [h]
    rfl
  exact ⟨_, fun placeParts => adaptExcept_eq_error.mpr
    ⟨cause.untraced, bind_eq_error.mpr (.inl hbind), rfl⟩⟩

/-- So does a line that gets no plan. -/
theorem placeWith_of_unplanned {cause : Cause} (h : Plans s item address (.error cause) t) :
    ∃ failure, ∀ placeParts, placeWith placeParts item address s = .error failure t := by
  obtain ⟨scopes, hset, hplan, -, rfl⟩ := h
  have hbind : onScopes (Scopes.bindAddress item.line.scope address) s = .ok () { s with scopes } :=
    bindAddress_eq_ok.mpr ⟨scopes, hset, rfl⟩
  refine ⟨_, fun placeParts => adaptExcept_eq_error.mpr ⟨cause.untraced, ?_, rfl⟩⟩
  rw [bind_apply_of_ok hbind]
  show (ofExcept (item.plan s.library.files scopes) >>= _) { s with scopes } = _
  rw [hplan]
  rfl

/-- A line without a space of its own does not ask the placer, and leaves the waiting lines. -/
theorem placeWith_of_plain {plan : Except Cause Plan} (h : Plans s item address plan t)
    (hplain : ∀ region id, plan ≠ .ok (.space region (some id))) (placeParts placeParts' : Placer) :
    placeWith placeParts item address s = placeWith placeParts' item address s ∧
      Outcome.session (placeWith placeParts item address s) = t := by
  cases plan with
  | error cause =>
    obtain ⟨failure, hfails⟩ := placeWith_of_unplanned h
    rw [hfails, hfails]
    exact ⟨rfl, rfl⟩
  | ok plan =>
    rw [placeWith_of_opens h.opens, placeWith_of_opens h.opens, session_traced]
    cases plan with
    | code code => exact ⟨rfl, rfl⟩
    | space region id =>
      cases id with
      | none => exact ⟨rfl, rfl⟩
      | some id => exact absurd rfl (hplain region id)

variable {region : Region} {id : SpaceId} {items : List Item}

theorem settle_of_take (htake : takeSections id t = .ok items t') (placeParts : Placer) :
    settle placeParts item.line address (.space region (some id)) t = (do
      let (parts, cursor) ← placeParts items address
      let used := cursor - address
      if region.size < used then fail (.sectionTooLarge used region.size)
      return (.space item.line address { region with used } parts : Entry)) t' :=
  bind_apply_of_ok htake _

/-- A line with a space asks the placer once, for the lines that waited. -/
theorem placeWith_of_region (hopens : Opens s item address (.space region (some id)) t)
    (htake : takeSections id t = .ok items t') (placeParts : Placer) :
    placeWith placeParts item address s =
      placeWith (.giving (placeParts items address t')) item address s := by
  rw [placeWith_of_opens hopens, placeWith_of_opens hopens, traced, traced, EStateM.adaptExcept,
    EStateM.adaptExcept, settle_of_take htake, settle_of_take htake]
  rfl

theorem session_placeWith_of_region (hopens : Opens s item address (.space region (some id)) t)
    (htake : takeSections id t = .ok items t') (outcome : Outcome (List Entry × UInt32)) :
    Outcome.session (placeWith (.giving outcome) item address s) = outcome.session := by
  rw [placeWith_of_opens hopens, session_traced, settle_of_take htake]
  cases outcome with
  | error failure u => rfl
  | ok placed u =>
    obtain ⟨parts, cursor⟩ := placed
    show Outcome.session ((do
      if region.size < cursor - address then fail (.sectionTooLarge (cursor - address) region.size)
      return (.space item.line address { region with used := cursor - address } parts : Entry)) u) = u
    split
    · rfl
    · rfl

/-- A line whose lines fail does so as well. -/
theorem placeWith_giving_error (hopens : Opens s item address (.space region (some id)) t)
    (htake : takeSections id t = .ok items t') (failure : Failure) (u : Session) :
    ∃ failure', placeWith (.giving (.error failure u)) item address s = .error failure' u := by
  rw [placeWith_of_opens hopens, traced, EStateM.adaptExcept, settle_of_take htake]
  exact ⟨_, rfl⟩

end

/-- There is one outcome, and one way to it. -/
theorem Placing.unique {job : Job} {address : UInt32} {s : Session} {outcome : Outcome job.Value}
    {log : List Event} (h : Placing job address s outcome log) :
    ∀ {outcome' log'}, Placing job address s outcome' log' → outcome' = outcome ∧ log' = log := by
  induction h with
  | refused hset placeParts =>
    intro outcome' log' h'
    cases h' with
    | refused _ placeParts' =>
      obtain ⟨failure, hfails⟩ := placeWith_of_refused hset
      exact ⟨(hfails placeParts').trans (hfails placeParts).symm, rfl⟩
    | single h' _ _ => exact absurd hset h'.not_refused
    | region h' _ _ => exact absurd hset h'.not_refused
  | single h hplain placeParts =>
    intro outcome' log' h'
    cases h' with
    | refused hset _ => exact absurd hset h.not_refused
    | single _ _ placeParts' => exact ⟨(placeWith_of_plain h hplain _ _).1, rfl⟩
    | region h' _ _ => exact absurd (h.unique h').1.symm (hplain _ _)
  | region h htake _ ih =>
    intro outcome' log' h'
    cases h' with
    | refused hset _ => exact absurd hset h.not_refused
    | single h' hplain _ => exact absurd (h.unique h').1 (hplain _ _)
    | region h' htake' hparts' =>
      obtain ⟨hplan, rfl⟩ := h.unique h'
      cases hplan
      cases htake.symm.trans htake'
      obtain ⟨rfl, rfl⟩ := ih hparts'
      exact ⟨rfl, rfl⟩
  | nil =>
    intro outcome' log' h'
    cases h'
    exact ⟨rfl, rfl⟩
  | stop _ ih =>
    intro outcome' log' h'
    cases h' with
    | stop h' =>
      obtain ⟨heq, rfl⟩ := ih h'
      cases heq
      exact ⟨rfl, rfl⟩
    | cons h' _ => cases (ih h').1
  | cons _ _ ih ih' =>
    intro outcome' log' h'
    cases h' with
    | stop h' => cases (ih h').1
    | cons h₁ h₂ =>
      obtain ⟨heq, rfl⟩ := ih h₁
      cases heq
      obtain ⟨rfl, rfl⟩ := ih' h₂
      exact ⟨rfl, rfl⟩

theorem session_prepend (entry : Entry) (outcome : Outcome (List Entry × UInt32)) :
    Outcome.session (outcome.prepend entry) = outcome.session := by
  cases outcome with
  | ok placed u => rfl
  | error failure u => rfl

/-- Of a session, placing leaves the library, and an arena that counts its values goes on to do so. -/
theorem Placing.keeps {job : Job} {address : UInt32} {s : Session} {outcome : Outcome job.Value}
    {log : List Event} (h : Placing job address s outcome log) :
    outcome.session.library = s.library ∧
      (s.scopes.Counted → outcome.session.scopes.Counted) := by
  induction h with
  | refused hset placeParts =>
    obtain ⟨failure, hfails⟩ := placeWith_of_refused hset
    rw [hfails]
    exact ⟨rfl, id⟩
  | single h hplain placeParts =>
    rw [(placeWith_of_plain h hplain placeParts placeParts).2]
    refine ⟨?_, h.counted⟩
    obtain ⟨_, -, -, -, rfl⟩ := h
    rfl
  | region h htake _ ih =>
    rw [session_placeWith_of_region h.opens htake]
    have hcounted := h.counted
    obtain ⟨-, rfl⟩ := takeSections_eq_ok.mp htake
    obtain ⟨_, -, -, -, rfl⟩ := h
    exact ⟨ih.1, fun hs => ih.2 (hcounted hs)⟩
  | nil => exact ⟨rfl, id⟩
  | stop _ ih => exact ih
  | cons _ _ ih ih' =>
    rw [session_prepend]
    exact ⟨ih'.1.trans ih.1, fun hs => ih'.2 (ih.2 hs)⟩

/-- A job with an outcome gets to no evaluation that does not end. -/
theorem Placing.ending {job : Job} {address : UInt32} {s : Session} {outcome : Outcome job.Value}
    {log : List Event} (h : Placing job address s outcome log) : Ending job address s := by
  induction h with
  | refused hset _ =>
    intro line scopes hline
    cases hline with
    | here hset' => cases hset.symm.trans hset'
    | inside hopens _ _ =>
      obtain ⟨_, hset', -⟩ := hopens
      cases hset.symm.trans hset'
  | single h hplain _ =>
    intro line scopes hline
    obtain ⟨_, hset, hplan, hends, rfl⟩ := h
    cases hline with
    | here hset' =>
      cases hset.symm.trans hset'
      exact ⟨_, hends⟩
    | inside hopens _ _ =>
      obtain ⟨_, hset', hplan', -⟩ := hopens
      cases hset.symm.trans hset'
      exact absurd (hplan.symm.trans hplan') (hplain _ _)
  | region h htake _ ih =>
    intro line scopes hline
    cases hline with
    | here hset' =>
      obtain ⟨_, hset, -, hends, rfl⟩ := h
      cases hset.symm.trans hset'
      exact ⟨_, hends⟩
    | inside hopens htake' hline =>
      obtain ⟨hplan, rfl⟩ := h.opens.unique hopens
      cases hplan
      cases htake.symm.trans htake'
      have hends := ih line scopes hline
      obtain ⟨_, -, -, -, rfl⟩ := h
      obtain ⟨-, rfl⟩ := takeSections_eq_ok.mp htake
      exact hends
  | nil =>
    intro line scopes hline
    cases hline
  | stop h ih =>
    intro line scopes hline
    cases hline with
    | first hline => exact ih line scopes hline
    | later h' _ => cases (h.unique h').1
  | cons h _ ih ih' =>
    intro line scopes hline
    cases hline with
    | first hline => exact ih line scopes hline
    | later h' hline =>
      obtain ⟨heq, -⟩ := h.unique h'
      cases heq
      have hlibrary := h.keeps.1
      rw [← hlibrary]
      exact ih' line scopes hline

/-! ## What happens to the waiting lines -/

/-- What is left to do for the lines that wait. -/
structure Backlog where
  /-- The lines that wait for each space. -/
  spaces : Array (List Item)
  /-- The lines that have been taken and are to be placed, in this order. -/
  taken : List Item
  /-- Whether the line that is being placed has yet to take the lines of its space. -/
  opens : Bool

namespace Backlog

/-- The number of lines that wait. -/
def waiting (b : Backlog) : Nat :=
  b.spaces.toList.flatten.length

/-- All lines that are still to be placed. -/
def lines (b : Backlog) : List Item :=
  b.taken ++ b.spaces.toList.flatten

/-- What gets less with each event. A line stands for two events: it is placed, and then it may take the
    lines of its space. -/
def weight (b : Backlog) : Nat :=
  2 * b.lines.length + b.opens.toNat

/-- What an event does. A space is emptied, in front of what was taken before, or the next line is
    placed; nothing is added to a space. -/
inductive Step : Backlog → Event → Backlog → Prop
  | drain (spaces : Array (List Item)) (taken : List Item) (id : SpaceId) :
      Step ⟨spaces, taken, true⟩ (.drain id ((spaces[id.index]?).getD []))
        ⟨spaces.modify id.index fun _ => [], (spaces[id.index]?).getD [] ++ taken, false⟩
  | place (spaces : Array (List Item)) (item : Item) (taken : List Item) (opens : Bool) :
      Step ⟨spaces, item :: taken, opens⟩ (.place item) ⟨spaces, taken, true⟩

/-- A sequence of events. -/
inductive Run : Backlog → List Event → Backlog → Prop
  | nil {b : Backlog} : Run b [] b
  | cons {b c d : Backlog} {event : Event} {log : List Event} (h : Step b event c) (h' : Run c log d) :
      Run b (event :: log) d

theorem Run.append {b c d : Backlog} {log log' : List Event} (h : Run b log c) (h' : Run c log' d) :
    Run b (log ++ log') d := by
  induction h with
  | nil => exact h'
  | cons hstep _ ih => exact .cons hstep (ih h')

theorem Run.split {b d : Backlog} {log log' : List Event} (h : Run b (log ++ log') d) :
    ∃ c, Run b log c ∧ Run c log' d := by
  induction log generalizing b with
  | nil => exact ⟨b, .nil, h⟩
  | cons event log ih =>
    cases h with
    | cons hstep h =>
      obtain ⟨c, hlog, hlog'⟩ := ih h
      exact ⟨c, .cons hstep hlog, hlog'⟩

end Backlog

/-- The lines that an event takes out of their space. -/
def Event.takes : Event → List Item
  | .drain _ items => items
  | .place _ => []

/-- The lines that are placed. -/
def placed : List Event → List Item
  | [] => []
  | .drain _ _ :: log => placed log
  | .place item :: log => item :: placed log

theorem perm_taken (spaces : Array (List Item)) (id : SpaceId) :
    ((spaces[id.index]?).getD [] ++ (spaces.modify id.index fun _ => []).toList.flatten).Perm
      spaces.toList.flatten := by
  rw [Array.toList_modify, ← Array.getElem?_toList]
  exact perm_taken_flatten _ _

theorem waiting_eq (s : Session) : s.waiting = s.spaces.toList.flatten.length := by
  unfold Session.waiting
  induction s.spaces.toList with
  | nil => rfl
  | cons items rest ih => rw [List.foldr_cons, List.flatten_cons, List.length_append, ih]

namespace Backlog

section

variable {b c : Backlog} {event : Event} {log : List Event}

/-- No line gets lost, and none is there twice. -/
theorem Step.perm (h : Step b event c) : (placed [event] ++ c.lines).Perm b.lines := by
  cases h with
  | drain spaces taken id =>
    have hperm := ((perm_taken spaces id).append_left taken)
    refine .trans ?_ hperm
    show ((_ ++ taken) ++ _).Perm _
    rw [List.append_assoc]
    exact List.perm_append_comm_assoc _ _ _
  | place spaces item taken opens => exact .refl _

theorem Step.weight_lt (h : Step b event c) : c.weight < b.weight := by
  have hlength := h.perm.length_eq
  cases h with
  | drain spaces taken id =>
    simp only [placed, List.nil_append] at hlength
    simp only [weight, hlength, Bool.toNat_true, Bool.toNat_false]
    omega
  | place spaces item taken opens =>
    simp only [placed, List.length_append, List.length_cons, List.length_nil] at hlength
    simp only [weight, ← hlength, Bool.toNat_true]
    omega

/-- The lines that wait get fewer by those that are taken. -/
theorem Step.waiting_eq (h : Step b event c) : c.waiting + event.takes.length = b.waiting := by
  cases h with
  | drain spaces taken id =>
    have hlength := (perm_taken spaces id).length_eq
    rw [List.length_append, Nat.add_comm] at hlength
    exact hlength
  | place spaces item taken opens => rfl

theorem Run.waiting_le (h : Run b log c) : c.waiting ≤ b.waiting := by
  induction h with
  | nil => exact Nat.le_refl _
  | cons hstep _ ih =>
    have hless := hstep.waiting_eq
    omega

theorem Run.spaces_subset (h : Run b log c) :
    c.spaces.toList.flatten ⊆ b.spaces.toList.flatten := by
  induction h with
  | nil => exact List.Subset.refl _
  | cons hstep _ ih =>
    refine List.Subset.trans ih ?_
    cases hstep with
    | drain spaces taken id =>
      exact List.Subset.trans (List.subset_append_right _ _) (perm_taken spaces id).subset
    | place spaces item taken opens => exact List.Subset.refl _

theorem Run.perm (h : Run b log c) : (placed log ++ c.lines).Perm b.lines := by
  induction h with
  | nil => exact .refl _
  | @cons b c d event log hstep _ ih =>
    have hplaced : placed (event :: log) = placed [event] ++ placed log := by
      cases event with
      | drain id items => rfl
      | place item => rfl
    rw [hplaced, List.append_assoc]
    exact (ih.append_left _).trans hstep.perm

theorem Run.length_le (h : Run b log c) : log.length + c.weight ≤ b.weight := by
  induction h with
  | nil => exact Nat.le_of_eq (Nat.zero_add _)
  | cons hstep _ ih =>
    have hless := hstep.weight_lt
    rw [List.length_cons]
    omega

end

end Backlog

/-- Whether the line of a job can take lines. -/
def Job.Allows : Job → Bool → Prop
  | .line _, opens => opens = true
  | .lines _, _ => True

/-- The lines that a job starts with. -/
def Job.items : Job → List Item
  | .line item => [item]
  | .lines items => items

/-- The lines to be placed for a job, besides those that it takes. -/
def Job.given : Job → List Item
  | .line _ => []
  | .lines items => items

section

variable {job : Job} {address : UInt32} {s : Session} {outcome : Outcome job.Value} {log : List Event}

/-- The log of a job is a run of the backlog, whatever other lines are to be placed behind it. All
    of its own lines are placed, unless it fails. -/
theorem Placing.run (h : Placing job address s outcome log) (opens : Bool) (hopens : job.Allows opens)
    (behind : List Item) :
    ∃ left opens', Backlog.Run ⟨s.spaces, job.given ++ behind, opens⟩ log
        ⟨outcome.session.spaces, left ++ behind, opens'⟩ ∧
      ∀ value t, outcome = .ok value t → left = [] := by
  induction h generalizing opens behind with
  | refused hset placeParts =>
    obtain ⟨failure, hfails⟩ := placeWith_of_refused hset
    rw [hfails]
    exact ⟨[], opens, .nil, fun _ _ _ => rfl⟩
  | single h hplain placeParts =>
    rw [(placeWith_of_plain h hplain placeParts placeParts).2]
    obtain ⟨_, -, -, -, rfl⟩ := h
    exact ⟨[], opens, .nil, fun _ _ _ => rfl⟩
  | @region item address s t t' region id items outcome log h htake _ ih =>
    obtain ⟨left, opens', hrun, hleft⟩ := ih false trivial behind
    have hsession := session_placeWith_of_region h.opens htake outcome
    refine ⟨left, opens', ?_, fun value u hok => ?_⟩
    · rw [hsession]
      obtain ⟨rfl, rfl⟩ := takeSections_eq_ok.mp htake
      cases hopens
      refine .cons ?_ hrun
      rw [← h.opens.spaces_eq]
      exact .drain t.spaces behind id
    · cases outcome with
      | ok placed u' => exact hleft placed u' rfl
      | error failure u' =>
        obtain ⟨failure', hfails⟩ := placeWith_giving_error h.opens htake failure u'
        cases hfails.symm.trans hok
  | nil => exact ⟨[], opens, .nil, fun _ _ _ => rfl⟩
  | @stop item rest address s t failure log _ ih =>
    obtain ⟨left, opens', hrun, -⟩ := ih true rfl (rest ++ behind)
    refine ⟨left ++ rest, opens', .cons (.place _ item (rest ++ behind) opens) ?_,
      fun _ _ h => nomatch h⟩
    rw [List.append_assoc]
    exact hrun
  | @cons item rest address s t entry outcome log log' _ _ ih ih' =>
    obtain ⟨left, opens₁, hrun, hleft⟩ := ih true rfl (rest ++ behind)
    obtain rfl := hleft entry t rfl
    obtain ⟨left', opens', hrun', hleft'⟩ := ih' opens₁ trivial behind
    refine ⟨left', opens', ?_, fun value u hok => ?_⟩
    · rw [session_prepend]
      exact .cons (.place _ item (rest ++ behind) opens) (hrun.append hrun')
    · cases outcome with
      | ok placed u' => exact hleft' placed u' rfl
      | error failure u' => cases hok

theorem Job.allows_true (job : Job) : job.Allows true := by
  cases job with
  | line item => rfl
  | lines items => trivial

theorem Placing.waiting_le (h : Placing job address s outcome log) :
    outcome.session.waiting ≤ s.waiting := by
  obtain ⟨left, opens', hrun, -⟩ := h.run true job.allows_true []
  rw [waiting_eq, waiting_eq]
  exact hrun.waiting_le

theorem Placing.spaces_subset (h : Placing job address s outcome log) :
    outcome.session.spaces.toList.flatten ⊆ s.spaces.toList.flatten := by
  obtain ⟨left, opens', hrun, -⟩ := h.run true job.allows_true []
  exact hrun.spaces_subset

/-- Placing gets to no line but those it starts with and those that wait. -/
theorem GetsTo.mem {line : Item} {scopes : Scopes} (h : GetsTo job address s line scopes) :
    line ∈ job.items ++ s.spaces.toList.flatten := by
  induction h with
  | here _ => exact List.mem_cons_self
  | inside hopens htake _ ih =>
    obtain ⟨rfl, rfl⟩ := takeSections_eq_ok.mp htake
    rw [← hopens.spaces_eq]
    exact List.mem_cons_of_mem _ ((perm_taken _ _).subset ih)
  | first _ ih =>
    rcases List.mem_cons.mp ih with rfl | hwaits
    · exact List.mem_cons_self
    · exact List.mem_append_right _ hwaits
  | later h _ ih =>
    rcases List.mem_append.mp ih with hrest | hwaits
    · exact List.mem_append_left _ (List.mem_cons_of_mem _ hrest)
    · exact List.mem_append_right _ (h.spaces_subset hwaits)

/-- Lines that are planned without an evaluation do not keep placing from coming to an end. -/
theorem ending_of_quiet (h : ∀ line ∈ job.items ++ s.spaces.toList.flatten, ∀ scopes,
    Quiet (Asking.plan s.library.files scopes line)) : Ending job address s :=
  fun line scopes hline => (h line hline.mem scopes).ends scopes

end

/-! ## Termination -/

/-- An entry in front of those that a placer gives. -/
theorem prepend_apply (entry : Entry) (x : Assembly (List Entry × UInt32)) (s : Session) :
    (do
      let (entries, last) ← x
      return (entry :: entries, last)) s = Outcome.prepend entry (x s) := by
  show EStateM.bind x _ s = _
  unfold EStateM.bind
  cases x s with
  | ok placed t => rfl
  | error failure t => rfl

theorem placing_placeAll {levels : Nat}
    (hitem : ∀ (item : Item) (address : UInt32) (s : Session), s.scopes.Counted →
      Ending (.line item) address s → s.waiting ≤ levels →
      ∃ log, Placing (.line item) address s (placeLevels levels item address s) log)
    (items : List Item) (address : UInt32) (s : Session) (hs : s.scopes.Counted)
    (hends : Ending (.lines items) address s) (hwaiting : s.waiting ≤ levels) :
    ∃ log, Placing (.lines items) address s (placeAll (placeLevels levels) items address s) log := by
  induction items generalizing address s with
  | nil => exact ⟨[], .nil⟩
  | cons item rest ih =>
    obtain ⟨log, hlog⟩ := hitem item address s hs
      (fun line scopes hline => hends line scopes (.first hline)) hwaiting
    cases hrun : placeLevels levels item address s with
    | error failure t =>
      rw [hrun] at hlog
      have hall : placeAll (placeLevels levels) (item :: rest) address s = .error failure t :=
        bind_eq_error.mpr (.inl hrun)
      rw [hall]
      exact ⟨_, .stop hlog⟩
    | ok entry t =>
      rw [hrun] at hlog
      -- Fewer lines may wait for the rest, never more.
      have hfewer : t.waiting ≤ s.waiting := hlog.waiting_le
      have hlibrary : t.library = s.library := hlog.keeps.1
      obtain ⟨log', hlog'⟩ := ih entry.next t (hlog.keeps.2 hs)
        (fun line scopes hline => hlibrary ▸ hends line scopes (.later hlog hline))
        (Nat.le_trans hfewer hwaiting)
      have hall : placeAll (placeLevels levels) (item :: rest) address s =
          Outcome.prepend entry (placeAll (placeLevels levels) rest entry.next t) :=
        (bind_apply_of_ok hrun _).trans (prepend_apply _ _ _)
      rw [hall]
      exact ⟨_, .cons hlog hlog'⟩

theorem waiting_of_take {s t : Session} {id : SpaceId} {items : List Item}
    (htake : takeSections id s = .ok items t) : t.waiting + items.length = s.waiting := by
  obtain ⟨rfl, rfl⟩ := takeSections_eq_ok.mp htake
  rw [waiting_eq, waiting_eq]
  exact (Backlog.Step.drain s.spaces [] id).waiting_eq

/-- The recursion ends for a line if it does for all that the line can take. -/
theorem placing_placeWith {levels : Nat} {placeParts : Placer} {item : Item} {address : UInt32}
    {s : Session} (hs : s.scopes.Counted) (hends : Ending (.line item) address s)
    (hwaiting : s.waiting ≤ levels)
    (hparts : ∀ items t, t.scopes.Counted → Ending (.lines items) address t →
      t.waiting + items.length ≤ levels →
      ∃ log, Placing (.lines items) address t (placeParts items address t) log) :
    ∃ log, Placing (.line item) address s (placeWith placeParts item address s) log := by
  cases hset : s.scopes.setAddress item.line.scope address with
  | error cause => exact ⟨[], .refused hset placeParts⟩
  | ok scopes =>
    obtain ⟨r, hr⟩ := hends item scopes (.here hset)
    have hcounted : scopes.Counted := by
      obtain ⟨-, rfl⟩ := Scopes.setAddress_eq_ok hset
      refine hs.modify ?_ _
      intro scope
      rfl
    -- What comes out without bounds is the plan that there is.
    obtain rfl := (terminates_plan hcounted s.library.files item).outcome r hr
    have hplans : Plans s item address (item.plan s.library.files scopes) { s with scopes } :=
      ⟨scopes, hset, rfl, hr, rfl⟩
    by_cases hregion : ∃ region id, item.plan s.library.files scopes = .ok (.space region (some id))
    · obtain ⟨region, id, hplan⟩ := hregion
      rw [hplan] at hplans
      obtain ⟨items, t, htake⟩ : ∃ items t, takeSections id { s with scopes } = .ok items t :=
        ⟨_, _, rfl⟩
      have hfalls : t.waiting + items.length = ({ s with scopes } : Session).waiting :=
        waiting_of_take htake
      have hsame : ({ s with scopes } : Session).waiting = s.waiting := rfl
      obtain ⟨hscopes, hlibrary⟩ : t.scopes = scopes ∧ t.library = s.library := by
        obtain ⟨-, rfl⟩ := takeSections_eq_ok.mp htake
        exact ⟨rfl, rfl⟩
      obtain ⟨log, hlog⟩ := hparts items t (hscopes ▸ hcounted)
        (fun line scopes hline => hlibrary ▸ hends line scopes (.inside hplans.opens htake hline))
        (by omega)
      rw [placeWith_of_region hplans.opens htake]
      exact ⟨_, .region hplans htake hlog⟩
    · exact ⟨[], .single hplans (fun region id hplan => hregion ⟨region, id, hplan⟩) placeParts⟩

theorem placing_placeLevels (levels : Nat) (item : Item) (address : UInt32) (s : Session)
    (hs : s.scopes.Counted) (hends : Ending (.line item) address s) (hwaiting : s.waiting ≤ levels) :
    ∃ log, Placing (.line item) address s (placeLevels levels item address s) log := by
  -- The bound is the number of lines that wait, and a line that takes some of them leaves fewer.
  induction levels generalizing item address s with
  | zero =>
    refine placing_placeWith hs hends hwaiting fun items t _ _ hitems => ?_
    have hnil : items = [] := List.length_eq_zero_iff.mp (by omega)
    subst hnil
    exact ⟨[], .nil⟩
  | succ levels ih =>
    refine placing_placeWith hs hends hwaiting fun items t ht hends' hitems => ?_
    cases items with
    | nil => exact ⟨[], .nil⟩
    | cons first rest =>
      refine placing_placeAll ih _ _ _ ht hends' ?_
      rw [List.length_cons] at hitems
      omega

/-- What happened to the lines that waited for the spaces of a table, until another table was left. -/
structure Drains (first : Array (List Item)) (log : List Event) (last : Array (List Item)) : Prop where
  /-- Spaces are emptied and nothing is added to them. -/
  run : ∃ taken opens, Backlog.Run ⟨first, [], true⟩ log ⟨last, taken, opens⟩
  /-- Each event lowers the weight of what is left to do. The number of lines that wait falls by those
      that the event takes. -/
  falls : ∀ front event back, log = front ++ event :: back →
    ∃ b c, Backlog.Run ⟨first, [], true⟩ front b ∧ b.Step event c ∧ c.weight < b.weight ∧
      c.waiting + event.takes.length = b.waiting
  /-- No line that waited is placed more than once. -/
  once : (placed log).Subperm first.toList.flatten
  bounded : log.length ≤ 2 * first.toList.flatten.length + 1

theorem Placing.drains {item : Item} {address : UInt32} {s : Session} {outcome : Outcome Entry}
    {log : List Event} (h : Placing (.line item) address s outcome log) :
    Drains s.spaces log outcome.session.spaces := by
  obtain ⟨taken, opens, hrun, -⟩ := h.run true rfl []
  refine ⟨⟨_, opens, hrun⟩, ?_, ?_, ?_⟩
  · rintro front event back rfl
    obtain ⟨b, hfront, hback⟩ := hrun.split
    cases hback with
    | cons hstep _ => exact ⟨b, _, hfront, hstep, hstep.weight_lt, hstep.waiting_eq⟩
  · exact (List.sublist_append_left _ _).subperm.trans hrun.perm.subperm
  · exact Nat.le_trans (Nat.le_add_right _ _) hrun.length_le

/-- **Placing comes to an end if evaluation does.** Whatever lines wait for whatever spaces, the
    recursion has an outcome for a line if and only if each evaluation that it gets to ends, and
    `place` gives this outcome. On the way spaces are emptied and nothing is added to them, each
    event lowers the weight of what is left to do, and no line that waited is placed more than once.

    The arena has to count its values, for else `place` could give up an evaluation that ends. Every
    arena does that a program comes to. -/
theorem place_ends {s : Session} (hs : s.scopes.Counted) (item : Item) (address : UInt32) :
    ((∃ outcome log, Placing (.line item) address s outcome log) ↔ Ending (.line item) address s) ∧
      ∀ outcome log, Placing (.line item) address s outcome log →
        outcome = place item address s ∧ Drains s.spaces log outcome.session.spaces ∧
          ∀ log', Placing (.line item) address s outcome log' → log' = log := by
  have hplace : Ending (.line item) address s →
      ∃ log, Placing (.line item) address s (place item address s) log := fun hends =>
    placing_placeLevels s.waiting item address s hs hends (Nat.le_refl _)
  refine ⟨⟨fun ⟨_, _, h⟩ => h.ending, fun hends => ⟨_, hplace hends⟩⟩, fun outcome log h => ?_⟩
  obtain ⟨log', hlog'⟩ := hplace h.ending
  exact ⟨(hlog'.unique h).1, h.drains, fun log' h' => (h.unique h').2⟩

/-- A line for its own scope. -/
def lineIn (scope : Nat) (label : Option String) (operation : Operation) (argument : Int64) : Item :=
  .plain
    { label
      mnemonic := none
      arguments := some (.int argument)
      comment := none
      position := default
      scope := ⟨scope⟩
      operation := some operation }
    .instruction

/-- A `DS` line whose space holds another `DS` line and a byte. Nothing waits for the inner space. -/
def nestedSession : Session :=
  { Session.new {} with
    scopes :=
      { nodes := #[
          { parent := none
            bindings := [⟨"outer", .space ⟨0⟩ ⟨1⟩, 1⟩, ⟨"inner", .space ⟨1⟩ ⟨2⟩, 2⟩] },
          { parent := some ⟨0⟩, bindings := [] },
          { parent := some ⟨0⟩, bindings := [] },
          { parent := some ⟨0⟩, bindings := [] }]
        serial := 2 }
    spaces := #[[lineIn 2 (some "inner") .space 2, lineIn 3 none (.data .byte) 5], []] }

theorem nestedSession_ending :
    Ending (.line (lineIn 1 (some "outer") .space 3)) 0 nestedSession := by
  refine ending_of_quiet fun line hline scopes => ?_
  have hline : line ∈ [lineIn 1 (some "outer") .space 3, lineIn 2 (some "inner") .space 2,
      lineIn 3 none (.data .byte) 5] := hline
  simp only [List.mem_cons, List.not_mem_nil, or_false] at hline
  rcases hline with rfl | rfl | rfl
  · exact quiet_plan_space rfl rfl (by decide)
  · exact quiet_plan_space rfl rfl (by decide)
  · exact ⟨_, fun _ => rfl⟩

/-- Placing the outer line comes to an end, and with it that of the inner one, which waited for it. -/
theorem place_ends_nested : ∃ log,
    Placing (.line (lineIn 1 (some "outer") .space 3)) 0 nestedSession
      (place (lineIn 1 (some "outer") .space 3) 0 nestedSession) log ∧
    ∃ last, Drains nestedSession.spaces log last := by
  have hs : nestedSession.scopes.Counted := ⟨by decide, by decide⟩
  obtain ⟨hiff, hall⟩ := place_ends hs (lineIn 1 (some "outer") .space 3) 0
  obtain ⟨outcome, log, hplacing⟩ := hiff.mpr nestedSession_ending
  obtain ⟨rfl, hdrains, -⟩ := hall outcome log hplacing
  exact ⟨log, hplacing, _, hdrains⟩

end Z80Asm.Assembly
