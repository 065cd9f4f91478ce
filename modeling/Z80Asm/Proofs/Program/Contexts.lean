import Z80Asm.Proofs.Program.Placing

/-!
# Where failures point

Every failure of a program says where, with one exception. What cannot be read is a line of the text
or of a file that it includes; what fails in a later phase is such a line of the source. Reading,
binding labels, expanding and generating are in `Block/Sites` and `Program/Reports`; placing is
added here, and then the phases are put behind each other (`Assembly.failure_says_where`).

The exception is a failure that leaves no line: sections that wait for a space are noticed when all
lines are placed, and are reported without a context. `Assembly.Strands` says exactly when that
happens, so the theorem is a case distinction and not an implication with a hypothesis.

The theorem is about where a context starts. That it goes on with the lines that led there is said
of every expanded line in `Program/Lineage`.
-/
set_option autoImplicit false

namespace Z80Asm

open Success

namespace Assembly

variable {sites : Site → Prop}

/-! ## Placing -/

theorem tells_placeWith {placeParts : Placer}
    (hparts : ∀ {items} (address), StandAt sites items →
      Hints (fun _ => True) sites (fun placed => EntriesAt sites placed.1) (placeParts items address))
    {item : Item} (hitem : StandAt sites [item]) (address : UInt32) :
    Tells (fun _ => True) sites (fun entry => EntriesAt sites [entry])
      (placeWith placeParts item address) := by
  have hcode : ∀ code, EntriesAt sites [.code item.line address code] := by
    intro code entry hentry
    cases List.mem_singleton.mp hentry
    exact hitem.line
  have hspace : ∀ {parts} (region), EntriesAt sites parts →
      EntriesAt sites [.space item.line address region parts] := by
    intro parts region hparts entry hentry
    rw [entriesOf, Entry.all, entriesOf, List.append_nil] at hentry
    rcases List.mem_cons.mp hentry with rfl | hentry
    · exact hitem.line
    · exact hparts entry hentry
  refine Ensures.traced ?_ hitem.line
  refine (hints_onScopes fun _ _ _ => trivial).bind fun _ _ => Ensures.get.bind fun _ _ =>
    hints_scopes.bind fun _ _ => (hints_ofExcept fun _ _ => trivial).bind fun plan _ => ?_
  split
  · exact .pure (hcode _)
  · exact .pure (hspace _ (entriesAt_nil sites))
  · refine (hints_takeSections _).bind fun lines hlines => ?_
    refine (hparts address hlines).bind fun placed hplaced => ?_
    dsimp only
    split
    · exact (hints_fail trivial).bind fun _ (_ : True) => .pure (hspace _ hplaced)
    · exact .pure (hspace _ hplaced)

theorem tells_placeAll {placeItem : Item → UInt32 → Assembly Entry}
    (hplace : ∀ {item} (address), StandAt sites [item] →
      Tells (fun _ => True) sites (fun entry => EntriesAt sites [entry]) (placeItem item address))
    {items : List Item} (h : StandAt sites items) (address : UInt32) :
    Tells (fun _ => True) sites (fun placed => EntriesAt sites placed.1)
      (placeAll placeItem items address) := by
  induction items generalizing address with
  | nil => exact .pure (entriesAt_nil sites)
  | cons item rest ih =>
    obtain ⟨hitem, hrest⟩ := StandAt.cons_iff.mp h
    rw [placeAll]
    refine (hplace address hitem).bind fun entry hentry => ?_
    exact (ih hrest _).bind fun placed hplaced => .pure (EntriesAt.cons_iff.mpr ⟨hentry, hplaced⟩)

theorem tells_placeLevels (levels : Nat) {item : Item} (address : UInt32) (h : StandAt sites [item]) :
    Tells (fun _ => True) sites (fun entry => EntriesAt sites [entry])
      (placeLevels levels item address) := by
  induction levels generalizing item address with
  | zero =>
    rw [placeLevels]
    refine tells_placeWith (fun address hitems => ?_) h address
    split
    · exact .pure (entriesAt_nil sites)
    · exact hints_fail trivial
  | succ levels ih =>
    rw [placeLevels]
    exact tells_placeWith (fun address hitems => (tells_placeAll ih hitems address).hints) h address

theorem tells_placeLines {items : List Item} (h : StandAt sites items) (address : UInt32) :
    Tells (fun _ => True) sites (EntriesAt sites) (placeLines items address) := by
  induction items generalizing address with
  | nil => exact .pure (entriesAt_nil sites)
  | cons item rest ih =>
    obtain ⟨hitem, hrest⟩ := StandAt.cons_iff.mp h
    have hplace :
        Tells (fun _ => True) sites (fun entry => EntriesAt sites [entry]) (place item address) :=
      Ensures.get.bind fun _ _ => tells_placeLevels _ address hitem
    rw [placeLines]
    refine hplace.bind fun entry hentry => ?_
    have hbehind : Tells (fun _ => True) sites (EntriesAt sites) (do
        return entry :: (← placeLines rest entry.next)) :=
      (ih hrest _).bind fun entries hentries => .pure (EntriesAt.cons_iff.mpr ⟨hentry, hentries⟩)
    split
    · exact (Ensures.throw (Cause.tells trivial hitem.line _)).bind fun _ (_ : True) => hbehind
    · exact hbehind

end Assembly

/-! ## Whole programs -/

namespace Assembly

/-- The failures of the phases on a source that has been read, each run behind those before it. -/
inductive Fails (source : Source) (s : Session) : Failure → Prop
  | registering {failure : Failure} {t : Session} :
    register source.items s = .error failure t → Fails source s failure
  | expanding {failure : Failure} {t u : Session} : register source.items s = .ok () t →
      expand source.items t = .error failure u → Fails source s failure
  | resolving {failure : Failure} {t u v : Session} {lines : List Item} :
    register source.items s = .ok () t → expand source.items t = .ok lines u →
      resolve source.scope lines u = .error failure v → Fails source s failure
  | generating {failure : Failure} {t u v w : Session} {lines : List Item} {program : Program} :
    register source.items s = .ok () t → expand source.items t = .ok lines u →
      resolve source.scope lines u = .ok program v → generate program v = .error failure w →
      Fails source s failure

/-- Every line of a source can be placed, and sections wait for a space nevertheless. -/
def Strands (source : Source) (s : Session) : Prop :=
  ∃ t lines u entries v, register source.items s = .ok () t ∧
    expand source.items t = .ok lines u ∧ placeLines lines 0 u = .ok entries v ∧ v.waiting ≠ 0

variable {source : Source} {s : Session} {failure : Failure} {sites : Site → Prop}

/-- In one go the phases fail as they do one after the other. -/
theorem fails_of_assemble {t : Session} (h : assemble source s = .error failure t) :
    Fails source s failure := by
  rcases bind_eq_error.mp h with h | ⟨_, t, hregister, h⟩
  · exact .registering h
  rcases bind_eq_error.mp h with h | ⟨lines, u, hexpand, h⟩
  · exact .expanding hregister h
  rcases bind_eq_error.mp h with h | ⟨program, v, hresolve, h⟩
  · exact .resolving hregister hexpand h
  rcases bind_eq_error.mp h with h | ⟨_, _, -, h⟩
  · exact .generating hregister hexpand hresolve h
  · exact (pure_eq_error.mp h).elim

theorem resolve_eq_error {scope : ScopeId} {lines : List Item} {u v : Session}
    (h : resolve scope lines u = .error failure v) :
    placeLines lines 0 u = .error failure v ∨ ∃ entries, placeLines lines 0 u = .ok entries v ∧
      v.waiting ≠ 0 ∧ failure = Cause.spaceNeverPlaced.untraced := by
  rcases bind_eq_error.mp h with h | ⟨entries, w, hplace, h⟩
  · exact .inl h
  rw [get_bind_apply] at h
  split at h
  · next hwaiting =>
    rcases bind_eq_error.mp h with h | ⟨_, _, h, -⟩
    · obtain ⟨rfl, rfl⟩ := throw_eq_error.mp h
      exact .inr ⟨entries, hplace, by simpa using hwaiting, rfl⟩
    · exact (throw_eq_ok.mp h).elim
  · exact (pure_eq_error.mp h).elim

theorem placeLines_of_resolve {scope : ScopeId} {lines : List Item} {program : Program} {u v : Session}
    (h : resolve scope lines u = .ok program v) :
    placeLines lines 0 u = .ok program.entries v ∧ v.waiting = 0 := by
  obtain ⟨entries, w, hplace, h⟩ := bind_eq_ok.mp h
  rw [get_bind_apply] at h
  split at h
  · obtain ⟨_, _, h, -⟩ := bind_eq_ok.mp h
    exact (throw_eq_ok.mp h).elim
  · next hwaiting =>
    obtain ⟨rfl, rfl⟩ := pure_eq_ok.mp h
    exact ⟨hplace, by simpa using hwaiting⟩

/-- A failure behind reading points at a line of the source, unless sections are stranded. -/
theorem startsAt_of_fails (h : Fails source s failure) (hs : s.Knows sites)
    (hsource : StandAt sites source.items) :
    Strands source s ∧ failure = Cause.spaceNeverPlaced.untraced ∨
      ¬ Strands source s ∧ failure.StartsAt sites := by
  cases h with
  | registering h =>
    refine .inr ⟨?_, ((tells_register hsource).error h hs).site⟩
    rintro ⟨_, _, _, _, _, hregister, -⟩
    cases h.symm.trans hregister
  | expanding hregister h =>
    have ht := ((tells_register hsource).ok hregister hs).1
    refine .inr ⟨?_, ((tells_expandLevels _ hsource).error h ht).site⟩
    rintro ⟨_, _, _, _, _, hregister', hexpand, -⟩
    cases hregister.symm.trans hregister'
    cases h.symm.trans hexpand
  | resolving hregister hexpand h =>
    have ht := ((tells_register hsource).ok hregister hs).1
    obtain ⟨hu, hlines⟩ := (tells_expandLevels _ hsource).ok hexpand ht
    rcases resolve_eq_error h with h | ⟨entries, hplace, hwaiting, rfl⟩
    · refine .inr ⟨?_, ((tells_placeLines hlines 0).error h hu).site⟩
      rintro ⟨_, _, _, _, _, hregister', hexpand', hplace, -⟩
      cases hregister.symm.trans hregister'
      cases hexpand.symm.trans hexpand'
      cases h.symm.trans hplace
    · exact .inl ⟨⟨_, _, _, entries, _, hregister, hexpand, hplace, hwaiting⟩, rfl⟩
  | generating hregister hexpand hresolve h =>
    have ht := ((tells_register hsource).ok hregister hs).1
    obtain ⟨hu, hlines⟩ := (tells_expandLevels _ hsource).ok hexpand ht
    obtain ⟨hplace, hwaiting⟩ := placeLines_of_resolve hresolve
    have hentries := ((tells_placeLines hlines 0).ok hplace hu).2
    obtain ⟨output, hemit⟩ := generate_eq_error h
    refine .inr ⟨?_, ((Emit.tells_emitAll _ hentries).error hemit trivial).site⟩
    rintro ⟨_, _, _, _, _, hregister', hexpand', hplace', hwaiting'⟩
    cases hregister.symm.trans hregister'
    cases hexpand.symm.trans hexpand'
    cases hplace.symm.trans hplace'
    exact hwaiting' hwaiting

/-! ### Fresh sessions -/

variable {library : Library} {text : String}

theorem loadText_eq_error {t : Session} (h : loadText text s = .error failure t) :
    ∃ scope st st', s.library.readText text scope st = .error failure st' := by
  rcases bind_eq_error.mp h with h | ⟨_, _, hget, h⟩
  · cases h
  obtain ⟨rfl, rfl⟩ := get_eq_ok.mp hget
  rcases bind_eq_error.mp h with h | ⟨scope, s₁, hcreate, h⟩
  · cases h
  obtain ⟨rfl, rfl⟩ := createScope_eq_ok.mp hcreate
  rcases bind_eq_error.mp h with h | ⟨_, _, -, h⟩
  · unfold load at h
    split at h
    · cases h
    · next hread =>
      cases h
      exact ⟨_, _, _, hread⟩
  · cases h

/-- A session that has read one text keeps no lines yet. -/
theorem loadText_knows (h : loadText text (Session.new library) = .ok source s) :
    s.Knows sites ∧ StandAt (library.Written text) source.items := by
  simp only [loadText, bind_eq_ok, get_eq_ok, pure_eq_ok] at h
  obtain ⟨_, _, ⟨rfl, rfl⟩, scope, s₁, hcreate, items, s₂, hload, rfl, rfl⟩ := h
  obtain ⟨rfl, rfl⟩ := createScope_eq_ok.mp hcreate
  obtain ⟨st, hread, rfl⟩ := load_eq_ok.mp hload
  refine ⟨⟨fun i template hi => ?_, fun i items hi => ?_⟩, ((tells_readText _).ok hread trivial).2⟩
  · cases hi
  · cases hi

/-- **Every failure says where.** What cannot be read is a line of the text or of a file that it
    includes, and what fails later is such a line of the source. Sections that nothing places are
    the exception: when every line is placed and some still wait, the failure has no context. -/
theorem failure_says_where (library : Library) (text : String) :
    (∀ failure s, loadText text (Session.new library) = .error failure s →
      failure.StartsAt (library.Written text)) ∧
    ∀ source s failure, loadText text (Session.new library) = .ok source s →
      (Fails source s failure ∨ ∃ t, assemble source s = .error failure t) →
        Strands source s ∧ failure = Cause.spaceNeverPlaced.untraced ∨
        ¬ Strands source s ∧ failure.StartsAt fun site =>
          library.Written text site ∧ ∃ line ∈ linesOf source.items, line.position.here = site := by
  refine ⟨fun failure s h => ?_, fun source s failure hload h => ?_⟩
  · obtain ⟨scope, st, st', hread⟩ := loadText_eq_error h
    exact ((tells_readText scope).error hread trivial).site
  · obtain ⟨hs, hsource⟩ := loadText_knows hload
    have hfails : Fails source s failure := by
      rcases h with h | ⟨t, h⟩
      · exact h
      · exact fails_of_assemble h
    exact startsAt_of_fails hfails hs fun line hline => ⟨hsource line hline, line, hline, rfl⟩

theorem failure_of_run {frames : List Frame}
    (hload : passes (fun _ _ => true) (loadText text (Session.new library)) = true)
    (hrun : refuses (fun failure => decide (failure.frames = frames))
      ((loadText text >>= assemble) (Session.new library)) = true) :
    ∃ source s failure t, loadText text (Session.new library) = .ok source s ∧
      assemble source s = .error failure t ∧ failure.frames = frames := by
  obtain ⟨failure, t, hrun, htest⟩ := eq_error_of_refuses hrun
  obtain ⟨source, s, hload, -⟩ := eq_ok_of_passes hload
  rcases bind_eq_error.mp hrun with h | ⟨source, s, hload, hassemble⟩
  · cases hload.symm.trans h
  · exact ⟨source, s, failure, t, hload, hassemble, of_decide_eq_true htest⟩

/-- A line of a macro that does not fit, and a space inside the section that is sent to it. -/
theorem failure_says_where_macro :
    (∃ source s failure t,
      loadText "m: macro\n db 300\n endm\n m\n" (Session.new {}) = .ok source s ∧
      assemble source s = .error failure t ∧
      failure.frames = [⟨⟨none, 2, " db 300"⟩, none⟩, ⟨⟨none, 4, " m"⟩, none⟩] ∧
      ¬ Strands source s) ∧
    ∃ source s failure t,
      loadText " section s\ns: ds 2\n ends\n" (Session.new {}) = .ok source s ∧
      assemble source s = .error failure t ∧ failure.frames = [] ∧ Strands source s := by
  constructor
  · obtain ⟨source, s, failure, t, hload, hassemble, hframes⟩ := @failure_of_run {}
      "m: macro\n db 300\n endm\n m\n" [⟨⟨none, 2, " db 300"⟩, none⟩, ⟨⟨none, 4, " m"⟩, none⟩]
      (by decide +kernel) (by decide +kernel)
    refine ⟨source, s, failure, t, hload, hassemble, hframes, ?_⟩
    rcases (failure_says_where _ _).2 source s failure hload (.inr ⟨t, hassemble⟩) with
      ⟨-, rfl⟩ | ⟨hplaced, -⟩
    · cases hframes
    · exact hplaced
  · obtain ⟨source, s, failure, t, hload, hassemble, hframes⟩ := @failure_of_run {}
      " section s\ns: ds 2\n ends\n" [] (by decide +kernel) (by decide +kernel)
    refine ⟨source, s, failure, t, hload, hassemble, hframes, ?_⟩
    rcases (failure_says_where _ _).2 source s failure hload (.inr ⟨t, hassemble⟩) with
      ⟨hstrands, -⟩ | ⟨-, frame, outer, hframe, -⟩
    · exact hstrands
    · cases hframes.symm.trans hframe

end Assembly

end Z80Asm
