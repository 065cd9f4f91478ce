import Z80Asm.Proofs.Program.Course

/-!
# The stages of a run

Labels are bound in passes. The first pass binds those of the text, together with the lines of its
procedures and sections. The lines of a conditional, a repetition or a macro wait: when such a
statement is expanded, the branch that is taken, the iteration or the instance of the macro is a
pass of its own, behind everything that was bound until then. Within a pass labels are bound in the
order of the lines (`boundBy`).

`Reaches` are the stages that a run gets to: items that are about to be expanded, and the pass that
their labels were bound in. At every stage each of them still has the mark that it got when its own
label was bound (`Reaches.sound`).

A stage is reached whether or not the run succeeds in the end, since a macro is expanded long before
it is known whether all lines can be placed.
-/
set_option autoImplicit false

namespace Z80Asm

open Success

/-! ## Passes -/

mutual

/-- The items whose labels are bound along with an item, in this order. -/
def Item.bound : Item → List Item
  | .plain line role => [.plain line role]
  | .choice line onTrue onFalse => [.choice line onTrue onFalse]
  | .block line kind body => .block line kind body :: if kind.bindsBody then boundBy body else []

def boundBy : List Item → List Item
  | [] => []
  | item :: rest => item.bound ++ boundBy rest

end

theorem Item.mem_bound (item : Item) : item ∈ item.bound := by
  cases item with
  | plain line role => exact List.mem_cons_self
  | block line kind body => exact List.mem_cons_self
  | choice line onTrue onFalse => exact List.mem_cons_self

/-- Items without anything to bind inside are bound as they stand. -/
theorem boundBy_eq_self {items : List Item} (h : ∀ item ∈ items, item.bound.length = 1) :
    boundBy items = items := by
  induction items with
  | nil => rfl
  | cons item rest ih =>
    obtain ⟨only, honly⟩ := List.length_eq_one_iff.mp (h item List.mem_cons_self)
    have hitem := item.mem_bound
    rw [honly] at hitem
    cases List.mem_singleton.mp hitem
    rw [boundBy, honly, ih fun other hother => h other (List.mem_cons_of_mem _ hother)]
    rfl

mutual

theorem Item.bound_sublist : ∀ item : Item, (item.bound.map (·.line.scope)).Sublist item.owned
  | .plain _ _ => .refl _
  | .choice line _ _ => (List.nil_sublist _).cons_cons line.scope
  | .block line kind body => by
    refine List.Sublist.cons_cons line.scope ?_
    split
    · exact boundBy_sublist body
    · exact List.nil_sublist _

/-- The items that are bound own some of the scopes. -/
theorem boundBy_sublist : ∀ items, ((boundBy items).map (·.line.scope)).Sublist (ownedBy items)
  | [] => .refl _
  | item :: rest => by
    rw [boundBy, List.map_append]
    exact item.bound_sublist.append (boundBy_sublist rest)

end

namespace Assembly

variable {s s' : Session} {u : Unit}

/-- Binds the labels of items, and not those inside them. -/
def bindLabels : List Item → Assembly Unit
  | [] => return ()
  | item :: rest => do
    bindLabel item
    bindLabels rest

theorem bindLabels_append {first second : List Item} :
    bindLabels (first ++ second) s = .ok u s' ↔
      ∃ t, bindLabels first s = .ok () t ∧ bindLabels second t = .ok () s' := by
  induction first generalizing s with
  | nil =>
    constructor
    · intro h
      exact ⟨s, rfl, h⟩
    · rintro ⟨t, hfirst, hsecond⟩
      cases hfirst
      exact hsecond
  | cons item rest ih =>
    simp only [List.cons_append, bindLabels, bind_eq_ok, ih]
    constructor
    · rintro ⟨_, t, hitem, t', hrest, hsecond⟩
      exact ⟨t', ⟨(), t, hitem, hrest⟩, hsecond⟩
    · rintro ⟨t', ⟨_, t, hitem, hrest⟩, hsecond⟩
      exact ⟨(), t, hitem, t', hrest, hsecond⟩

mutual

theorem registerItem_bindLabels : ∀ {item : Item} {s s' : Session},
    registerItem item s = .ok () s' → bindLabels item.bound s = .ok () s'
  | .plain line role, s, s', h => by
    rw [registerItem, traced_eq_ok] at h
    exact bind_eq_ok.mpr ⟨(), s', h, rfl⟩
  | .choice line onTrue onFalse, s, s', h => by
    rw [registerItem, traced_eq_ok] at h
    exact bind_eq_ok.mpr ⟨(), s', h, rfl⟩
  | .block line kind body, s, s', h => by
    rw [registerItem, traced_eq_ok] at h
    obtain ⟨_, t, hline, hbody⟩ := bind_eq_ok.mp h
    refine bind_eq_ok.mpr ⟨(), t, hline, ?_⟩
    by_cases hkind : kind.bindsBody = true
    · rw [if_pos hkind] at hbody ⊢
      exact register_bindLabels hbody
    · rw [if_neg hkind] at hbody ⊢
      exact hbody

theorem register_bindLabels : ∀ {items : List Item} {s s' : Session},
    register items s = .ok () s' → bindLabels (boundBy items) s = .ok () s'
  | [], s, s', h => h
  | item :: rest, s, s', h => by
    rw [register] at h
    obtain ⟨_, t, hitem, hrest⟩ := bind_eq_ok.mp h
    exact bindLabels_append.mpr ⟨t, registerItem_bindLabels hitem, register_bindLabels hrest⟩

end

/-- An item is marked with the number of bindings that there are with its own. -/
theorem bindLabel_marks {item : Item} (h : bindLabel item s = .ok u s')
    (hitem : item.line.scope.index < s.scopes.size) :
    s'.scopes.registeredAt? item.line.scope = some s'.scopes.serial := by
  have hmark : ∀ {scopes : Scopes}, s.scopes.size ≤ scopes.size →
      (scopes.markRegistered item.line.scope).registeredAt? item.line.scope = some scopes.serial := by
    intro scopes hsize
    obtain ⟨scope, hscope⟩ := Scopes.exists_get?_of_lt (Nat.lt_of_lt_of_le hitem hsize)
    rw [Scopes.registeredAt?, Scopes.markRegistered, Scopes.get?_modify, if_pos rfl, hscope]
    rfl
  rcases bindLabel_eq_ok.mp h with ⟨-, -, rfl⟩ | ⟨_, _, _, _, scopes, -, -, -, hadd, rfl⟩
  · exact hmark (Nat.le_refl _)
  · exact hmark (Scopes.extends_add hadd).size_le

theorem leads_bindLabels (items : List Item) :
    Leads (items.map (·.line.scope)) (bindLabels items) := by
  induction items with
  | nil => exact moves_pure _
  | cons item rest ih =>
    refine ((leads_bindLabel item).subset ?_).bind fun _ => ih.subset (List.subset_cons_self _ _)
    exact List.cons_subset_cons _ (List.nil_subset _)

end Assembly

/-- The labels of the items `bound`, of which `item` is the last, were bound from the session `start`
    on. This led to the session `c`, and `s` is a later one that has the mark of `item`. -/
structure Registered (start : Session) (bound : List Item) (item : Item) (c s : Session) : Prop where
  bindLabels : Assembly.bindLabels bound start = .ok () c
  known : ∀ other ∈ bound, other.line.scope.index < start.scopes.size
  dated : c.scopes.Dated
  steps : c.scopes.Steps (fun _ => True) s.scopes
  mark : s.scopes.registeredAt? item.line.scope = some c.scopes.serial

theorem Registered.leads {start c s s' : Session} {bound : List Item} {item : Item}
    {owned : List ScopeId} (h : Registered start bound item c s) (hs : s.Leads owned s')
    (hitem : item.line.scope.index < s.scopes.size) (howned : item.line.scope ∉ owned) :
    Registered start bound item c s' where
  bindLabels := h.bindLabels
  known := h.known
  dated := h.dated
  steps := h.steps.trans (hs.mono fun _ _ => trivial)
  mark := (hs.registeredAt?_eq hitem howned).trans h.mark

namespace Assembly

theorem register_registered {pass before after : List Item} {item : Item} {s s' : Session}
    (h : register pass s = .ok () s') (hdated : s.scopes.Dated)
    (hholds : s.scopes.Holds 0 (ownedBy pass))
    (hascending : (ownedBy pass).Pairwise (·.index < ·.index))
    (hsplit : boundBy pass = before ++ item :: after) :
    ∃ c, Registered s (before ++ [item]) item c s' := by
  have hsublist := boundBy_sublist pass
  have hknown : ∀ other ∈ before ++ [item], other.line.scope.index < s.scopes.size := by
    intro other hother
    refine hholds.index_lt (hsublist.subset (List.mem_map_of_mem ?_))
    rw [hsplit, List.append_cons]
    exact List.mem_append_left _ hother
  -- the items behind this one own later scopes
  have hlater : item.line.scope ∉ after.map (·.line.scope) := by
    have hpairs := hascending.sublist hsublist
    rw [hsplit, List.map_append, List.map_cons, List.pairwise_append] at hpairs
    intro hmem
    exact Nat.lt_irrefl _ ((List.pairwise_cons.mp hpairs.2.1).1 _ hmem)
  have hlabels := register_bindLabels h
  rw [hsplit, List.append_cons, bindLabels_append] at hlabels
  obtain ⟨c, hbefore, hafter⟩ := hlabels
  obtain ⟨t, hfirst, hone⟩ := bindLabels_append.mp hbefore
  obtain ⟨_, _, hlabel, hnil⟩ := bind_eq_ok.mp hone
  cases hnil
  have hlt : item.line.scope.index < t.scopes.size :=
    Nat.lt_of_lt_of_le (hknown item (by simp)) (leads_bindLabels _ hfirst).size_le
  have hbound : Registered s (before ++ [item]) item c c :=
    { bindLabels := hbefore
      known := hknown
      dated := (leads_bindLabels _ hbefore).dated hdated
      steps := .refl
      mark := bindLabel_marks hlabel hlt }
  refine ⟨c, hbound.leads (leads_bindLabels _ hafter) ?_ hlater⟩
  exact Nat.lt_of_lt_of_le hlt (leads_bindLabel _ hlabel).size_le

/-- What expands the lines inside those that are expanded with so many levels left. -/
def inside : Nat → Option Expander
  | 0 => none
  | levels + 1 => some (expandLevels levels)

end Assembly

/-! ## Stages -/

/-- Items that are about to be expanded in a session, with `levels` left for expansions inside them.
    Their labels were bound along with those of `pass`, from the session `start` on. -/
structure Stage where
  levels : Nat
  pass : List Item
  start : Session
  items : List Item
  session : Session

/-- What the mnemonic of a line stands for. -/
def Session.Understands (s : Session) (line : Line) (op : Operation) : Prop :=
  ∃ mnemonic, line.mnemonic = some mnemonic ∧ s.scopes.operation line.scope mnemonic = .ok op

/-- A repetition, with its variable, its values and its body. -/
inductive Session.Repeats (s : Session) : Item → Option String → List Expr → List Item → Prop
  | rept {line : Line} {body : List Item} {var : Option String} {values : List Expr}
      (hop : s.Understands line .rept) (hvalues : reptValues s.scopes line = .ok (var, values)) :
      Repeats s (.block line .rept body) var values body
  | irp {line : Line} {body : List Item} {var : Option String} {values : List Expr}
      (hop : s.Understands line .irp) (hvalues : irpValues line = .ok (var, values)) :
      Repeats s (.block line .irp body) var values body

open Assembly in
/-- The stages of assembling a text. There is one rule for each way to get on: behind an item, into
    a block, and into a new pass. -/
inductive Reaches (library : Library) (text : String) : Stage → Prop
  | load {source : Source} {s s' : Session}
      (hload : loadText text (Session.new library) = .ok source s)
      (hregister : register source.items s = .ok () s') :
      Reaches library text ⟨maxDepth, source.items, s, source.items, s'⟩
  | next {levels : Nat} {pass rest lines : List Item} {start s s' : Session} {item : Item}
      (h : Reaches library text ⟨levels, pass, start, item :: rest, s⟩)
      (hitem : expandWith (inside levels) item s = .ok lines s') :
      Reaches library text ⟨levels, pass, start, rest, s'⟩
  | proc {levels : Nat} {pass rest body : List Item} {start s : Session} {line : Line}
      (h : Reaches library text ⟨levels + 1, pass, start, .block line .proc body :: rest, s⟩)
      (hop : s.Understands line .proc) : Reaches library text ⟨levels, pass, start, body, s⟩
  | segment {levels : Nat} {pass rest body : List Item} {start s : Session} {line : Line}
      (h : Reaches library text ⟨levels + 1, pass, start, .block line .segment body :: rest, s⟩)
      (hop : s.Understands line .segment) : Reaches library text ⟨levels, pass, start, body, s⟩
  | choice {levels : Nat} {pass rest onTrue onFalse branch : List Item} {start s s' : Session}
      {line : Line} {cond : Expr} {value : Int64}
      (h : Reaches library text
        ⟨levels + 1, pass, start, .choice line onTrue onFalse :: rest, s⟩)
      (hop : s.Understands line .choice) (hcond : line.arguments = some cond)
      (hvalue : cond.integer s.scopes = .ok value)
      (hbranch : branch = if value != 0 then onTrue else onFalse)
      (hregister : register branch s = .ok () s') :
      Reaches library text ⟨levels, branch, s, branch, s'⟩
  | iteration {levels : Nat} {pass rest body items : List Item} {start s s₁ s₂ s₃ : Session}
      {item : Item} {var : Option String} {before after : List Expr} {value : Expr}
      {lines : List (List Item)}
      (h : Reaches library text ⟨levels + 1, pass, start, item :: rest, s⟩)
      (hrepeats : s.Repeats item var (before ++ value :: after) body)
      (hbefore : expandIterations (expandLevels levels) item.line var body 0 before s =
        .ok lines s₁)
      (hopen : openIteration item.line var body before.length value s₁ = .ok items s₂)
      (hregister : register items s₂ = .ok () s₃) :
      Reaches library text ⟨levels, items, s₂, items, s₃⟩
  | invocation {levels : Nat} {pass rest items : List Item} {start s s₁ s₂ : Session} {item : Item}
      {id : TemplateId} {template : Template}
      (h : Reaches library text ⟨levels + 1, pass, start, item :: rest, s⟩)
      (hop : s.Understands item.line (.invoke id))
      (htemplate : s.templates[id.index]? = some template)
      (hopen : openInvocation item.line template s = .ok items s₁)
      (hregister : register items s₁ = .ok () s₂) :
      Reaches library text ⟨levels, items, s₁, items, s₂⟩

/-- What holds at every stage. -/
structure Stage.Sound (stage : Stage) : Prop where
  wellScoped : stage.session.WellScoped
  dated : stage.session.scopes.Dated
  holds : stage.session.scopes.Holds 0 (ownedBy stage.items)
  ascending : (ownedBy stage.items).Pairwise (·.index < ·.index)
  bound : boundBy stage.items ⊆ boundBy stage.pass
  registered : ∀ item ∈ boundBy stage.items, ∀ before after,
    boundBy stage.pass = before ++ item :: after →
      ∃ c, Registered stage.start (before ++ [item]) item c stage.session

namespace Assembly

theorem inside_unfolds {levels : Nat} {item : Item} {lines : List Item} {s s' : Session}
    (h : expandWith (inside levels) item s = .ok lines s') :
    Unfolding [] (.item item) s lines s' := by
  refine expandWith_unfolds [] (fun expand hexpand within items s lines s' hrun => ?_) h
  cases levels with
  | zero => cases hexpand
  | succ levels =>
    cases hexpand
    exact expandLevels_unfolds levels within hrun

end Assembly

namespace Stage.Sound

open Assembly

variable {levels : Nat} {pass rest : List Item} {start s s' : Session} {item : Item}

/-- The stage at which a pass has been bound. -/
theorem of_register (hs : s.WellScoped) (hdated : s.scopes.Dated)
    (hholds : s.scopes.Holds 0 (ownedBy pass))
    (hascending : (ownedBy pass).Pairwise (·.index < ·.index))
    (hregister : register pass s = .ok () s') : Sound ⟨levels, pass, s, pass, s'⟩ := by
  have hkeeps : s.Keeps 0 s' := keeps_register pass hregister hs hholds
  exact
    { wellScoped := hkeeps.wellScoped
      dated := (leads_register pass hregister).dated hdated
      holds := hholds.mono hkeeps.growth
      ascending := hascending
      bound := List.Subset.refl _
      registered := fun _ _ _ _ hsplit =>
        register_registered hregister hdated hholds hascending hsplit }

/-- A stage at the same moment, with some of the items inside. -/
theorem inside {items : List Item} {more : Nat} (h : Sound ⟨levels, pass, start, items, s⟩)
    (howned : (ownedBy rest).Sublist (ownedBy items)) (hbound : boundBy rest ⊆ boundBy items) :
    Sound ⟨more, pass, start, rest, s⟩ where
  wellScoped := h.wellScoped
  dated := h.dated
  holds := h.holds.subset howned.subset
  ascending := h.ascending.sublist howned
  bound := List.Subset.trans hbound h.bound
  registered item hitem := h.registered item (hbound hitem)

theorem next {lines : List Item} (h : Sound ⟨levels, pass, start, item :: rest, s⟩)
    (hitem : expandWith (Assembly.inside levels) item s = .ok lines s') :
    Sound ⟨levels, pass, start, rest, s'⟩ := by
  obtain ⟨_, _, _, hunfolds, -⟩ := inside_unfolds hitem
  have hleads := ((expanding_leads s item.owned).keeps hunfolds .refl fun id hid => .inl hid).1
  have hkeeps := ((expanding_keeps s 0).keeps hunfolds h.wellScoped.refl
    (h.holds.subset (List.subset_append_left _ _))).1
  have hrest : s.scopes.Holds 0 (ownedBy rest) := h.holds.subset (List.subset_append_right _ _)
  obtain ⟨-, hascending, hdistinct⟩ := List.pairwise_append.mp h.ascending
  have hbound : boundBy rest ⊆ boundBy (item :: rest) := List.subset_append_right _ _
  refine ⟨hkeeps.wellScoped, hleads.dated h.dated, hrest.mono hkeeps.growth, hascending,
    List.Subset.trans hbound h.bound, ?_⟩
  intro other hother before after hsplit
  obtain ⟨c, hc⟩ := h.registered other (hbound hother) before after hsplit
  have hscope : other.line.scope ∈ ownedBy rest :=
    (boundBy_sublist rest).subset (List.mem_map_of_mem hother)
  refine ⟨c, hc.leads hleads (hrest.index_lt hscope) fun hmem => ?_⟩
  exact Nat.lt_irrefl _ (hdistinct _ hmem _ hscope)

end Stage.Sound

open Assembly in
/-- **At every stage the items have the marks of their pass.** -/
theorem Reaches.sound {library : Library} {text : String} {stage : Stage}
    (h : Reaches library text stage) : stage.Sound := by
  induction h with
  | load hload hregister =>
    obtain ⟨hs, hitems⟩ := loadText_wellScoped hload (Session.wellScoped_new library)
    obtain ⟨hleads, hfresh⟩ := loadText_makes hload
    exact .of_register hs (hleads.dated dated_predefined) hitems hfresh.2.1 hregister
  | next _ hitem ih => exact ih.next hitem
  | @proc _ _ rest body _ _ line _ _ ih =>
    exact ih.inside ((List.sublist_cons_self _ _).trans (List.sublist_append_left _ _))
      fun item hitem => List.mem_append_left _ (List.mem_cons_of_mem _ hitem)
  | @segment _ _ rest body _ _ line _ _ ih =>
    exact ih.inside ((List.sublist_cons_self _ _).trans (List.sublist_append_left _ _))
      fun item hitem => List.mem_append_left _ (List.mem_cons_of_mem _ hitem)
  | @choice _ _ rest onTrue onFalse branch _ _ _ line _ value _ _ _ _ hbranch hregister ih =>
    have hsub : (ownedBy branch).Sublist (ownedBy (.choice line onTrue onFalse :: rest)) := by
      refine List.Sublist.trans ?_
        ((List.sublist_cons_self _ _).trans (List.sublist_append_left _ _))
      rw [hbranch]
      split
      · exact List.sublist_append_left _ _
      · exact List.sublist_append_right _ _
    exact .of_register ih.wellScoped ih.dated (ih.holds.subset hsub.subset)
      (ih.ascending.sublist hsub) hregister
  | @iteration levels _ rest body items _ s s₁ s₂ _ item _ before _ value _ _ hrepeats hbefore hopen
      hregister ih =>
    obtain ⟨_, _, _, hunfolds, -⟩ :=
      expandIterations_unfolds (fun within _ _ _ _ h => expandLevels_unfolds levels within h) [] hbefore
    have hitem : s.scopes.Holds 0 item.owned := ih.holds.subset (List.subset_append_left _ _)
    obtain ⟨kind, hblock⟩ : ∃ kind, item = .block item.line kind body := by
      cases hrepeats with
      | rept => exact ⟨_, rfl⟩
      | irp => exact ⟨_, rfl⟩
    rw [hblock] at hitem
    have hst := ((expanding_keeps s 0).keeps hunfolds ih.wellScoped.refl ⟨⟨kind, hitem⟩, trivial⟩).1
    obtain ⟨hts, hitems⟩ := openIteration_keeps hopen hst.wellScoped (hitem.mono hst.growth)
      List.mem_cons_self (List.subset_cons_self _ _)
    have hleads := ((expanding_leads s _).keeps hunfolds .refl
      ⟨⟨kind, fun id hid => .inl hid⟩, trivial⟩).1
    obtain ⟨hopened, hfresh⟩ := issues_openIteration _ _ _ _ _ hopen
    have hopened := hleads.step hopened (List.forall_mem_nil _)
    exact .of_register hts.wellScoped (hopened.dated ih.dated) hitems hfresh.2.1 hregister
  | @invocation _ _ rest items _ s s₁ _ item _ template _ _ htemplate hopen hregister ih =>
    have hline := ih.holds.index_lt (List.mem_append_left _ item.scope_mem_owned)
    obtain ⟨_, t, hopened, -, hcopied, hitems⟩ := openInvocation_opens hopen ih.wellScoped hline
      (Array.mem_of_getElem? htemplate)
    obtain ⟨hleads, hfresh⟩ := issues_openInvocation _ _ hopen
    exact .of_register hcopied.wellScoped (hleads.dated ih.dated) (hitems.le (Nat.zero_le _))
      hfresh.2.1 hregister

end Z80Asm
