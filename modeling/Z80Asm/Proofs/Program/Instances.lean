import Z80Asm.Proofs.Program.Bodies

/-!
# Instances of bodies

Copying a body takes its lines to new scopes one by one, under a map that grows as it goes. What comes
out is the body under the map that is there at the end: `Item.relocated` replaces every scope at once,
and copying gives the same. That is so because lines are read into older scopes: no image that copying
needs for a line is replaced by a later line (`Copying.Copies.append`).

Every body that was read is copied faithfully into new scopes (`copyItems_instance`).

The map at the end is not the one that a line was copied with. It is used because one map for the
whole body can be stated without following the copying.
-/
set_option autoImplicit false

namespace Z80Asm

open Success

/-! ## Relocated lines -/

/-- The line in an instance in which `f` says what stands for its scopes. It is part of what `site`
    asked for, and its mnemonic is to be understood again. -/
def Line.relocated (f : ScopeId → ScopeId) (site : Position) (line : Line) : Line :=
  { line with
    arguments := line.arguments.map (Expr.rename f)
    position := line.position.expandedFrom site
    scope := f line.scope
    operation := none }

namespace Line.SelfScoped

variable {line : Line} {f g : ScopeId → ScopeId}

/-- What stands for other scopes does not matter. -/
theorem map_rename (h : line.SelfScoped) :
    line.arguments.map (Expr.rename f) = line.arguments.map (Expr.rename fun _ => f line.scope) := by
  rw [← h.arguments_eq, Option.map_map, Option.map_map]
  congr 1
  funext e
  rw [Function.comp, Function.comp, Expr.rename_rename, Expr.rename_rename]
  rfl

theorem relocated_congr (h : line.SelfScoped) (hfg : f line.scope = g line.scope) (site : Position) :
    line.relocated f site = line.relocated g site := by
  rw [Line.relocated, Line.relocated, h.map_rename, h.map_rename (f := g), hfg]

theorem relocated (h : line.SelfScoped) (site : Position) : (line.relocated f site).SelfScoped := by
  have harguments : (line.relocated f site).arguments.map (Expr.rename fun _ => f line.scope) =
      (line.relocated f site).arguments := by
    show (line.arguments.map (Expr.rename f)).map (Expr.rename fun _ => f line.scope) =
      line.arguments.map (Expr.rename f)
    rw [h.map_rename, Option.map_map]
    congr 1
    funext e
    exact Expr.rename_rename _ _ e
  exact congrArg (fun arguments => { line.relocated f site with arguments }) harguments

end Line.SelfScoped

mutual

/-- The item with every line of it relocated. -/
def Item.relocated (f : ScopeId → ScopeId) (site : Position) : Item → Item
  | .plain line role => .plain (line.relocated f site) role
  | .block line kind body => .block (line.relocated f site) kind (relocatedItems f site body)
  | .choice line onTrue onFalse =>
    .choice (line.relocated f site) (relocatedItems f site onTrue) (relocatedItems f site onFalse)

def relocatedItems (f : ScopeId → ScopeId) (site : Position) : List Item → List Item
  | [] => []
  | item :: rest => item.relocated f site :: relocatedItems f site rest

end

/-! ## Copying -/

/-- The scopes are ascending, and each is below an older one. -/
structure Scopes.Aged (s : Scopes) (owned : List ScopeId) : Prop where
  ascending : owned.Pairwise (·.index < ·.index)
  older : ∀ id ∈ owned, ∃ p, s.parent? id = some p ∧ p.index < id.index

theorem Scopes.Aged.sublist {s : Scopes} {ids owned : List ScopeId} (h : s.Aged owned)
    (hids : ids.Sublist owned) : s.Aged ids :=
  ⟨h.ascending.sublist hids, fun id hid => h.older id (hids.subset hid)⟩

/-- No later scope is an earlier one, or one that an earlier one is below. -/
theorem Scopes.Aged.apart {s : Scopes} {ids others : List ScopeId} (h : s.Aged (ids ++ others))
    {id : ScopeId} (hid : id ∈ ids) : id ∉ others ∧ ∀ p, s.parent? id = some p → p ∉ others := by
  have hlater := (List.pairwise_append.mp h.ascending).2.2 id hid
  obtain ⟨p, hp, hlt⟩ := h.older id (List.mem_append_left _ hid)
  refine ⟨?_, ?_⟩
  · intro hother
    exact Nat.lt_irrefl _ (hlater id hother)
  · intro p' hp' hother
    cases hp.symm.trans hp'
    exact Nat.lt_asymm hlt (hlater p hother)

mutual

theorem Item.ReadInto.older {s : Scopes} : ∀ {item : Item} {scope : ScopeId},
    item.ReadInto s scope → (scope :: item.owned).Pairwise (·.index < ·.index) →
      ∀ id ∈ item.owned, ∃ p, s.parent? id = some p ∧ p.index < id.index
  | .plain line _, scope, h, hscope =>
    List.forall_mem_singleton.mpr ⟨scope, h.parent, List.rel_of_pairwise_cons hscope List.mem_cons_self⟩
  | .block line kind body, scope, h, hscope => by
    refine List.forall_mem_cons.mpr
      ⟨⟨scope, h.1.parent, List.rel_of_pairwise_cons hscope List.mem_cons_self⟩, ?_⟩
    apply AllReadInto.older h.2
    cases kind with
    | segment => exact hscope.sublist ((List.sublist_cons_self _ _).cons_cons _)
    | template | rept | irp | proc => exact hscope.sublist (List.sublist_cons_self _ _)
  | .choice line onTrue onFalse, scope, h, hscope => by
    refine List.forall_mem_cons.mpr
      ⟨⟨scope, h.1.parent, List.rel_of_pairwise_cons hscope List.mem_cons_self⟩,
        List.forall_mem_append.mpr ⟨?_, ?_⟩⟩
    · exact AllReadInto.older h.2.1
        (hscope.sublist (((List.sublist_append_left _ _).cons _).cons_cons _))
    · exact AllReadInto.older h.2.2
        (hscope.sublist (((List.sublist_append_right _ _).cons _).cons_cons _))

theorem AllReadInto.older {s : Scopes} : ∀ {items : List Item} {scope : ScopeId},
    AllReadInto s scope items → (scope :: ownedBy items).Pairwise (·.index < ·.index) →
      ∀ id ∈ ownedBy items, ∃ p, s.parent? id = some p ∧ p.index < id.index
  | [], _, _, _ => List.forall_mem_nil _
  | _ :: _, _, h, hscope =>
    List.forall_mem_append.mpr
      ⟨Item.ReadInto.older h.1 (hscope.sublist ((List.sublist_append_left _ _).cons_cons _)),
        AllReadInto.older h.2 (hscope.sublist ((List.sublist_append_right _ _).cons_cons _))⟩

end

theorem Source.Grown.aged {s : Scopes} {tree : Source} (h : tree.Grown s) :
    s.Aged (ownedBy tree.items) :=
  ⟨h.ascending.of_cons, h.readInto.older h.ascending⟩

theorem ScopeMap.apply_cons (images : ScopeMap) (source image id : ScopeId) :
    ScopeMap.apply ((source, image) :: images) id = if id = source then image else images.apply id := by
  rw [ScopeMap.apply, List.lookup_cons]
  by_cases h : id = source
  · rw [if_pos h, beq_iff_eq.mpr h]
    rfl
  · rw [if_neg h, beq_eq_false_iff_ne.mpr h]
    rfl

/-- Copying lines that own the scopes `owned` leads from `c` to `c'`. -/
structure Copying.Copies (c c' : Copying) (owned : List ScopeId) : Prop where
  kept : ∀ id, id.index < c.scopes.size → c'.scopes.get? id = c.scopes.get? id
  /-- What stands for other scopes stays. -/
  frame : ∀ id, id ∉ owned → c'.images.apply id = c.images.apply id
  made : ∀ id ∈ owned, (c'.images.apply id).index < c'.scopes.size
  parents : ∀ id ∈ owned,
    c'.scopes.parent? (c'.images.apply id) = (c.scopes.parent? id).map c'.images.apply

namespace Copying.Copies

variable {c c' c'' : Copying} {ids others : List ScopeId}

theorem parent?_eq (h : c.Copies c' ids) {id : ScopeId} (hid : id.index < c.scopes.size) :
    c'.scopes.parent? id = c.scopes.parent? id := by
  rw [Scopes.parent?, Scopes.parent?, h.kept id hid]

theorem aged (h : c.Copies c' ids) (hothers : c.scopes.Aged others) : c'.scopes.Aged others := by
  refine ⟨hothers.ascending, ?_⟩
  intro id hid
  obtain ⟨p, hp, hlt⟩ := hothers.older id hid
  rw [h.parent?_eq (Scopes.index_lt_of_parent? hp)]
  exact ⟨p, hp, hlt⟩

theorem index_lt (h : c.Copies c' ids) {id : ScopeId} (hid : id.index < c.scopes.size) :
    id.index < c'.scopes.size := by
  obtain ⟨scope, hscope⟩ := Scopes.exists_get?_of_lt hid
  exact Scopes.index_lt_of_get? ((h.kept id hid).trans hscope)

theorem append (h : c.Copies c' ids) (h' : c'.Copies c'' others)
    (haged : c.scopes.Aged (ids ++ others)) : c.Copies c'' (ids ++ others) where
  kept := by
    intro id hid
    rw [h'.kept id (h.index_lt hid), h.kept id hid]
  frame := by
    intro id hid
    rw [h'.frame id fun hmem => hid (List.mem_append_right _ hmem),
      h.frame id fun hmem => hid (List.mem_append_left _ hmem)]
  made := by
    intro id hid
    by_cases hother : id ∈ others
    · exact h'.made id hother
    · rw [h'.frame id hother]
      exact h'.index_lt (h.made id ((List.mem_append.mp hid).resolve_right hother))
  parents := by
    intro id hid
    rcases List.mem_append.mp hid with hid | hid
    · obtain ⟨hother, hparent⟩ := haged.apart hid
      rw [h'.frame id hother, h'.parent?_eq (h.made id hid), h.parents id hid]
      -- The scope that `id` is below is no later one either, so its image stays.
      cases hp : c.scopes.parent? id with
      | none => rfl
      | some p => exact congrArg some (h'.frame p (hparent p hp)).symm
    · obtain ⟨p, hp, -⟩ := haged.older id (List.mem_append_right _ hid)
      rw [h'.parents id hid, h.parent?_eq (Scopes.index_lt_of_parent? hp)]

end Copying.Copies

theorem Line.copy_copies (site : Position) {line : Line} {c : Copying}
    (haged : c.scopes.Aged [line.scope]) :
    c.Copies ((line.copy site).run c).2 [line.scope] ∧
      ((line.copy site).run c).1 =
        line.relocated ((line.copy site).run c).2.images.apply site := by
  have himages : ((line.copy site).run c).2.images = (line.scope, c.scopes.fresh) :: c.images := rfl
  have hself : ((line.copy site).run c).2.images.apply line.scope = c.scopes.fresh := by
    rw [himages, ScopeMap.apply_cons, if_pos rfl]
  have hframe : ∀ id, id ∉ [line.scope] →
      ((line.copy site).run c).2.images.apply id = c.images.apply id := by
    intro id hid
    rw [himages, ScopeMap.apply_cons, if_neg fun h => hid (List.mem_singleton.mpr h)]
  refine ⟨⟨?_, hframe, ?_, ?_⟩, ?_⟩
  · intro id hid
    show (c.scopes.create _).2.get? id = _
    rw [Scopes.get?_create, if_neg]
    intro heq
    rw [heq] at hid
    exact Nat.lt_irrefl _ hid
  · refine List.forall_mem_singleton.mpr ?_
    rw [hself]
    show c.scopes.size < (c.scopes.create _).2.size
    rw [Scopes.size_create]
    exact Nat.lt_succ_self _
  · refine List.forall_mem_singleton.mpr ?_
    obtain ⟨p, hp, hlt⟩ := haged.older _ List.mem_cons_self
    rw [hself, hp, Option.map_some, hframe p ?_]
    · show (c.scopes.create ((c.scopes.parent? line.scope).map c.images.apply)).2.parent? _ = _
      rw [Scopes.parent?, Scopes.get?_create, if_pos rfl, hp]
      rfl
    · intro hmem
      rw [List.mem_singleton.mp hmem] at hlt
      exact Nat.lt_irrefl _ hlt
  · rw [Line.relocated, hself]
    rfl

mutual

theorem Item.relocated_congr {f g : ScopeId → ScopeId} (site : Position) : ∀ {item : Item},
    (∀ line ∈ item.lines, line.SelfScoped) → (∀ id ∈ item.owned, f id = g id) →
      item.relocated f site = item.relocated g site
  | .plain line role, hown, h =>
    congrArg (Item.plain · role)
      ((hown line List.mem_cons_self).relocated_congr (h _ List.mem_cons_self) site)
  | .block line kind body, hown, h => by
    obtain ⟨hline, hbody⟩ := List.forall_mem_cons.mp hown
    obtain ⟨hscope, hinside⟩ := List.forall_mem_cons.mp h
    rw [Item.relocated, Item.relocated, hline.relocated_congr hscope,
      relocatedItems_congr site hbody hinside]
  | .choice line onTrue onFalse, hown, h => by
    obtain ⟨hline, hbodies⟩ := List.forall_mem_cons.mp hown
    obtain ⟨hscope, hinside⟩ := List.forall_mem_cons.mp h
    obtain ⟨htrue, hfalse⟩ := List.forall_mem_append.mp hbodies
    obtain ⟨hscopes, hscopes'⟩ := List.forall_mem_append.mp hinside
    rw [Item.relocated, Item.relocated, hline.relocated_congr hscope,
      relocatedItems_congr site htrue hscopes, relocatedItems_congr site hfalse hscopes']

theorem relocatedItems_congr {f g : ScopeId → ScopeId} (site : Position) : ∀ {items : List Item},
    (∀ line ∈ linesOf items, line.SelfScoped) → (∀ id ∈ ownedBy items, f id = g id) →
      relocatedItems f site items = relocatedItems g site items
  | [], _, _ => rfl
  | item :: rest, hown, h => by
    obtain ⟨hitem, hrest⟩ := List.forall_mem_append.mp hown
    obtain ⟨hscopes, hscopes'⟩ := List.forall_mem_append.mp h
    rw [relocatedItems, relocatedItems, Item.relocated_congr site hitem hscopes,
      relocatedItems_congr site hrest hscopes']

end

mutual

theorem Item.copy_copies (site : Position) : ∀ (item : Item) (c : Copying),
    c.scopes.Aged item.owned → (∀ line ∈ item.lines, line.SelfScoped) →
      c.Copies ((item.copy site).run c).2 item.owned ∧
        ((item.copy site).run c).1 =
          item.relocated ((item.copy site).run c).2.images.apply site
  | .plain line role, c, haged, _ => by
    obtain ⟨hline, heq⟩ := Line.copy_copies site haged
    exact ⟨hline, congrArg (Item.plain · role) heq⟩
  | .block line kind body, c, haged, hown => by
    obtain ⟨hself, hinside⟩ := List.forall_mem_cons.mp hown
    have hall : c.scopes.Aged ([line.scope] ++ ownedBy body) := haged
    obtain ⟨hline, hcopy⟩ := Line.copy_copies site (hall.sublist (List.sublist_append_left _ _))
    obtain ⟨hbody, hcopies⟩ := copyItems_copies site body ((line.copy site).run c).2
      (hline.aged (hall.sublist (List.sublist_append_right _ _))) hinside
    have hsame := hbody.frame line.scope (hall.apart List.mem_cons_self).1
    refine ⟨hline.append hbody hall, ?_⟩
    show Item.block ((line.copy site).run c).1 kind _ = _
    rw [hcopy, hself.relocated_congr hsame.symm]
    exact congrArg (Item.block _ kind) hcopies
  | .choice line onTrue onFalse, c, haged, hown => by
    obtain ⟨hself, hinside⟩ := List.forall_mem_cons.mp hown
    obtain ⟨hinTrue, hinFalse⟩ := List.forall_mem_append.mp hinside
    have hall : c.scopes.Aged ([line.scope] ++ (ownedBy onTrue ++ ownedBy onFalse)) := haged
    have hbodies := hall.sublist (List.sublist_append_right _ _)
    obtain ⟨hline, hcopy⟩ := Line.copy_copies site (hall.sublist (List.sublist_append_left _ _))
    obtain ⟨htrue, hcopies⟩ := copyItems_copies site onTrue ((line.copy site).run c).2
      (hline.aged (hbodies.sublist (List.sublist_append_left _ _))) hinTrue
    obtain ⟨hfalse, hcopies'⟩ := copyItems_copies site onFalse
      ((copyItems site onTrue).run ((line.copy site).run c).2).2
      (htrue.aged (hline.aged (hbodies.sublist (List.sublist_append_right _ _)))) hinFalse
    have hboth := htrue.append hfalse (hline.aged hbodies)
    have hsame := hboth.frame line.scope (hall.apart List.mem_cons_self).1
    refine ⟨hline.append hboth hall, ?_⟩
    show Item.choice ((line.copy site).run c).1
      ((copyItems site onTrue).run ((line.copy site).run c).2).1 _ = _
    rw [hcopy, hself.relocated_congr hsame.symm, hcopies, relocatedItems_congr site hinTrue
      fun id hid => (hfalse.frame id (hbodies.apart hid).1).symm]
    exact congrArg (Item.choice _ _) hcopies'

/-- Copying gives the items under the map that is there at the end. -/
theorem copyItems_copies (site : Position) : ∀ (items : List Item) (c : Copying),
    c.scopes.Aged (ownedBy items) → (∀ line ∈ linesOf items, line.SelfScoped) →
      c.Copies ((copyItems site items).run c).2 (ownedBy items) ∧
        ((copyItems site items).run c).1 =
          relocatedItems ((copyItems site items).run c).2.images.apply site items
  | [], _, _, _ =>
    ⟨⟨fun _ _ => rfl, fun _ _ => rfl, List.forall_mem_nil _, List.forall_mem_nil _⟩, rfl⟩
  | item :: rest, c, haged, hown => by
    obtain ⟨hself, hrest⟩ := List.forall_mem_append.mp hown
    obtain ⟨hitem, hcopy⟩ := Item.copy_copies site item c
      (haged.sublist (List.sublist_append_left _ _)) hself
    obtain ⟨hothers, hcopies⟩ := copyItems_copies site rest ((item.copy site).run c).2
      (hitem.aged (haged.sublist (List.sublist_append_right _ _))) hrest
    refine ⟨hitem.append hothers haged, ?_⟩
    show ((item.copy site).run c).1 :: _ = _
    rw [hcopy, Item.relocated_congr site hself fun id hid =>
      (hothers.frame id (haged.apart hid).1).symm]
    exact congrArg (_ :: ·) hcopies

end

mutual

theorem Item.ReadInto.relocated {s t : Scopes} {f : ScopeId → ScopeId} (site : Position) :
    ∀ {item : Item} {scope : ScopeId}, item.ReadInto s scope →
      (∀ id ∈ item.owned, t.parent? (f id) = (s.parent? id).map f) →
        (item.relocated f site).ReadInto t (f scope)
  | .plain line role, scope, h, hparents => by
    refine ⟨(hparents _ List.mem_cons_self).trans ?_, h.own.relocated site⟩
    exact congrArg (Option.map f) h.parent
  | .block line kind body, scope, h, hparents => by
    obtain ⟨hline, hinside⟩ := List.forall_mem_cons.mp hparents
    refine ⟨⟨hline.trans (congrArg (Option.map f) h.1.parent), h.1.own.relocated site⟩, ?_⟩
    have hbody := AllReadInto.relocated site h.2 hinside
    cases kind with
    | segment => exact hbody
    | template | rept | irp | proc => exact hbody
  | .choice line onTrue onFalse, scope, h, hparents => by
    obtain ⟨hline, hinside⟩ := List.forall_mem_cons.mp hparents
    obtain ⟨htrue, hfalse⟩ := List.forall_mem_append.mp hinside
    exact ⟨⟨hline.trans (congrArg (Option.map f) h.1.parent), h.1.own.relocated site⟩,
      AllReadInto.relocated site h.2.1 htrue, AllReadInto.relocated site h.2.2 hfalse⟩

theorem AllReadInto.relocated {s t : Scopes} {f : ScopeId → ScopeId} (site : Position) :
    ∀ {items : List Item} {scope : ScopeId}, AllReadInto s scope items →
      (∀ id ∈ ownedBy items, t.parent? (f id) = (s.parent? id).map f) →
        AllReadInto t (f scope) (relocatedItems f site items)
  | [], _, _, _ => trivial
  | _ :: _, _, h, hparents => by
    obtain ⟨hitem, hrest⟩ := List.forall_mem_append.mp hparents
    exact ⟨Item.ReadInto.relocated site h.1 hitem, AllReadInto.relocated site h.2 hrest⟩

end

/-- An instance of a body in the scope `target`, made between two states of the arena on behalf of
    `site`. What stands for the scopes of the body is given by `image`. -/
structure Source.Instance (tree : Source) (target : ScopeId) (site : Position)
    (before after : Scopes) (image : ScopeId → ScopeId) (copies : List Item) : Prop where
  /-- The lines, their nesting and their order are those of the body; each line is in the scope that
      stands for its own, and so is every name in its arguments. -/
  items : copies = relocatedItems image site tree.items
  root : image tree.scope = target
  fresh : ∀ id ∈ ownedBy copies, before.size ≤ id.index ∧ id.index < after.size
  distinct : (ownedBy copies).Nodup
  parents : ∀ id ∈ ownedBy tree.items, after.parent? (image id) = (before.parent? id).map image
  /-- The instance has the form of a body that was read into the target. -/
  readInto : AllReadInto after target copies
  /-- No name refers to the scope of a line in the body that was copied. -/
  apart : ∀ line ∈ linesOf copies, ∀ e ∈ line.arguments, ∀ id ∈ e.mentioned,
    id = line.scope ∧ id ∉ ownedBy tree.items
  kept : ∀ id, id.index < before.size → after.get? id = before.get? id

theorem Source.Grown.instance {arena : Scopes} {tree : Source} (h : tree.Grown arena)
    (site : Position) (images : ScopeMap) :
    tree.Instance (images.apply tree.scope) site arena
      ((copyItems site tree.items).run { images, scopes := arena }).2.scopes
      ((copyItems site tree.items).run { images, scopes := arena }).2.images.apply
      ((copyItems site tree.items).run { images, scopes := arena }).1 := by
  have hfresh := (copyItems_makes site tree.items { images, scopes := arena }).fresh
  rw [map_scope_linesOf] at hfresh
  obtain ⟨hcopies, hitems⟩ := copyItems_copies site tree.items { images, scopes := arena } h.aged
    h.readInto.selfScoped
  generalize ((copyItems site tree.items).run { images, scopes := arena }).1 = copies at *
  generalize ((copyItems site tree.items).run { images, scopes := arena }).2 = after at *
  have hroot : after.images.apply tree.scope = images.apply tree.scope := by
    apply hcopies.frame
    intro hmem
    exact Nat.lt_irrefl _ (List.rel_of_pairwise_cons h.ascending hmem)
  have hreadInto : AllReadInto after.scopes (images.apply tree.scope) copies := by
    rw [hitems, ← hroot]
    exact h.readInto.relocated site hcopies.parents
  have hnodup : (ownedBy copies).Nodup :=
    hfresh.2.1.imp fun {id other} hlt heq => Nat.ne_of_lt hlt (congrArg ScopeId.index heq)
  refine ⟨hitems, hroot, hfresh.2.2, hnodup, hcopies.parents, hreadInto, ?_, hcopies.kept⟩
  intro line hline e he id hid
  have hscope := (hreadInto.selfScoped line hline).mentioned he hid
  refine ⟨hscope, ?_⟩
  intro hmem
  -- The scope of a copied line is new, those of the body are in the arena.
  obtain ⟨p, hp, -⟩ := h.aged.older id hmem
  have hnew := (hfresh.2.2 line.scope (map_scope_linesOf copies ▸ List.mem_map_of_mem hline)).1
  rw [← hscope] at hnew
  exact Nat.not_lt_of_le hnew (Scopes.index_lt_of_parent? hp)

/-- **Instances are faithful.** An instance of a body that was read is the body under one map of
    scopes, in any arena that has the scopes of its lines and under any map that takes its scope to
    the target. The arena need not be the one that was there when the body was read: a macro is
    expanded later, and each time in another one. -/
theorem copyItems_instance {origin : Origin} {source tree : Source} {s s' : Session}
    (hload : origin.load s = .ok source s') (htree : source.Within tree) {arena : Scopes}
    (harena : ∀ id ∈ ownedBy tree.items, arena.parent? id = s'.scopes.parent? id)
    {images : ScopeMap} {target : ScopeId} (htarget : images.apply tree.scope = target)
    (site : Position) :
    tree.Instance target site arena
      ((copyItems site tree.items).run { images, scopes := arena }).2.scopes
      ((copyItems site tree.items).run { images, scopes := arena }).2.images.apply
      ((copyItems site tree.items).run { images, scopes := arena }).1 := by
  have hgrown := (Origin.load_grown hload).within htree
  have hread : AllReadInto arena tree.scope tree.items := by
    apply hgrown.readInto.of_parents
    intro id hid p hp
    exact (harena id hid).trans hp
  rw [← htarget]
  exact Source.Grown.instance ⟨hread, hgrown.ascending⟩ site images

/-- The body of a macro definition. -/
def Item.macroBody? : Item → Option (List Item)
  | .block _ .template body => some body
  | _ => none

theorem Item.eq_block_of_macroBody {item : Item} {body : List Item}
    (h : item.macroBody? = some body) : ∃ line, item = .block line .template body := by
  unfold Item.macroBody? at h
  split at h
  · cases h
    exact ⟨_, rfl⟩
  · cases h

/-- A macro body with a repetition and a conditional inside. -/
theorem copyItems_instance_macro : ∃ source s' line body,
    (Origin.text "m: macro p\n rept p\n if p\nx: db p,x\n endif\n endm\n endm\n").load (Session.new {}) =
        .ok source s' ∧
      .block line .template body ∈ source.items ∧ (ownedBy body).length = 6 ∧
      Source.Instance ⟨line.scope, body⟩ source.scope line.position s'.scopes
        ((copyItems line.position body).run
          { images := [(line.scope, source.scope)], scopes := s'.scopes }).2.scopes
        ((copyItems line.position body).run
          { images := [(line.scope, source.scope)], scopes := s'.scopes }).2.images.apply
        ((copyItems line.position body).run
          { images := [(line.scope, source.scope)], scopes := s'.scopes }).1 := by
  have hpasses : passes (fun (source : Source) (_ : Session) => source.items.any fun item =>
        item.macroBody?.any fun body => (ownedBy body).length == 6)
      ((Origin.text "m: macro p\n rept p\n if p\nx: db p,x\n endif\n endm\n endm\n").load
        (Session.new {})) = true := by
    decide +kernel
  obtain ⟨source, s', hload, htest⟩ := eq_ok_of_passes hpasses
  obtain ⟨item, hitem, htest⟩ := List.any_eq_true.mp htest
  obtain ⟨body, hbody, hlength⟩ := (Option.any_eq_true _ _).mp htest
  obtain ⟨line, rfl⟩ := Item.eq_block_of_macroBody hbody
  refine ⟨source, s', line, body, hload, hitem, beq_iff_eq.mp hlength, ?_⟩
  refine copyItems_instance hload (.body .self hitem) (fun _ _ => rfl) ?_ _
  rw [ScopeMap.apply_cons]
  exact if_pos rfl

end Z80Asm
