import Z80Asm.Proofs.Line.Rescoping
import Z80Asm.Proofs.Program.Naming

/-!
# Bodies as they are read

Each line owns a scope newer than that of any line before it, directly below the scope into which it
was read, and the names in its arguments are looked up from this very scope (`AllReadInto`,
`Source.Grown`). A source has this form when it has been read, and so has every body inside it.

Copying relies on it: a body can be taken to new scopes line by line only because no line refers to
the scope of a later one.
-/
set_option autoImplicit false

namespace Z80Asm

open Success

/-! ## Scopes in expressions -/

namespace Expr

mutual

/-- The scopes that an expression mentions. -/
def mentioned : Expr → List ScopeId
  | ident _ scope | context scope | space _ scope => [scope]
  | unary _ operand => operand.mentioned
  | binary _ left right => left.mentioned ++ right.mentioned
  | ifElse cond onTrue onFalse => cond.mentioned ++ onTrue.mentioned ++ onFalse.mentioned
  | seq items => mentionedItems items
  | member object _ => object.mentioned
  | index sequence position => sequence.mentioned ++ position.mentioned
  | group inner => inner.mentioned
  | annotated _ inner => inner.mentioned
  | indexed _ offset => offset.mentioned
  | int _ | str _ | chr _ | register _ | condition _ | operation _ => []

def mentionedItems : List Expr → List ScopeId
  | [] => []
  | e :: rest => e.mentioned ++ mentionedItems rest

end

variable (f g : ScopeId → ScopeId)

mutual

theorem mentioned_rename : ∀ e : Expr, (e.rename f).mentioned = e.mentioned.map f
  | ident _ _ | context _ | space _ _ => rfl
  | unary _ operand => mentioned_rename operand
  | binary _ left right => by
    rw [rename, mentioned, mentioned, mentioned_rename left, mentioned_rename right, List.map_append]
  | ifElse cond onTrue onFalse => by
    rw [rename, mentioned, mentioned, mentioned_rename cond, mentioned_rename onTrue,
      mentioned_rename onFalse, List.map_append, List.map_append]
  | seq items => mentionedItems_rename items
  | member object _ => mentioned_rename object
  | index sequence position => by
    rw [rename, mentioned, mentioned, mentioned_rename sequence, mentioned_rename position,
      List.map_append]
  | group inner => mentioned_rename inner
  | annotated _ inner => mentioned_rename inner
  | indexed _ offset => mentioned_rename offset
  | int _ | str _ | chr _ | register _ | condition _ | operation _ => rfl

theorem mentionedItems_rename : ∀ items : List Expr,
    mentionedItems (renameItems f items) = (mentionedItems items).map f
  | [] => rfl
  | e :: rest => by
    rw [renameItems, mentionedItems, mentionedItems, mentioned_rename e, mentionedItems_rename rest,
      List.map_append]

end

mutual

theorem rename_rename : ∀ e : Expr, (e.rename f).rename g = e.rename (g ∘ f)
  | ident _ _ | context _ | space _ _ => rfl
  | unary _ operand => congrArg (unary _) (rename_rename operand)
  | binary _ left right => by
    rw [rename, rename, rename, rename_rename left, rename_rename right]
  | ifElse cond onTrue onFalse => by
    rw [rename, rename, rename, rename_rename cond, rename_rename onTrue, rename_rename onFalse]
  | seq items => congrArg seq (renameItems_renameItems items)
  | member object _ => congrArg (member · _) (rename_rename object)
  | index sequence position => by
    rw [rename, rename, rename, rename_rename sequence, rename_rename position]
  | group inner => congrArg group (rename_rename inner)
  | annotated _ inner => congrArg (annotated _) (rename_rename inner)
  | indexed _ offset => congrArg (indexed _) (rename_rename offset)
  | int _ | str _ | chr _ | register _ | condition _ | operation _ => rfl

theorem renameItems_renameItems : ∀ items : List Expr,
    renameItems g (renameItems f items) = renameItems (g ∘ f) items
  | [] => rfl
  | e :: rest => by
    rw [renameItems, renameItems, renameItems, rename_rename e, renameItems_renameItems rest]

end

end Expr

/-! ## Lines that look names up from their own scope -/

/-- Read into its own scope, the line is itself: its arguments mention no other scope. -/
def Line.SelfScoped (line : Line) : Prop :=
  line.inScope line.scope = line

theorem Reader.next_selfScoped {reader rest : Reader} {scope : ScopeId} {line : Line}
    (h : reader.next scope = .ok (some (line, rest))) : line.SelfScoped := by
  have hagain := Reader.next_rescope reader scope scope
  rw [h] at hagain
  have hline : line = line.inScope scope := (Prod.mk.inj (Option.some.inj (Except.ok.inj hagain))).1
  have hscope : line.scope = scope := congrArg Line.scope hline
  rw [Line.SelfScoped, hscope]
  exact hline.symm

namespace Line.SelfScoped

variable {line : Line}

theorem arguments_eq (h : line.SelfScoped) :
    line.arguments.map (Expr.rename fun _ => line.scope) = line.arguments :=
  congrArg Line.arguments h

theorem mentioned (h : line.SelfScoped) {e : Expr} (he : e ∈ line.arguments) {id : ScopeId}
    (hid : id ∈ e.mentioned) : id = line.scope := by
  have hself : e.rename (fun _ => line.scope) = e := by
    have harguments := h.arguments_eq
    rw [Option.mem_def.mp he] at harguments
    exact Option.some.inj harguments
  rw [← hself, Expr.mentioned_rename] at hid
  obtain ⟨_, -, rfl⟩ := List.mem_map.mp hid
  rfl

end Line.SelfScoped

/-! ## Bodies as they are read -/

/-- The line was read into a scope of its own directly below this one. -/
structure Line.ReadInto (s : Scopes) (scope : ScopeId) (line : Line) : Prop where
  parent : s.parent? line.scope = some scope
  own : line.SelfScoped

mutual

/-- The lines of the item were read into this scope, and those of its bodies into the scope that
    goes with the block. -/
def Item.ReadInto (s : Scopes) (scope : ScopeId) : Item → Prop
  | .plain line _ => line.ReadInto s scope
  | .block line kind body => line.ReadInto s scope ∧ AllReadInto s (kind.bodyScope line scope) body
  | .choice line onTrue onFalse =>
    line.ReadInto s scope ∧ AllReadInto s scope onTrue ∧ AllReadInto s scope onFalse

def AllReadInto (s : Scopes) (scope : ScopeId) : List Item → Prop
  | [] => True
  | item :: rest => item.ReadInto s scope ∧ AllReadInto s scope rest

end

theorem AllReadInto.append {s : Scopes} {scope : ScopeId} {items others : List Item}
    (h : AllReadInto s scope items) (h' : AllReadInto s scope others) :
    AllReadInto s scope (items ++ others) := by
  induction items with
  | nil => exact h'
  | cons item rest ih => exact ⟨h.1, ih h.2⟩

theorem AllReadInto.of_mem {s : Scopes} {scope : ScopeId} {items : List Item} {item : Item}
    (h : AllReadInto s scope items) (hitem : item ∈ items) : item.ReadInto s scope := by
  induction items with
  | nil => cases hitem
  | cons first rest ih =>
    cases hitem with
    | head => exact h.1
    | tail _ hitem => exact ih h.2 hitem

mutual

theorem Item.ReadInto.of_parents {s t : Scopes} : ∀ {item : Item} {scope : ScopeId},
    item.ReadInto s scope →
      (∀ id ∈ item.owned, ∀ p, s.parent? id = some p → t.parent? id = some p) →
      item.ReadInto t scope
  | .plain _ _, _, h, hparents => ⟨hparents _ List.mem_cons_self _ h.parent, h.own⟩
  | .block _ _ _, _, h, hparents =>
    ⟨⟨hparents _ List.mem_cons_self _ h.1.parent, h.1.own⟩,
      AllReadInto.of_parents h.2 fun id hid => hparents id (List.mem_cons_of_mem _ hid)⟩
  | .choice _ _ _, _, h, hparents =>
    ⟨⟨hparents _ List.mem_cons_self _ h.1.parent, h.1.own⟩,
      AllReadInto.of_parents h.2.1 fun id hid =>
        hparents id (List.mem_cons_of_mem _ (List.mem_append_left _ hid)),
      AllReadInto.of_parents h.2.2 fun id hid =>
        hparents id (List.mem_cons_of_mem _ (List.mem_append_right _ hid))⟩

/-- Of the arena only the parents of the lines' scopes matter. -/
theorem AllReadInto.of_parents {s t : Scopes} : ∀ {items : List Item} {scope : ScopeId},
    AllReadInto s scope items →
      (∀ id ∈ ownedBy items, ∀ p, s.parent? id = some p → t.parent? id = some p) →
      AllReadInto t scope items
  | [], _, _, _ => trivial
  | _ :: _, _, h, hparents =>
    ⟨Item.ReadInto.of_parents h.1 fun id hid => hparents id (List.mem_append_left _ hid),
      AllReadInto.of_parents h.2 fun id hid => hparents id (List.mem_append_right _ hid)⟩

end

mutual

theorem Item.ReadInto.selfScoped {s : Scopes} : ∀ {item : Item} {scope : ScopeId},
    item.ReadInto s scope → ∀ line ∈ item.lines, line.SelfScoped
  | .plain _ _, _, h => List.forall_mem_singleton.mpr h.own
  | .block _ _ _, _, h => List.forall_mem_cons.mpr ⟨h.1.own, AllReadInto.selfScoped h.2⟩
  | .choice _ _ _, _, h =>
    List.forall_mem_cons.mpr ⟨h.1.own, List.forall_mem_append.mpr
      ⟨AllReadInto.selfScoped h.2.1, AllReadInto.selfScoped h.2.2⟩⟩

theorem AllReadInto.selfScoped {s : Scopes} : ∀ {items : List Item} {scope : ScopeId},
    AllReadInto s scope items → ∀ line ∈ linesOf items, line.SelfScoped
  | [], _, _ => List.forall_mem_nil _
  | _ :: _, _, h =>
    List.forall_mem_append.mpr ⟨Item.ReadInto.selfScoped h.1, AllReadInto.selfScoped h.2⟩

end

theorem Scopes.index_lt_of_parent? {s : Scopes} {id p : ScopeId} (h : s.parent? id = some p) :
    id.index < s.size := by
  rw [Scopes.parent?, Option.bind_eq_some_iff] at h
  obtain ⟨scope, hscope, -⟩ := h
  exact Scopes.index_lt_of_get? hscope

theorem AllReadInto.extends {s t : Scopes} {items : List Item} {scope : ScopeId}
    (h : AllReadInto s scope items) (hst : s.Extends t) : AllReadInto t scope items := by
  apply h.of_parents
  intro id _ p hp
  rw [hst.parent?_eq (Scopes.index_lt_of_parent? hp)]
  exact hp

/-! ## Reading -/

/-- Lines are read into the scope that is read into, and those of blocks into the scope of their
    bodies. -/
theorem Library.Reads.readInto {lib : Library} {file : Option String} {outer : List Site}
    {scope : ScopeId} {s t : Scopes} {items : List Item}
    (h : lib.Reads file outer scope s items t) : AllReadInto t scope items := by
  have hline : ∀ {file outer} {s : Scopes} {line : Line}, line.ComesFrom file outer s.fresh →
      ∀ scope role, AllReadInto (s.create (some scope)).2 scope [.plain line role] := by
    rintro file outer s line ⟨⟨_, _, hnext⟩, hscope, -, -⟩ scope role
    refine ⟨⟨?_, Reader.next_selfScoped hnext⟩, trivial⟩
    rw [hscope]
    exact (s.below_create scope).parent_eq
  have hgrowth : ∀ {file outer scope s items t}, lib.Reads file outer scope s items t →
      s.Extends t := fun h => (h.account Scopes.account_makes trivial).steps.growth
  induction h with
  | nil => trivial
  | unused => trivial
  | append _ h' ih ih' => exact (ih.extends (hgrowth h')).append ih'
  | plain hread _ => exact hline hread _ _
  | splice hread _ h ih => exact ⟨((hline hread _ .instruction).extends (hgrowth h)).1, ih⟩
  | block hread _ h ih =>
    exact ⟨⟨((hline hread _ .instruction).extends (hgrowth h)).1, ih⟩, trivial⟩
  | choice hread h h' ih ih' =>
    have hopened := ((hline hread _ .instruction).extends (hgrowth h)).extends (hgrowth h')
    exact ⟨⟨hopened.1, ih.extends (hgrowth h'), ih'⟩, trivial⟩

/-! ## Trees of bodies -/

/-- A body as it is read: its lines were read into its scope, which is older than theirs, and each
    owns a scope that is newer than those of the lines before it. -/
structure Source.Grown (s : Scopes) (tree : Source) : Prop where
  readInto : AllReadInto s tree.scope tree.items
  ascending : (tree.scope :: ownedBy tree.items).Pairwise (·.index < ·.index)

/-- **A source is grown when it has been read.** -/
theorem Origin.load_grown {origin : Origin} {source : Source} {s s' : Session}
    (h : origin.load s = .ok source s') : source.Grown s'.scopes := by
  obtain ⟨hscope, -, hreads⟩ := Origin.load_reads h
  have hmakes := hreads.account Scopes.account_makes trivial
  refine ⟨hscope ▸ hreads.readInto, List.pairwise_cons.mpr ⟨?_, ?_⟩⟩
  · intro id hid
    rw [← map_scope_linesOf] at hid
    have hnew := (hmakes.fresh.2.2 id hid).1
    rw [Scopes.size_create] at hnew
    rw [hscope]
    exact hnew
  · rw [← map_scope_linesOf]
    exact hmakes.fresh.2.1

/-- The source itself and the bodies inside it, each with the scope into which it was read. -/
inductive Source.Within (source : Source) : Source → Prop
  | self : Within source source
  | body {tree : Source} {line : Line} {kind : BlockKind} {items : List Item}
      (h : Within source tree) (hblock : .block line kind items ∈ tree.items) :
      Within source ⟨kind.bodyScope line tree.scope, items⟩
  | onTrue {tree : Source} {line : Line} {items others : List Item} (h : Within source tree)
      (hchoice : .choice line items others ∈ tree.items) : Within source ⟨tree.scope, items⟩
  | onFalse {tree : Source} {line : Line} {items others : List Item} (h : Within source tree)
      (hchoice : .choice line others items ∈ tree.items) : Within source ⟨tree.scope, items⟩

theorem Item.owned_sublist {item : Item} {items : List Item} (h : item ∈ items) :
    item.owned.Sublist (ownedBy items) := by
  induction items with
  | nil => cases h
  | cons first rest ih =>
    cases h with
    | head => exact List.sublist_append_left _ _
    | tail _ h => exact (ih h).trans (List.sublist_append_right _ _)

theorem Source.Grown.within {s : Scopes} {source tree : Source} (h : source.Grown s)
    (htree : source.Within tree) : tree.Grown s := by
  induction htree with
  | self => exact h
  | @body tree line kind items _ hblock ih =>
    have howned := (Item.owned_sublist hblock).cons_cons tree.scope
    have hall := ih.ascending.sublist howned
    refine ⟨(ih.readInto.of_mem hblock).2, ?_⟩
    -- The body of a section is read into the scope around it, any other into that of its line.
    cases kind with
    | segment => exact hall.sublist ((List.sublist_cons_self _ _).cons_cons _)
    | template | rept | irp | proc => exact hall.sublist (List.sublist_cons_self _ _)
  | @onTrue tree line items others _ hchoice ih =>
    have howned := (Item.owned_sublist hchoice).cons_cons tree.scope
    refine ⟨(ih.readInto.of_mem hchoice).2.1, (ih.ascending.sublist howned).sublist ?_⟩
    exact ((List.sublist_append_left _ _).cons _).cons_cons _
  | @onFalse tree line items others _ hchoice ih =>
    have howned := (Item.owned_sublist hchoice).cons_cons tree.scope
    refine ⟨(ih.readInto.of_mem hchoice).2.2, (ih.ascending.sublist howned).sublist ?_⟩
    exact ((List.sublist_append_right _ _).cons _).cons_cons _

end Z80Asm
