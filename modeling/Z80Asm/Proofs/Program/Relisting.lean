import Z80Asm.Proofs.Block.Balance
import Z80Asm.Proofs.Line.Definition
import Z80Asm.Proofs.Scope.Listed
import Z80Asm.Proofs.Text.Lines

/-!
# Reading a listing back

The listing of a program is source text itself. Read into a new session, it defines every symbol of
the listing with the number that it has in the old one, if it can be read at all. Two things are in
the way of that, and nothing else: a full name that is listed twice is bound twice, and an
apostrophe cannot stand in a label.

Full names are not unique, because a label may have dots of its own: `a.b` is the label `b` inside `a`
and also the label `a.b` beside it. Apostrophes come from the variables of repetitions.

The library of the new session is another one, as nothing in a listing refers to a file.

Both conditions of the theorem are about the listing alone, so they can be checked before anything
is read; `namesApart_iff` in `Scope/Listed` computes them.
-/
set_option autoImplicit false

namespace Z80Asm

open Success

/-! ## Physical lines -/

theorem newline_notMem_definition {name : String} (h : '\n' ∉ name.toList) (v : Int64) :
    '\n' ∉ (definition name v).toList := by
  have hdigits : '\n' ∉ Text.literalDigits v.toInt.natAbs := fun hmem =>
    Text.forall_mem_literalDigits (p := (· ≠ '\n')) (by decide) _ _ hmem rfl
  rw [toList_definition, Text.toList_hexLiteral]
  by_cases hneg : v < 0
  · simp [h, hdigits, hneg]
  · simp [h, hdigits, hneg]

/-- Every line of a listing is a physical line. -/
theorem lines_listing {entries : List (String × Int64)}
    (h : ∀ entry ∈ entries, '\n' ∉ entry.1.toList) :
    Text.lines (String.join (entries.map fun entry => Scopes.listingLine entry.1 entry.2)) =
      entries.map fun entry => definition entry.1 entry.2 := by
  rw [Text.lines, String.toList_join]
  induction entries with
  | nil => rfl
  | cons entry rest ih =>
    obtain ⟨hentry, hrest⟩ := List.forall_mem_cons.mp h
    obtain ⟨name, v⟩ := entry
    have hline : (Scopes.listingLine name v).toList = (definition name v).toList ++ ['\n'] := by
      simp [Scopes.listingLine, definition]
    -- The last character is a letter, so no return is taken along with the line feed.
    have hreturn : Text.dropReturn ((definition name v).toList.reverse ++ []) =
        (definition name v).toList.reverse := by
      rw [toList_definition, Text.toList_hexLiteral]
      simp [Text.dropReturn]
    rw [List.map_cons, List.flatMap_cons, hline, List.append_assoc, List.singleton_append,
      Text.linesFrom_feed (newline_notMem_definition hentry v), hreturn, List.reverse_reverse,
      List.map_cons, ih hrest, String.ofList_toList, List.map_cons]

/-! ## Items -/

/-- The items of lines that define the names of entries in a scope, with the numbers of the
    entries. -/
structure Defines (s : Scopes) (scope : ScopeId) (entries : List (String × Int64))
    (lines : List Line) : Prop where
  parts : lines.map (fun line => (line.label, line.arguments)) =
    entries.map fun entry => (some entry.1, some (literalValue entry.2))
  below : ∀ line ∈ lines, s.Below line.scope scope

/-- The first of several definitions, and those behind it. -/
theorem Defines.uncons {s : Scopes} {scope : ScopeId} {entry : String × Int64}
    {entries : List (String × Int64)} {lines : List Line}
    (h : Defines s scope (entry :: entries) lines) :
    ∃ line rest, lines = line :: rest ∧ line.label = some entry.1 ∧
      line.arguments = some (literalValue entry.2) ∧ s.Below line.scope scope ∧
      Defines s scope entries rest := by
  cases lines with
  | nil => cases h.parts
  | cons line rest =>
    obtain ⟨hline, hrest⟩ := List.cons.inj h.parts
    obtain ⟨hbelow, hbelow'⟩ := List.forall_mem_cons.mp h.below
    exact ⟨line, rest, rfl, (Prod.mk.inj hline).1, (Prod.mk.inj hline).2, hbelow, hrest, hbelow'⟩

theorem Defines.mono {s t : Scopes} {scope : ScopeId} {entries : List (String × Int64)}
    {lines : List Line} (h : Defines s scope entries lines) (hst : s.Extends t) :
    Defines t scope entries lines :=
  ⟨h.parts, fun line hline => hst.below (h.below line hline)⟩

theorem literalValue_rename (f : ScopeId → ScopeId) (v : Int64) :
    (literalValue v).rename f = literalValue v := by
  unfold literalValue
  split
  · rfl
  · rfl

section

variable {files : FileStatements} {scope : ScopeId} {reader : Reader}
  {entries : List (String × Int64)}

/-- Lines of a listing whose names are words are read one after the other, and nothing happens to the
    scopes that are there. -/
theorem exists_readItems_eq_ok (files : FileStatements) (scope : ScopeId) {fuel : Nat}
    (hstopped : reader.stopped = false)
    (hremaining : reader.remaining = entries.map fun entry => definition entry.1 entry.2)
    (hwords : ∀ entry ∈ entries, Text.IsWord entry.1) (hfuel : entries.length < fuel)
    (st : Loading) :
    ∃ body st' lines, readItems files fuel scope [] reader st = .ok body st' ∧
      body.items = lines.map (Item.plain · .equ) ∧ Defines st'.scopes scope entries lines ∧
      ∀ id node, st.scopes.get? id = some node → st'.scopes.get? id = some node := by
  obtain ⟨fuel, rfl⟩ := Nat.exists_eq_succ_of_ne_zero (Nat.ne_of_gt (Nat.zero_lt_of_lt hfuel))
  induction entries generalizing fuel reader st with
  | nil =>
    have hnext : reader.next scope = .ok none := by
      rw [Reader.next, hstopped, hremaining]
      rfl
    refine ⟨⟨[], none, reader⟩, st.withLine scope, [], readItems_nil hnext st, rfl,
      ⟨rfl, List.forall_mem_nil _⟩, ?_⟩
    intro id node hnode
    exact Scopes.get?_create_of_some hnode
  | cons entry rest ih =>
    obtain ⟨name, v⟩ := entry
    obtain ⟨hword, hrest⟩ := List.forall_mem_cons.mp hwords
    obtain ⟨line, hnext, hlabel, hmnemonic, harguments, hscope⟩ :=
      Reader.next_definition hstopped hremaining hword st.scopes.fresh
    have hdirective : line.directive? = some .equ := by
      rw [Line.directive?, Line.directiveKey?, hmnemonic]
      rfl
    have hrole : Directive.role? line.directive? = some .equ := by
      rw [hdirective]
      rfl
    have hless := Nat.lt_of_succ_lt_succ hfuel
    obtain ⟨fuel, rfl⟩ := Nat.exists_eq_succ_of_ne_zero (Nat.ne_of_gt (Nat.zero_lt_of_lt hless))
    obtain ⟨body, st', lines, hread, hitems, hdefines, hkept⟩ :=
      @ih { reader with
          remaining := rest.map fun entry => definition entry.1 entry.2
          number := reader.number + 1 } hstopped rfl hrest (st.withLine scope) fuel hless
    refine ⟨body.prepend [.plain (line.inScope st.scopes.fresh) .equ], st',
      line.inScope st.scopes.fresh :: lines, ?_, ?_, ⟨?_, ?_⟩, ?_⟩
    · rw [readItems_own hnext hrole, bind_apply_of_ok hread]
      rfl
    · rw [Body.prepend, hitems]
      rfl
    · have hline : ((line.inScope st.scopes.fresh).label, (line.inScope st.scopes.fresh).arguments) =
          (some name, some (literalValue v)) := by
        rw [Line.inScope, hlabel, harguments, Option.map_some, literalValue_rename]
      rw [List.map_cons, List.map_cons, hdefines.parts, hline]
    · refine List.forall_mem_cons.mpr ⟨?_, hdefines.below⟩
      obtain ⟨node, hnode, hparent⟩ := st.scopes.below_create scope
      exact ⟨node, hkept _ _ hnode, hparent⟩
    · intro id node hnode
      exact hkept id node (Scopes.get?_create_of_some hnode)

/-- Where reading gets through, no name has an apostrophe. -/
theorem apostrophe_notMem_of_readItems {fuel : Nat} {body : Body} {st st' : Loading}
    (hstopped : reader.stopped = false)
    (hremaining : reader.remaining = entries.map fun entry => definition entry.1 entry.2)
    (hnames : ∀ entry ∈ entries, Text.IsFullName entry.1)
    (hfuel : entries.length < fuel)
    (h : readItems files fuel scope [] reader st = .ok body st') :
    ∀ entry ∈ entries, '\'' ∉ entry.1.toList := by
  induction entries generalizing fuel reader st body st' with
  | nil => exact List.forall_mem_nil _
  | cons entry rest ih =>
    obtain ⟨name, v⟩ := entry
    obtain ⟨hname, hrest⟩ := List.forall_mem_cons.mp hnames
    obtain ⟨fuel, rfl⟩ := Nat.exists_eq_succ_of_ne_zero (Nat.ne_of_gt (Nat.zero_lt_of_lt hfuel))
    by_cases hmem : '\'' ∈ name.toList
    · obtain ⟨failure, hnext⟩ :=
        Reader.exists_next_eq_error hstopped hremaining hname hmem st.scopes.fresh
      rw [readItems] at h
      obtain ⟨lineScope, st₁, hcreate, h⟩ := bind_eq_ok.mp h
      obtain ⟨rfl, -⟩ := Load.createScope_eq_ok.mp hcreate
      rw [hnext] at h
      simp at h
    · refine List.forall_mem_cons.mpr ⟨hmem, ?_⟩
      obtain ⟨line, hnext, -, hmnemonic, -, -⟩ :=
        Reader.next_definition hstopped hremaining (hname.isWord hmem) st.scopes.fresh
      have hrole : Directive.role? line.directive? = some .equ := by
        rw [Line.directive?, Line.directiveKey?, hmnemonic]
        rfl
      rw [readItems_own hnext hrole] at h
      obtain ⟨inner, st₁, hread, -⟩ := bind_eq_ok.mp h
      refine ih ?_ ?_ hrest (Nat.lt_of_succ_lt_succ hfuel) hread
      · exact hstopped
      · rfl

variable {text : String} {file : Option String} {outer : List Site}
  (htext : Text.lines text = entries.map fun entry => definition entry.1 entry.2)

include htext

theorem length_lt_of_lines : entries.length < (Reader.ofText text file outer).remaining.length + 1 := by
  show _ < (Text.lines text).length + 1
  rw [htext, List.length_map]
  exact Nat.lt_succ_self _

theorem exists_readItemsOf_eq_ok (files : FileStatements) (file : Option String) (outer : List Site)
    (scope : ScopeId) (hwords : ∀ entry ∈ entries, Text.IsWord entry.1) (st : Loading) :
    ∃ lines st', readItemsOf files text file outer scope st =
        .ok (lines.map (Item.plain · .equ)) st' ∧
      Defines st'.scopes scope entries lines ∧
      ∀ id node, st.scopes.get? id = some node → st'.scopes.get? id = some node := by
  have hstopped : (Reader.ofText text file outer).stopped = false := rfl
  obtain ⟨body, st', lines, hread, hitems, hdefines, hkept⟩ :=
    exists_readItems_eq_ok files scope hstopped htext hwords (length_lt_of_lines htext) st
  refine ⟨lines, st', ?_, hdefines, hkept⟩
  rw [readItemsOf, bind_apply_of_ok hread, ← hitems]
  rfl

theorem apostrophe_notMem_of_readItemsOf {items : List Item} {st st' : Loading}
    (hnames : ∀ entry ∈ entries, Text.IsFullName entry.1)
    (h : readItemsOf files text file outer scope st = .ok items st') :
    ∀ entry ∈ entries, '\'' ∉ entry.1.toList := by
  obtain ⟨body, st₁, hread, -⟩ := bind_eq_ok.mp h
  have hstopped : (Reader.ofText text file outer).stopped = false := rfl
  exact apostrophe_notMem_of_readItems hstopped htext hnames (length_lt_of_lines htext) hread

end

/-! ## Bindings -/

/-- A name can be bound in a scope that does not bind it. -/
theorem Scopes.exists_add_eq_ok {s : Scopes} {id : ScopeId} {node : Scope} {name : String}
    (hnode : s.get? id = some node) (hname : name.isEmpty = false) (value : Expr) :
    (∃ t, s.add id name value = .ok t) ↔ name ∉ node.bindings.map Binding.name := by
  have hbound : node.bindings.any (·.name == name) = true ↔
      name ∈ node.bindings.map Binding.name := by
    simp [List.any_eq_true, List.mem_map]
  rw [Scopes.add_eq, hname, hnode, ← hbound]
  by_cases hany : node.bindings.any (·.name == name) = true
  · simp [hany]
  · simp [hany]

theorem Scopes.exists_get?_of_add {s t : Scopes} {id : ScopeId} {node : Scope} {name : String}
    {value : Expr} (hnode : s.get? id = some node) (h : s.add id name value = .ok t)
    (other : ScopeId) :
    ∃ node', (t.markRegistered other).get? id = some node' ∧
      node'.bindings.map Binding.name = name :: node.bindings.map Binding.name := by
  obtain ⟨scope, hscope, -, rfl⟩ := Scopes.add_eq_ok h
  rw [hnode] at hscope
  cases hscope
  have hbind : (s.bind id name value).get? id =
      some { node with bindings := ⟨name, value, s.serial + 1⟩ :: node.bindings } := by
    show (s.modify id _).get? id = _
    rw [Scopes.get?_modify, if_pos rfl, hnode]
    rfl
  rw [Scopes.markRegistered, Scopes.get?_modify, hbind]
  split
  · exact ⟨_, rfl, rfl⟩
  · exact ⟨_, rfl, rfl⟩

theorem Scopes.Binds.integer_ident {s : Scopes} {id : ScopeId} {name : String} {value : Expr}
    (h : s.Binds id name value) :
    (Expr.ident name id).integer s = integerAt s s.scopeOf maxDepth value := by
  obtain ⟨scope, binding, hscope, hbinding, rfl⟩ := h
  have hfind : scope.find? name none = some binding.value := by
    rw [Scope.find?, show scope.bindings.find? (·.name == name) = some binding from hbinding]
    rfl
  have hinside : s.lookupInside s.scopeOf (maxDepth + 1) id name none = some binding.value := by
    rw [Scopes.lookupInside, hscope]
    dsimp only
    rw [hfind]
    rfl
  obtain ⟨fuel, hfuel⟩ : ∃ fuel, s.size = fuel + 1 := by
    have hlt : id.index < s.size := by
      rw [Scopes.get?, Array.getElem?_eq_some_iff] at hscope
      exact hscope.1
    exact ⟨s.size - 1, by omega⟩
  have hsymbol : s.symbol? s.scopeOf id name = some binding.value := by
    rw [Scopes.symbol?, hfuel, Scopes.outward, hscope, List.findSome?_cons]
    dsimp only
    rw [hinside]
  rw [Expr.integer, integerAt, symbolValue, hsymbol]
  rfl

namespace Assembly

variable {s s' : Session} {scope : ScopeId}

theorem registerItem_definition {line : Line} {name : String} {value : Expr}
    (hlabel : line.label = some name) (harguments : line.arguments = some value)
    (hbelow : s.scopes.Below line.scope scope) :
    registerItem (.plain line .equ) s = .ok () s' ↔
      ∃ scopes, s.scopes.add scope name value = .ok scopes ∧
        s' = { s with scopes := scopes.markRegistered line.scope } := by
  rw [registerItem_equ, hlabel, harguments, hbelow.parent_eq]
  constructor
  · rintro ⟨_, _, _, scopes, ⟨⟩, ⟨⟩, ⟨⟩, hadd, rfl⟩
    exact ⟨scopes, hadd, rfl⟩
  · rintro ⟨scopes, hadd, rfl⟩
    exact ⟨name, value, scope, scopes, rfl, rfl, rfl, hadd, rfl⟩

/-- Definitions are bound one after the other, if no name is defined twice or bound before. -/
theorem exists_register_eq_ok {entries : List (String × Int64)} {lines : List Line} {node : Scope}
    (hdefines : Defines s.scopes scope entries lines) (hnode : s.scopes.get? scope = some node)
    (hwords : ∀ entry ∈ entries, Text.IsWord entry.1) :
    (∃ s', register (lines.map (Item.plain · .equ)) s = .ok () s') ↔
      (entries.map Prod.fst).Nodup ∧
        ∀ entry ∈ entries, entry.1 ∉ node.bindings.map Binding.name := by
  induction entries generalizing lines s node with
  | nil =>
    cases List.map_eq_nil_iff.mp hdefines.parts
    exact ⟨fun _ => ⟨List.nodup_nil, List.forall_mem_nil _⟩, fun _ => ⟨s, rfl⟩⟩
  | cons entry entries ih =>
    obtain ⟨hword, hrest⟩ := List.forall_mem_cons.mp hwords
    obtain ⟨line, rest, rfl, hlabel, harguments, hbelow, hbehind⟩ := hdefines.uncons
    have hadd := Scopes.exists_add_eq_ok hnode hword.isEmpty_eq_false (literalValue entry.2)
    -- Once the first is bound, the others must not have its name.
    have hstep : ∀ {t : Scopes}, s.scopes.add scope entry.1 (literalValue entry.2) = .ok t →
        ((∃ s', register (rest.map (Item.plain · .equ))
          { s with scopes := t.markRegistered line.scope } = .ok () s') ↔
          (entries.map Prod.fst).Nodup ∧
            ∀ other ∈ entries, other.1 ∉ entry.1 :: node.bindings.map Binding.name) := by
      intro t ht
      obtain ⟨node', hnode', hbound⟩ := Scopes.exists_get?_of_add hnode ht line.scope
      rw [← hbound]
      refine ih (hbehind.mono ?_) hnode' hrest
      exact (Scopes.extends_add ht).trans (Scopes.extends_markRegistered _ _)
    constructor
    · rintro ⟨s', h⟩
      rw [List.map_cons, register] at h
      obtain ⟨_, s₁, hitem, hregister⟩ := bind_eq_ok.mp h
      obtain ⟨t, ht, rfl⟩ := (registerItem_definition hlabel harguments hbelow).mp hitem
      obtain ⟨hnodup, hfree⟩ := (hstep ht).mp ⟨s', hregister⟩
      refine ⟨?_, List.forall_mem_cons.mpr ⟨hadd.mp ⟨t, ht⟩, fun other hother hmem => ?_⟩⟩
      · rw [List.map_cons, List.nodup_cons]
        refine ⟨fun hmem => ?_, hnodup⟩
        obtain ⟨other, hother, heq⟩ := List.mem_map.mp hmem
        exact hfree other hother (heq ▸ List.mem_cons_self)
      · exact hfree other hother (List.mem_cons_of_mem _ hmem)
    · rintro ⟨hnodup, hfree⟩
      rw [List.map_cons, List.nodup_cons] at hnodup
      obtain ⟨hentry, hothers⟩ := List.forall_mem_cons.mp hfree
      obtain ⟨t, ht⟩ := hadd.mpr hentry
      obtain ⟨s', hregister⟩ := (hstep ht).mpr ⟨hnodup.2, fun other hother hmem => by
        rcases List.mem_cons.mp hmem with heq | hmem
        · exact hnodup.1 (List.mem_map.mpr ⟨other, hother, heq⟩)
        · exact hothers other hother hmem⟩
      refine ⟨s', bind_eq_ok.mpr ⟨(), _, ?_, hregister⟩⟩
      exact (registerItem_definition hlabel harguments hbelow).mpr ⟨t, ht, rfl⟩

theorem register_binds {entries : List (String × Int64)} {lines : List Line}
    (hdefines : Defines s.scopes scope entries lines)
    (h : register (lines.map (Item.plain · .equ)) s = .ok () s') :
    ∀ entry ∈ entries, s'.scopes.Binds scope entry.1 (literalValue entry.2) := by
  induction entries generalizing lines s with
  | nil => exact List.forall_mem_nil _
  | cons entry entries ih =>
    obtain ⟨line, rest, rfl, hlabel, harguments, hbelow, hbehind⟩ := hdefines.uncons
    rw [List.map_cons, register] at h
    obtain ⟨_, s₁, hitem, hregister⟩ := bind_eq_ok.mp h
    obtain ⟨t, ht, rfl⟩ := (registerItem_definition hlabel harguments hbelow).mp hitem
    have hmarked := Scopes.extends_markRegistered t line.scope
    have hbound : (t.markRegistered line.scope).Binds scope entry.1 (literalValue entry.2) :=
      hmarked.binds (Scopes.add_binds ht)
    refine List.forall_mem_cons.mpr ⟨?_, ?_⟩
    · exact (advances_register _ hregister).scopes.binds hbound
    · exact ih (hbehind.mono ((Scopes.extends_add ht).trans hmarked)) hregister

/-- A text of definitions is read into a scope that binds nothing but `$`. -/
theorem exists_loadText_eq_ok {text : String} {entries : List (String × Int64)}
    (htext : Text.lines text = entries.map fun entry => definition entry.1 entry.2)
    (hwords : ∀ entry ∈ entries, Text.IsWord entry.1) (s : Session) :
    ∃ lines t node, loadText text s =
        .ok { scope := s.scopes.fresh, items := lines.map (Item.plain · .equ) } t ∧
      Defines t.scopes s.scopes.fresh entries lines ∧
      t.scopes.get? s.scopes.fresh = some node ∧ node.bindings.map Binding.name = [selfName] := by
  obtain ⟨lines, st', hread, hdefines, hkept⟩ :=
    exists_readItemsOf_eq_ok htext
      (s.library.statements "" (s.library.readFile s.library.maxNesting)) none [] s.scopes.fresh
      hwords { scopes := (s.scopes.create (some s.builtins)).2, loaded := s.loaded }
  have hnode : (s.scopes.create (some s.builtins)).2.get? s.scopes.fresh =
      some { parent := some s.builtins, bindings := [⟨selfName, .context s.scopes.fresh, 0⟩] } := by
    rw [Scopes.get?_create, if_pos rfl]
  let created : Session := { s with scopes := (s.scopes.create (some s.builtins)).2 }
  refine ⟨lines, { created with scopes := st'.scopes, loaded := st'.loaded },
    { parent := some s.builtins, bindings := [⟨selfName, .context s.scopes.fresh, 0⟩] }, ?_,
    hdefines, hkept _ _ hnode, rfl⟩
  have hload : load (fun library => library.readText text s.scopes.fresh) created =
      .ok (lines.map (Item.plain · .equ))
        { created with scopes := st'.scopes, loaded := st'.loaded } :=
    load_eq_ok.mpr ⟨st', hread, rfl⟩
  rw [loadText, get_bind_apply, bind_apply_of_ok (createScope_eq_ok.mpr ⟨rfl, rfl⟩),
    bind_apply_of_ok hload]
  rfl

theorem apostrophe_notMem_of_loadText {text : String} {entries : List (String × Int64)}
    {source : Source} (htext : Text.lines text = entries.map fun entry => definition entry.1 entry.2)
    (hnames : ∀ entry ∈ entries, Text.IsFullName entry.1)
    (h : loadText text s = .ok source s') : ∀ entry ∈ entries, '\'' ∉ entry.1.toList := by
  simp only [loadText, bind_eq_ok, get_eq_ok, pure_eq_ok] at h
  obtain ⟨_, _, ⟨rfl, rfl⟩, scope, s₁, hcreate, items, s₂, hload, rfl, rfl⟩ := h
  obtain ⟨st, hread, -⟩ := load_eq_ok.mp hload
  exact apostrophe_notMem_of_readItemsOf htext hnames hread

/-- A text of definitions can be read and bound if and only if no name is defined twice or has an
    apostrophe. Then every name stands for its number. -/
theorem loadRegistered_definitions {text : String} {entries : List (String × Int64)}
    (htext : Text.lines text = entries.map fun entry => definition entry.1 entry.2)
    (hnames : ∀ entry ∈ entries, Text.IsFullName entry.1)
    (s : Session) :
    ((∃ source t, loadRegistered text s = .ok source t) ↔
      (entries.map Prod.fst).Nodup ∧ ∀ entry ∈ entries, '\'' ∉ entry.1.toList) ∧
    ∀ source t, loadRegistered text s = .ok source t →
      ∀ entry ∈ entries, (Expr.ident entry.1 source.scope).integer t.scopes = .ok entry.2 := by
  have hwords : (∀ entry ∈ entries, '\'' ∉ entry.1.toList) →
      ∀ entry ∈ entries, Text.IsWord entry.1 :=
    fun hplain entry hentry => (hnames entry hentry).isWord (hplain entry hentry)
  have hfree : ∀ {node : Scope}, node.bindings.map Binding.name = [selfName] →
      (∀ entry ∈ entries, Text.IsWord entry.1) →
        ∀ entry ∈ entries, entry.1 ∉ node.bindings.map Binding.name := by
    intro node hnode hwords entry hentry hmem
    rw [hnode] at hmem
    exact (hwords entry hentry).ne_selfName (List.mem_singleton.mp hmem)
  have hsplit : ∀ {source t}, loadRegistered text s = .ok source t →
      ∃ s₁, loadText text s = .ok source s₁ ∧ register source.items s₁ = .ok () t := by
    intro source t h
    obtain ⟨source', s₁, hload, h⟩ := bind_eq_ok.mp h
    obtain ⟨_, s₂, hregister, h⟩ := bind_eq_ok.mp h
    obtain ⟨rfl, rfl⟩ := pure_eq_ok.mp h
    exact ⟨s₁, hload, hregister⟩
  refine ⟨⟨?_, ?_⟩, ?_⟩
  · rintro ⟨source, t, h⟩
    obtain ⟨s₁, hload, hregister⟩ := hsplit h
    have hplain := apostrophe_notMem_of_loadText htext hnames hload
    obtain ⟨lines, s₂, node, hload', hdefines, hnode, -⟩ :=
      exists_loadText_eq_ok htext (hwords hplain) s
    rw [hload'] at hload
    cases hload
    exact ⟨((exists_register_eq_ok hdefines hnode (hwords hplain)).mp ⟨t, hregister⟩).1, hplain⟩
  · rintro ⟨hnodup, hplain⟩
    obtain ⟨lines, s₁, node, hload, hdefines, hnode, hbound⟩ :=
      exists_loadText_eq_ok htext (hwords hplain) s
    obtain ⟨t, hregister⟩ := (exists_register_eq_ok hdefines hnode (hwords hplain)).mpr
      ⟨hnodup, hfree hbound (hwords hplain)⟩
    exact ⟨_, t, bind_eq_ok.mpr ⟨_, _, hload, bind_eq_ok.mpr ⟨_, _, hregister, rfl⟩⟩⟩
  · intro source t h entry hentry
    obtain ⟨s₁, hload, hregister⟩ := hsplit h
    have hplain := apostrophe_notMem_of_loadText htext hnames hload
    obtain ⟨lines, s₂, node, hload', hdefines, -, -⟩ :=
      exists_loadText_eq_ok htext (hwords hplain) s
    rw [hload'] at hload
    cases hload
    rw [(register_binds hdefines hregister entry hentry).integer_ident]
    exact integer_literalValue _ _ _ _

/-- **Reading a listing back.** The listing of a program is one definition after the other. It can
    be read and bound in a new session if and only if all full names in it are different and none
    has an apostrophe, and then every name stands for the number that the symbol has in the old
    session.

    What is listed has a number within the bounds of evaluation. Wherever evaluation ends, that is
    to have a number at all (`Scopes.Counted.mem_numbered_iff`). -/
theorem loadRegistered_listing {library : Library} {sources : List Source} {source : Source}
    {program : Program} {s t : Session} (hs : s.Arises library sources) (hsource : source ∈ sources)
    (hassemble : assemble source s = .ok program t) (other : Library) :
    Text.lines (t.scopes.listing program.scope) =
        (t.scopes.numbered program.scope).map (fun entry => definition entry.1 entry.2) ∧
      ((∃ again u, loadRegistered (t.scopes.listing program.scope) (Session.new other) =
          .ok again u) ↔
        ((t.scopes.numbered program.scope).map Prod.fst).Nodup ∧
          ∀ entry ∈ t.scopes.numbered program.scope, '\'' ∉ entry.1.toList) ∧
      ∀ again u, loadRegistered (t.scopes.listing program.scope) (Session.new other) =
          .ok again u →
        ∀ entry ∈ t.scopes.numbered program.scope,
          (Expr.ident entry.1 again.scope).integer u.scopes = .ok entry.2 := by
  obtain ⟨_, _, _, _, -, -, -, hscope, -, -, -⟩ := phases_of_assemble hassemble
  rw [hscope]
  have hrooted : t.Rooted source.scope := (hs.planted.assemble hsource hassemble).rooted _ hsource
  have hnames : ∀ entry ∈ t.scopes.numbered source.scope, Text.IsFullName entry.1 :=
    fun entry hentry => hrooted.scopes.isFullName hentry
  have hlines : Text.lines (t.scopes.listing source.scope) =
      (t.scopes.numbered source.scope).map fun entry => definition entry.1 entry.2 := by
    rw [Scopes.listing_eq]
    exact lines_listing fun entry hentry => (hnames entry hentry).newline_notMem
  exact ⟨hlines, loadRegistered_definitions hlines hnames _⟩

/-- Reads and assembles a source, and keeps what was there between the two. -/
def assembled (origin : Origin) : Assembly (Source × Session × Program) := do
  let source ← origin.load
  let loaded ← get
  let program ← assemble source
  return (source, loaded, program)

theorem assembled_eq_ok {origin : Origin} {run : Source × Session × Program}
    (h : assembled origin s = .ok run s') :
    origin.load s = .ok run.1 run.2.1 ∧ assemble run.1 run.2.1 = .ok run.2.2 s' := by
  simp only [assembled, bind_eq_ok, get_eq_ok, pure_eq_ok] at h
  obtain ⟨source, loaded, hload, _, _, ⟨rfl, rfl⟩, program, _, hassemble, rfl, rfl⟩ := h
  exact ⟨hload, hassemble⟩

/-- The label `b` inside `a` and the label `a.b` beside it have the same full name, so the listing
    cannot be read back. With another label in the place of `a.b` it can. -/
theorem loadRegistered_listing_clash :
    (∃ source program s t,
      (Origin.text "a: proc\nb: equ 1\n endp\na.b: equ 2\n").load (Session.new {}) =
        .ok source s ∧
      assemble source s = .ok program t ∧
      ¬ ∃ again u, loadRegistered (t.scopes.listing program.scope) (Session.new {}) =
        .ok again u) ∧
    ∃ source program s t again u,
      (Origin.text "a: proc\nb: equ 1\n endp\na.c: equ 2\n").load (Session.new {}) =
        .ok source s ∧
      assemble source s = .ok program t ∧
      loadRegistered (t.scopes.listing program.scope) (Session.new {}) = .ok again u ∧
      (Expr.ident "a.b" again.scope).integer u.scopes = .ok 1 ∧
      (Expr.ident "a.c" again.scope).integer u.scopes = .ok 2 := by
  constructor
  · have hpasses : passes (fun run t => !t.scopes.namesApart run.2.2.scope)
        (assembled (.text "a: proc\nb: equ 1\n endp\na.b: equ 2\n") (Session.new {})) = true := by
      decide +kernel
    obtain ⟨⟨source, s, program⟩, t, hrun, htest⟩ := eq_ok_of_passes hpasses
    obtain ⟨hload, hassemble⟩ := assembled_eq_ok hrun
    refine ⟨source, program, s, t, hload, hassemble, ?_⟩
    rw [(loadRegistered_listing (.load .new hload) List.mem_cons_self hassemble _).2.1,
      ← Scopes.namesApart_iff]
    simpa using htest
  · have hpasses : passes (fun run t => t.scopes.namesApart run.2.2.scope &&
          (t.scopes.gathered run.2.2.scope).contains ("a.b", 1) &&
          (t.scopes.gathered run.2.2.scope).contains ("a.c", 2))
        (assembled (.text "a: proc\nb: equ 1\n endp\na.c: equ 2\n") (Session.new {})) = true := by
      decide +kernel
    obtain ⟨⟨source, s, program⟩, t, hrun, htest⟩ := eq_ok_of_passes hpasses
    obtain ⟨hload, hassemble⟩ := assembled_eq_ok hrun
    obtain ⟨-, hreads, hnumbers⟩ :=
      loadRegistered_listing (.load .new hload) List.mem_cons_self hassemble {}
    simp only [Bool.and_eq_true, List.contains_iff_mem,
      ← (Scopes.numbered_perm program.scope).mem_iff] at htest
    obtain ⟨⟨hapart, hb⟩, hc⟩ := htest
    obtain ⟨again, u, hagain⟩ := hreads.mpr (Scopes.namesApart_iff.mp hapart)
    refine ⟨source, program, s, t, again, u, hload, hassemble, hagain, ?_, ?_⟩
    · exact hnumbers again u hagain ("a.b", 1) hb
    · exact hnumbers again u hagain ("a.c", 2) hc

end Assembly

end Z80Asm
