import Z80Asm.Proofs.Program.Bodies
import Z80Asm.Proofs.Program.Emission
import Z80Asm.Proofs.Program.Placing
import Z80Asm.Proofs.Program.Relisting
import Z80Asm.Proofs.Program.Runs

/-!
# Labels are addresses

A label is bound in the scope around its line, before its line is expanded and placed. Unless the
line is an `EQU` or a `MACRO` it is bound to the scope of the line (`Item.Located`), and the address
of that scope is set once, when the line is placed. Between the two the line is carried along: what
is bound stays bound, so all that is needed of expanding is that each line it gives was registered
on the way (`Expands.located`).

Which labels are addresses can be told from the text of the line. Items need a label only if their
line is an `EQU` or a `MACRO` (`Item.Overt`), and this is kept when bodies are copied, also those of
macros that wait in the session.

The address is read in the last arena, where all are set. Before that, a label has no number and can
still be resolved, which is why planning works.
-/
set_option autoImplicit false

namespace Z80Asm

open Success

/-! ## Items that say what they are -/

/-- `EQU` and `MACRO` lines, whose labels have a value of their own. -/
def Line.Defines (line : Line) : Prop :=
  line.directive? = some .equ ∨ line.directive? = some (.opens .template)

instance (line : Line) : Decidable line.Defines :=
  inferInstanceAs (Decidable (_ ∨ _))

mutual

/-- The item, and each item inside it, needs a label only if its line defines a value. -/
def Item.Overt : Item → Prop
  | .plain line role => role = .equ → line.Defines
  | .block line kind body => (kind = .template → line.Defines) ∧ AllOvert body
  | .choice _ onTrue onFalse => AllOvert onTrue ∧ AllOvert onFalse

def AllOvert : List Item → Prop
  | [] => True
  | item :: rest => item.Overt ∧ AllOvert rest

end

theorem AllOvert.append {items others : List Item} (h : AllOvert items) (h' : AllOvert others) :
    AllOvert (items ++ others) := by
  induction items with
  | nil => exact h'
  | cons item rest ih => exact ⟨h.1, ih h.2⟩

theorem allOvert_iff {items : List Item} : AllOvert items ↔ ∀ item ∈ items, item.Overt := by
  induction items with
  | nil => simp [AllOvert]
  | cons item rest ih => rw [AllOvert, List.forall_mem_cons, ih]

theorem AllOvert.of_mem {items : List Item} {item : Item} (h : AllOvert items) (hitem : item ∈ items) :
    item.Overt :=
  allOvert_iff.mp h item hitem

theorem Item.Overt.defines {item : Item} (h : item.Overt) (hrequires : item.requiresLabel = true) :
    item.line.Defines := by
  unfold Item.requiresLabel at hrequires
  split at hrequires
  · exact h rfl
  · exact h.1 rfl
  · cases hrequires

theorem Item.Overt.withOperation {item : Item} (h : item.Overt) (op : Operation) :
    (item.withOperation op).Overt := by
  cases item with
  | plain line role => exact h
  | block line kind body => exact h
  | choice line onTrue onFalse => exact h

/-- The directive of a line decides which item it becomes. -/
theorem Library.Reads.overt {lib : Library} {file : Option String} {outer : List Site}
    {scope : ScopeId} {s t : Scopes} {items : List Item}
    (h : lib.Reads file outer scope s items t) : AllOvert items := by
  induction h with
  | nil => trivial
  | unused => trivial
  | append _ _ ih ih' => exact ih.append ih'
  | plain _ hrole => exact ⟨fun hequ => .inl (hrole hequ), trivial⟩
  | splice _ _ _ ih => exact ⟨Role.noConfusion, ih⟩
  | block _ hkind _ ih =>
    refine ⟨⟨?_, ih⟩, trivial⟩
    rintro rfl
    exact .inr hkind
  | choice _ _ _ ih ih' => exact ⟨⟨ih, ih'⟩, trivial⟩

theorem Origin.load_overt {origin : Origin} {source : Source} {s s' : Session}
    (h : origin.load s = .ok source s') :
    AllOvert source.items ∧ s'.templates = s.templates := by
  obtain ⟨-, hlast, hreads⟩ := Origin.load_reads h
  rw [hlast]
  exact ⟨hreads.overt, rfl⟩

/-! ## Copies -/

mutual

theorem Item.copy_overt (site : Position) : ∀ (item : Item) (c : Copying),
    item.Overt → ((item.copy site).run c).1.Overt
  | .plain _ _, _, h => h
  | .block _ _ body, _, h => ⟨h.1, copyItems_overt site body _ h.2⟩
  | .choice _ onTrue onFalse, _, h =>
    ⟨copyItems_overt site onTrue _ h.1, copyItems_overt site onFalse _ h.2⟩

/-- Copies have the mnemonics of their originals. -/
theorem copyItems_overt (site : Position) : ∀ (items : List Item) (c : Copying),
    AllOvert items → AllOvert ((copyItems site items).run c).1
  | [], _, _ => trivial
  | item :: rest, _, h => ⟨Item.copy_overt site item _ h.1, copyItems_overt site rest _ h.2⟩

end

/-- The bodies of all macros consist of such items. -/
def Session.Overt (s : Session) : Prop :=
  ∀ template ∈ s.templates, AllOvert template.body

namespace Assembly

variable {s s' : Session}

/-- A macro is kept with the body of its item. -/
theorem overt_register (items : List Item) (h : AllOvert items) :
    Guards Session.Overt (register items) := by
  refine moves_register (fun h _ => h.2.of_mem) (fun {item} hitem => moves_bindLabel (fun label =>
    moves_labelValue (fun _ hs => hs) ?_) (fun _ _ _ _ _ _ _ hs => hs) fun _ hs => hs) items
      fun _ => h.of_mem
  rintro line body rfl parameters - s hs template htemplate
  rcases Array.mem_push.mp htemplate with hold | rfl
  · exact hs template hold
  · exact hitem.2

theorem Instantiates.overt {site : Position} {body items : List Item}
    (h : Instantiates site body s items s') (hs : s.Overt) (hbody : AllOvert body) :
    s'.Overt ∧ ∀ item ∈ items, item.Overt := by
  obtain ⟨hsession, scopes, template, target, rfl⟩ := h
  rw [hsession]
  exact ⟨hs, fun _ => (copyItems_overt _ _ _ hbody).of_mem⟩

theorem expanding_overt :
    Expanding Session.Overt (fun _ => Item.Overt) (fun _ _ _ => True) Item.Overt where
  withOperation op h := h.withOperation op
  block h _ := h.2.of_mem
  choice h _ := (h.1.append h.2).of_mem
  register h hs hitems := overt_register _ (allOvert_iff.mpr hitems) h hs
  invocation htemplate hopen hs _ := (openInvocation_instantiates hopen).overt hs (hs _ htemplate)
  iteration hopen hs h _ := (openIteration_instantiates hopen).overt hs h.2
  park hs := hs
  line h := h
  marker _ heq := Role.noConfusion heq

/-- The lines that expanding gives say what they are. -/
theorem Expands.overt {items lines sent : List Item} (h : Expands (.items items) s lines sent s')
    (hs : s.Overt) (hitems : AllOvert items) : s'.Overt ∧ AllOvert lines ∧ AllOvert sent := by
  obtain ⟨_, _, _, _, h, rfl, rfl⟩ := h
  obtain ⟨hs', hall⟩ := expanding_overt.keeps h hs fun _ => hitems.of_mem
  obtain ⟨hlines, hsent⟩ := List.forall_mem_append.mp hall
  exact ⟨hs', allOvert_iff.mpr (List.forall_mem_map.mpr hlines),
    allOvert_iff.mpr (List.forall_mem_map.mpr hsent)⟩

/-! ## Labels that are bound -/

end Assembly

/-- The label of the item, unless it needs one, is bound around the line to the scope of the line. -/
def Item.Located (s : Scopes) (item : Item) : Prop :=
  item.requiresLabel = false → ∀ label ∈ item.line.label, ∃ parent value,
    s.parent? item.line.scope = some parent ∧ s.Binds parent label value ∧
      value.contextScope? = some item.line.scope

theorem Item.Located.extends {s t : Scopes} {item : Item} (h : item.Located s)
    (hst : s.Extends t) : item.Located t := by
  intro hrequires label hlabel
  obtain ⟨parent, value, hparent, hbinds, hvalue⟩ := h hrequires label hlabel
  refine ⟨parent, value, ?_, hst.binds hbinds, hvalue⟩
  rw [hst.parent?_eq (Scopes.index_lt_of_parent? hparent)]
  exact hparent

theorem Item.Located.withOperation {item : Item} {t : Scopes} (h : item.Located t) (op : Operation) :
    (item.withOperation op).Located t := by
  have hsame : (item.withOperation op).requiresLabel = item.requiresLabel := by
    cases item with
    | plain line role => cases role <;> rfl
    | block line kind body => cases kind <;> rfl
    | choice line onTrue onFalse => rfl
  intro hrequires label hlabel
  rw [hsame] at hrequires
  cases item with
  | plain line role => exact h hrequires label hlabel
  | block line kind body => exact h hrequires label hlabel
  | choice line onTrue onFalse => exact h hrequires label hlabel

namespace Assembly

variable {s s' : Session}

theorem labelValue_context {label : String} {item : Item} {value : Expr}
    (h : labelValue label item s = .ok value s') (hrequires : item.requiresLabel = false) :
    value.contextScope? = some item.line.scope := by
  unfold labelValue at h
  split at h
  · cases hrequires
  · obtain ⟨space, s₁, -, hlast⟩ := bind_eq_ok.mp h
    obtain ⟨rfl, -⟩ := pure_eq_ok.mp hlast
    rfl
  · cases hrequires
  · obtain ⟨rfl, -⟩ := pure_eq_ok.mp h
    rfl

theorem bindLabel_located {item : Item} {u : Unit} (h : bindLabel item s = .ok u s') :
    item.Located s'.scopes := by
  intro hrequires label hlabel
  have hgrowth := (advances_bindLabel item h).scopes
  rcases bindLabel_eq_ok.mp h with ⟨hnone, -⟩ |
      ⟨_, value, t, parent, scopes, hsome, hvalue, hparent, hadd, rfl⟩
  · cases hnone.symm.trans hlabel
  · cases hsome.symm.trans hlabel
    refine ⟨parent, value, ?_, (Scopes.add_binds hadd).modify fun _ => rfl,
      labelValue_context hvalue hrequires⟩
    rw [hgrowth.parent?_eq (Scopes.index_lt_of_parent? hparent)]
    exact hparent

theorem bindLabels_located {items : List Item} {u : Unit} (h : bindLabels items s = .ok u s') :
    ∀ item ∈ items, item.Located s'.scopes := by
  induction items generalizing s with
  | nil => exact List.forall_mem_nil _
  | cons item rest ih =>
    obtain ⟨_, t, hitem, hrest⟩ := bind_eq_ok.mp h
    have hgrowth := (leads_bindLabels rest hrest).growth
    exact List.forall_mem_cons.mpr ⟨(bindLabel_located hitem).extends hgrowth, ih hrest⟩

theorem register_located {items : List Item} (h : register items s = .ok () s') :
    ∀ item ∈ boundBy items, item.Located s'.scopes :=
  bindLabels_located (register_bindLabels h)

/-! ## Labels of expanded lines -/

/-- What expanding does extends the arena. -/
theorem Unfolds.extends {within : List Line} {work : Work} {lines sent : List Product}
    {log : List Sending} (h : Unfolds within work s lines sent log s') :
    s.scopes.Extends s'.scopes := by
  induction h with
  | nil | bare _ | single _ | unknown _ | done => exact .refl _
  | cons _ _ ih ih' => exact ih.trans ih'
  | named _ _ _ ih => exact ih
  | @invoke _ _ item template items _ _ _ _ _ _ _ _ hopen hregister _ ih =>
    have hopened := (issues_openInvocation item.line template hopen).1.growth
    exact (hopened.trans (leads_register items hregister).growth).trans ih
  | rept _ _ ih | irp _ _ ih => exact ih
  | @choice _ _ _ _ branch _ _ _ _ _ _ _ _ _ _ _ hregister _ ih =>
    exact (leads_register branch hregister).growth.trans ih
  | proc _ ih => exact ih
  | segment _ _ ih => exact ih
  | @iteration _ line var body items i value _ _ _ _ _ _ _ _ _ _ _ _ hopen hregister _ _ ih ih' =>
    have hopened := (issues_openIteration line var body i value hopen).1.growth
    exact ((hopened.trans (leads_register items hregister).growth).trans ih).trans ih'

/-- The items that were registered when work begins. -/
def Work.bound : Work → List Item
  | .items statements => boundBy statements
  | .item statement | .operation _ statement => statement.bound
  | .iterations _ _ _ _ _ => []

theorem located_withOperation {item : Item} {t : Scopes} (op : Operation)
    (h : ∀ other ∈ item.bound, other.Located t) :
    ∀ other ∈ (item.withOperation op).bound, other.Located t := by
  have hitem := (h item item.mem_bound).withOperation op
  cases item with
  | plain line role => exact List.forall_mem_singleton.mpr hitem
  | choice line onTrue onFalse => exact List.forall_mem_singleton.mpr hitem
  | block line kind body =>
    exact List.forall_mem_cons.mpr ⟨hitem, (List.forall_mem_cons.mp h).2⟩

/-- Once a block has its body behind it, its line keeps the label. -/
theorem located_marker {line : Line} {t : Scopes} {item : Item} (hline : item.line = line)
    (hrequires : item.requiresLabel = false) (h : item.Located t) :
    Item.Located t (.plain line .instruction) := by
  intro _ label hlabel
  subst hline
  exact h hrequires label hlabel

/-- Every line that expanding gives was registered before or on the way. -/
theorem Unfolds.located {within : List Line} {work : Work} {lines sent : List Product}
    {log : List Sending} (h : Unfolds within work s lines sent log s')
    (hbound : ∀ item ∈ work.bound, item.Located s.scopes) :
    ∀ product ∈ lines ++ sent, product.item.Located s'.scopes := by
  induction h with
  | nil | done => exact List.forall_mem_nil _
  | cons h h' ih ih' =>
    obtain ⟨hitem, hrest⟩ := List.forall_mem_append.mp hbound
    exact forall_mem_interleave (fun product hmem => (ih hitem product hmem).extends h'.extends)
      (ih' fun item hitem => (hrest item hitem).extends h.extends)
  | @bare _ item _ _ => exact List.forall_mem_singleton.mpr (hbound item item.mem_bound)
  | named _ _ _ ih => exact ih (located_withOperation _ hbound)
  | @single _ _ item _ _ => exact List.forall_mem_singleton.mpr (hbound item item.mem_bound)
  | @unknown _ _ item _ _ => exact List.forall_mem_singleton.mpr (hbound item item.mem_bound)
  | @invoke _ _ item _ _ _ _ _ _ _ _ _ htemplate hopen hregister h ih =>
    have hall := (Unfolds.invoke htemplate hopen hregister h).extends
    exact List.forall_mem_cons.mpr
      ⟨(hbound item item.mem_bound).extends hall, ih (register_located hregister)⟩
  | rept _ h ih | irp _ h ih =>
    exact List.forall_mem_cons.mpr
      ⟨(hbound _ (Item.mem_bound _)).extends h.extends, ih (List.forall_mem_nil _)⟩
  | @choice _ _ _ _ branch _ _ _ _ _ _ _ _ _ _ _ hregister h ih =>
    have hline := located_marker rfl rfl (hbound _ (Item.mem_bound _))
    have hall := (leads_register branch hregister).growth.trans h.extends
    exact List.forall_mem_cons.mpr ⟨hline.extends hall, ih (register_located hregister)⟩
  | proc h ih =>
    obtain ⟨hline, hbody⟩ := List.forall_mem_cons.mp hbound
    exact List.forall_mem_cons.mpr
      ⟨(located_marker rfl rfl hline).extends h.extends, ih hbody⟩
  | segment _ h ih =>
    obtain ⟨hline, hbody⟩ := List.forall_mem_cons.mp hbound
    exact List.forall_mem_cons.mpr
      ⟨(located_marker rfl rfl hline).extends h.extends, ih hbody⟩
  | iteration _ hregister _ h' ih ih' =>
    exact forall_mem_interleave
      (fun product hmem => (ih (register_located hregister) product hmem).extends h'.extends)
      (ih' (List.forall_mem_nil _))

theorem Expands.located {items lines sent : List Item} (h : Expands (.items items) s lines sent s')
    (hbound : ∀ item ∈ boundBy items, item.Located s.scopes) :
    ∀ item ∈ lines ++ sent, item.Located s'.scopes := by
  obtain ⟨_, _, _, _, h, rfl, rfl⟩ := h
  rw [← List.map_append]
  exact List.forall_mem_map.mpr (h.located hbound)

end Assembly

/-! ## Placed lines -/

/-- The entry with another address. -/
def Entry.withAddress (address : UInt32) : Entry → Entry
  | .code line _ body => .code line address body
  | .space line _ region parts => .space line address region parts

/-- Generating the entry writes what it stores at this address. -/
def Entry.GeneratedAt (s : Scopes) (address : UInt32) (entry : Entry) : Prop :=
  ∃ ws, (entry.withAddress address).stores s = .ok ws ∧ (entry.emit s).Makes ws

mutual

theorem Entry.generatedAt_of_stores {s : Scopes} : ∀ {entry : Entry} {ws : List Store},
    entry.stores s = .ok ws → ∀ e ∈ entry.all, e.GeneratedAt s e.address
  | .code line address body, ws, h => by
    exact List.forall_mem_singleton.mpr ⟨ws, h, Entry.emit_makes h⟩
  | .space line address region parts, ws, h => by
    refine List.forall_mem_cons.mpr ⟨⟨ws, h, Entry.emit_makes h⟩, ?_⟩
    simp only [Entry.stores, except_bind_eq_ok] at h
    obtain ⟨inner, hinner, -⟩ := h
    exact generatedAt_of_storesOf hinner

/-- What is generated, also inside a region, is generated at the address of the entry. -/
theorem generatedAt_of_storesOf {s : Scopes} : ∀ {entries : List Entry} {ws : List Store},
    storesOf s entries = .ok ws → ∀ e ∈ entriesOf entries, e.GeneratedAt s e.address
  | [], _, _ => List.forall_mem_nil _
  | entry :: rest, ws, h => by
    simp only [storesOf, except_bind_eq_ok, except_pure_eq_ok] at h
    obtain ⟨vs, hvs, us, hus, -⟩ := h
    exact List.forall_mem_append.mpr
      ⟨Entry.generatedAt_of_stores hvs, generatedAt_of_storesOf hus⟩

end

namespace Assembly

variable {s s' : Session}

/-- After assembling, a label that is bound to the scope of a placed line is the address of the
    line. -/
theorem integer_of_located {t : Scopes} {item : Item} {label : String} {address : UInt32}
    (h : item.Located t) (hrequires : item.requiresLabel = false)
    (hlabel : item.line.label = some label) (haddress : t.address? item.line.scope = some address) :
    ∃ parent, t.parent? item.line.scope = some parent ∧
      (Expr.ident label parent).integer t = .ok (Int64.ofNat address.toNat) := by
  obtain ⟨parent, value, hparent, hbinds, hvalue⟩ := h hrequires label hlabel
  refine ⟨parent, hparent, ?_⟩
  rw [hbinds.integer_ident]
  have hread := Scopes.address_eq_ok.mpr haddress
  cases value with
  | context scope =>
    cases hvalue
    rw [show maxDepth = 255 + 1 from rfl, integerAt, hread]
    rfl
  | space id scope =>
    cases hvalue
    rw [show maxDepth = 255 + 1 from rfl, integerAt, hread]
    rfl
  | _ => cases hvalue

/-- **Labels are addresses.** In a new session, if assembling a source succeeds, the label of every
    placed line that is neither an `EQU` nor a `MACRO` evaluates, around the line, to the address at
    which the line was placed; and that is the address at which its code is generated. The label of
    an `EQU` line stands for the argument and that of a `MACRO` line for the macro, so these are
    left out. -/
theorem assemble_label_eq_address {library : Library} {origin : Origin} {source : Source}
    {program : Program} {t : Session} (hload : origin.load (Session.new library) = .ok source s)
    (h : assemble source s = .ok program t) {entry : Entry} {label : String}
    (hentry : entry ∈ entriesOf program.entries) (hlabel : entry.line.label = some label)
    (hline : ¬entry.line.Defines) :
    ∃ parent, t.scopes.parent? entry.line.scope = some parent ∧
      (Expr.ident label parent).integer t.scopes = .ok (Int64.ofNat entry.address.toNat) ∧
      entry.GeneratedAt t.scopes entry.address := by
  obtain ⟨hs, htextual⟩ := Origin.load_prepared hload (Session.prepared_new library)
  obtain ⟨hdistinct, hknown⟩ := Origin.load_distinct hload
  obtain ⟨lines, sent, s₁, s₂, hregister, hexpand, hexpands, -, hplaces⟩ :=
    (assemble_once hs htextual hdistinct hknown).post h
  obtain ⟨_, _, _, t', hregister', hexpand', hplace, -, -, hemit, ht⟩ := phases_of_assemble h
  rw [hregister] at hregister'
  cases hregister'
  rw [hexpand] at hexpand'
  cases hexpand'
  have hscopes : t.scopes = t'.scopes := by rw [ht]
  -- The line is one of those that expanding gave.
  have hmem : entry.line ∈ (lines ++ sent).map Item.line :=
    hplaces.entries.mem_iff.mp (List.mem_map_of_mem hentry)
  obtain ⟨item, hitem, hsame⟩ := List.mem_map.mp hmem
  have hgrowth := (advances_placeLines _ _ hplace).scopes
  have hlocated : item.Located t.scopes :=
    hscopes ▸ (hexpands.located (register_located hregister) item hitem).extends hgrowth
  obtain ⟨hovert, htemplates⟩ := Origin.load_overt hload
  have hfresh : s.Overt := by
    rw [Session.Overt, htemplates]
    exact fun template h => absurd h (Array.not_mem_empty template)
  obtain ⟨-, hlines, hsent⟩ :=
    hexpands.overt (overt_register _ hovert hregister hfresh) hovert
  have hrequires : item.requiresLabel = false := by
    refine Bool.eq_false_iff.mpr fun hrequires => hline ?_
    rw [← hsame]
    exact ((hlines.append hsent).of_mem hitem).defines hrequires
  have haddress : t.scopes.address? item.line.scope = some entry.address :=
    (hplaces.bound _ _).mpr ⟨entry, hentry, by rw [hsame], rfl⟩
  obtain ⟨parent, hparent, hvalue⟩ :=
    integer_of_located hlocated hrequires (hsame ▸ hlabel) haddress
  obtain ⟨ws, hstores⟩ := storesOf_of_emitAll hemit
  rw [← hscopes] at hstores
  exact ⟨parent, hsame ▸ hparent, hvalue, generatedAt_of_storesOf hstores entry hentry⟩

/-- A line of a macro that is repeated and sends its lines to a space: the label `l` of the second
    instance is the address of its line inside the space. -/
theorem assemble_label_eq_address_section : ∃ source s program t, ∃ entry : Entry,
    (Origin.text ("x: ds 6\nm: macro\n section x\nl: dw l\n ends\n endm\n rept 2\n m\n" ++
        " endm\n db 9\n")).load (Session.new {}) = .ok source s ∧
      assemble source s = .ok program t ∧ entry ∈ entriesOf program.entries ∧
      entry.line.label = some "l" ∧ ¬entry.line.Defines ∧ entry.address = 2 ∧
      ∃ parent, t.scopes.parent? entry.line.scope = some parent ∧
        (Expr.ident "l" parent).integer t.scopes = .ok (Int64.ofNat entry.address.toNat) ∧
        entry.GeneratedAt t.scopes entry.address := by
  have hpasses : passes (fun (program : Program) (_ : Session) =>
      (entriesOf program.entries).any fun entry =>
        decide (entry.line.label = some "l" ∧ ¬entry.line.Defines ∧ entry.address = 2))
      (((Origin.text ("x: ds 6\nm: macro\n section x\nl: dw l\n ends\n endm\n rept 2\n m\n" ++
        " endm\n db 9\n")).load >>= assemble) (Session.new {})) = true := by
    decide +kernel
  obtain ⟨program, t, hrun, htest⟩ := eq_ok_of_passes hpasses
  obtain ⟨source, s, hload, hassemble⟩ := bind_eq_ok.mp hrun
  obtain ⟨entry, hentry, hfound⟩ := List.any_eq_true.mp htest
  obtain ⟨hlabel, hline, haddress⟩ := of_decide_eq_true hfound
  exact ⟨source, s, program, t, entry, hload, hassemble, hentry, hlabel, hline, haddress,
    assemble_label_eq_address hload hassemble hentry hlabel hline⟩

end Assembly

end Z80Asm
