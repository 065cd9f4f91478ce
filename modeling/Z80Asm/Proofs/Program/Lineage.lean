import Z80Asm.Proofs.Program.Bodies
import Z80Asm.Proofs.Program.Routes

/-!
# What led to a line

The position of a line is its own site and the sites that led to it. An instance of a line keeps the
site; what led to the line gives way to the line that asked for the instance and what led to that. The
body of a nested block is instantiated again when it is the turn of that block, so only the last copy
counts.

Expanding keeps with every line the macro invocations and repetitions inside which it is made. The
position of the line says the same (`Unfolds.instantiated`), down to a line of the source, which was
included as its own position says. What a line says, and where, is what was written in the source or
in a macro (`Unfolds.written`).

A copy of a line differs from the line in its scopes as well, so what was written is compared
without them.
-/
set_option autoImplicit false

namespace Z80Asm

open Success

/-! ## Copies -/

/-- A line as it was written: without what reading, instantiating and expanding add to it. -/
def Line.written (line : Line) : Line :=
  { line with
    arguments := line.arguments.map (·.rename fun _ => ⟨0⟩)
    position := { line.position with outer := [] }
    scope := ⟨0⟩
    operation := none }

/-- A copy of one of these lines that `site` asked for. -/
structure Line.CopyOf (site : Position) (lines : List Line) (copy : Line) : Prop where
  outer : copy.position.outer = site.chain
  written : ∃ line ∈ lines, copy.written = line.written

theorem Line.CopyOf.mono {site : Position} {lines others : List Line} {copy : Line}
    (h : copy.CopyOf site lines) (hsub : lines ⊆ others) : copy.CopyOf site others := by
  obtain ⟨line, hline, hwritten⟩ := h.written
  exact ⟨h.outer, line, hsub hline, hwritten⟩

theorem Line.copy_copyOf (site : Position) (line : Line) (c : Copying) :
    ((line.copy site).run c).1.CopyOf site [line] := by
  refine ⟨rfl, line, List.mem_singleton_self _, ?_⟩
  have harguments : ∀ f : ScopeId → ScopeId,
      (line.arguments.map (Expr.rename f)).map (Expr.rename fun _ => ⟨0⟩) =
        line.arguments.map (Expr.rename fun _ => ⟨0⟩) := by
    intro f
    rw [Option.map_map]
    exact congrArg (line.arguments.map ·) (funext fun e => e.rename_rename _ _)
  show Line.mk _ _ ((line.arguments.map (Expr.rename _)).map (Expr.rename fun _ => ⟨0⟩)) _ _ _ _ = _
  rw [harguments]
  rfl

/-- Every line of an instance is a copy of one of the body, also inside nested blocks. -/
theorem copyItems_copyOf (site : Position) (items : List Item) (c : Copying) :
    ∀ copy ∈ linesOf ((copyItems site items).run c).1, copy.CopyOf site (linesOf items) := by
  refine copyItems_lines (G := fun _ lines _ copies => ∀ copy ∈ copies, copy.CopyOf site lines)
    (fun _ => List.forall_mem_nil _) (fun h h' => List.forall_mem_append.mpr ⟨?_, ?_⟩)
    (fun c line => List.forall_mem_singleton.mpr (line.copy_copyOf site c)) items c
  · exact fun copy hcopy => (h copy hcopy).mono (List.subset_append_left _ _)
  · exact fun copy hcopy => (h' copy hcopy).mono (List.subset_append_right _ _)

namespace Assembly

variable {s s' : Session}

theorem Instantiates.copyOf {site : Position} {body items : List Item}
    (h : Instantiates site body s items s') :
    ∀ copy ∈ linesOf items, copy.CopyOf site (linesOf body) := by
  obtain ⟨-, scopes, template, target, rfl⟩ := h
  exact copyItems_copyOf _ _ _

/-! ## Lines as they were written -/

/-- The macros of a session consist of such lines. -/
def Quotes (known : Line → Prop) (s : Session) : Prop :=
  ∀ template ∈ s.templates, ∀ line ∈ linesOf template.body, known line.written

section

variable {known : Line → Prop}

/-- A macro is kept with the body of its item. -/
theorem quotes_register (items : List Item) (h : ∀ line ∈ linesOf items, known line.written) :
    Guards (Quotes known) (register items) := by
  refine moves_register Item.forall_mem_body (fun {item} hitem => moves_bindLabel (fun label =>
    moves_labelValue (fun _ hs => hs) ?_) (fun _ _ _ _ _ _ _ hs => hs) fun _ hs => hs) items
      (forall_mem_linesOf.mp h)
  rintro line body rfl parameters - s hs template htemplate
  rcases Array.mem_push.mp htemplate with hold | rfl
  · exact hs template hold
  · exact (List.forall_mem_cons.mp hitem).2

theorem Instantiates.written {site : Position} {body items : List Item}
    (h : Instantiates site body s items s') (hs : Quotes known s)
    (hbody : ∀ line ∈ linesOf body, known line.written) :
    Quotes known s' ∧ ∀ item ∈ items, ∀ line ∈ item.lines, known line.written := by
  refine ⟨h.session ▸ hs, forall_mem_linesOf.mp fun copy hcopy => ?_⟩
  obtain ⟨line, hline, hwritten⟩ := (h.copyOf copy hcopy).written
  exact hwritten ▸ hbody line hline

/-- The body of a macro may define macros, and their lines are again copies of what was written. -/
theorem expanding_quotes (known : Line → Prop) : Expanding (Quotes known)
    (fun _ item => ∀ line ∈ item.lines, known line.written) (fun _ _ _ => True)
    (fun item => known item.line.written) where
  withOperation op h := Item.forall_mem_withOperation h op fun hline => hline
  block := Item.forall_mem_body
  choice := Item.forall_mem_branches
  register h hs hitems := quotes_register _ (forall_mem_linesOf.mpr hitems) h hs
  invocation htemplate hopen hs _ := (openInvocation_instantiates hopen).written hs (hs _ htemplate)
  iteration hopen hs h _ :=
    (openIteration_instantiates hopen).written hs (List.forall_mem_cons.mp h).2
  park hs := hs
  line h := h _ (Item.line_mem_lines _)
  marker h := h _ (Item.line_mem_lines _)

end

/-- **Expanding gives lines that were written in the items or in a macro.** -/
theorem Unfolds.written {known : Line → Prop} {within : List Line} {items : List Item}
    {lines sent : List Product} {log : List Sending}
    (h : Unfolds within (.items items) s lines sent log s') (hs : Quotes known s)
    (hitems : ∀ line ∈ linesOf items, known line.written) :
    Quotes known s' ∧ ∀ product ∈ lines ++ sent, known product.item.line.written :=
  (expanding_quotes known).keeps h hs (forall_mem_linesOf.mp hitems)

/-! ## Traces -/

/-- Expanding as in `Expands`, which keeps the lines whose expansion is going on. Macro invocations,
    `REPT` and `IRP` are expanded inside their line; `IF`, `PROC` and `SECTION` are not. -/
def Traces (within : List Line) (work : Work) (s : Session) (products others : List Product)
    (t : Session) : Prop :=
  ∃ log, Unfolds within work s products others log t

/-- The trace of an expansion is determined by where it starts. -/
theorem Unfolds.unique {within : List Line} {work : Work}
    {products others products' others' : List Product} {log log' : List Sending} {t t' : Session}
    (h : Unfolds within work s products others log t)
    (h' : Unfolds within work s products' others' log' t') :
    products' = products ∧ others' = others ∧ log' = log ∧ t' = t := by
  induction h generalizing products' others' log' t' with
  | nil | done =>
    cases h'
    exact ⟨rfl, rfl, rfl, rfl⟩
  | cons _ _ ih ih' =>
    cases h' with
    | cons hitem hrest =>
      obtain ⟨rfl, rfl, rfl, rfl⟩ := ih hitem
      obtain ⟨rfl, rfl, rfl, rfl⟩ := ih' hrest
      exact ⟨rfl, rfl, rfl, rfl⟩
  | bare hbare =>
    cases h' with
    | bare => exact ⟨rfl, rfl, rfl, rfl⟩
    | named hmnemonic => cases hbare.symm.trans hmnemonic
  | named hmnemonic hop _ ih =>
    cases h' with
    | bare hbare => cases hbare.symm.trans hmnemonic
    | named hmnemonic' hop' h' =>
      cases hmnemonic.symm.trans hmnemonic'
      cases hop.symm.trans hop'
      exact ih h'
  | single hop =>
    cases h' with
    | single => exact ⟨rfl, rfl, rfl, rfl⟩
    | unknown => exact ⟨rfl, rfl, rfl, rfl⟩
    | invoke | rept | irp | choice | proc | segment => cases hop
  | unknown htemplate =>
    cases h' with
    | single => exact ⟨rfl, rfl, rfl, rfl⟩
    | unknown => exact ⟨rfl, rfl, rfl, rfl⟩
    | invoke htemplate' => cases htemplate.symm.trans htemplate'
  | invoke htemplate hopen hregister _ ih =>
    cases h' with
    | single hop => cases hop
    | unknown htemplate' => cases htemplate.symm.trans htemplate'
    | invoke htemplate' hopen' hregister' h' =>
      cases htemplate.symm.trans htemplate'
      cases hopen.symm.trans hopen'
      cases hregister.symm.trans hregister'
      obtain ⟨rfl, rfl, rfl, rfl⟩ := ih h'
      exact ⟨rfl, rfl, rfl, rfl⟩
  | rept hvalues _ ih =>
    cases h' with
    | single hop => cases hop
    | rept hvalues' h' =>
      cases hvalues.symm.trans hvalues'
      obtain ⟨rfl, rfl, rfl, rfl⟩ := ih h'
      exact ⟨rfl, rfl, rfl, rfl⟩
  | irp hvalues _ ih =>
    cases h' with
    | single hop => cases hop
    | irp hvalues' h' =>
      cases hvalues.symm.trans hvalues'
      obtain ⟨rfl, rfl, rfl, rfl⟩ := ih h'
      exact ⟨rfl, rfl, rfl, rfl⟩
  | choice hcond hvalue hbranch hregister _ ih =>
    cases h' with
    | single hop => cases hop
    | choice hcond' hvalue' hbranch' hregister' h' =>
      cases hcond.symm.trans hcond'
      cases hvalue.symm.trans hvalue'
      cases hbranch.trans hbranch'.symm
      cases hregister.symm.trans hregister'
      obtain ⟨rfl, rfl, rfl, rfl⟩ := ih h'
      exact ⟨rfl, rfl, rfl, rfl⟩
  | proc _ ih =>
    cases h' with
    | single hop => cases hop
    | proc h' =>
      obtain ⟨rfl, rfl, rfl, rfl⟩ := ih h'
      exact ⟨rfl, rfl, rfl, rfl⟩
  | segment hspace _ ih =>
    cases h' with
    | single hop => cases hop
    | segment hspace' h' =>
      cases hspace.symm.trans hspace'
      obtain ⟨rfl, rfl, rfl, rfl⟩ := ih h'
      exact ⟨rfl, rfl, rfl, rfl⟩
  | iteration hopen hregister _ _ ih ih' =>
    cases h' with
    | iteration hopen' hregister' hitems hrest =>
      cases hopen.symm.trans hopen'
      cases hregister.symm.trans hregister'
      obtain ⟨rfl, rfl, rfl, rfl⟩ := ih hitems
      obtain ⟨rfl, rfl, rfl, rfl⟩ := ih' hrest
      exact ⟨rfl, rfl, rfl, rfl⟩

/-- Operations that instantiate a body. -/
def instantiates : Operation → Bool
  | .invoke _ | .rept | .irp => true
  | _ => false

/-- The first of the lines around it instantiated the line, the next one that line, and so on. The
    outermost is a line of `items`. -/
def Instantiated (items : List Item) : Line → List Line → Prop
  | line, [] => ∃ origin ∈ linesOf items, ∃ op, line = { origin with operation := op }
  | line, site :: around => line.position.outer = site.position.chain ∧
      (∃ op, site.operation = some op ∧ instantiates op = true) ∧ Instantiated items site around

section

variable {items : List Item} {line : Line} {within : List Line}

theorem Instantiated.withOperation (h : Instantiated items line within) (op : Option Operation) :
    Instantiated items { line with operation := op } within := by
  cases within with
  | nil =>
    obtain ⟨origin, horigin, _, rfl⟩ := h
    exact ⟨origin, horigin, op, rfl⟩
  | cons site around => exact h

/-- The position of a line says what instantiated it. -/
theorem Instantiated.chain_eq (h : Instantiated items line within) :
    line.position.chain = line.position.here ::
      (within.map (·.position.here) ++ (within.getLastD line).position.outer) := by
  induction within generalizing line with
  | nil => rfl
  | cons site around ih =>
    obtain ⟨houter, -, hsite⟩ := h
    rw [Position.chain, houter, ih hsite, List.getLastD_cons]
    rfl

theorem Instantiated.outermost (h : Instantiated items line within) :
    ∃ origin ∈ linesOf items, ∃ op, within.getLastD line = { origin with operation := op } := by
  induction within generalizing line with
  | nil => exact h
  | cons site around ih =>
    rw [List.getLastD_cons]
    exact ih h.2.2

theorem Instantiated.sites (h : Instantiated items line within) :
    ∀ site ∈ within, ∃ op, site.operation = some op ∧ instantiates op = true := by
  induction within generalizing line with
  | nil => exact List.forall_mem_nil _
  | cons site around ih => exact List.forall_mem_cons.mpr ⟨h.2.1, ih h.2.2⟩

theorem instantiated_copyOf {site : Line} {lines copies : List Line} {op : Operation}
    (hsite : Instantiated items site within) (hop : site.operation = some op)
    (hinstantiates : instantiates op = true)
    (hcopies : ∀ copy ∈ copies, copy.CopyOf site.position lines) :
    ∀ copy ∈ copies, Instantiated items copy (site :: within) :=
  fun copy hcopy => ⟨(hcopies copy hcopy).outer, ⟨op, hop, hinstantiates⟩, hsite⟩

end

/-- The lines of the work are instantiated by those around them. -/
def Work.Under (items : List Item) (within : List Line) : Work → Prop
  | .items statements => ∀ line ∈ linesOf statements, Instantiated items line within
  | .item statement => ∀ line ∈ statement.lines, Instantiated items line within
  | .operation op statement => statement.line.operation = some op ∧
      ∀ line ∈ statement.lines, Instantiated items line within
  | .iterations site _ _ _ _ => ∃ op around, within = site :: around ∧ site.operation = some op ∧
      instantiates op = true ∧ Instantiated items site around

theorem Work.Under.withOperation {items : List Item} {within : List Line} {item : Item}
    (h : Work.Under items within (.item item)) (op : Operation) :
    Work.Under items within (.operation op (item.withOperation op)) := by
  have hline := h item.line item.line_mem_lines
  cases item <;>
    exact ⟨rfl, List.forall_mem_cons.mpr ⟨hline.withOperation _, (List.forall_mem_cons.mp h).2⟩⟩

/-- **What is traced as the lines around a line is what instantiated it.** -/
theorem Unfolds.instantiated {items : List Item} {within : List Line} {work : Work}
    {products others : List Product} {log : List Sending}
    (h : Unfolds within work s products others log s') (hwork : work.Under items within) :
    ∀ product ∈ products ++ others, Instantiated items product.item.line product.within := by
  induction h with
  | nil => exact List.forall_mem_nil _
  | cons _ _ ih ih' =>
    obtain ⟨hitem, hrest⟩ := List.forall_mem_append.mp hwork
    exact forall_mem_interleave (ih hitem) (ih' hrest)
  | @bare _ item _ _ => exact List.forall_mem_singleton.mpr (hwork _ item.line_mem_lines)
  | named _ _ _ ih => exact ih (hwork.withOperation _)
  | @single _ _ item _ _ | @unknown _ _ item _ _ =>
    exact List.forall_mem_singleton.mpr (hwork.2 _ item.line_mem_lines)
  | @invoke _ _ item _ _ _ _ _ _ _ _ _ _ hopen _ _ ih =>
    have hline := hwork.2 _ item.line_mem_lines
    have hitems := instantiated_copyOf hline hwork.1 rfl (openInvocation_instantiates hopen).copyOf
    exact List.forall_mem_cons.mpr ⟨hline, ih hitems⟩
  | rept _ _ ih | irp _ _ ih =>
    have hline := (List.forall_mem_cons.mp hwork.2).1
    exact List.forall_mem_cons.mpr ⟨hline, ih ⟨_, _, rfl, hwork.1, rfl, hline⟩⟩
  | choice _ _ hbranch _ _ ih =>
    obtain ⟨hline, hbranches⟩ := List.forall_mem_cons.mp hwork.2
    obtain ⟨htrue, hfalse⟩ := List.forall_mem_append.mp hbranches
    refine List.forall_mem_cons.mpr ⟨hline, ih ?_⟩
    rw [hbranch]
    split
    · exact htrue
    · exact hfalse
  | proc _ ih | segment _ _ ih =>
    obtain ⟨hline, hbody⟩ := List.forall_mem_cons.mp hwork.2
    exact List.forall_mem_cons.mpr ⟨hline, ih hbody⟩
  | done => exact List.forall_mem_nil _
  | iteration hopen _ _ _ ih ih' =>
    have hothers := ih' hwork
    obtain ⟨op, around, rfl, hop, hinstantiates, hsite⟩ := hwork
    have hitems := instantiated_copyOf hsite hop hinstantiates (openIteration_instantiates hopen).copyOf
    exact forall_mem_interleave (ih hitems) hothers

/-! ## Positions -/

/-- The line of the source that a line comes from: the outermost of those around it, if there are
    any. -/
def Product.outermost (product : Product) : Line :=
  product.within.getLastD product.item.line

/-- One of the lines of the source, or of the macros that the session has, is written like this. -/
def WrittenIn (source : Source) (s : Session) (text : Line) : Prop :=
  ∃ line, (line ∈ linesOf source.items ∨ ∃ template ∈ s.templates, line ∈ linesOf template.body) ∧
    text = line.written

/-- What the position of a line says: where it was written, inside which invocations and repetitions it
    was expanded, and how the outermost of them was included. -/
structure Product.Explained (source : Source) (s : Session) (product : Product) : Prop where
  /-- The line was written at its own site, in the source or in a macro that was there before. -/
  own : WrittenIn source s product.item.line.written
  within : ∀ site ∈ product.within, ∃ op, site.operation = some op ∧ instantiates op = true
  outermost : ∃ line ∈ linesOf source.items, ∃ op, product.outermost = { line with operation := op }
  chain : product.item.line.position.chain = product.item.line.position.here ::
    (product.within.map (·.position.here) ++ product.outermost.position.outer)
  included : ∀ (origin : Origin) (t t' : Session), origin.load t = .ok source t' →
    ∃ route, route ⊆ linesOf source.items ∧
      product.outermost.Reached t.library origin.main route ∧
      product.outermost.position.outer = route.map (·.position.here)

theorem Instantiated.explained {source : Source} {product : Product}
    (h : Instantiated source.items product.item.line product.within)
    (hown : WrittenIn source s product.item.line.written) : product.Explained source s where
  own := hown
  within := h.sites
  outermost := h.outermost
  chain := h.chain_eq
  included := by
    intro origin t t' hload
    obtain ⟨line, hline, op, houtermost⟩ := h.outermost
    obtain ⟨route, hroute, hreached⟩ := Origin.load_routed hload line hline
    rw [List.append_nil] at hreached
    rw [Product.outermost, houtermost]
    exact ⟨route, hroute, hreached.withOperation op, hreached.outer_eq⟩

/-- **Every line says what led to it.** Expanding a source has one trace. It gives the lines, and
    the position of each of them says what the trace says of it. The trace is unique, so there is no
    other account that the positions could contradict. -/
theorem expand_explained {source : Source} {lines : List Item} {s₁ s₂ : Session}
    (hregister : register source.items s = .ok () s₁)
    (hexpand : expand source.items s₁ = .ok lines s₂) :
    ∃ products sent,
      (∀ products' sent' t, Traces [] (.items source.items) s₁ products' sent' t ↔
        products' = products ∧ sent' = sent ∧ t = s₂) ∧
      products.map Product.item = lines ∧
      ∀ product ∈ products ++ sent, product.Explained source s := by
  obtain ⟨products, others, log, hunfolds, rfl⟩ := expandLevels_unfolds maxDepth [] hexpand
  have honly : ∀ products' sent' t, Traces [] (.items source.items) s₁ products' sent' t ↔
      products' = products ∧ sent' = others ∧ t = s₂ := by
    intro products' sent' t
    constructor
    · rintro ⟨log', h⟩
      obtain ⟨hproducts, hothers, -, ht⟩ := hunfolds.unique h
      exact ⟨hproducts, hothers, ht⟩
    · rintro ⟨rfl, rfl, rfl⟩
      exact ⟨log, hunfolds⟩
  refine ⟨products, others, honly, rfl, ?_⟩
  have hwork : Work.Under source.items [] (.items source.items) := fun line hline =>
    ⟨line, hline, line.operation, rfl⟩
  have hitems : ∀ line ∈ linesOf source.items, WrittenIn source s line.written := fun line hline =>
    ⟨line, .inl hline, rfl⟩
  have hquotes : Quotes (WrittenIn source s) s := fun template htemplate line hline =>
    ⟨line, .inr ⟨template, htemplate, hline⟩, rfl⟩
  have hwritten := (hunfolds.written (quotes_register _ hitems hregister hquotes) hitems).2
  intro product hproduct
  exact (hunfolds.instantiated hwork product hproduct).explained (hwritten product hproduct)

/-- A file that defines and invokes a macro with a repetition inside. -/
def nestingLibrary : Library where
  files := ({} : FileSystem).add "a" "m: macro\n rept 1\n nop\n endm\n endm\n m\n".toUTF8.toList

/-- The repeated line was written in line 3 of the file, is repeated by line 2, inside of what line 6
    invokes, which the text includes. -/
theorem expand_explained_repeated : ∃ source s s₁ lines s₂,
    loadText " include \"a\"\n" (Session.new nestingLibrary) = .ok source s ∧
      register source.items s = .ok () s₁ ∧ expand source.items s₁ = .ok lines s₂ ∧
      (lines.map fun item => item.line.position.chain.map fun site => (site.file, site.line)) =
        [[(none, 1)], [(some "a", 1), (none, 1)], [(some "a", 6), (none, 1)],
          [(some "a", 2), (some "a", 6), (none, 1)],
          [(some "a", 3), (some "a", 2), (some "a", 6), (none, 1)],
          [(some "a", 4), (some "a", 2), (some "a", 6), (none, 1)],
          [(some "a", 5), (some "a", 6), (none, 1)]] ∧
      ∃ products sent,
        (∀ products' sent' t, Traces [] (.items source.items) s₁ products' sent' t ↔
          products' = products ∧ sent' = sent ∧ t = s₂) ∧
        products.map Product.item = lines ∧
        ∀ product ∈ products ++ sent, product.Explained source s := by
  have hpasses : passes (fun (lines : List Item) (_ : Session) =>
      decide ((lines.map fun item => item.line.position.chain.map fun site => (site.file, site.line)) =
        [[(none, 1)], [(some "a", 1), (none, 1)], [(some "a", 6), (none, 1)],
          [(some "a", 2), (some "a", 6), (none, 1)],
          [(some "a", 3), (some "a", 2), (some "a", 6), (none, 1)],
          [(some "a", 4), (some "a", 2), (some "a", 6), (none, 1)],
          [(some "a", 5), (some "a", 6), (none, 1)]]))
      ((do let source ← loadText " include \"a\"\n"; expandBody expand source.items)
        (Session.new nestingLibrary)) = true := by
    decide +kernel
  obtain ⟨lines, s₂, hrun, htest⟩ := eq_ok_of_passes hpasses
  obtain ⟨source, s, hload, hrun⟩ := bind_eq_ok.mp hrun
  obtain ⟨_, s₁, hregister, hexpand⟩ := bind_eq_ok.mp hrun
  exact ⟨source, s, s₁, lines, s₂, hload, hregister, hexpand, of_decide_eq_true htest,
    expand_explained hregister hexpand⟩

end Assembly

end Z80Asm
