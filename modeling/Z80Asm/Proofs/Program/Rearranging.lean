import Z80Asm.Proofs.Program.Lineage
import Z80Asm.Proofs.Scope.Reordering

/-!
# Programs that come to the same

Three things that can be done to a program, and what is left unchanged.

* **Another text in a branch that is not taken.** The branches of `IF` are not looked at before the
  condition is decided, so assembling goes the same way whatever stands in the other branch
  (`assemble_discarded`): the same failure or the same program, and the same session.
* **Copies in place of a repetition.** The lines of a `REPT` block are as many copies of its body as its
  count says, if the body consists of plain lines and invokes no macro (`Unfolds.rept_unrolled`).
* **A definition in another place.** An `EQU` line can be registered earlier or later among the lines
  of a source: this succeeds in both cases or in none, and afterwards every expression means the same
  (`register_moved`).

All of them are about items, that is, about a source that has been read, and not about its text.
Reading does more with a branch than to keep it: `INCLUDE ONCE` in a branch that is not taken loads
its file. They are also about the statements as they are understood and not as they are spelled.
Where a program binds `IF` to something else, no branch is taken, and where it binds `ENDM`, the
last line of the copies has code of its own. The line of a definition has an address and takes its
turn when lines are placed, so the third of them says nothing of what comes after registering.
-/
set_option autoImplicit false

namespace Z80Asm

open Success

/-! ## A branch that is not taken -/

/-- In this arena the line is an `IF` line, and if its condition is a number, then one that selects
    this side. -/
structure Scopes.Takes (s : Scopes) (line : Line) (side : Bool) : Prop where
  operation : ∃ mnemonic, line.mnemonic = some mnemonic ∧
    s.operation line.scope mnemonic = .ok .choice
  side : ∀ cond value, line.arguments = some cond → cond.integer s = .ok value → (value != 0) = side

namespace Assembly

variable {s : Session} {line : Line} {onTrue onFalse onTrue' onFalse' : List Item}

/-- The branches wait until they are expanded. -/
theorem registerItem_choice :
    registerItem (.choice line onTrue onFalse) = registerItem (.choice line onTrue' onFalse') := by
  rw [registerItem, registerItem]
  rfl

theorem traced_congr {α : Type} {x y : Assembly α} {s : Session} (h : x s = y s) (position : Position) :
    traced position x s = traced position y s := by
  rw [traced, traced, EStateM.adaptExcept, EStateM.adaptExcept, h]

theorem expandWith_choice {side : Bool} (h : s.scopes.Takes line side)
    (hbranch : (if side then onTrue else onFalse) = if side then onTrue' else onFalse')
    (expand : Expander) :
    expandWith (some expand) (.choice line onTrue onFalse) s =
      expandWith (some expand) (.choice line onTrue' onFalse') s := by
  obtain ⟨mnemonic, hmnemonic, hop⟩ := h.operation
  rw [expandWith, expandWith]
  simp only [Item.line, hmnemonic]
  refine traced_congr ?_ _
  show (ofExcept (s.scopes.operation line.scope mnemonic) >>= fun op =>
      expandOperation expand (Item.withOperation op (.choice line onTrue onFalse)) op) s =
    (ofExcept (s.scopes.operation line.scope mnemonic) >>= fun op =>
      expandOperation expand (Item.withOperation op (.choice line onTrue' onFalse')) op) s
  rw [hop]
  show expandOperation expand (.choice { line with operation := some .choice } onTrue onFalse)
      .choice s =
    expandOperation expand (.choice { line with operation := some .choice } onTrue' onFalse') .choice s
  simp only [expandOperation]
  cases hcond : line.arguments with
  | none => rfl
  | some cond =>
    show (ofExcept (cond.integer s.scopes) >>= fun value => _) s =
      (ofExcept (cond.integer s.scopes) >>= fun value => _) s
    cases hvalue : cond.integer s.scopes with
    | error cause => rfl
    | ok value =>
      have hside := h.side cond value hcond hvalue
      show (expandBody expand (if value != 0 then onTrue else onFalse) >>= fun lines => _) s =
        (expandBody expand (if value != 0 then onTrue' else onFalse') >>= fun lines => _) s
      rw [hside, hbranch]
      rfl

/-- **A branch that is not taken does not matter.** If the condition of an `IF` line selects one side
    when the line is reached, there can be anything on the other. Nothing is asked where the program
    fails before. -/
theorem assemble_discarded {before after : List Item} {scope : ScopeId} {side : Bool}
    (h : ∀ lines s₁ s₂, register (before ++ .choice line onTrue onFalse :: after) s = .ok () s₁ →
      expand before s₁ = .ok lines s₂ → s₂.scopes.Takes line side) (other : List Item) :
    assemble ⟨scope, before ++ .choice line onTrue onFalse :: after⟩ s =
      assemble ⟨scope, before ++ .choice line (if side then onTrue else other)
        (if side then other else onFalse) :: after⟩ s := by
  have hregister : register (before ++ .choice line onTrue onFalse :: after) =
      register (before ++ .choice line (if side then onTrue else other)
        (if side then other else onFalse) :: after) := by
    rw [register_append, register_append, register, register, registerItem_choice]
  have hbranch : (if side then onTrue else onFalse) =
      if side then (if side then onTrue else other) else (if side then other else onFalse) := by
    cases side <;> rfl
  rw [assemble, assemble, ← hregister]
  refine bind_apply_congr_right fun _ s₁ hrun => bind_apply_congr ?_ _
  obtain ⟨levels, hlevels⟩ : ∃ levels, maxDepth = levels + 1 := ⟨255, rfl⟩
  rw [expand, hlevels, expandLevels, expandLevels]
  refine bind_apply_congr ?_ _
  rw [List.mapM_append, List.mapM_append]
  refine bind_apply_congr_right fun parts s₂ hparts => bind_apply_congr ?_ _
  rw [List.mapM_cons, List.mapM_cons]
  refine bind_apply_congr (expandWith_choice (h parts.flatten s₁ s₂ hrun ?_) hbranch _) _
  rw [expand, hlevels, expandLevels]
  exact bind_eq_ok.mpr ⟨parts, s₂, hparts, rfl⟩

end Assembly

/-! ## Copies in place of a repetition -/

/-- The item is a line without a body. -/
def Item.isPlain : Item → Bool
  | .plain _ _ => true
  | _ => false

theorem copyItems_written (site : Position) {items : List Item}
    (hplain : ∀ item ∈ items, item.isPlain = true) (c : Copying) :
    (∀ item ∈ ((copyItems site items).run c).1, item.isPlain = true) ∧
      ((copyItems site items).run c).1.map (·.line.written) = items.map (·.line.written) := by
  induction items generalizing c with
  | nil => exact ⟨List.forall_mem_nil _, rfl⟩
  | cons item rest ih =>
    obtain ⟨hitem, hrest⟩ := List.forall_mem_cons.mp hplain
    cases item with
    | plain line role =>
      obtain ⟨hcopies, hwritten⟩ := ih hrest ((line.copy site).run c).2
      obtain ⟨original, horiginal, hcopy⟩ := (line.copy_copyOf site c).written
      cases List.mem_singleton.mp horiginal
      exact ⟨List.forall_mem_cons.mpr ⟨rfl, hcopies⟩, List.cons_eq_cons.mpr ⟨hcopy, hwritten⟩⟩
    | block line kind body => cases hitem
    | choice line onTrue onFalse => cases hitem

namespace Assembly

variable {within : List Line} {products sent : List Product} {log : List Sending} {s s' : Session}

/-- No line among these invokes a macro. -/
def NoInvocation (products : List Product) : Prop :=
  ∀ product ∈ products, ∀ id, product.item.line.operation ≠ some (.invoke id)

/-- A plain line stands for itself. -/
theorem Unfolds.plain_item {item : Item} (h : Unfolds within (.item item) s products sent log s')
    (hplain : item.isPlain = true) (hsimple : NoInvocation products) :
    sent = [] ∧ log = [] ∧ products.map (·.item.line.written) = [item.line.written] := by
  cases item with
  | plain line role =>
    cases h with
    | bare _ => exact ⟨rfl, rfl, rfl⟩
    | named hmnemonic hop h =>
      cases h with
      | single _ | unknown _ => exact ⟨rfl, rfl, rfl⟩
      | invoke _ _ _ _ => exact (hsimple _ List.mem_cons_self _ rfl).elim
  | block line kind body => cases hplain
  | choice line onTrue onFalse => cases hplain

theorem Unfolds.plain_items {items : List Item}
    (h : Unfolds within (.items items) s products sent log s')
    (hplain : ∀ item ∈ items, item.isPlain = true) (hsimple : NoInvocation products) :
    sent = [] ∧ log = [] ∧ products.map (·.item.line.written) = items.map (·.line.written) := by
  induction items generalizing s products sent log with
  | nil =>
    cases h
    exact ⟨rfl, rfl, rfl⟩
  | cons item rest ih =>
    obtain ⟨hitem, hrest⟩ := List.forall_mem_cons.mp hplain
    cases h with
    | cons hfirst hothers =>
      obtain ⟨hsimple, hsimple'⟩ := List.forall_mem_append.mp hsimple
      obtain ⟨rfl, rfl, hwritten⟩ := hfirst.plain_item hitem hsimple
      obtain ⟨rfl, rfl, hwritten'⟩ := ih hothers hrest hsimple'
      exact ⟨rfl, rfl, by rw [List.map_append, hwritten, hwritten']; rfl⟩

/-- Every iteration gives the lines of the body once more. -/
theorem Unfolds.iterations_unrolled {line : Line} {var : Option String} {body : List Item} {i : Nat}
    {values : List Expr} (h : Unfolds within (.iterations line var body i values) s products sent log s')
    (hplain : ∀ item ∈ body, item.isPlain = true) (hsimple : NoInvocation products) :
    sent = [] ∧ log = [] ∧ products.map (·.item.line.written) =
      (List.replicate values.length (body.map (·.line.written))).flatten := by
  induction values generalizing i s products sent log with
  | nil =>
    cases h
    exact ⟨rfl, rfl, rfl⟩
  | cons value rest ih =>
    cases h with
    | iteration hopen hregister hfirst hothers =>
      obtain ⟨hsimple, hsimple'⟩ := List.forall_mem_append.mp hsimple
      obtain ⟨-, scopes, template, target, rfl⟩ := openIteration_instantiates hopen
      obtain ⟨hcopies, hcopied⟩ := copyItems_written line.position hplain
        { images := [(template, target)], scopes }
      obtain ⟨rfl, rfl, hwritten⟩ := hfirst.plain_items hcopies hsimple
      obtain ⟨rfl, rfl, hwritten'⟩ := ih hothers hsimple'
      refine ⟨rfl, rfl, ?_⟩
      rw [List.map_append, hwritten, hwritten', List.length_cons, List.replicate_succ,
        List.flatten_cons]
      exact congrArg (· ++ _) hcopied

/-- **A repetition is its body over and over again.** If the body of a `REPT` block consists of
    plain lines and none of them invokes a macro, then the block is expanded to its own line and as
    many copies of the body as the count says, one behind the other, and nothing is sent to a space.
    The copies have scopes and positions of their own; all else is as it was written. -/
theorem Unfolds.rept_unrolled {line : Line} {body : List Item}
    (h : Unfolds within (.operation .rept (.block line .rept body)) s products sent log s')
    (hplain : ∀ item ∈ body, item.isPlain = true) (hsimple : NoInvocation products) :
    sent = [] ∧ log = [] ∧ ∃ e count, line.argumentList[0]? = some e ∧
      e.integer s.scopes = .ok count ∧ 0 ≤ count ∧ products.map (·.item.line.written) = line.written ::
        (List.replicate count.toInt.toNat (body.map (·.line.written))).flatten := by
  cases h with
  | single hop => cases hop
  | rept hvalues h =>
    obtain ⟨rfl, rfl, hwritten⟩ :=
      h.iterations_unrolled hplain (List.forall_mem_cons.mp hsimple).2
    refine ⟨rfl, rfl, ?_⟩
    unfold reptValues at hvalues
    dsimp only at hvalues
    split at hvalues
    · next e he =>
      obtain ⟨count, hcount, hvalues⟩ := except_bind_eq_ok.mp hvalues
      split at hvalues
      · cases hvalues
      · next hnonneg =>
        simp only [except_bind_eq_ok, except_pure_eq_ok, Prod.mk.injEq] at hvalues
        obtain ⟨_, -, start, -, step, -, -, rfl⟩ := hvalues
        refine ⟨e, count, he, hcount, Int64.not_lt.mp hnonneg, ?_⟩
        rw [List.map_cons, hwritten, repeatValues, List.length_map, List.length_range]
        rfl
    · cases hvalues

/-! ## A definition in another place -/

/-- How registering in one arena follows registering in another. It gets lost where a name is bound that
    stands in the way, and does not find back. -/
structure Follows (lost : Scopes → Prop) (R : Scopes → Scopes → Prop) : Prop where
  parent : ∀ {s t}, R s t → ∀ id, t.parent? id = s.parent? id
  mark : ∀ {s t}, R s t → ∀ id, R (s.markRegistered id) (t.markRegistered id)
  add : ∀ {s t s'}, R s t → ∀ {id name value}, s.add id name value = .ok s' →
    lost s' ∨ ∃ t', t.add id name value = .ok t' ∧ R s' t'
  lost : ∀ {s t}, s.Extends t → lost s → lost t

section

variable {lost : Scopes → Prop} {R : Scopes → Scopes → Prop} {scopes : Scopes}

theorem Follows.bindLabel (h : Follows lost R) {item : Item} (hR : R s.scopes scopes)
    (hrun : Assembly.bindLabel item s = .ok () s') :
    lost s'.scopes ∨ ∃ scopes', R s'.scopes scopes' ∧
      Assembly.bindLabel item { s with scopes } = .ok () { s' with scopes := scopes' } := by
  rcases bindLabel_eq_ok.mp hrun with ⟨hlabel, hrequires, rfl⟩ |
      ⟨label, value, t, parent, after, hlabel, hvalue, hparent, hadd, rfl⟩
  · exact .inr ⟨_, h.mark hR _, bindLabel_eq_ok.mpr (.inl ⟨hlabel, hrequires, rfl⟩)⟩
  · obtain ⟨-, hvalue⟩ := labelValue_scopes hvalue
    rcases h.add hR hadd with hlost | ⟨after', hadd', hR'⟩
    · exact .inl (h.lost (Scopes.extends_markRegistered _ _) hlost)
    · refine .inr ⟨_, h.mark hR' _, bindLabel_eq_ok.mpr (.inr ?_)⟩
      exact ⟨label, value, _, parent, after', hlabel, hvalue scopes, (h.parent hR _).trans hparent,
        hadd', rfl⟩

theorem Follows.register (h : Follows lost R) : ∀ {items : List Item} {s s' : Session}
    {scopes : Scopes}, R s.scopes scopes → Assembly.register items s = .ok () s' →
      lost s'.scopes ∨ ∃ scopes', R s'.scopes scopes' ∧
        Assembly.register items { s with scopes } = .ok () { s' with scopes := scopes' }
  | [], s, s', scopes, hR, hrun => by
    rw [Assembly.register] at hrun ⊢
    cases hrun
    exact .inr ⟨scopes, hR, rfl⟩
  | item :: rest, s, s', scopes, hR, hrun => by
    rw [Assembly.register] at hrun ⊢
    obtain ⟨_, s₁, hitem, hrest⟩ := bind_eq_ok.mp hrun
    have hfirst : lost s₁.scopes ∨ ∃ scopes₁, R s₁.scopes scopes₁ ∧
        registerItem item { s with scopes } = .ok () { s₁ with scopes := scopes₁ } := by
      cases item with
      | plain line role =>
        rw [registerItem, traced_eq_ok] at hitem
        simp only [registerItem, traced_eq_ok]
        exact h.bindLabel hR hitem
      | choice line onTrue onFalse =>
        rw [registerItem, traced_eq_ok] at hitem
        simp only [registerItem, traced_eq_ok]
        exact h.bindLabel hR hitem
      | block line kind body =>
        rw [registerItem, traced_eq_ok] at hitem
        simp only [registerItem, traced_eq_ok]
        obtain ⟨_, s₀, hlabel, hbody⟩ := bind_eq_ok.mp hitem
        rcases h.bindLabel hR hlabel with hlost | ⟨scopes₀, hR₀, hlabel'⟩
        · refine .inl (h.lost ?_ hlost)
          split at hbody
          · exact (advances_register body hbody).scopes
          · cases hbody
            exact .refl _
        · simp only [bind_apply_of_ok hlabel']
          by_cases hbinds : kind.bindsBody = true
          · rw [if_pos hbinds] at hbody ⊢
            exact h.register hR₀ hbody
          · rw [if_neg hbinds] at hbody ⊢
            cases hbody
            exact .inr ⟨scopes₀, hR₀, rfl⟩
    rcases hfirst with hlost | ⟨scopes₁, hR₁, hitem'⟩
    · exact .inl (h.lost (advances_register rest hrest).scopes hlost)
    · rw [bind_apply_of_ok hitem']
      exact h.register hR₁ hrest

end

/-! The three ways to follow: with another order, from behind a name that is bound first, and from
before it. -/

theorem follows_reordered : Follows (fun _ => False) Scopes.Reordered where
  parent h := h.parent?_eq
  mark h id := ((Scopes.reordered_markRegistered _ id).symm.trans h).trans
    (Scopes.reordered_markRegistered _ id)
  add h _ _ _ hadd := by
    obtain ⟨hname, hlacks, rfl⟩ := Scopes.add_eq_ok_iff.mp hadd
    exact .inr ⟨_, Scopes.add_eq_ok_iff.mpr ⟨hname, h.lacks_iff.mpr hlacks, rfl⟩, h.bind _ _ _⟩
  lost _ h := h

/-- Except for the order of names, `t` is `s` with one more name. -/
structure Ahead (id : ScopeId) (name : String) (value : Expr) (s t : Scopes) : Prop where
  lacks : s.Lacks id name
  reordered : (s.bind id name value).Reordered t

section

variable {id : ScopeId} {name : String} {value : Expr} {a b : Scopes}

theorem Ahead.parent?_eq (h : Ahead id name value a b) (other : ScopeId) :
    b.parent? other = a.parent? other := by
  rw [h.reordered.parent?_eq]
  exact (Scopes.sameFrames_bind a id name value).parent?_eq other

theorem Ahead.mark (h : Ahead id name value a b) (other : ScopeId) :
    Ahead id name value (a.markRegistered other) (b.markRegistered other) where
  lacks := (Scopes.reordered_markRegistered a other).lacks_iff.mpr h.lacks
  reordered := (((Scopes.reordered_markRegistered a other).symm.bind id name value).trans
    h.reordered).trans (Scopes.reordered_markRegistered b other)

theorem Ahead.bind (h : Ahead id name value a b) {other : ScopeId} {word : String}
    (hne : ¬(other = id ∧ word = name)) (e : Expr) :
    Ahead id name value (a.bind other word e) (b.bind other word e) where
  lacks := Scopes.lacks_bind_iff.mpr ⟨h.lacks, hne⟩
  reordered := (Scopes.bind_comm hne e value a).trans (h.reordered.bind other word e)

theorem follows_behind : Follows (fun _ => False) fun s t => Ahead id name value t s where
  parent h other := (h.parent?_eq other).symm
  mark h := h.mark
  add h _ _ _ hadd := by
    obtain ⟨hword, hlacks, rfl⟩ := Scopes.add_eq_ok_iff.mp hadd
    obtain ⟨hlacks, hne⟩ := Scopes.lacks_bind_iff.mp (h.reordered.lacks_iff.mp hlacks)
    refine .inr ⟨_, Scopes.add_eq_ok_iff.mpr ⟨hword, hlacks, rfl⟩, h.bind ?_ _⟩
    exact fun hsame => hne ⟨hsame.1.symm, hsame.2.symm⟩
  lost _ h := h

theorem follows_before :
    Follows (fun s => ∃ v, s.Binds id name v) (Ahead id name value) where
  parent h := h.parent?_eq
  mark h := h.mark
  add h other word e hadd := by
    by_cases hsame : other = id ∧ word = name
    · obtain ⟨rfl, rfl⟩ := hsame
      exact .inl ⟨_, Scopes.add_binds hadd⟩
    · obtain ⟨hword, hlacks, rfl⟩ := Scopes.add_eq_ok_iff.mp hadd
      refine .inr ⟨_, Scopes.add_eq_ok_iff.mpr ⟨hword, h.reordered.lacks_iff.mpr ?_, rfl⟩,
        h.bind hsame _⟩
      exact Scopes.lacks_bind_iff.mpr ⟨hlacks, fun heq => hsame ⟨heq.1.symm, heq.2.symm⟩⟩
  lost hst h := h.imp fun _ hbinds => hst.binds hbinds

end

/-- Registering makes no scopes. -/
theorem sameFrames_register {items : List Item} (h : register items s = .ok () s') :
    s.scopes.SameFrames s'.scopes := by
  have hguards : Guards (fun t => s.scopes.SameFrames t.scopes) (register items) :=
    moves_register (fun _ _ _ => trivial) (fun _ => moves_bindLabel
      (fun _ => moves_labelValue (fun _ ht => ht) fun _ _ _ _ _ _ ht => ht)
      (fun _ _ t _ _ _ hadd ht => by
        obtain ⟨-, -, rfl⟩ := Scopes.add_eq_ok_iff.mp hadd
        exact ht.trans (Scopes.sameFrames_bind t.scopes _ _ _))
      fun t ht => ht.trans (Scopes.sameFrames_markRegistered t.scopes _))
      items fun _ _ => trivial
  exact hguards h fun _ => rfl

section

variable {mid after : List Item} {line : Line} {t u : Session}

/-- What is registered behind a definition can be registered before it. -/
theorem register_later (h : register (.plain line .equ :: (mid ++ after)) s = .ok () t) :
    ∃ u, register (mid ++ .plain line .equ :: after) s = .ok () u ∧
      t.scopes.Reordered u.scopes := by
  rw [register] at h
  obtain ⟨_, s₁, hequ, h⟩ := bind_eq_ok.mp h
  rw [register_append] at h
  obtain ⟨_, s₂, hmid, hafter⟩ := bind_eq_ok.mp h
  obtain ⟨name, value, parent, _, hlabel, harguments, hparent, hadd, rfl⟩ := registerItem_equ.mp hequ
  obtain ⟨hname, hlacks, rfl⟩ := Scopes.add_eq_ok_iff.mp hadd
  have hahead : Ahead parent name value s.scopes
      ((s.scopes.bind parent name value).markRegistered line.scope) :=
    ⟨hlacks, Scopes.reordered_markRegistered _ _⟩
  obtain ⟨scopes₂, hahead₂, hmid'⟩ := (follows_behind.register hahead hmid).resolve_left id
  have hparent₂ : scopes₂.parent? line.scope = some parent :=
    ((sameFrames_register hmid').parent?_eq line.scope).trans hparent
  have hequ' : registerItem (.plain line .equ) { s₂ with scopes := scopes₂ } = .ok () _ :=
    registerItem_equ.mpr ⟨name, value, parent, _, hlabel, harguments, hparent₂,
      Scopes.add_eq_ok_iff.mpr ⟨hname, hahead₂.lacks, rfl⟩, rfl⟩
  obtain ⟨scopes, hreordered, hafter'⟩ := (follows_reordered.register
    (hahead₂.reordered.symm.trans (Scopes.reordered_markRegistered _ line.scope))
    hafter).resolve_left id
  refine ⟨{ t with scopes }, ?_, hreordered⟩
  rw [register_append, register]
  exact bind_eq_ok.mpr ⟨(), _, hmid', bind_eq_ok.mpr ⟨(), _, hequ', hafter'⟩⟩

/-- What is registered before a definition can be registered behind it. -/
theorem register_earlier (h : register (mid ++ .plain line .equ :: after) s = .ok () u) :
    ∃ t, register (.plain line .equ :: (mid ++ after)) s = .ok () t := by
  rw [register_append, register] at h
  obtain ⟨_, s₁, hmid, h⟩ := bind_eq_ok.mp h
  obtain ⟨_, s₂, hequ, hafter⟩ := bind_eq_ok.mp h
  obtain ⟨name, value, parent, _, hlabel, harguments, hparent, hadd, rfl⟩ := registerItem_equ.mp hequ
  obtain ⟨hname, hlacks, rfl⟩ := Scopes.add_eq_ok_iff.mp hadd
  have hframes := sameFrames_register hmid
  have hlacks₀ : s.scopes.Lacks parent name :=
    hframes.lacks (advances_register mid hmid).scopes hlacks
  have hequ' : registerItem (.plain line .equ) s = .ok () _ :=
    registerItem_equ.mpr ⟨name, value, parent, _, hlabel, harguments,
      (hframes.parent?_eq line.scope).symm.trans hparent,
      Scopes.add_eq_ok_iff.mpr ⟨hname, hlacks₀, rfl⟩, rfl⟩
  have hahead : Ahead parent name value s.scopes
      ((s.scopes.bind parent name value).markRegistered line.scope) :=
    ⟨hlacks₀, Scopes.reordered_markRegistered _ _⟩
  obtain ⟨scopes₁, hahead₁, hmid'⟩ := (follows_before.register hahead hmid).resolve_left
    fun ⟨v, hbinds⟩ => hlacks.not_binds v hbinds
  obtain ⟨scopes, -, hafter'⟩ := (follows_reordered.register
    ((Scopes.reordered_markRegistered _ line.scope).symm.trans hahead₁.reordered)
    hafter).resolve_left id
  refine ⟨{ u with scopes }, ?_⟩
  rw [register, register_append]
  exact bind_eq_ok.mpr ⟨(), _, hequ', bind_eq_ok.mpr ⟨(), _, hmid', hafter'⟩⟩

end

/-- Reading makes scopes, and none of them has a horizon. -/
theorem load_unlimited {library : Library} {origin : Origin} {source : Source}
    (h : origin.load (Session.new library) = .ok source s) : s.scopes.Unlimited := by
  have hpredefined : predefinedScopes.Unlimited := by
    rintro ⟨index⟩ scope hscope
    cases index with
    | zero =>
      cases hscope
      rfl
    | succ index => cases hscope
  have hunlimited : Scopes.Account (fun s _ => s.Unlimited) fun _ t lines =>
      t.Unlimited ∧ ∀ line ∈ lines, True :=
    .ofLines (fun hs => hs.create _) fun _ _ _ => trivial
  exact ((Origin.load_reads h).2.2.account hunlimited (hpredefined.create _)).1

/-- **A definition can stand in another place.** An `EQU` line of a source can be registered before or
    after other items: both succeed or none does. What is bound in the end differs in its order only, so
    every expression means the same. -/
theorem register_moved {library : Library} {origin : Origin} {source : Source}
    (hload : origin.load (Session.new library) = .ok source s) {before mid after : List Item}
    {line : Line} :
    ((∃ t, register (before ++ .plain line .equ :: (mid ++ after)) s = .ok () t) ↔
      ∃ u, register (before ++ (mid ++ .plain line .equ :: after)) s = .ok () u) ∧
    ∀ t u, register (before ++ .plain line .equ :: (mid ++ after)) s = .ok () t →
      register (before ++ (mid ++ .plain line .equ :: after)) s = .ok () u →
      ∀ e : Expr, e.resolve u.scopes = e.resolve t.scopes ∧
        e.integer u.scopes = e.integer t.scopes ∧ e.string u.scopes = e.string t.scopes := by
  rw [register_append, register_append]
  refine ⟨⟨?_, ?_⟩, ?_⟩
  · rintro ⟨t, h⟩
    obtain ⟨_, s₁, hbefore, h⟩ := bind_eq_ok.mp h
    obtain ⟨u, hu, -⟩ := register_later h
    exact ⟨u, bind_eq_ok.mpr ⟨(), s₁, hbefore, hu⟩⟩
  · rintro ⟨u, h⟩
    obtain ⟨_, s₁, hbefore, h⟩ := bind_eq_ok.mp h
    obtain ⟨t, ht⟩ := register_earlier h
    exact ⟨t, bind_eq_ok.mpr ⟨(), s₁, hbefore, ht⟩⟩
  · intro t u ht hu e
    obtain ⟨_, s₁, hbefore, ht⟩ := bind_eq_ok.mp ht
    rw [bind_apply_of_ok hbefore] at hu
    obtain ⟨u', hu', hreordered⟩ := register_later ht
    cases hu'.symm.trans hu
    have hunlimited := (sameFrames_register ht).unlimited
      ((sameFrames_register hbefore).unlimited (load_unlimited hload))
    exact hreordered.evaluates hunlimited e

end Assembly

end Z80Asm
