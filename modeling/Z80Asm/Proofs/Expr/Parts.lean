import Z80Asm.Proofs.Expr.Shape

/-!
# The parentheses that evaluation meets

Evaluation takes expressions apart and looks values up, but it puts nothing in parentheses that was
not in parentheses before. So all that it ever meets in parentheses stands so in the expression that
it started with or in a value that is bound, and there are only finitely many of these
(`Scopes.parts`).

The set is an upper bound and no more. Whether an evaluation gets to a part of it is not decided
here.
-/
set_option autoImplicit false

namespace Z80Asm

namespace Expr

mutual

/-- What stands in parentheses in an expression. -/
def enclosed : Expr → List Expr
  | unary _ operand => operand.enclosed
  | binary _ left right => left.enclosed ++ right.enclosed
  | ifElse cond onTrue onFalse => cond.enclosed ++ onTrue.enclosed ++ onFalse.enclosed
  | seq items => enclosedItems items
  | member object _ => object.enclosed
  | index sequence position => sequence.enclosed ++ position.enclosed
  | group inner => inner :: inner.enclosed
  | annotated _ inner => inner.enclosed
  | indexed _ offset => offset.enclosed
  | int _ | str _ | chr _ | ident _ _ | register _ | condition _ | context _ | space _ _
  | operation _ => []

def enclosedItems : List Expr → List Expr
  | [] => []
  | e :: rest => e.enclosed ++ enclosedItems rest

end

mutual

theorem length_enclosed : ∀ e : Expr, e.enclosed.length = e.groupCount
  | unary _ operand => length_enclosed operand
  | binary _ left right => by
    rw [enclosed, groupCount, List.length_append, length_enclosed, length_enclosed]
  | ifElse cond onTrue onFalse => by
    rw [enclosed, groupCount, List.length_append, List.length_append, length_enclosed,
      length_enclosed, length_enclosed]
  | seq items => length_enclosedItems items
  | member object _ => length_enclosed object
  | index sequence position => by
    rw [enclosed, groupCount, List.length_append, length_enclosed, length_enclosed]
  | group inner => congrArg (· + 1) (length_enclosed inner)
  | annotated _ inner => length_enclosed inner
  | indexed _ offset => length_enclosed offset
  | int _ | str _ | chr _ | ident _ _ | register _ | condition _ | context _ | space _ _
  | operation _ => rfl

theorem length_enclosedItems : ∀ items : List Expr,
    (enclosedItems items).length = groupCountItems items
  | [] => rfl
  | e :: rest => by
    rw [enclosedItems, groupCountItems, List.length_append, length_enclosed, length_enclosedItems]

end

mutual

theorem enclosed_subset {inner : Expr} : ∀ e : Expr, inner ∈ e.enclosed →
    inner.enclosed ⊆ e.enclosed
  | unary _ operand, h => enclosed_subset operand h
  | binary _ left right, h => by
    rcases List.mem_append.mp h with h | h
    · exact List.subset_append_of_subset_left _ (enclosed_subset left h)
    · exact List.subset_append_of_subset_right _ (enclosed_subset right h)
  | ifElse cond onTrue onFalse, h => by
    rcases List.mem_append.mp h with h | h
    · refine List.subset_append_of_subset_left _ ?_
      rcases List.mem_append.mp h with h | h
      · exact List.subset_append_of_subset_left _ (enclosed_subset cond h)
      · exact List.subset_append_of_subset_right _ (enclosed_subset onTrue h)
    · exact List.subset_append_of_subset_right _ (enclosed_subset onFalse h)
  | seq items, h => enclosedItems_subset items h
  | member object _, h => enclosed_subset object h
  | index sequence position, h => by
    rcases List.mem_append.mp h with h | h
    · exact List.subset_append_of_subset_left _ (enclosed_subset sequence h)
    · exact List.subset_append_of_subset_right _ (enclosed_subset position h)
  | group e, h => by
    cases h with
    | head => exact List.subset_cons_self _ _
    | tail _ h => exact List.subset_cons_of_subset _ (enclosed_subset e h)
  | annotated _ inner, h => enclosed_subset inner h
  | indexed _ offset, h => enclosed_subset offset h

theorem enclosedItems_subset {inner : Expr} : ∀ items : List Expr, inner ∈ enclosedItems items →
    inner.enclosed ⊆ enclosedItems items
  | e :: rest, h => by
    rcases List.mem_append.mp h with h | h
    · exact List.subset_append_of_subset_left _ (enclosed_subset e h)
    · exact List.subset_append_of_subset_right _ (enclosedItems_subset rest h)

end

theorem enclosed_subset_items {e : Expr} {items : List Expr} (h : e ∈ items) :
    e.enclosed ⊆ enclosedItems items := by
  induction items with
  | nil => cases h
  | cons first rest ih =>
    cases h with
    | head => exact List.subset_append_left _ _
    | tail _ h => exact List.subset_append_of_subset_right _ (ih h)

end Expr

/-! ## One step of evaluation -/

section

variable {Q : Type} {Reply : Q → Type} {good : Q → Prop} {fair : ∀ q, Reply q → Prop}
  {s : Scopes} {scopeOf : Expr → Inquiry Reply ScopeId} {number : Expr → Inquiry Reply Int64}
  {resolve : Expr → Inquiry Reply Expr} {opened : Nat → Expr → Inquiry Reply Expr}
  {parts : List Expr}

theorem asks_insideBy (hscope : ∀ v ∈ s.values, (scopeOf v).Asks good fair fun _ => True)
    (levels : Nat) (id : ScopeId) (name : String) (horizon : Option Nat) :
    (insideBy s scopeOf levels id name horizon).Asks good fair (· ∈ s.values) := by
  induction levels generalizing id name horizon with
  | zero => exact Inquiry.asks_failure
  | succ levels ih =>
    rw [insideBy]
    cases hid : s.get? id with
    | none => exact Inquiry.asks_failure
    | some scope =>
      have hfind : ∀ n h, ((scope.find? n h).getM : Inquiry Reply Expr).Asks good fair
          (· ∈ s.values) := fun _ _ => Inquiry.asks_getM fun _ hv => Scopes.mem_values hid hv
      refine (hfind _ _).orElse (.orElse (Inquiry.asks_firstM (fun split => ?_) _) ?_)
      · exact (hfind _ _).bind fun v hv => (hscope v hv).bind fun inner _ => ih _ _ _
      · exact (Inquiry.asks_getM fun _ _ => trivial).bind fun body _ => ih _ _ _

theorem asks_symbolBy (hscope : ∀ v ∈ s.values, (scopeOf v).Asks good fair fun _ => True)
    (id : ScopeId) (name : String) :
    (symbolBy s scopeOf id name).Asks good fair (· ∈ s.values) :=
  Inquiry.asks_firstM (fun _ => asks_insideBy hscope _ _ _ _) _

theorem enclosed_elementAt {target e : Expr} {position : Int64}
    (h : elementAt target position = .ok e) : e.enclosed ⊆ target.enclosed := by
  unfold elementAt at h
  split at h
  · cases h
  · dsimp only at h
    split at h
    · next found hfound =>
      cases h
      split at hfound
      · exact Expr.enclosed_subset_items (List.mem_of_getElem? hfound)
      · obtain ⟨byte, -, rfl⟩ := Option.map_eq_some_iff.mp hfound
        exact List.nil_subset _
      · split at hfound
        · cases hfound
          exact List.Subset.refl _
        · cases hfound
    · cases h

theorem enclosed_extended {op : BinaryOp} {reg : Cpu.Register} {offset right value e : Expr}
    (h : extended op reg offset right value = some e) :
    e.enclosed = offset.enclosed ++ right.enclosed := by
  unfold extended at h
  split at h
  · cases h
  · cases h
    rfl

theorem enclosed_addedTo {left value e : Expr} (h : addedTo left value = some e) :
    e.enclosed = left.enclosed := by
  unfold addedTo at h
  split at h
  · split at h
    · cases h
      rfl
    · cases h
  · cases h

theorem enclosed_foldIndex {op : BinaryOp} {left right leftValue rightValue e : Expr}
    (h : foldIndex op left right leftValue (fun _ => rightValue) = some e) :
    e.enclosed ⊆ leftValue.enclosed ++ (left.enclosed ++ right.enclosed) := by
  cases leftValue with
  | register reg =>
    rw [foldIndex_register] at h
    split at h
    · rw [enclosed_extended h]
      exact List.subset_append_right _ _
    · cases h
  | indexed reg offset =>
    rw [enclosed_extended h]
    exact List.append_subset.mpr ⟨List.subset_append_left _ _,
      List.subset_append_of_subset_right _ (List.subset_append_right _ _)⟩
  | _ =>
    rw [foldIndex_other (by simp) (by simp)] at h
    split at h
    · rw [enclosed_addedTo h]
      exact List.subset_append_of_subset_right _ (List.subset_append_left _ _)
    · cases h

theorem asks_ungroupedBy {e : Expr} (hresolve : (resolve e).Asks good fair (·.enclosed ⊆ parts))
    (hopened : ∀ turns (e : Expr), (Expr.group e).enclosed ⊆ parts →
      (opened turns e).Asks good fair (·.enclosed ⊆ parts)) :
    (ungroupedBy s resolve opened e).Asks good fair (·.enclosed ⊆ parts) := by
  refine hresolve.bind fun v hv => ?_
  split
  · exact hopened _ _ hv
  · exact Inquiry.asks_pure hv

theorem asks_resolveBy (hscope : ∀ v ∈ s.values, (scopeOf v).Asks good fair fun _ => True)
    (hvalues : ∀ v ∈ s.values, v.enclosed ⊆ parts)
    (hnumber : ∀ c : Expr, c.enclosed ⊆ parts → (number c).Asks good fair fun _ => True)
    (hresolve : ∀ e : Expr, e.enclosed ⊆ parts → (resolve e).Asks good fair (·.enclosed ⊆ parts))
    (hopened : ∀ turns (e : Expr), (Expr.group e).enclosed ⊆ parts →
      (opened turns e).Asks good fair (·.enclosed ⊆ parts))
    (e : Expr) (he : e.enclosed ⊆ parts) :
    (resolveBy s scopeOf number resolve opened e).Asks good fair (·.enclosed ⊆ parts) := by
  have hgo : ∀ v ∈ s.values, (resolve v).Asks good fair (·.enclosed ⊆ parts) :=
    fun v hv => hresolve v (hvalues v hv)
  cases e with
  | ident name scope => exact (asks_symbolBy hscope _ _).bind hgo
  | member object name =>
    exact (hresolve object he).bind fun v _ =>
      (Inquiry.asks_getM fun _ _ => trivial).bind fun _ _ => (asks_insideBy hscope _ _ _ _).bind hgo
  | index sequence position =>
    obtain ⟨hsequence, hposition⟩ := List.append_subset.mp he
    refine (hnumber position hposition).bind fun position _ => ?_
    refine (asks_ungroupedBy (hresolve sequence hsequence) hopened).bind fun target htarget => ?_
    have helement : ((elementAt target position).toOption.getM : Inquiry Reply Expr).Asks good fair
        (·.enclosed ⊆ parts) := Inquiry.asks_getM fun v hv =>
      List.Subset.trans (enclosed_elementAt (eq_ok_of_toOption hv)) htarget
    exact helement.bind hresolve
  | ifElse cond onTrue onFalse =>
    obtain ⟨h, hfalse⟩ := List.append_subset.mp he
    obtain ⟨hcond, htrue⟩ := List.append_subset.mp h
    refine (hnumber cond hcond).bind fun v _ => ?_
    split
    · exact hresolve onTrue htrue
    · exact hresolve onFalse hfalse
  | binary op left right =>
    obtain ⟨hleft, hright⟩ := List.append_subset.mp he
    rw [resolveBy]
    split
    · refine (hresolve left hleft).bind fun leftValue hvalue => ?_
      split
      · refine ((hresolve right hright).orElse (Inquiry.asks_pure hright)).bind fun v _ => ?_
        refine Inquiry.asks_pure ?_
        cases hfold : foldIndex op left right leftValue fun _ => v with
        | none => exact he
        | some e =>
          exact List.Subset.trans (enclosed_foldIndex hfold) (List.append_subset.mpr ⟨hvalue, he⟩)
      · exact Inquiry.asks_pure he
    · exact Inquiry.asks_pure he
  | _ => exact Inquiry.asks_pure he

theorem asks_numberBy (hscope : ∀ v ∈ s.values, (scopeOf v).Asks good fair fun _ => True)
    (hvalues : ∀ v ∈ s.values, v.enclosed ⊆ parts)
    (hnumber : ∀ c : Expr, c.enclosed ⊆ parts → (number c).Asks good fair fun _ => True)
    (hresolve : ∀ e : Expr, e.enclosed ⊆ parts → (resolve e).Asks good fair (·.enclosed ⊆ parts))
    (e : Expr) (he : e.enclosed ⊆ parts) :
    (numberBy s scopeOf number resolve e).Asks good fair fun _ => True := by
  have haddress : ∀ scope, (do return Int64.ofNat (← (s.address scope).toOption.getM).toNat :
      Inquiry Reply Int64).Asks good fair fun _ => True := fun _ =>
    (Inquiry.asks_getM fun _ _ => trivial).bind fun _ _ => Inquiry.asks_pure trivial
  cases e with
  | int value => exact Inquiry.asks_pure trivial
  | chr byte => exact Inquiry.asks_pure trivial
  | str bytes =>
    match bytes with
    | ⟨[]⟩ => exact Inquiry.asks_failure
    | ⟨[byte]⟩ => exact Inquiry.asks_pure trivial
    | ⟨_ :: _ :: _⟩ => exact Inquiry.asks_failure
  | ident name scope =>
    exact (asks_symbolBy hscope _ _).bind fun v hv => hnumber v (hvalues v hv)
  | unary op operand => exact (hnumber operand he).bind fun _ _ => Inquiry.asks_pure trivial
  | binary op left right =>
    obtain ⟨hleft, hright⟩ := List.append_subset.mp he
    exact (hnumber left hleft).bind fun _ _ => (hnumber right hright).bind fun _ _ =>
      Inquiry.asks_getM fun _ _ => trivial
  | ifElse cond onTrue onFalse =>
    obtain ⟨h, hfalse⟩ := List.append_subset.mp he
    obtain ⟨hcond, htrue⟩ := List.append_subset.mp h
    refine (hnumber cond hcond).bind fun v _ => ?_
    split
    · exact hnumber onTrue htrue
    · exact hnumber onFalse hfalse
  | group inner => exact hnumber inner (List.cons_subset.mp he).2
  | member object name => exact (hresolve _ he).bind hnumber
  | index sequence position => exact (hresolve _ he).bind hnumber
  | context scope => exact haddress scope
  | space id scope => exact haddress scope
  | _ => exact Inquiry.asks_failure

end

/-! ## All of evaluation -/

/-- What is in parentheses in an expression or in a bound value. -/
def Scopes.parts (s : Scopes) (e : Expr) : List Expr :=
  e.enclosed ++ s.values.flatMap Expr.enclosed

theorem Scopes.values_subset_parts (s : Scopes) (e : Expr) :
    ∀ v ∈ s.values, v.enclosed ⊆ s.parts e := by
  intro v hv inner hinner
  exact List.mem_append_right _ (List.mem_flatMap.mpr ⟨v, hv, hinner⟩)

theorem Scopes.parts_subset_parts {s : Scopes} {e e' : Expr} (h : e'.enclosed ⊆ s.parts e) :
    s.parts e' ⊆ s.parts e :=
  List.append_subset.mpr ⟨h, List.subset_append_right _ _⟩

theorem Scopes.parts_closed {s : Scopes} {e inner : Expr} (h : inner ∈ s.parts e) :
    inner.enclosed ⊆ s.parts e := by
  rcases List.mem_append.mp h with h | h
  · exact List.subset_append_of_subset_left _ (Expr.enclosed_subset e h)
  · obtain ⟨v, hv, hinner⟩ := List.mem_flatMap.mp h
    exact List.Subset.trans (Expr.enclosed_subset v hinner) (s.values_subset_parts e v hv)

theorem Scopes.parts_subset {s : Scopes} {e inner : Expr} (h : inner ∈ s.parts e) :
    s.parts inner ⊆ s.parts e :=
  List.append_subset.mpr ⟨parts_closed h, List.subset_append_right _ _⟩

/-- **What evaluation comes to holds no other parentheses than those it met.** -/
theorem enclosed_resolveAt {s : Scopes} {links steps : Nat} {e v : Expr}
    (h : resolveAt s (scopeThrough s links) steps e = .ok v) : v.enclosed ⊆ s.parts e := by
  have hasks : ∀ e' : Expr, e'.enclosed ⊆ s.parts e →
      (Shaping.resolveAt s links (fun v => (scopeThrough s links v).getM) steps e').Asks
        (fun _ => True) (fun _ _ => True) (·.enclosed ⊆ s.parts e) := by
    clear h
    induction steps with
    | zero => exact fun _ _ => Inquiry.asks_failure
    | succ steps ih =>
      refine asks_resolveBy (fun v _ => Inquiry.asks_getM fun _ _ => trivial)
        (s.values_subset_parts e) (fun c _ => ⟨trivial, fun _ _ _ _ => trivial⟩) ih ?_
      intro turns inner hinner
      replace hinner := (List.cons_subset.mp hinner).2
      induction turns generalizing inner with
      | zero => exact Inquiry.asks_failure
      | succ turns ih' =>
        refine (ih inner hinner).bind fun v hv => ?_
        split
        · exact ih' _ (List.cons_subset.mp hv).2
        · exact Inquiry.asks_pure hv
  have hrun := Dialogue.settle_some s.decides
    (Shaping.resolveAt s links (fun v => (scopeThrough s links v).getM) steps e).run
  have hyields := yields_resolveAt s (fun v => Inquiry.yields_getM _) steps e _ hrun
  refine (hasks e (List.subset_append_left _ _)).of_settle (fun _ _ _ _ => trivial) hrun v ?_
  rw [← hyields, h]
  rfl

end Z80Asm
