import Z80Asm.Error.Report
import Z80Asm.Expr.Eval

/-!
# Expressions that differ in where they read their names

Two expressions are alike if they differ in the scopes of their names only, and every name is the
same symbol in both scopes. Alike expressions evaluate alike: to the same number, the same string,
or failures that are reported in the same words. (The failures themselves can hold the expressions,
and so the scopes.)

Equality would be too much to ask. The argument of a macro and the value of an `EQU` are read in
different scopes, and these stay in what evaluation gives.

The induction is on the number of steps, and takes resolving and computing together: numbers are
computed of what names stand for, and conditions are numbers.
-/
set_option autoImplicit false

namespace Z80Asm

/-! ## Outcomes that agree -/

/-- Both are results, and related, or both are failures that are reported in the same words. -/
def Agree {α β : Type} (R : α → β → Prop) : Except Cause α → Except Cause β → Prop
  | .ok a, .ok b => R a b
  | .error c, .error c' => c.summary = c'.summary
  | _, _ => False

namespace Agree

variable {α β γ δ : Type}

theorem refl {R : α → α → Prop} (hR : ∀ a, R a a) (x : Except Cause α) : Agree R x x := by
  cases x with
  | ok a => exact hR a
  | error c => rfl

theorem bind {R : α → β → Prop} {Q : γ → δ → Prop} {x : Except Cause α} {y : Except Cause β}
    {f : α → Except Cause γ} {g : β → Except Cause δ} (hxy : Agree R x y)
    (hfg : ∀ a b, R a b → Agree Q (f a) (g b)) : Agree Q (x >>= f) (y >>= g) := by
  cases x with
  | ok a =>
    cases y with
    | ok b => exact hfg a b hxy
    | error c => exact hxy.elim
  | error c =>
    cases y with
    | ok b => exact hxy.elim
    | error c' => exact hxy

theorem mapError_eq {x y : Except Cause α} (h : Agree Eq x y) :
    x.mapError Cause.summary = y.mapError Cause.summary := by
  cases x with
  | ok a =>
    cases y with
    | ok b => exact congrArg Except.ok h
    | error c => exact h.elim
  | error c =>
    cases y with
    | ok b => exact h.elim
    | error c' => exact congrArg Except.error h

end Agree

/-! ## Expressions -/

/-- Expressions that differ in the scopes of their names only, where every name is the same symbol
    from both. -/
inductive Expr.Alike (s : Scopes) : Expr → Expr → Prop
  | refl (e : Expr) : Alike s e e
  | name {n : String} {a b : ScopeId} : s.symbol a n = s.symbol b n →
      Alike s (.ident n a) (.ident n b)
  | unary {e e' : Expr} (op : UnaryOp) : Alike s e e' → Alike s (.unary op e) (.unary op e')
  | binary {l l' r r' : Expr} (op : BinaryOp) : Alike s l l' → Alike s r r' →
      Alike s (.binary op l r) (.binary op l' r')
  | ifElse {c c' t t' f f' : Expr} : Alike s c c' → Alike s t t' → Alike s f f' →
      Alike s (.ifElse c t f) (.ifElse c' t' f')
  | seq {items items' : List Expr} : items.length = items'.length →
      (∀ (i : Nat) (e e' : Expr), items[i]? = some e → items'[i]? = some e' → Alike s e e') →
      Alike s (.seq items) (.seq items')
  | member {e e' : Expr} (n : String) : Alike s e e' → Alike s (.member e n) (.member e' n)
  | index {e e' i i' : Expr} : Alike s e e' → Alike s i i' →
      Alike s (.index e i) (.index e' i')
  | group {e e' : Expr} : Alike s e e' → Alike s (.group e) (.group e')
  | annotated {e e' : Expr} (word : String) : Alike s e e' →
      Alike s (.annotated word e) (.annotated word e')
  | indexed {e e' : Expr} (reg : Cpu.Register) : Alike s e e' →
      Alike s (.indexed reg e) (.indexed reg e')

namespace Expr

theorem displayItems_congr {items items' : List Expr}
    (h : items.map display = items'.map display) : displayItems items = displayItems items' := by
  induction items generalizing items' with
  | nil =>
    cases items' with
    | nil => rfl
    | cons e' rest' => cases h
  | cons e rest ih =>
    cases items' with
    | nil => cases h
    | cons e' rest' =>
      obtain ⟨he, hrest⟩ := List.cons.inj h
      cases rest with
      | nil =>
        cases rest' with
        | nil => simpa [displayItems] using he
        | cons _ _ => cases hrest
      | cons f more =>
        cases rest' with
        | nil => cases hrest
        | cons f' more' => simp only [displayItems, he, ih hrest]

theorem groupCountItems_congr {items items' : List Expr}
    (h : items.map groupCount = items'.map groupCount) :
    groupCountItems items = groupCountItems items' := by
  induction items generalizing items' with
  | nil =>
    cases items' with
    | nil => rfl
    | cons e' rest' => cases h
  | cons e rest ih =>
    cases items' with
    | nil => cases h
    | cons e' rest' =>
      obtain ⟨he, hrest⟩ := List.cons.inj h
      simp only [groupCountItems, he, ih hrest]

/-- Lists of the same length on whose items a function agrees, item by item. -/
theorem map_congr_of_getElem? {α β : Type} {f : α → β} {xs ys : List α}
    (hlen : xs.length = ys.length)
    (h : ∀ (i : Nat) (x y : α), xs[i]? = some x → ys[i]? = some y → f x = f y) :
    xs.map f = ys.map f := by
  apply List.ext_getElem?
  intro i
  rw [List.getElem?_map, List.getElem?_map]
  by_cases hi : i < xs.length
  · have hi' : i < ys.length := hlen ▸ hi
    rw [List.getElem?_eq_getElem hi, List.getElem?_eq_getElem hi']
    exact congrArg some (h i _ _ (List.getElem?_eq_getElem hi) (List.getElem?_eq_getElem hi'))
  · rw [List.getElem?_eq_none (by omega), List.getElem?_eq_none (by omega)]

namespace Alike

variable {s : Scopes} {e e' : Expr}

theorem display_eq (h : Alike s e e') : e.display = e'.display := by
  induction h with
  | refl e => rfl
  | name h => rfl
  | unary op _ ih => simp only [display, ih]
  | binary op _ _ ihl ihr => simp only [display, ihl, ihr]
  | ifElse _ _ _ ihc iht ihf => simp only [display, ihc, iht, ihf]
  | seq hlen _ ih =>
    simp only [display]
    exact displayItems_congr (map_congr_of_getElem? hlen ih)
  | member n _ ih => simp only [display, ih]
  | index _ _ ihe ihi => simp only [display, ihe, ihi]
  | group _ ih => simp only [display, ih]
  | annotated word _ ih => simp only [display, ih]
  | indexed reg _ ih => simp only [display, ih]

theorem groupCount_eq (h : Alike s e e') : e.groupCount = e'.groupCount := by
  induction h with
  | refl e => rfl
  | name h => rfl
  | unary op _ ih => simp only [groupCount, ih]
  | binary op _ _ ihl ihr => simp only [groupCount, ihl, ihr]
  | ifElse _ _ _ ihc iht ihf => simp only [groupCount, ihc, iht, ihf]
  | seq hlen _ ih =>
    simp only [groupCount]
    exact groupCountItems_congr (map_congr_of_getElem? hlen ih)
  | member n _ ih => simp only [groupCount, ih]
  | index _ _ ihe ihi => simp only [groupCount, ihe, ihi]
  | group _ ih => simp only [groupCount, ih]
  | annotated word _ ih => simp only [groupCount, ih]
  | indexed reg _ ih => simp only [groupCount, ih]

theorem contextScope?_eq (h : Alike s e e') : e.contextScope? = e'.contextScope? := by
  cases h <;> rfl

theorem isRegisterLike_eq (h : Alike s e e') : e.isRegisterLike = e'.isRegisterLike := by
  cases h <;> rfl

/-- Only the same register is like a register. -/
theorem register_iff {reg : Cpu.Register} (h : Alike s e e') :
    e = .register reg ↔ e' = .register reg := by
  cases h with
  | refl => exact Iff.rfl
  | _ => simp

/-- Only a displacement of the same register is like a displacement. -/
theorem indexed_cases (h : Alike s e e') :
    (∃ reg offset offset', e = .indexed reg offset ∧ e' = .indexed reg offset' ∧
      Alike s offset offset') ∨
    ((∀ reg offset, e ≠ .indexed reg offset) ∧ ∀ reg offset, e' ≠ .indexed reg offset) := by
  cases h with
  | refl e =>
    cases e with
    | indexed reg offset => exact .inl ⟨reg, offset, offset, rfl, rfl, .refl _⟩
    | _ => exact .inr (by simp)
  | indexed reg h => exact .inl ⟨reg, _, _, rfl, rfl, h⟩
  | _ => exact .inr (by simp)

end Alike

end Expr

/-! ## Index registers with displacements -/

section

variable {op : BinaryOp} {l r lv : Expr} {rv : Unit → Expr} {reg : Cpu.Register}

/-- What a register or displacement on the left becomes. -/
def extended (op : BinaryOp) (reg : Cpu.Register) (offset right value : Expr) : Option Expr :=
  if value.isRegisterLike then none else some (.indexed reg (.binary op offset right))

/-- What an index register on the right becomes. -/
def addedTo (left : Expr) : Expr → Option Expr
  | .register reg => if reg.isIndex then some (.indexed reg left) else none
  | _ => none

theorem foldIndex_register : foldIndex op l r (.register reg) rv =
    if reg.isIndex then extended op reg (.int 0) r (rv ()) else none := by
  unfold foldIndex
  cases op <;> rfl

theorem foldIndex_indexed {offset : Expr} :
    foldIndex op l r (.indexed reg offset) rv = extended op reg offset r (rv ()) :=
  rfl

theorem foldIndex_other (hreg : ∀ reg, lv ≠ .register reg)
    (hindexed : ∀ reg offset, lv ≠ .indexed reg offset) : foldIndex op l r lv rv =
      if op = .add ∧ lv.isRegisterLike = false then addedTo l (rv ()) else none := by
  cases lv with
  | register reg => exact absurd rfl (hreg reg)
  | indexed reg offset => exact absurd rfl (hindexed reg offset)
  | _ => cases op <;> rfl

end

/-! ## Positions and parentheses -/

/-- Neither a list nor a string, and so its own element. -/
def Expr.IsSingle : Expr → Prop
  | .seq _ | .str _ => False
  | _ => True

theorem elementAt_single {e : Expr} (h : e.IsSingle) (position : Int64) :
    elementAt e position =
      if position < 0 then .error (.indexOutOfRange position)
      else if position.toInt.toNat = 0 then .ok e else .error (.indexOutOfRange position) := by
  unfold elementAt
  split
  · rfl
  cases e with
  | seq items => exact h.elim
  | str bytes => exact h.elim
  | _ =>
    by_cases hzero : position.toInt.toNat = 0
    · simp only [hzero, if_true]
    · simp only [hzero, if_false]

theorem unwrap_of_ne_group {resolve : Expr → Except Cause Expr} {fuel : Nat} {e : Expr}
    (h : ∀ f, e ≠ .group f) : unwrap resolve fuel e = .ok e := by
  rw [unwrap.eq_def]
  split
  · exact absurd rfl (h _)
  · rfl

theorem resolveUngrouped_eq (s : Scopes) (resolve : Expr → Except Cause Expr) (e : Expr) :
    resolveUngrouped s resolve e = resolve e >>= unwrap resolve (s.groups + e.groupCount + 1) := by
  refine bind_congr fun v => ?_
  cases v <;> rfl

namespace Expr.Alike

variable {s : Scopes} {d d' : Expr}

theorem extended {offset offset' r r' v v' : Expr} (op : BinaryOp) (reg : Cpu.Register)
    (hoffset : Alike s offset offset') (hr : Alike s r r') (hv : Alike s v v') (hd : Alike s d d') :
    Alike s ((Z80Asm.extended op reg offset r v).getD d)
      ((Z80Asm.extended op reg offset' r' v').getD d') := by
  unfold Z80Asm.extended
  rw [hv.isRegisterLike_eq]
  split
  · exact hd
  · exact .indexed reg (.binary op hoffset hr)

theorem addedTo {l l' v v' : Expr} (hl : Alike s l l') (hv : Alike s v v') (hd : Alike s d d') :
    Alike s ((Z80Asm.addedTo l v).getD d) ((Z80Asm.addedTo l' v').getD d') := by
  cases hv with
  | refl v =>
    unfold Z80Asm.addedTo
    split
    · split
      · exact .indexed _ hl
      · exact hd
    · exact hd
  | _ => exact hd

/-- Adding to an index register is alike on both sides. -/
theorem foldIndex {l l' r r' lv lv' : Expr} {rv rv' : Unit → Expr} (op : BinaryOp)
    (hl : Alike s l l') (hr : Alike s r r') (hlv : Alike s lv lv')
    (hrv : Alike s (rv ()) (rv' ())) :
    Alike s ((Z80Asm.foldIndex op l r lv rv).getD (.binary op l r))
      ((Z80Asm.foldIndex op l' r' lv' rv').getD (.binary op l' r')) := by
  have hsum : Alike s (.binary op l r) (.binary op l' r') := .binary op hl hr
  by_cases hreg : ∃ reg, lv = .register reg
  · obtain ⟨reg, rfl⟩ := hreg
    cases hlv.register_iff.mp rfl
    rw [foldIndex_register, foldIndex_register]
    split
    · exact .extended op reg (.refl _) hr hrv hsum
    · exact hsum
  rcases hlv.indexed_cases with ⟨reg, offset, offset', rfl, rfl, hoffset⟩ | ⟨hnot, hnot'⟩
  · rw [foldIndex_indexed, foldIndex_indexed]
    exact .extended op reg hoffset hr hrv hsum
  · have hplain : ∀ reg, lv ≠ .register reg := fun reg h => hreg ⟨reg, h⟩
    have hplain' : ∀ reg, lv' ≠ .register reg := fun reg h => hreg ⟨reg, hlv.register_iff.mpr h⟩
    rw [foldIndex_other hplain hnot, foldIndex_other hplain' hnot', hlv.isRegisterLike_eq]
    split
    · exact .addedTo hl hrv hsum
    · exact hsum

/-! ## Evaluation -/

variable {e e' : Expr}

/-- Failures about alike expressions are reported in the same words. -/
theorem notInteger (h : Alike s e e') :
    (Cause.notInteger e).summary = (Cause.notInteger e').summary := by
  show (⟨_, "Not an integer: " ++ e.display⟩ : Summary) = ⟨_, "Not an integer: " ++ e'.display⟩
  rw [h.display_eq]
  rfl

theorem notString (h : Alike s e e') :
    (Cause.notString e).summary = (Cause.notString e').summary := by
  show (⟨_, "Not a string: " ++ e.display⟩ : Summary) = ⟨_, "Not a string: " ++ e'.display⟩
  rw [h.display_eq]
  rfl

theorem toOption_getD {x x' : Except Cause Expr} (hx : Agree (Alike s) x x') (hd : Alike s d d') :
    Alike s (x.toOption.getD d) (x'.toOption.getD d') := by
  cases x with
  | ok a =>
    cases x' with
    | ok a' => exact hx
    | error c' => exact hx.elim
  | error c =>
    cases x' with
    | ok a' => exact hx.elim
    | error c' => exact hd

/-- Alike expressions that are not the same are lists, or neither lists nor strings. -/
theorem list_cases (h : Alike s e e') : e = e' ∨
    (∃ items items', e = .seq items ∧ e' = .seq items' ∧ items.length = items'.length ∧
      ∀ (i : Nat) (f f' : Expr), items[i]? = some f → items'[i]? = some f' → Alike s f f') ∨
    (e.IsSingle ∧ e'.IsSingle) := by
  cases h with
  | refl e => exact .inl rfl
  | seq hlen h => exact .inr (.inl ⟨_, _, rfl, rfl, hlen, h⟩)
  | _ => exact .inr (.inr ⟨trivial, trivial⟩)

theorem elementAt (h : Alike s e e') (position : Int64) :
    Agree (Alike s) (Z80Asm.elementAt e position) (Z80Asm.elementAt e' position) := by
  rcases h.list_cases with rfl | ⟨items, items', rfl, rfl, hlen, hitems⟩ | ⟨hsingle, hsingle'⟩
  · exact .refl .refl _
  · unfold Z80Asm.elementAt
    split
    · rfl
    dsimp only
    by_cases hi : position.toInt.toNat < items.length
    · have hi' : position.toInt.toNat < items'.length := hlen ▸ hi
      rw [List.getElem?_eq_getElem hi, List.getElem?_eq_getElem hi']
      exact hitems _ _ _ (List.getElem?_eq_getElem hi) (List.getElem?_eq_getElem hi')
    · rw [List.getElem?_eq_none (by omega), List.getElem?_eq_none (by omega)]
      rfl
  · rw [elementAt_single hsingle, elementAt_single hsingle']
    split
    · rfl
    split
    · exact h
    · rfl

theorem group_cases (h : Alike s e e') :
    (∃ f f', e = .group f ∧ e' = .group f' ∧ Alike s f f') ∨
    ((∀ f, e ≠ .group f) ∧ ∀ f, e' ≠ .group f) := by
  cases h with
  | refl e =>
    cases e with
    | group f => exact .inl ⟨f, f, rfl, rfl, .refl f⟩
    | _ => exact .inr (by simp)
  | group h => exact .inl ⟨_, _, rfl, rfl, h⟩
  | _ => exact .inr (by simp)

/-- Work on expressions that treats alike ones alike. -/
def Respected (s : Scopes) {α : Type} (R : α → α → Prop) (f : Expr → Except Cause α) : Prop :=
  ∀ {e e' : Expr}, Alike s e e' → Agree R (f e) (f e')

theorem unwrap {resolve : Expr → Except Cause Expr} (hresolve : Respected s (Alike s) resolve)
    (fuel : Nat) : Respected s (Alike s) (Z80Asm.unwrap resolve fuel) := by
  intro e e' h
  induction fuel generalizing e e' with
  | zero =>
    rcases h.group_cases with ⟨f, f', rfl, rfl, -⟩ | ⟨hnot, hnot'⟩
    · rfl
    · rw [unwrap_of_ne_group hnot, unwrap_of_ne_group hnot']
      exact h
  | succ fuel ih =>
    rcases h.group_cases with ⟨f, f', rfl, rfl, hf⟩ | ⟨hnot, hnot'⟩
    · exact Agree.bind (hresolve hf) fun _ _ hv => ih hv
    · rw [unwrap_of_ne_group hnot, unwrap_of_ne_group hnot']
      exact h

theorem resolveUngrouped {resolve : Expr → Except Cause Expr}
    (hresolve : Respected s (Alike s) resolve) :
    Respected s (Alike s) (Z80Asm.resolveUngrouped s resolve) := by
  intro e e' h
  rw [resolveUngrouped_eq, resolveUngrouped_eq, h.groupCount_eq]
  exact Agree.bind (hresolve h) fun _ _ hv => unwrap hresolve _ hv

section

variable {steps : Nat} (hresolve : Respected s (Alike s) (resolveAt s s.scopeOf steps))
  (hinteger : Respected s Eq (integerAt s s.scopeOf steps))

include hresolve hinteger

theorem resolveAt_succ : Respected s (Alike s) (resolveAt s s.scopeOf (steps + 1)) := by
  intro e e' h
  cases h with
  | refl e => exact .refl .refl _
  | name h =>
    simp only [resolveAt]
    rw [show symbolValue s s.scopeOf _ _ = symbolValue s s.scopeOf _ _ from h]
    exact .refl .refl _
  | unary op h => exact .unary op h
  | binary op hl hr =>
    simp only [resolveAt]
    -- Only a sum or a difference can stand for an indexed operand.
    split
    · exact Agree.bind (hresolve hl) fun lv lv' hlv =>
        .foldIndex op hl hr hlv (.toOption_getD (hresolve hr) hr)
    · exact .binary op hl hr
  | ifElse hc ht hf =>
    refine Agree.bind (hinteger hc) fun v v' hv => ?_
    subst hv
    split
    · exact hresolve ht
    · exact hresolve hf
  | seq hlen h => exact .seq hlen h
  | member n h =>
    refine Agree.bind (hresolve h) fun v v' hv => ?_
    rw [hv.contextScope?_eq]
    exact .refl .refl _
  | index he hi =>
    refine Agree.bind (hinteger hi) fun v v' hv => ?_
    subst hv
    exact Agree.bind (resolveUngrouped hresolve he) fun target target' htarget =>
      Agree.bind (elementAt htarget v) fun f f' hf => hresolve hf
  | group h => exact .group h
  | annotated word h => exact .annotated word h
  | indexed reg h => exact .indexed reg h

theorem integerAt_succ : Respected s Eq (integerAt s s.scopeOf (steps + 1)) := by
  intro e e' h
  cases h with
  | refl e => exact .refl (fun _ => rfl) _
  | name h =>
    simp only [integerAt]
    rw [show symbolValue s s.scopeOf _ _ = symbolValue s s.scopeOf _ _ from h]
    exact .refl (fun _ => rfl) _
  | unary op h =>
    refine Agree.bind (hinteger h) fun v v' hv => ?_
    subst hv
    rfl
  | binary op hl hr =>
    refine Agree.bind (hinteger hl) fun v v' hv => Agree.bind (hinteger hr) fun w w' hw => ?_
    subst hv hw
    exact .refl (fun _ => rfl) _
  | ifElse hc ht hf =>
    refine Agree.bind (hinteger hc) fun v v' hv => ?_
    subst hv
    split
    · exact hinteger ht
    · exact hinteger hf
  | seq hlen h => exact notInteger (.seq hlen h)
  | member n h => exact Agree.bind (hresolve (.member n h)) fun v v' hv => hinteger hv
  | index he hi => exact Agree.bind (hresolve (.index he hi)) fun v v' hv => hinteger hv
  | group h => exact hinteger h
  | annotated word h => exact notInteger (.annotated word h)
  | indexed reg h => exact notInteger (.indexed reg h)

end

/-- **Alike expressions stand for alike ones and denote the same number.** -/
theorem eval (steps : Nat) : Respected s (Alike s) (resolveAt s s.scopeOf steps) ∧
    Respected s Eq (integerAt s s.scopeOf steps) := by
  induction steps with
  | zero => exact ⟨fun _ => rfl, fun _ => rfl⟩
  | succ steps ih =>
    obtain ⟨hresolve, hinteger⟩ := ih
    exact ⟨resolveAt_succ hresolve hinteger, integerAt_succ hresolve hinteger⟩

end Expr.Alike

namespace Expr

/-! ## Outcomes of names -/

/-- Two expressions give the same number and the same string, and are strings or not alike;
    where they fail, it is reported in the same words. -/
structure SameOutcome (s : Scopes) (e e' : Expr) : Prop where
  integer : (e.integer s).mapError Cause.summary = (e'.integer s).mapError Cause.summary
  string : (e.string s).mapError Cause.summary = (e'.string s).mapError Cause.summary
  isString : e.isString s = e'.isString s

variable {s : Scopes} {p q : String} {a b : ScopeId} {v v' : Expr}

theorem resolve_ident (h : s.symbol a p = .ok v) :
    (ident p a).resolve s = resolveAt s s.scopeOf maxDepth v := by
  show symbolValue s s.scopeOf a p >>= resolveAt s s.scopeOf maxDepth = _
  rw [show symbolValue s s.scopeOf a p = .ok v from h]
  rfl

theorem integer_ident (h : s.symbol a p = .ok v) :
    (ident p a).integer s = integerAt s s.scopeOf maxDepth v := by
  show symbolValue s s.scopeOf a p >>= integerAt s s.scopeOf maxDepth = _
  rw [show symbolValue s s.scopeOf a p = .ok v from h]
  rfl

/-- The bytes of an expression that is a string as it stands. -/
def bytesOf : Expr → Except Cause (List UInt8)
  | str bytes => .ok bytes
  | value => .error (.notString value)

theorem string_eq (s : Scopes) (e : Expr) :
    e.string s = resolveUngrouped s (resolve s) e >>= bytesOf := by
  refine bind_congr fun v => ?_
  cases v <;> rfl

theorem Alike.bytesOf {e e' : Expr} (h : Alike s e e') : Agree Eq e.bytesOf e'.bytesOf := by
  have hsummary := h.notString
  cases h with
  | refl e => exact .refl (fun _ => rfl) _
  | _ => exact hsummary

/-- Names of alike values have the same outcome. -/
theorem sameOutcome_of_symbols (hp : s.symbol a p = .ok v) (hq : s.symbol b q = .ok v')
    (hv : Alike s v v') : SameOutcome s (.ident p a) (.ident q b) := by
  have hresolve : Agree (Alike s) ((ident p a).resolve s) ((ident q b).resolve s) := by
    rw [resolve_ident hp, resolve_ident hq]
    exact (Alike.eval maxDepth).1 hv
  have hungrouped : Agree (Alike s) (resolveUngrouped s (resolve s) (ident p a))
      (resolveUngrouped s (resolve s) (ident q b)) := by
    rw [resolveUngrouped_eq, resolveUngrouped_eq]
    exact Agree.bind hresolve fun _ _ hw => Alike.unwrap (Alike.eval (maxDepth + 1)).1 _ hw
  refine ⟨?_, ?_, ?_⟩
  · rw [integer_ident hp, integer_ident hq]
    exact ((Alike.eval maxDepth).2 hv).mapError_eq
  · rw [string_eq, string_eq]
    exact Agree.mapError_eq (Agree.bind hungrouped fun _ _ hw => hw.bytesOf)
  · unfold isString
    revert hresolve
    cases (ident p a).resolve s with
    | ok w =>
      cases (ident q b).resolve s with
      | ok w' => intro hw; cases hw <;> rfl
      | error c => exact False.elim
    | error c =>
      cases (ident q b).resolve s with
      | ok w' => exact False.elim
      | error c' => exact fun _ => rfl

/-! ## Reading an expression in another scope -/

mutual

/-- The expression with the names that it reads in one scope read in another. -/
def reread (a b : ScopeId) : Expr → Expr
  | ident name scope => ident name (if scope = a then b else scope)
  | unary op operand => unary op (operand.reread a b)
  | binary op left right => binary op (left.reread a b) (right.reread a b)
  | ifElse cond onTrue onFalse =>
    ifElse (cond.reread a b) (onTrue.reread a b) (onFalse.reread a b)
  | seq items => seq (rereadItems a b items)
  | member object name => member (object.reread a b) name
  | index sequence position => index (sequence.reread a b) (position.reread a b)
  | group inner => group (inner.reread a b)
  | annotated word inner => annotated word (inner.reread a b)
  | indexed reg offset => indexed reg (offset.reread a b)
  | e => e

def rereadItems (a b : ScopeId) : List Expr → List Expr
  | [] => []
  | e :: rest => e.reread a b :: rereadItems a b rest

end

mutual

/-- The names that an expression reads in a scope. -/
def namesAt (a : ScopeId) : Expr → List String
  | ident name scope => if scope = a then [name] else []
  | unary _ operand => operand.namesAt a
  | binary _ left right => left.namesAt a ++ right.namesAt a
  | ifElse cond onTrue onFalse => cond.namesAt a ++ onTrue.namesAt a ++ onFalse.namesAt a
  | seq items => namesAtItems a items
  | member object _ => object.namesAt a
  | index sequence position => sequence.namesAt a ++ position.namesAt a
  | group inner => inner.namesAt a
  | annotated _ inner => inner.namesAt a
  | indexed _ offset => offset.namesAt a
  | _ => []

def namesAtItems (a : ScopeId) : List Expr → List String
  | [] => []
  | e :: rest => e.namesAt a ++ namesAtItems a rest

end

mutual

/-- Read in another scope, an expression is alike if its names are the same symbols there. -/
theorem alike_reread {s : Scopes} {a b : ScopeId} : ∀ {e : Expr},
    (∀ n ∈ e.namesAt a, s.symbol a n = s.symbol b n) → Alike s e (e.reread a b)
  | ident name scope, h => by
    rw [reread]
    by_cases hscope : scope = a
    · subst hscope
      rw [if_pos rfl]
      exact .name (h name (by simp [namesAt]))
    · rw [if_neg hscope]
      exact .refl _
  | unary op operand, h => .unary op (alike_reread h)
  | binary op left right, h => by
    obtain ⟨hl, hr⟩ := List.forall_mem_append.mp h
    exact .binary op (alike_reread hl) (alike_reread hr)
  | ifElse cond onTrue onFalse, h => by
    obtain ⟨hct, hf⟩ := List.forall_mem_append.mp h
    obtain ⟨hc, ht⟩ := List.forall_mem_append.mp hct
    exact .ifElse (alike_reread hc) (alike_reread ht) (alike_reread hf)
  | seq items, h => by
    obtain ⟨hlen, hitems⟩ := alike_rereadItems h
    exact .seq hlen hitems
  | member object name, h => .member name (alike_reread h)
  | index sequence position, h => by
    obtain ⟨hs, hp⟩ := List.forall_mem_append.mp h
    exact .index (alike_reread hs) (alike_reread hp)
  | group inner, h => .group (alike_reread h)
  | annotated word inner, h => .annotated word (alike_reread h)
  | indexed reg offset, h => .indexed reg (alike_reread h)
  | int _, _ | str _, _ | chr _, _ | register _, _ | condition _, _ | context _, _ | space _ _, _
  | operation _, _ => .refl _

theorem alike_rereadItems {s : Scopes} {a b : ScopeId} : ∀ {items : List Expr},
    (∀ n ∈ namesAtItems a items, s.symbol a n = s.symbol b n) →
      items.length = (rereadItems a b items).length ∧
      ∀ (i : Nat) (e e' : Expr), items[i]? = some e → (rereadItems a b items)[i]? = some e' →
        Alike s e e'
  | [], _ => ⟨rfl, fun i e e' he => by simp at he⟩
  | e :: rest, h => by
    obtain ⟨he, hrest⟩ := List.forall_mem_append.mp h
    obtain ⟨hlen, hitems⟩ := alike_rereadItems hrest
    refine ⟨by simp [rereadItems, hlen], ?_⟩
    intro i f f' hf hf'
    rw [rereadItems] at hf'
    cases i with
    | zero =>
      cases hf
      cases hf'
      exact alike_reread he
    | succ i => exact hitems i f f' hf hf'

end

end Expr

end Z80Asm
