import Z80Asm.Proofs.Expr.Alike
import Z80Asm.Proofs.Scope.Steps

/-!
# Evaluation as an inquiry

Evaluating an expression can be read as a dialogue: it asks for something, is given a reply, and
goes on. What counts as a question is open. To see what the shape of an operand depends on, let
evaluation ask for the numbers that decide how it goes on; to see whether it ends, let it ask for
what it would otherwise start a new evaluation for.

`resolveBy` and `numberBy` are one step of resolving and one of computing a number, with every
recursive call left to the caller. `yields_resolveBy` and `yields_numberBy` say that the step of an
inquiry agrees with the step of `resolveAt` and `integerAt` as soon as the calls do. An inquiry may
stop at a question that has no reply, so agreement is about inquiries that come to an end
(`Inquiry.Yields`).

The dialogue is a type of its own, so that it can be compared between arenas before anyone answers.
With a function from answers to outcomes only the outcomes could be compared.
-/
set_option autoImplicit false

namespace Z80Asm

/-! ## Dialogues -/

inductive Dialogue {Q : Type} (Reply : Q → Type) (α : Type) : Type
  | done (a : α)
  | ask (q : Q) (next : Reply q → Dialogue Reply α)

namespace Dialogue

variable {Q : Type} {Reply : Q → Type} {α β : Type}

def bind : Dialogue Reply α → (α → Dialogue Reply β) → Dialogue Reply β
  | done a, f => f a
  | ask q next, f => ask q fun r => (next r).bind f

instance : Monad (Dialogue Reply) where
  pure := done
  bind := bind

/-- The result, or the first question that has no reply. -/
def settle (known : ∀ q, Option (Reply q)) : Dialogue Reply α → Except Q α
  | done a => .ok a
  | ask q next =>
    match known q with
    | some r => (next r).settle known
    | none => .error q

/-- The result if every question has a reply. -/
def run (reply : ∀ q, Reply q) : Dialogue Reply α → α
  | done a => a
  | ask q next => (next (reply q)).run reply

/-- The questions on the way to the result. -/
def asked (reply : ∀ q, Reply q) : Dialogue Reply α → List Q
  | done _ => []
  | ask q next => q :: (next (reply q)).asked reply

theorem settle_bind {known : ∀ q, Option (Reply q)} (x : Dialogue Reply α)
    (f : α → Dialogue Reply β) :
    (x >>= f).settle known = x.settle known >>= fun a => (f a).settle known := by
  induction x with
  | done a => rfl
  | ask q next ih =>
    show (ask q fun r => next r >>= f).settle known = _
    rw [settle, settle]
    cases known q with
    | none => rfl
    | some r => exact ih r

theorem settle_some (reply : ∀ q, Reply q) (x : Dialogue Reply α) :
    x.settle (fun q => some (reply q)) = .ok (x.run reply) := by
  induction x with
  | done a => rfl
  | ask q next ih => exact ih (reply q)

theorem run_bind (reply : ∀ q, Reply q) (x : Dialogue Reply α) (f : α → Dialogue Reply β) :
    (x >>= f).run reply = (f (x.run reply)).run reply := by
  induction x with
  | done a => rfl
  | ask q next ih => exact ih (reply q)

theorem asked_bind (reply : ∀ q, Reply q) (x : Dialogue Reply α) (f : α → Dialogue Reply β) :
    (x >>= f).asked reply = x.asked reply ++ (f (x.run reply)).asked reply := by
  induction x with
  | done a => rfl
  | ask q next ih => exact congrArg (q :: ·) (ih (reply q))

theorem run_congr {reply reply' : ∀ q, Reply q} {x : Dialogue Reply α}
    (h : ∀ q ∈ x.asked reply, reply q = reply' q) : x.run reply = x.run reply' := by
  induction x with
  | done a => rfl
  | ask q next ih =>
    have hq := h q List.mem_cons_self
    rw [run, run, ← hq]
    exact ih (reply q) fun p hp => h p (List.mem_cons_of_mem q hp)

variable {known known' : ∀ q, Option (Reply q)}

theorem settle_mono (h : ∀ q r, known q = some r → known' q = some r) {x : Dialogue Reply α}
    {a : α} (hx : x.settle known = .ok a) : x.settle known' = .ok a := by
  induction x with
  | done b => exact hx
  | ask q next ih =>
    rw [settle] at hx ⊢
    cases hq : known q with
    | none => rw [hq] at hx; cases hx
    | some r =>
      rw [hq] at hx
      rw [h q r hq]
      exact ih r hx

theorem settle_ask {q : Q} {r : Reply q} :
    (ask q done : Dialogue Reply (Reply q)).settle known = .ok r ↔ known q = some r := by
  rw [settle]
  cases known q with
  | none => simp
  | some r' => simp [settle]

/-- A question that stays open if nothing is known is the first one. -/
theorem eq_ask {x : Dialogue Reply α} {q : Q} (h : x.settle (fun _ => none) = .error q) :
    ∃ next, x = ask q next := by
  cases x with
  | done a => cases h
  | ask p next =>
    cases h
    exact ⟨next, rfl⟩

theorem settle_error {x : Dialogue Reply α} {q : Q} (hx : x.settle known = .error q) :
    known q = none := by
  induction x with
  | done b => cases hx
  | ask p next ih =>
    rw [settle] at hx
    cases hp : known p with
    | none =>
      rw [hp] at hx
      cases hx
      exact hp
    | some r =>
      rw [hp] at hx
      exact ih r hx

/-- The questions are among the `good` ones, and the result is as promised, as long as the replies
    are `fair`. -/
def Asks (good : Q → Prop) (fair : ∀ q, Reply q → Prop) (post : α → Prop) :
    Dialogue Reply α → Prop
  | done a => post a
  | ask q next => good q ∧ ∀ r, fair q r → (next r).Asks good fair post

variable {good : Q → Prop} {fair : ∀ q, Reply q → Prop}

theorem Asks.bind {post : α → Prop} {post' : β → Prop} {x : Dialogue Reply α}
    {f : α → Dialogue Reply β} (hx : x.Asks good fair post)
    (hf : ∀ a, post a → (f a).Asks good fair post') : (x >>= f).Asks good fair post' := by
  induction x with
  | done a => exact hf a hx
  | ask q next ih => exact ⟨hx.1, fun r hr => ih r (hx.2 r hr)⟩

theorem Asks.mono {post post' : α → Prop} {x : Dialogue Reply α} (hx : x.Asks good fair post)
    (h : ∀ a, post a → post' a) : x.Asks good fair post' := by
  induction x with
  | done a => exact h a hx
  | ask q next ih => exact ⟨hx.1, fun r hr => ih r (hx.2 r hr)⟩

theorem Asks.of_settle {post : α → Prop} {x : Dialogue Reply α} {a : α}
    (hx : x.Asks good fair post) (hfair : ∀ q r, good q → known q = some r → fair q r)
    (h : x.settle known = .ok a) : post a := by
  induction x with
  | done b =>
    cases h
    exact hx
  | ask q next ih =>
    rw [settle] at h
    cases hq : known q with
    | none => rw [hq] at h; cases h
    | some r =>
      rw [hq] at h
      exact ih r (hx.2 r (hfair q r hx.1 hq)) h

theorem Asks.good_of_settle {post : α → Prop} {x : Dialogue Reply α} {q : Q}
    (hx : x.Asks good fair post) (hfair : ∀ q r, good q → known q = some r → fair q r)
    (h : x.settle known = .error q) : good q := by
  induction x with
  | done b => cases h
  | ask p next ih =>
    rw [settle] at h
    cases hp : known p with
    | none =>
      rw [hp] at h
      cases h
      exact hx.1
    | some r =>
      rw [hp] at h
      exact ih r (hx.2 r (hfair p r hx.1 hp)) h

theorem Asks.settle_congr {post : α → Prop} {x : Dialogue Reply α} (hx : x.Asks good fair post)
    (hfair : ∀ q r, good q → known q = some r → fair q r)
    (h : ∀ q, good q → known q = known' q) : x.settle known = x.settle known' := by
  induction x with
  | done a => rfl
  | ask q next ih =>
    rw [Dialogue.settle, Dialogue.settle, ← h q hx.1]
    cases hq : known q with
    | none => rfl
    | some r => exact ih r (hx.2 r (hfair q r hx.1 hq))

end Dialogue

/-- A dialogue that may fail. -/
abbrev Inquiry {Q : Type} (Reply : Q → Type) (α : Type) := OptionT (Dialogue Reply) α

namespace Inquiry

variable {Q : Type} {Reply : Q → Type} {α β : Type}

/-- If an inquiry comes to an end with what is known, then with this. -/
def Yields (known : ∀ q, Option (Reply q)) (x : Inquiry Reply α) (y : Option α) : Prop :=
  ∀ r, x.run.settle known = .ok r → y = r

variable {known : ∀ q, Option (Reply q)}

theorem yields_pure (a : α) : (pure a : Inquiry Reply α).Yields known (some a) := by
  intro r h
  exact Except.ok.inj h

theorem yields_failure : (failure : Inquiry Reply α).Yields known none := by
  intro r h
  exact Except.ok.inj h

theorem yields_getM (o : Option α) : (o.getM : Inquiry Reply α).Yields known o := by
  cases o with
  | none => exact yields_failure
  | some a => exact yields_pure a

theorem Yields.bind {x : Inquiry Reply α} {f : α → Inquiry Reply β} {y : Option α}
    {g : α → Option β} (hx : x.Yields known y)
    (hf : ∀ a, y = some a → (f a).Yields known (g a)) : (x >>= f).Yields known (y.bind g) := by
  intro r h
  change Dialogue.settle known (x.run >>= _) = _ at h
  rw [Dialogue.settle_bind] at h
  cases hr : x.run.settle known with
  | error q => rw [hr] at h; cases h
  | ok o =>
    cases hx o hr
    rw [hr] at h
    cases y with
    | none => exact Except.ok.inj h
    | some a => exact hf a rfl r h

theorem Yields.orElse {x x' : Inquiry Reply α} {y y' : Option α} (hx : x.Yields known y)
    (hx' : x'.Yields known y') : (x <|> x').Yields known (y <|> y') := by
  intro r h
  change Dialogue.settle known (x.run >>= _) = _ at h
  rw [Dialogue.settle_bind] at h
  cases hr : x.run.settle known with
  | error q => rw [hr] at h; cases h
  | ok o =>
    cases hx o hr
    rw [hr] at h
    cases y with
    | none => exact hx' r h
    | some a => exact Except.ok.inj h

theorem yields_firstM {f : α → Inquiry Reply β} {g : α → Option β}
    (hf : ∀ a, (f a).Yields known (g a)) (as : List α) :
    (as.firstM f).Yields known (as.findSome? g) := by
  induction as with
  | nil => exact yields_failure
  | cons a rest ih =>
    have h := (hf a).orElse ih
    rw [List.firstM, List.findSome?_cons]
    cases hg : g a with
    | none => rw [hg] at h; exact h
    | some b => rw [hg] at h; exact h

/-- An inquiry comes to an end with this, whatever is known: it asks nothing. -/
def Outright (x : Inquiry Reply α) (y : Option α) : Prop :=
  ∀ known, x.run.settle known = .ok y

theorem outright_pure (a : α) : (pure a : Inquiry Reply α).Outright (some a) :=
  fun _ => rfl

theorem outright_failure : (failure : Inquiry Reply α).Outright none :=
  fun _ => rfl

theorem outright_getM (o : Option α) : (o.getM : Inquiry Reply α).Outright o := by
  cases o with
  | none => exact outright_failure
  | some a => exact outright_pure a

theorem Outright.bind_some {x : Inquiry Reply α} {f : α → Inquiry Reply β} {a : α} {y : Option β}
    (hx : x.Outright (some a)) (hf : (f a).Outright y) : (x >>= f).Outright y := by
  intro known
  change Dialogue.settle known (x.run >>= _) = _
  rw [Dialogue.settle_bind, hx known]
  exact hf known

theorem Outright.bind_none {x : Inquiry Reply α} (hx : x.Outright none) (f : α → Inquiry Reply β) :
    (x >>= f).Outright none := by
  intro known
  change Dialogue.settle known (x.run >>= _) = _
  rw [Dialogue.settle_bind, hx known]
  rfl

theorem Outright.orElse_of_some {x : Inquiry Reply α} {a : α} (hx : x.Outright (some a))
    (x' : Inquiry Reply α) : (x <|> x').Outright (some a) := by
  intro known
  change Dialogue.settle known (x.run >>= _) = _
  rw [Dialogue.settle_bind, hx known]
  rfl

theorem Outright.orElse_of_none {x x' : Inquiry Reply α} {y : Option α} (hx : x.Outright none)
    (hx' : x'.Outright y) : (x <|> x').Outright y := by
  intro known
  change Dialogue.settle known (x.run >>= _) = _
  rw [Dialogue.settle_bind, hx known]
  exact hx' known

theorem outright_firstM_of_none {f : α → Inquiry Reply β} {as : List α}
    (hf : ∀ a ∈ as, (f a).Outright none) : (as.firstM f).Outright none := by
  induction as with
  | nil => exact outright_failure
  | cons a rest ih =>
    have hrest := ih fun b hb => hf b (List.mem_cons_of_mem _ hb)
    exact (hf a List.mem_cons_self).orElse_of_none hrest

/-- `Dialogue.Asks` of an inquiry, which may also fail. -/
def Asks (good : Q → Prop) (fair : ∀ q, Reply q → Prop) (post : α → Prop)
    (x : Inquiry Reply α) : Prop :=
  x.run.Asks good fair fun o => ∀ a, o = some a → post a

variable {good : Q → Prop} {fair : ∀ q, Reply q → Prop} {post : α → Prop}

theorem asks_pure {a : α} (h : post a) : (pure a : Inquiry Reply α).Asks good fair post := by
  intro b hb
  cases hb
  exact h

theorem asks_failure : (failure : Inquiry Reply α).Asks good fair post :=
  fun _ hb => nomatch hb

theorem asks_getM {o : Option α} (h : ∀ a, o = some a → post a) :
    (o.getM : Inquiry Reply α).Asks good fair post := by
  cases o with
  | none => exact asks_failure
  | some a => exact asks_pure (h a rfl)

theorem Asks.bind {post' : β → Prop} {x : Inquiry Reply α} {f : α → Inquiry Reply β}
    (hx : x.Asks good fair post) (hf : ∀ a, post a → (f a).Asks good fair post') :
    (x >>= f).Asks good fair post' := by
  refine Dialogue.Asks.bind hx fun o ho => ?_
  cases o with
  | none => exact asks_failure
  | some a => exact hf a (ho a rfl)

theorem Asks.orElse {x y : Inquiry Reply α} (hx : x.Asks good fair post)
    (hy : y.Asks good fair post) : (x <|> y).Asks good fair post := by
  refine Dialogue.Asks.bind hx fun o ho => ?_
  cases o with
  | none => exact hy
  | some a => exact asks_pure (ho a rfl)

theorem asks_firstM {f : β → Inquiry Reply α} (hf : ∀ b, (f b).Asks good fair post)
    (bs : List β) : (bs.firstM f).Asks good fair post := by
  induction bs with
  | nil => exact asks_failure
  | cons b rest ih => exact (hf b).orElse ih

end Inquiry

/-! ## One step of evaluation -/

section

variable {Q : Type} {Reply : Q → Type} (s : Scopes)

def insideBy (scopeOf : Expr → Inquiry Reply ScopeId) :
    Nat → ScopeId → String → Option Nat → Inquiry Reply Expr
  | 0, _, _, _ => failure
  | levels + 1, id, name, horizon =>
    match s.get? id with
    | none => failure
    | some scope =>
      let dotted : String × String → Inquiry Reply Expr := fun (front, rest) => do
        insideBy scopeOf levels (← scopeOf (← (scope.find? front horizon).getM)) rest none
      (scope.find? name horizon).getM
        <|> (dotSplits name).firstM dotted
        <|> do insideBy scopeOf levels (← scope.body.getM) name none

variable (scopeOf : Expr → Inquiry Reply ScopeId) (number : Expr → Inquiry Reply Int64)
  (resolve : Expr → Inquiry Reply Expr) (opened : Nat → Expr → Inquiry Reply Expr)

def symbolBy (id : ScopeId) (name : String) : Inquiry Reply Expr :=
  (s.outward s.size id none).firstM fun (id, horizon) =>
    insideBy s scopeOf (maxDepth + 1) id name horizon

def memberBy (id : ScopeId) (name : String) : Inquiry Reply Expr :=
  insideBy s scopeOf (maxDepth + 1) id name none

/-- What an expression stands for when parentheses around it do not count. -/
def ungroupedBy (e : Expr) : Inquiry Reply Expr := do
  match ← resolve e with
  | .group inner => opened (s.groups + e.groupCount + 1) inner
  | value => pure value

/-- Whether the value of the right operand matters to `foldIndex`. -/
def asksRight (op : BinaryOp) : Expr → Bool
  | .register reg => reg.isIndex
  | .indexed _ _ => true
  | leftValue => op = .add && !leftValue.isRegisterLike

def resolveBy : Expr → Inquiry Reply Expr
  | .ident name scope => do resolve (← symbolBy s scopeOf scope name)
  | .member object name => do
    let scope ← (← resolve object).contextScope?.getM
    resolve (← memberBy s scopeOf scope name)
  | .index sequence position => do
    let position ← number position
    let target ← ungroupedBy s resolve opened sequence
    resolve (← (elementAt target position).toOption.getM)
  | .ifElse cond onTrue onFalse => do
    if (← number cond) != 0 then resolve onTrue else resolve onFalse
  | .binary op left right =>
    if op = .add ∨ op = .sub then do
      let leftValue ← resolve left
      if asksRight op leftValue then
        let rightValue ← (resolve right <|> pure right)
        return (foldIndex op left right leftValue fun _ => rightValue).getD (.binary op left right)
      else return .binary op left right
    else return .binary op left right
  | e => pure e

def numberBy : Expr → Inquiry Reply Int64
  | .int value => pure value
  | .chr byte => pure (Int64.ofNat byte.toNat)
  | .str bytes =>
    match bytes.toList with
    | [byte] => pure (Int64.ofNat byte.toNat)
    | _ => failure
  | .ident name scope => do number (← symbolBy s scopeOf scope name)
  | .unary op operand => do return op.apply (← number operand)
  | .binary op left right => do
    let l ← number left
    let r ← number right
    (op.apply l r).toOption.getM
  | .ifElse cond onTrue onFalse => do
    if (← number cond) != 0 then number onTrue else number onFalse
  | .group inner => number inner
  | .member object name => do number (← resolve (.member object name))
  | .index sequence position => do number (← resolve (.index sequence position))
  | .context scope | .space _ scope => do
    return Int64.ofNat (← (s.address scope).toOption.getM).toNat
  | _ => failure

end

/-! ## Agreement with evaluation -/

theorem foldIndex_of_not_asksRight {op : BinaryOp} {l r lv : Expr} {rv : Unit → Expr}
    (h : asksRight op lv = false) : foldIndex op l r lv rv = none := by
  cases lv with
  | register reg => rw [foldIndex_register, if_neg (by simpa [asksRight] using h)]
  | indexed reg offset => simp [asksRight] at h
  | _ =>
    rw [foldIndex_other (by simp) (by simp), if_neg]
    simpa [asksRight] using h

theorem toOption_bind {ε α β : Type} (x : Except ε α) (f : α → Except ε β) :
    (x >>= f).toOption = x.toOption.bind fun a => (f a).toOption := by
  cases x <;> rfl

theorem eq_ok_of_toOption {ε α : Type} {x : Except ε α} {a : α} (h : x.toOption = some a) :
    x = .ok a := by
  cases x with
  | error c => cases h
  | ok b => exact congrArg Except.ok (Option.some.inj h)

theorem orElse_some {α : Type} (o : Option α) (a : α) : (o <|> some a) = some (o.getD a) := by
  cases o <;> rfl

theorem toOption_symbolValue (s : Scopes) (scopeOf : Expr → Option ScopeId) (id : ScopeId)
    (name : String) : (symbolValue s scopeOf id name).toOption = s.symbol? scopeOf id name := by
  rw [symbolValue]
  cases s.symbol? scopeOf id name <;> rfl

theorem toOption_memberValue (s : Scopes) (scopeOf : Expr → Option ScopeId) (id : ScopeId)
    (name : String) : (memberValue s scopeOf id name).toOption = s.member? scopeOf id name := by
  rw [memberValue]
  cases s.member? scopeOf id name <;> rfl

section

variable {Q : Type} {Reply : Q → Type} {known : ∀ q, Option (Reply q)} {s : Scopes}
  {scopeOf' : Expr → Inquiry Reply ScopeId} {scopeOf : Expr → Option ScopeId}

theorem yields_insideBy (hscope : ∀ v ∈ s.values, (scopeOf' v).Yields known (scopeOf v))
    (levels : Nat) (id : ScopeId) (name : String) (horizon : Option Nat) :
    (insideBy s scopeOf' levels id name horizon).Yields known
      (s.lookupInside scopeOf levels id name horizon) := by
  induction levels generalizing id name horizon with
  | zero => exact Inquiry.yields_failure
  | succ levels ih =>
    rw [insideBy, Scopes.lookupInside]
    cases hid : s.get? id with
    | none => exact Inquiry.yields_failure
    | some scope =>
      refine (Inquiry.yields_getM _).orElse (.orElse (Inquiry.yields_firstM (fun split => ?_) _) ?_)
      · show Inquiry.Yields known _ (((scope.find? split.1 horizon).bind scopeOf).bind _)
        rw [Option.bind_assoc]
        refine (Inquiry.yields_getM _).bind fun v hv => ?_
        exact (hscope v (Scopes.mem_values hid hv)).bind fun inner _ => ih inner _ none
      · exact (Inquiry.yields_getM _).bind fun body _ => ih body name none

theorem yields_symbolBy (hscope : ∀ v ∈ s.values, (scopeOf' v).Yields known (scopeOf v))
    (id : ScopeId) (name : String) :
    (symbolBy s scopeOf' id name).Yields known (symbolValue s scopeOf id name).toOption := by
  rw [toOption_symbolValue]
  exact Inquiry.yields_firstM (fun p => yields_insideBy hscope _ _ _ _) _

theorem yields_memberBy (hscope : ∀ v ∈ s.values, (scopeOf' v).Yields known (scopeOf v))
    (id : ScopeId) (name : String) :
    (memberBy s scopeOf' id name).Yields known (memberValue s scopeOf id name).toOption := by
  rw [toOption_memberValue]
  exact yields_insideBy hscope _ _ _ _

variable {number : Expr → Inquiry Reply Int64} {resolve : Expr → Inquiry Reply Expr}
  {opened : Nat → Expr → Inquiry Reply Expr} {steps : Nat}

theorem yields_ungroupedBy {run : Expr → Except Cause Expr} {e : Expr}
    (hresolve : (resolve e).Yields known (run e).toOption)
    (hopened : ∀ inner, run e = .ok (.group inner) →
      (opened (s.groups + e.groupCount + 1) inner).Yields known
        (unwrap run (s.groups + e.groupCount + 1) (.group inner)).toOption) :
    (ungroupedBy s resolve opened e).Yields known (resolveUngrouped s run e).toOption := by
  rw [resolveUngrouped, toOption_bind]
  refine hresolve.bind fun value hvalue => ?_
  cases value with
  | group inner => exact hopened inner (eq_ok_of_toOption hvalue)
  | _ => exact Inquiry.yields_pure _

theorem yields_resolveBy (hscope : ∀ v ∈ s.values, (scopeOf' v).Yields known (scopeOf v))
    (hnumber : ∀ c, (number c).Yields known (integerAt s scopeOf steps c).toOption)
    (hresolve : ∀ e, (resolve e).Yields known (resolveAt s scopeOf steps e).toOption)
    (hopened : ∀ sequence inner, resolveAt s scopeOf steps sequence = .ok (.group inner) →
      (opened (s.groups + sequence.groupCount + 1) inner).Yields known
        (unwrap (resolveAt s scopeOf steps) (s.groups + sequence.groupCount + 1)
          (.group inner)).toOption)
    (e : Expr) :
    (resolveBy s scopeOf' number resolve opened e).Yields known
      (resolveAt s scopeOf (steps + 1) e).toOption := by
  cases e with
  | ident name scope =>
    rw [resolveAt, toOption_bind]
    exact (yields_symbolBy hscope scope name).bind fun v _ => hresolve v
  | member object name =>
    rw [resolveAt, toOption_bind]
    refine (hresolve object).bind fun value _ => ?_
    cases value.contextScope? with
    | none => exact Inquiry.yields_failure
    | some scope =>
      rw [toOption_bind]
      exact (yields_memberBy hscope scope name).bind fun v _ => hresolve v
  | index sequence position =>
    rw [resolveAt, toOption_bind]
    refine (hnumber position).bind fun position _ => ?_
    rw [toOption_bind]
    refine (yields_ungroupedBy (hresolve sequence) (hopened sequence)).bind fun target _ => ?_
    rw [toOption_bind]
    exact (Inquiry.yields_getM _).bind fun v _ => hresolve v
  | ifElse cond onTrue onFalse =>
    rw [resolveAt, toOption_bind]
    refine (hnumber cond).bind fun v _ => ?_
    split
    · exact hresolve onTrue
    · exact hresolve onFalse
  | binary op left right =>
    rw [resolveAt, resolveBy]
    split
    · rw [toOption_bind]
      refine (hresolve left).bind fun leftValue _ => ?_
      split
      · have hright := (hresolve right).orElse (Inquiry.yields_pure right)
        rw [orElse_some] at hright
        exact hright.bind fun rightValue _ => Inquiry.yields_pure _
      · rename_i hask
        -- the value of the right operand is not asked for, and does not matter
        show Inquiry.Yields known _ (some ((foldIndex op left right leftValue _).getD _))
        rw [foldIndex_of_not_asksRight (Bool.eq_false_iff.mpr hask)]
        exact Inquiry.yields_pure _
    · exact Inquiry.yields_pure _
  | _ => exact Inquiry.yields_pure _

theorem yields_numberBy (hscope : ∀ v ∈ s.values, (scopeOf' v).Yields known (scopeOf v))
    (hnumber : ∀ c, (number c).Yields known (integerAt s scopeOf steps c).toOption)
    (hresolve : ∀ e, (resolve e).Yields known (resolveAt s scopeOf steps e).toOption)
    (e : Expr) :
    (numberBy s scopeOf' number resolve e).Yields known
      (integerAt s scopeOf (steps + 1) e).toOption := by
  have haddress : ∀ scope, (do return Int64.ofNat (← (s.address scope).toOption.getM).toNat :
      Inquiry Reply Int64).Yields known
      (do return Int64.ofNat (← s.address scope).toNat : Except Cause Int64).toOption := by
    intro scope
    rw [toOption_bind]
    exact (Inquiry.yields_getM _).bind fun a _ => Inquiry.yields_pure _
  cases e with
  | int value => exact Inquiry.yields_pure _
  | chr byte => exact Inquiry.yields_pure _
  | str bytes =>
    match bytes with
    | ⟨[]⟩ => exact Inquiry.yields_failure
    | ⟨[byte]⟩ => exact Inquiry.yields_pure _
    | ⟨_ :: _ :: _⟩ => exact Inquiry.yields_failure
  | ident name scope =>
    rw [integerAt, toOption_bind]
    exact (yields_symbolBy hscope scope name).bind fun v _ => hnumber v
  | unary op operand =>
    rw [integerAt, toOption_bind]
    exact (hnumber operand).bind fun v _ => Inquiry.yields_pure _
  | binary op left right =>
    rw [integerAt, toOption_bind]
    refine (hnumber left).bind fun l _ => ?_
    rw [toOption_bind]
    exact (hnumber right).bind fun r _ => Inquiry.yields_getM _
  | ifElse cond onTrue onFalse =>
    rw [integerAt, toOption_bind]
    refine (hnumber cond).bind fun v _ => ?_
    split
    · exact hnumber onTrue
    · exact hnumber onFalse
  | group inner => exact hnumber inner
  | member object name =>
    rw [integerAt, toOption_bind]
    exact (hresolve _).bind fun v _ => hnumber v
  | index sequence position =>
    rw [integerAt, toOption_bind]
    exact (hresolve _).bind fun v _ => hnumber v
  | context scope => exact haddress scope
  | space id scope => exact haddress scope
  | _ => exact Inquiry.yields_failure

end

end Z80Asm
