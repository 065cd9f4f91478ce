import Z80Asm.Program.Entry
import Z80Asm.Proofs.Expr.Inquiry

/-!
# What the shape of an operand depends on

Resolving reads no address itself. It does ask for numbers, though: the condition of a conditional
and the position of an index decide how it goes on, and these numbers may come from addresses. Let
them be the questions of an inquiry. What is left reads the bindings, parents, bodies and horizons
of the arena only, so two arenas that differ in their addresses hold the same inquiry
(`Shaping.classify_unplaced`), and if they decide its questions alike, then an expression resolves
alike, is the same operand, and takes the same place in both (`shape_eq_of_decisions`).

Planning takes place before any address is set, and generating when all are. So the two arenas of
the theorem are those of one program at two times, but nothing in it depends on that.
-/
set_option autoImplicit false

namespace Z80Asm

/-- A number that decides how resolving goes on: that of an expression with some steps left, in
    an evaluation that may go through some more names to find out what a bound value denotes. -/
structure Decision where
  links : Nat
  steps : Nat
  e : Expr

/-- What an arena decides. -/
def Scopes.decides (s : Scopes) (d : Decision) : Option Int64 :=
  (integerAt s (scopeThrough s d.links) d.steps d.e).toOption

/-- Inquiries that ask for decisions. -/
abbrev Shaping := Inquiry fun _ : Decision => Option Int64

namespace Shaping

def number (links steps : Nat) (e : Expr) : Shaping Int64 :=
  OptionT.mk (.ask ⟨links, steps, e⟩ .done)

def unwrap (resolve : Expr → Shaping Expr) : Nat → Expr → Shaping Expr
  | 0, _ => failure
  | turns + 1, inner => do
    match ← resolve inner with
    | .group next => unwrap resolve turns next
    | value => pure value

variable (s : Scopes)

def resolveAt (links : Nat) (scopeOf : Expr → Shaping ScopeId) : Nat → Expr → Shaping Expr
  | 0, _ => failure
  | steps + 1, e =>
    resolveBy s scopeOf (number links steps) (resolveAt links scopeOf steps)
      (unwrap (resolveAt links scopeOf steps)) e

def scopeThrough : Nat → Expr → Shaping ScopeId
  | links + 1, .ident name scope => do
    (← resolveAt s links (scopeThrough links) (maxDepth + 1) (.ident name scope)).contextScope?.getM
  | _, e => e.contextScope?.getM

def resolve (e : Expr) : Shaping Expr :=
  resolveAt s (s.aliases + 1) (scopeThrough s (s.aliases + 1)) (maxDepth + 1) e

def resolveOrSelf (e : Expr) : Dialogue (fun _ : Decision => Option Int64) Expr := do
  return (← (resolve s e).run).getD e

def classify (e : Expr) : Dialogue (fun _ : Decision => Option Int64) Cpu.Operand := do
  match ← resolveOrSelf s e with
  | .register register => return .reg register
  | .condition condition => return .cond condition
  | .group inner => return .ofGroup inner (← resolveOrSelf s inner)
  | _ => return .immediate e

end Shaping

/-- The decisions on the way to the operand that an expression is. -/
def Expr.decisions (s : Scopes) (e : Expr) : List Decision :=
  (Shaping.classify s e).asked s.decides

/-! ## The inquiry in its own arena -/

theorem yields_unwrap {known : Decision → Option (Option Int64)} {resolve : Expr → Shaping Expr}
    {run : Expr → Except Cause Expr} (h : ∀ e, (resolve e).Yields known (run e).toOption)
    (turns : Nat) (inner : Expr) :
    (Shaping.unwrap resolve turns inner).Yields known (unwrap run turns (.group inner)).toOption := by
  induction turns generalizing inner with
  | zero => exact Inquiry.yields_failure
  | succ turns ih =>
    rw [unwrap, toOption_bind]
    refine (h inner).bind fun value _ => ?_
    cases value with
    | group next => exact ih next
    | _ =>
      rw [unwrap_of_ne_group (by simp)]
      exact Inquiry.yields_pure _

section

variable (s : Scopes)

theorem yields_number (links steps : Nat) (e : Expr) :
    (Shaping.number links steps e).Yields (fun d => some (s.decides d))
      (integerAt s (scopeThrough s links) steps e).toOption := by
  intro r h
  exact Except.ok.inj h

theorem yields_resolveAt {links : Nat} {scopeOf : Expr → Shaping ScopeId}
    (h : ∀ v, (scopeOf v).Yields (fun d => some (s.decides d)) (scopeThrough s links v))
    (steps : Nat) (e : Expr) :
    (Shaping.resolveAt s links scopeOf steps e).Yields (fun d => some (s.decides d))
      (resolveAt s (scopeThrough s links) steps e).toOption := by
  induction steps generalizing e with
  | zero => exact Inquiry.yields_failure
  | succ steps ih =>
    exact yields_resolveBy (fun v _ => h v) (yields_number s links steps) ih
      (fun _ _ _ => yields_unwrap ih _ _) e

theorem yields_scopeThrough (links : Nat) (v : Expr) :
    (Shaping.scopeThrough s links v).Yields (fun d => some (s.decides d))
      (scopeThrough s links v) := by
  induction links generalizing v with
  | zero => cases v <;> exact Inquiry.yields_getM _
  | succ links ih =>
    cases v with
    | ident name scope =>
      have h := (yields_resolveAt s ih (maxDepth + 1) (.ident name scope)).bind
        fun value _ => Inquiry.yields_getM value.contextScope?
      rw [scopeThrough]
      cases hr : resolveAt s (scopeThrough s links) (maxDepth + 1) (.ident name scope) with
      | error c => rw [hr] at h; exact h
      | ok value => rw [hr] at h; exact h
    | _ => exact Inquiry.yields_getM _

theorem run_resolve (e : Expr) :
    (Shaping.resolve s e).run.run s.decides = (e.resolve s).toOption :=
  (yields_resolveAt s (yields_scopeThrough s (s.aliases + 1)) (maxDepth + 1) e _
    (Dialogue.settle_some s.decides _)).symm

theorem run_resolveOrSelf (e : Expr) :
    (Shaping.resolveOrSelf s e).run s.decides = e.resolveOrSelf s := by
  rw [Shaping.resolveOrSelf, Dialogue.run_bind, run_resolve]
  rfl

theorem run_classify (e : Expr) :
    (Shaping.classify s e).run s.decides = Cpu.Operand.classify s e := by
  rw [Shaping.classify, Dialogue.run_bind, run_resolveOrSelf, Cpu.Operand.classify]
  cases e.resolveOrSelf s with
  | group inner =>
    show Dialogue.run s.decides (_ >>= _) = _
    rw [Dialogue.run_bind, run_resolveOrSelf]
    rfl
  | _ => rfl

end

/-! ## The inquiry in two arenas -/

/-- The arena without its addresses. -/
def Scopes.unplaced (s : Scopes) : Scopes :=
  { s with nodes := s.nodes.map fun scope => { scope with address := none } }

section

variable {Q : Type} {Reply : Q → Type} (s : Scopes)

theorem Scopes.get?_unplaced (id : ScopeId) :
    s.unplaced.get? id = (s.get? id).map fun scope => { scope with address := none } :=
  Array.getElem?_map

theorem Scopes.outward_unplaced (fuel : Nat) (id : ScopeId) (horizon : Option Nat) :
    s.unplaced.outward fuel id horizon = s.outward fuel id horizon := by
  induction fuel generalizing id horizon with
  | zero => rfl
  | succ fuel ih =>
    rw [Scopes.outward, Scopes.outward, Scopes.get?_unplaced]
    cases s.get? id with
    | none => rfl
    | some scope =>
      cases hp : scope.parent with
      | none => simp [hp]
      | some parent => simp [hp, ih]

theorem insideBy_unplaced (scopeOf : Expr → Inquiry Reply ScopeId) (levels : Nat) (id : ScopeId)
    (name : String) (horizon : Option Nat) :
    insideBy s.unplaced scopeOf levels id name horizon =
      insideBy s scopeOf levels id name horizon := by
  induction levels generalizing id name horizon with
  | zero => rfl
  | succ levels ih =>
    rw [insideBy, insideBy, Scopes.get?_unplaced]
    cases s.get? id with
    | none => rfl
    | some scope =>
      simp only [Option.map_some, ih]
      rfl

theorem resolveBy_unplaced : @resolveBy Q Reply s.unplaced = resolveBy s := by
  have hsize : s.unplaced.size = s.size := Array.size_map ..
  funext scopeOf number resolve opened e
  cases e with
  | ident name scope =>
    simp only [resolveBy, symbolBy, Scopes.outward_unplaced, insideBy_unplaced, hsize]
  | member object name => simp only [resolveBy, memberBy, insideBy_unplaced]
  | _ => rfl

namespace Shaping

theorem resolveAt_unplaced (links : Nat) (scopeOf : Expr → Shaping ScopeId) (steps : Nat)
    (e : Expr) : resolveAt s.unplaced links scopeOf steps e = resolveAt s links scopeOf steps e := by
  induction steps generalizing e with
  | zero => rfl
  | succ steps ih => rw [resolveAt, resolveAt, resolveBy_unplaced, funext ih]

theorem scopeThrough_unplaced (links : Nat) (v : Expr) :
    scopeThrough s.unplaced links v = scopeThrough s links v := by
  induction links generalizing v with
  | zero => rfl
  | succ links ih =>
    cases v with
    | ident name scope => rw [scopeThrough, scopeThrough, resolveAt_unplaced, funext ih]
    | _ => rfl

theorem resolve_unplaced : resolve s.unplaced = resolve s := by
  funext e
  rw [resolve, resolveAt_unplaced, funext (scopeThrough_unplaced s _)]
  rfl

theorem classify_unplaced : classify s.unplaced = classify s := by
  funext e
  simp only [classify, resolveOrSelf, resolve_unplaced]

end Shaping

end

section

variable {s t : Scopes}

theorem toOption_resolve_eq (h : s.unplaced = t.unplaced) {e : Expr}
    (hd : ∀ d ∈ e.decisions s, s.decides d = t.decides d) :
    (e.resolve s).toOption = (e.resolve t).toOption := by
  have htree : Shaping.resolve s = Shaping.resolve t := by
    rw [← Shaping.resolve_unplaced s, h, Shaping.resolve_unplaced]
  rw [← run_resolve, ← run_resolve, ← htree]
  refine Dialogue.run_congr fun d hmem => hd d ?_
  rw [Expr.decisions, Shaping.classify, Dialogue.asked_bind, Shaping.resolveOrSelf,
    Dialogue.asked_bind]
  exact List.mem_append_left _ (List.mem_append_left _ hmem)

theorem classify_eq (h : s.unplaced = t.unplaced) {e : Expr}
    (hd : ∀ d ∈ e.decisions s, s.decides d = t.decides d) :
    Cpu.Operand.classify s e = Cpu.Operand.classify t e := by
  have htree : Shaping.classify s = Shaping.classify t := by
    rw [← Shaping.classify_unplaced s, h, Shaping.classify_unplaced]
  rw [← run_classify, ← run_classify, ← htree]
  exact Dialogue.run_congr hd

/-! ## Sizes -/

theorem itemSize_eq {e : Expr} (h : (e.resolve s).toOption = (e.resolve t).toOption)
    (width : DataWidth) : width.itemSize s e = width.itemSize t e := by
  unfold DataWidth.itemSize
  cases hs : e.resolve s with
  | ok value => rw [eq_ok_of_toOption (h.symm.trans (by rw [hs]; rfl))]
  | error c =>
    cases ht : e.resolve t with
    | ok value => rw [hs, ht] at h; cases h
    | error c' => cases width <;> rfl

theorem sizes_eq {items : List Expr} {width : DataWidth}
    (h : ∀ e ∈ items, width.itemSize s e = width.itemSize t e) :
    items.foldr (fun item size => width.itemSize s item + size) 0 =
      items.foldr (fun item size => width.itemSize t item + size) 0 := by
  induction items with
  -- `rfl` would compare the sizes before the lists
  | nil => simp only [List.foldr_nil]
  | cons e rest ih =>
    have hrest := ih fun e he => h e (List.mem_cons_of_mem _ he)
    rw [List.foldr_cons, List.foldr_cons, hrest]
    exact congrArg (· + _) (h e List.mem_cons_self)

variable {files : FileAccess} {item : Item}

theorem plan_data {width : DataWidth} (hop : item.line.operation = some (.data width)) :
    item.plan files s = .ok (.code (.data width item.line.argumentList
      (item.line.argumentList.foldr (fun item size => width.itemSize s item + size) 0))) := by
  unfold Item.plan
  dsimp only
  rw [hop]
  rfl

theorem plan_machine {mnemonic : String}
    (hop : item.line.operation = some (.machine mnemonic)) :
    item.plan files s = (fun instruction => Plan.code (.machine instruction)) <$>
      Cpu.Instruction.select mnemonic item.line.arguments
        (item.line.argumentList.map (Cpu.Operand.classify s)) := by
  unfold Item.plan
  dsimp only
  rw [hop]
  rfl

/-- **Addresses do not change the shape of code.** Two arenas that differ in addresses only agree on
    the shape of an expression, and on the code that a data statement or an instruction contributes,
    if they decide alike what is asked on the way there. Without that condition they need not: in
    `lab ? hl : 5` an address picks the operand. What is decided is computed with bounds; for
    evaluations without bounds that end, see `ends_resolve_eq` in `Program/Evaluation`. -/
theorem shape_eq_of_decisions (h : s.unplaced = t.unplaced) :
    (∀ e : Expr, (∀ d ∈ e.decisions s, s.decides d = t.decides d) →
      (e.resolve s).toOption = (e.resolve t).toOption ∧
        Cpu.Operand.classify s e = Cpu.Operand.classify t e) ∧
    ∀ (files : FileAccess) (item : Item),
      ((∃ width, item.line.operation = some (.data width)) ∨
        ∃ mnemonic, item.line.operation = some (.machine mnemonic)) →
      (∀ e ∈ item.line.argumentList, ∀ d ∈ e.decisions s, s.decides d = t.decides d) →
      item.plan files s = item.plan files t := by
  constructor
  · intro e hd
    exact ⟨toOption_resolve_eq h hd, classify_eq h hd⟩
  · intro files item hop hd
    rcases hop with ⟨width, hop⟩ | ⟨mnemonic, hop⟩
    · rw [plan_data hop, plan_data hop]
      rw [sizes_eq fun e he => itemSize_eq (toOption_resolve_eq h (hd e he)) width]
    · rw [plan_machine hop, plan_machine hop]
      rw [List.map_congr_left fun e he => classify_eq h (hd e he)]

end

/-- Two labels, the second two bytes behind the first. -/
def labelsFrom (address : UInt32) : Scopes where
  nodes := #[
    { parent := none, bindings := [⟨"b", .context ⟨2⟩, 2⟩, ⟨"a", .context ⟨1⟩, 1⟩] },
    { parent := some ⟨0⟩, bindings := [], address := some address },
    { parent := some ⟨0⟩, bindings := [], address := some (address + 2) }]
  serial := 2

/-- `b - a ? hl : bc`. -/
def apartOrNot : Expr :=
  .ifElse (.binary .sub (.ident "b" ⟨0⟩) (.ident "a" ⟨0⟩)) (.register .hl) (.register .bc)

theorem shape_eq_of_decisions_labels :
    (apartOrNot.decisions (labelsFrom 0)).length = 1 ∧
      (apartOrNot.resolve (labelsFrom 0)).toOption =
        (apartOrNot.resolve (labelsFrom 5)).toOption ∧
      Cpu.Operand.classify (labelsFrom 0) apartOrNot =
        Cpu.Operand.classify (labelsFrom 5) apartOrNot ∧
      ∀ files line role, line.arguments = some apartOrNot →
        line.operation = some (.machine "inc") →
        (Item.plain line role).plan files (labelsFrom 0) =
          (Item.plain line role).plan files (labelsFrom 5) := by
  have hunplaced : (labelsFrom 0).unplaced = (labelsFrom 5).unplaced := by
    simp [Scopes.unplaced, labelsFrom]
  have hdecisions : ∀ d ∈ apartOrNot.decisions (labelsFrom 0),
      (labelsFrom 0).decides d = (labelsFrom 5).decides d := by
    decide +kernel
  obtain ⟨hshape, hplan⟩ := shape_eq_of_decisions hunplaced
  obtain ⟨hresolve, hclassify⟩ := hshape apartOrNot hdecisions
  refine ⟨by decide +kernel, hresolve, hclassify, fun files line role hargs hop => ?_⟩
  refine hplan files (.plain line role) (.inr ⟨_, hop⟩) fun e he => ?_
  rw [Item.line, Line.argumentList, hargs] at he
  rw [List.mem_singleton.mp he]
  exact hdecisions

end Z80Asm
