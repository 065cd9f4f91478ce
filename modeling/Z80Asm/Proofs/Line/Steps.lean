import Z80Asm.Line.Reader
import Z80Asm.Proofs.Success

/-!
# Characters go on

A character that is read may, by the type of what comes of it, break off the physical line that it
stands in: the logical line could be finished there, or go on with the next physical line, and the
rest of the physical line would not be read at all. No character does that, in no mode and with no
draft (`Mode.onChar_next`). So a physical line that is read is read to its end, and it is there that a
logical line is finished (`Mode.run_cons_eq_ok`).

There is one lemma for each function that takes a character, in the order in which they hand it on.
-/
set_option autoImplicit false

namespace Z80Asm

open Success

/-- If a character is read, the next one is read in some mode. -/
def ReadsOn (x : Reading) : Prop :=
  ∀ ⦃step draft⦄, x = .ok (step, draft) → ∃ mode, step = .next mode

theorem readsOn_next (mode : Mode) (draft : Draft) : ReadsOn (.ok (.next mode, draft)) := by
  intro step draft' h
  cases h
  exact ⟨mode, rfl⟩

theorem readsOn_error (cause : Cause) : ReadsOn (.error cause) := by
  intro step draft h
  cases h

theorem readsOn_bind {α : Type} (x : Except Cause α) {f : α → Reading} (hf : ∀ a, ReadsOn (f a)) :
    ReadsOn (x >>= f) := by
  intro step draft h
  obtain ⟨a, -, ha⟩ := except_bind_eq_ok.mp h
  exact hf a ha

theorem readsOn_ite {p : Prop} [Decidable p] {x y : Reading} (hx : ReadsOn x) (hy : ReadsOn y) :
    ReadsOn (if p then x else y) := by
  split
  · exact hx
  · exact hy

theorem readsOn_token (draft : Draft) (token : Token) : ReadsOn (draft.token token) :=
  readsOn_bind _ fun draft => readsOn_next .argument draft

theorem readsOn_startValue (draft : Draft) (c : Char) : ReadsOn (startValue draft c) := by
  have hword : ReadsOn
      (if c.isDigit then .ok (.next (.number (String.singleton c)), draft)
        else if Text.isIdentStart c then .ok (.next (.ident (String.singleton c)), draft)
        else .error (.unexpectedChar c)) :=
    readsOn_ite (readsOn_next _ _) (readsOn_ite (readsOn_next _ _) (readsOn_error _))
  unfold startValue
  split
  · exact readsOn_token draft _
  · split <;> first | exact readsOn_next _ draft | exact readsOn_token draft _ | exact hword

theorem readsOn_startOperator (draft : Draft) (c : Char) : ReadsOn (startOperator draft c) := by
  have hannotated : ReadsOn
      (if startsAnnotated c then do startValue (← draft.feed .annotate) c
        else .error (.unexpectedChar c)) :=
    readsOn_ite (readsOn_bind _ fun draft => readsOn_startValue draft c) (readsOn_error _)
  unfold startOperator
  split <;> first | exact readsOn_token draft _ | exact readsOn_next _ draft | exact hannotated

theorem readsOn_argumentChar (draft : Draft) (c : Char) : ReadsOn (argumentChar draft c) :=
  readsOn_ite (readsOn_next _ _) (readsOn_ite (readsOn_next _ _)
    (readsOn_ite (readsOn_startValue draft c) (readsOn_startOperator draft c)))

theorem readsOn_statementChar (draft : Draft) (c : Char) : ReadsOn (statementChar draft c) :=
  readsOn_ite (readsOn_next _ _) (readsOn_ite (readsOn_next _ _)
    (readsOn_ite (readsOn_next _ _) (readsOn_error _)))

theorem readsOn_textChar (draft : Draft) (bytes : List UInt8) (quote : Quote) (escaped : Bool)
    (c : Char) : ReadsOn (textChar draft bytes quote escaped c) :=
  readsOn_ite (readsOn_bind _ fun _ => readsOn_next _ _) (readsOn_ite (readsOn_next _ _)
    (readsOn_ite (readsOn_bind _ fun _ => readsOn_token draft _)
      (readsOn_ite (readsOn_next _ _) (readsOn_error _))))

namespace Mode

variable {scope : ScopeId} {mode : Mode} {draft draft' : Draft} {c : Char}

theorem readsOn_onChar (scope : ScopeId) (c : Char) (mode : Mode) (draft : Draft) :
    ReadsOn (mode.onChar scope c draft) := by
  have hargument := fun draft => readsOn_argumentChar draft c
  have hstatement := fun draft => readsOn_statementChar draft c
  cases mode with
  | labelStart =>
    exact readsOn_ite (readsOn_next _ _) (readsOn_ite (readsOn_next _ _)
      (readsOn_ite (readsOn_next _ _) (readsOn_error _)))
  | label name =>
    exact readsOn_ite (readsOn_next _ _) (readsOn_ite (readsOn_next _ _)
      (readsOn_ite (readsOn_next _ _) (hstatement _)))
  | afterLabel name =>
    exact readsOn_ite (readsOn_next _ _) (readsOn_ite (readsOn_next _ _) (hstatement _))
  | statementStart => exact hstatement draft
  | statement name =>
    exact readsOn_ite (readsOn_next _ _) (readsOn_ite (readsOn_next _ _)
      (readsOn_ite (readsOn_next _ _) (hargument _)))
  | afterStatement name =>
    exact readsOn_ite (readsOn_next _ _) (readsOn_ite (readsOn_next _ _) (hargument _))
  | argument => exact hargument draft
  | ident name =>
    exact readsOn_ite (readsOn_next _ _) (readsOn_ite (readsOn_token draft _) (readsOn_bind _ hargument))
  | number digits =>
    exact readsOn_ite (readsOn_next _ _) (readsOn_bind _ fun _ => readsOn_bind _ hargument)
  | dollar digits =>
    exact readsOn_ite (readsOn_next _ _) (readsOn_bind _ fun _ => readsOn_bind _ hargument)
  | text bytes quote escaped => exact readsOn_textChar draft bytes quote escaped c
  | operator first =>
    rw [onChar]
    cases operatorPair? first c with
    | some op => exact readsOn_token draft _
    | none => exact readsOn_bind _ fun _ => readsOn_bind _ hargument
  | comment words => exact readsOn_next _ draft

/-- **No character finishes a line or breaks it off.** -/
theorem onChar_next {step : Step} (h : mode.onChar scope c draft = .ok (step, draft')) :
    ∃ mode', step = .next mode' :=
  readsOn_onChar scope c mode draft h

/-- What comes of these characters: the mode and the draft behind them, unless one of them breaks
    off. -/
def reads (scope : ScopeId) : Mode → Draft → List Char → Reading
  | mode, draft, [] => .ok (.next mode, draft)
  | mode, draft, c :: rest =>
    match mode.onChar scope c draft with
    | .ok (.next mode, draft) => reads scope mode draft rest
    | broken => broken

theorem reads_cons_of_ok {mode' : Mode} (h : mode.onChar scope c draft = .ok (.next mode', draft'))
    (rest : List Char) : mode.reads scope draft (c :: rest) = mode'.reads scope draft' rest := by
  rw [reads, h]

theorem reads_cons_eq_ok {mode' : Mode} {rest : List Char} :
    mode.reads scope draft (c :: rest) = .ok (.next mode', draft') ↔
      ∃ mode₁ draft₁, mode.onChar scope c draft = .ok (.next mode₁, draft₁) ∧
        mode₁.reads scope draft₁ rest = .ok (.next mode', draft') := by
  constructor
  · intro h
    rw [reads] at h
    split at h
    · next mode₁ draft₁ hchar => exact ⟨mode₁, draft₁, hchar, h⟩
    · next hbroken => exact absurd h (hbroken _ _)
  · rintro ⟨mode₁, draft₁, hchar, h⟩
    rw [reads_cons_of_ok hchar, h]

/-- A physical line is read character by character. -/
theorem run_cons_eq_ok {column : Nat} {rest : List Char} {ending : Option Mode × Draft} :
    mode.run scope column draft (c :: rest) = .ok ending ↔
      ∃ mode' draft', mode.onChar scope c draft = .ok (.next mode', draft') ∧
        mode'.run scope (column + 1) draft' rest = .ok ending := by
  rw [run]
  cases hchar : mode.onChar scope c draft with
  | error cause => simp
  | ok read =>
    obtain ⟨step, draft'⟩ := read
    obtain ⟨mode', rfl⟩ := onChar_next hchar
    constructor
    · intro h
      exact ⟨mode', draft', rfl, h⟩
    · rintro ⟨_, _, hread, h⟩
      cases hread
      exact h

end Mode

end Z80Asm
