import Mathlib.Data.List.Forall2
import Z80Asm.Proofs.Line.Physical

/-!
# Layout

How a statement is laid out does not change what it says: physical lines that make up one logical
line say the same if they are joined by blanks, and also with a comment at the end of any of them
(`Reader.next_layout`). Strings are the exception, since the end of a line inside a string is part
of it.

Outside of strings and comments the end of a physical line, a blank and a semicolon all end the word
that is being read. `Mode.settle` is the draft with that word, and each of the three is `settle` and
then what it means itself. Only in front of the argument a blank may leave a word open, for a colon
to follow; but there no argument has begun (`Mode.Untouched`), so the logical line is not continued
either.

A comment is kept in the draft and is not looked at, so two runs that differ in it stay in step.
-/
set_option autoImplicit false

namespace Z80Asm

open Success Mode

/-! ## Another comment -/

mutual

theorem Expr.rename_id : ∀ e : Expr, e.rename id = e
  | .unary op operand => by rw [rename, rename_id operand]
  | .binary op left right => by rw [rename, rename_id left, rename_id right]
  | .ifElse cond onTrue onFalse => by
    rw [rename, rename_id cond, rename_id onTrue, rename_id onFalse]
  | .seq items => by rw [rename, renameItems_id items]
  | .member object name => by rw [rename, rename_id object]
  | .index sequence position => by rw [rename, rename_id sequence, rename_id position]
  | .group inner => by rw [rename, rename_id inner]
  | .annotated word inner => by rw [rename, rename_id inner]
  | .indexed reg offset => by rw [rename, rename_id offset]
  | .int _ | .str _ | .chr _ | .ident _ _ | .register _ | .condition _ | .context _ | .space _ _
  | .operation _ => rfl

theorem Expr.renameItems_id : ∀ items : List Expr, renameItems id items = items
  | [] => rfl
  | e :: rest => by rw [renameItems, rename_id e, renameItems_id rest]

end

def Draft.withComment (comment : Option String) (draft : Draft) : Draft :=
  { draft with comment }

theorem Draft.revise_eq (comment : Option String) (draft : Draft) :
    draft.revise id (fun _ => comment) = draft.withComment comment := by
  have hbuilder : draft.builder.rename id = draft.builder := by
    rw [Builder.rename, List.map_congr_left fun e _ => e.rename_id, List.map_id']
  rw [Draft.revise, hbuilder, Draft.withComment]

namespace Mode

variable {scope : ScopeId} {mode mode' : Mode} {draft draft' : Draft} (comment : Option String)

theorem onChar_withComment {c : Char} (h : mode.onChar scope c draft = .ok (mode', draft')) :
    mode.onChar scope c (draft.withComment comment) = .ok (mode', draft'.withComment comment) := by
  have hrevise : mode.onChar scope c (draft.revise id fun _ => comment) =
      revised id (fun _ => comment) (mode.onChar scope c draft) := onChar_revise rfl c mode draft
  rw [Draft.revise_eq, h] at hrevise
  rw [hrevise, ← Draft.revise_eq]
  rfl

theorem onEnd_withComment {resume : Option Mode} (hmode : mode.isComment = false)
    (h : mode.onEnd scope draft = .ok (resume, draft')) :
    mode.onEnd scope (draft.withComment comment) = .ok (resume, draft'.withComment comment) := by
  have hother : mode.isComment = true → (fun _ : Option String => comment) = id := by
    rw [hmode]
    intro hcomment
    cases hcomment
  have hrevise : mode.onEnd scope (draft.revise id fun _ => comment) =
      revised id (fun _ => comment) (mode.onEnd scope draft) := onEnd_revise rfl hother draft
  rw [Draft.revise_eq, h] at hrevise
  rw [hrevise, ← Draft.revise_eq]
  rfl

theorem reads_withComment {cs : List Char} (h : mode.reads scope draft cs = .ok (mode', draft')) :
    mode.reads scope (draft.withComment comment) cs = .ok (mode', draft'.withComment comment) := by
  induction cs generalizing mode draft with
  | nil =>
    cases h
    rfl
  | cons c cs ih =>
    obtain ⟨mode₁, draft₁, hchar, h⟩ := reads_cons_eq_ok.mp h
    rw [reads_cons_of_ok (onChar_withComment comment hchar)]
    exact ih h

/-- Characters do not change the comment. -/
theorem comment_of_reads {cs : List Char} (h : mode.reads scope draft cs = .ok (mode', draft')) :
    draft'.comment = draft.comment := by
  have hsame : mode.reads scope draft cs = .ok (mode', draft'.withComment draft.comment) :=
    reads_withComment draft.comment h
  rw [h] at hsame
  have hdraft := (Prod.mk.inj (Except.ok.inj hsame)).2
  rw [hdraft]
  rfl

/-- A draft without a comment had none before, and no comment has just ended. -/
theorem comment_of_onEnd {resume : Option Mode} (h : mode.onEnd scope draft = .ok (resume, draft'))
    (hnone : draft'.comment = none) : draft.comment = none ∧ mode.isComment = false := by
  by_cases hmode : mode.isComment = true
  · -- The end of a comment leaves one.
    cases mode with
    | comment words =>
      obtain ⟨-, rfl⟩ := Prod.mk.inj (Except.ok.inj h)
      unfold Draft.addComment at hnone
      split at hnone
      · cases hnone
      · cases hnone
    | _ => cases hmode
  · rw [Bool.not_eq_true] at hmode
    have hsame : mode.onEnd scope draft = .ok (resume, draft'.withComment draft.comment) :=
      onEnd_withComment draft.comment hmode h
    rw [h] at hsame
    have hdraft := (Prod.mk.inj (Except.ok.inj hsame)).2
    rw [hdraft] at hnone
    exact ⟨hnone, hmode⟩

/-! ## In front of the argument -/

/-- Whether the argument has not begun. -/
def beforeArgument : Mode → Bool
  | labelStart | label _ | afterLabel _ | statementStart | statement _ | afterStatement _ => true
  | _ => false

/-- As long as the argument has not begun there is nothing in the builder. -/
def Untouched (mode : Mode) (draft : Draft) : Prop :=
  mode.beforeArgument = true → draft.builder = {}

end Mode

/-- Reading goes on with an empty builder or inside the argument, if at all. -/
def Untouches (x : Reading) : Prop :=
  ∀ ⦃mode : Mode⦄ ⦃draft⦄, x = .ok (.next mode, draft) → mode.Untouched draft

section

variable {scope : ScopeId} {mode mode' : Mode} {draft draft' : Draft}

theorem untouches_empty (h : draft.builder = {}) : Untouches (.ok (mode, draft)) := by
  intro mode' draft' heq
  cases heq
  exact fun _ => h

theorem untouches_begun (h : mode.beforeArgument = false) : Untouches (.ok (mode, draft)) := by
  intro mode' draft' heq
  cases heq
  intro hbefore
  rw [h] at hbefore
  cases hbefore

theorem untouches_error (cause : Cause) : Untouches (.error cause) := by
  intro mode draft heq
  cases heq

theorem Untouches.bind {α : Type} {x : Except Cause α} {f : α → Reading}
    (h : ∀ a, Untouches (f a)) : Untouches (x >>= f) := by
  intro mode draft heq
  obtain ⟨a, -, hfa⟩ := except_bind_eq_ok.mp heq
  exact h a hfa

theorem untouches_token (draft : Draft) (t : Token) : Untouches (draft.token t) :=
  Untouches.bind fun _ => untouches_begun rfl

theorem untouches_startValue (draft : Draft) (c : Char) : Untouches (startValue draft c) := by
  unfold startValue
  split
  · exact untouches_token draft _
  · split
    case h_6 | h_7 => exact untouches_token draft _
    case h_8 =>
      split
      · exact untouches_begun rfl
      · split
        · exact untouches_begun rfl
        · exact untouches_error _
    all_goals exact untouches_begun rfl

theorem untouches_startOperator (draft : Draft) (c : Char) : Untouches (startOperator draft c) := by
  unfold startOperator
  split
  case h_14 | h_15 | h_16 | h_17 | h_18 | h_19 => exact untouches_begun rfl
  case h_20 =>
    split
    · exact Untouches.bind fun draft => untouches_startValue draft c
    · exact untouches_error _
  all_goals exact untouches_token draft _

theorem untouches_argumentChar (draft : Draft) (c : Char) : Untouches (argumentChar draft c) := by
  unfold argumentChar
  split
  · exact untouches_begun rfl
  · split
    · exact untouches_begun rfl
    · split
      · exact untouches_startValue draft c
      · exact untouches_startOperator draft c

theorem untouches_textChar (draft : Draft) (bytes : List UInt8) (quote : Quote) (escaped : Bool)
    (c : Char) : Untouches (textChar draft bytes quote escaped c) := by
  unfold textChar
  split
  · exact Untouches.bind fun _ => untouches_begun rfl
  · split
    · exact untouches_begun rfl
    · split
      · exact Untouches.bind fun _ => untouches_token draft _
      · split
        · exact untouches_begun rfl
        · exact untouches_error _

theorem untouches_statementChar (h : draft.builder = {}) (c : Char) :
    Untouches (statementChar draft c) := by
  unfold statementChar
  split
  · exact untouches_begun rfl
  · split
    · exact untouches_empty h
    · split
      · exact untouches_empty h
      · exact untouches_error _

/-- No character in front of the argument puts anything into the builder. -/
theorem Mode.Untouched.onChar (h : mode.Untouched draft) (c : Char) :
    Untouches (mode.onChar scope c draft) := by
  cases mode with
  | labelStart =>
    simp only [Mode.onChar]
    split
    · exact untouches_begun rfl
    · split
      · exact untouches_empty (h rfl)
      · split
        · exact untouches_empty (h rfl)
        · exact untouches_error _
  | label name =>
    simp only [Mode.onChar]
    split
    · exact untouches_empty (h rfl)
    · split
      · exact untouches_empty (h rfl)
      · split
        · exact untouches_empty (h rfl)
        · refine untouches_statementChar ?_ c
          exact h rfl
  | afterLabel name =>
    simp only [Mode.onChar]
    split
    · exact untouches_empty (h rfl)
    · split
      · exact untouches_empty (h rfl)
      · refine untouches_statementChar ?_ c
        exact h rfl
  | statementStart => exact untouches_statementChar (h rfl) c
  | statement name =>
    simp only [Mode.onChar]
    split
    · exact untouches_empty (h rfl)
    · split
      · exact untouches_empty (h rfl)
      · split
        · exact untouches_empty (h rfl)
        · exact untouches_argumentChar _ c
  | afterStatement name =>
    simp only [Mode.onChar]
    split
    · exact untouches_empty (h rfl)
    · split
      · exact untouches_empty (h rfl)
      · exact untouches_argumentChar _ c
  | argument => exact untouches_argumentChar draft c
  | ident name =>
    simp only [Mode.onChar]
    split
    · exact untouches_begun rfl
    · split
      · exact untouches_token draft _
      · exact Untouches.bind fun draft => untouches_argumentChar draft c
  | number digits | dollar digits =>
    simp only [Mode.onChar]
    split
    · exact untouches_begun rfl
    · exact Untouches.bind fun _ => Untouches.bind fun draft => untouches_argumentChar draft c
  | text bytes quote escaped => exact untouches_textChar draft bytes quote escaped c
  | operator first =>
    simp only [Mode.onChar]
    split
    · exact untouches_token draft _
    · exact Untouches.bind fun _ => Untouches.bind fun draft => untouches_argumentChar draft c
  | comment words => exact untouches_begun rfl

theorem Mode.Untouched.reads {cs : List Char} (hmode : mode.Untouched draft)
    (h : mode.reads scope draft cs = .ok (mode', draft')) : mode'.Untouched draft' := by
  induction cs generalizing mode draft with
  | nil =>
    cases h
    exact hmode
  | cons c cs ih =>
    obtain ⟨mode₁, draft₁, hchar, h⟩ := Mode.reads_cons_eq_ok.mp h
    exact ih (hmode.onChar c hchar) h

end

/-! ## The end of a word -/

namespace Mode

variable {scope : ScopeId} {mode mode' : Mode} {draft draft' : Draft}

/-- Whether neither a literal nor a comment is being read. -/
def isPlain : Mode → Bool
  | text _ _ _ | comment _ => false
  | _ => true

/-- The draft with the word that is being read. -/
def settle (scope : ScopeId) : Mode → Draft → Except Cause Draft
  | label name, draft | afterLabel name, draft => .ok { draft with label := some name }
  | statement name, draft | afterStatement name, draft => .ok { draft with mnemonic := some name }
  | ident name, draft => draft.feed (identToken scope name)
  | number digits, draft => do draft.feed (← numberToken digits)
  | dollar digits, draft => do draft.feed (← dollarToken scope digits)
  | operator first, draft => do draft.feed (.binary (← operatorAlone first))
  | _, draft => .ok draft

theorem endArgument_of_empty (h : draft.builder = {}) : endArgument draft = .ok (none, draft) := by
  rw [endArgument, h]
  rfl

/-- The end of a physical line ends the word, and the logical line goes on if its argument is not
    complete. -/
theorem onEnd_eq_settle (hplain : mode.isPlain = true) (hmode : mode.Untouched draft) :
    mode.onEnd scope draft = mode.settle scope draft >>= endArgument := by
  cases mode with
  | labelStart | statementStart => exact (endArgument_of_empty (hmode rfl)).symm
  | label name | afterLabel name =>
    have hempty : ({ draft with label := some name } : Draft).builder = {} := hmode rfl
    exact (endArgument_of_empty hempty).symm
  | statement name | afterStatement name | argument | ident name => rfl
  | number digits | dollar digits | operator first => exact (bind_assoc _ _ _).symm
  | text bytes quote escaped | comment words => cases hplain

theorem operatorPair?_eq_none (first : Char) {c : Char} (h : c ∉ ['<', '=', '>', '&', '|']) :
    operatorPair? first c = none := by
  unfold operatorPair?
  split
  case h_9 => rfl
  all_goals exact absurd (by decide) h

/-- A semicolon ends the word, and a comment begins. -/
theorem onChar_semicolon (hplain : mode.isPlain = true) :
    mode.onChar scope ';' draft =
      mode.settle scope draft >>= fun draft => .ok (.next (comment ""), draft) := by
  cases mode with
  | labelStart | label name | afterLabel name | statementStart | statement name | afterStatement name
  | argument | ident name => rfl
  | number digits | dollar digits => exact (bind_assoc _ _ _).symm
  | operator first =>
    rw [onChar, operatorPair?_eq_none first (by decide)]
    exact (bind_assoc _ _ _).symm
  | text bytes quote escaped | comment words => cases hplain

/-- A blank inside the argument ends the word. -/
theorem onChar_blank (hplain : mode.isPlain = true) (hbegun : mode.beforeArgument = false) :
    mode.onChar scope ' ' draft =
      mode.settle scope draft >>= fun draft => .ok (.next argument, draft) := by
  cases mode with
  | argument | ident name => rfl
  | number digits | dollar digits => exact (bind_assoc _ _ _).symm
  | operator first =>
    rw [onChar, operatorPair?_eq_none first (by decide)]
    exact (bind_assoc _ _ _).symm
  | text bytes quote escaped | comment words => cases hplain
  | _ => cases hbegun

/-- Where a line ends without a comment and not inside a string, no literal and no comment is being
    read. -/
theorem isPlain_of_onEnd {resume : Option Mode} (h : mode.onEnd scope draft = .ok (resume, draft'))
    (hnone : draft'.comment = none) (hstring : ∀ mode ∈ resume, mode.isText = false) :
    mode.isPlain = true := by
  cases mode with
  | text bytes quote escaped =>
    cases quote with
    | char => cases h
    | string =>
      cases h
      cases hstring _ rfl
  | comment words => cases (comment_of_onEnd h hnone).2
  | _ => rfl

/-- Where a line is continued, a blank does what its end does. -/
theorem onChar_blank_of_onEnd {resume : Mode} (hplain : mode.isPlain = true)
    (hmode : mode.Untouched draft) (h : mode.onEnd scope draft = .ok (some resume, draft')) :
    mode.onChar scope ' ' draft = .ok (resume, draft') := by
  rw [onEnd_eq_settle hplain hmode] at h
  obtain ⟨settled, hsettle, hend⟩ := except_bind_eq_ok.mp h
  obtain ⟨rfl, rfl, hincomplete⟩ := endArgument_eq_some hend
  have hbegun : mode.beforeArgument = false := by
    rw [Bool.eq_false_iff]
    intro hbefore
    -- What is in front of the argument does not reach the builder.
    have hbuilder : draft'.builder = draft.builder := by
      cases mode with
      | labelStart | label name | afterLabel name | statementStart | statement name
      | afterStatement name =>
        cases hsettle
        rfl
      | _ => cases hbefore
    rw [hbuilder, hmode hbefore] at hincomplete
    cases hincomplete
  rw [onChar_blank hplain hbegun, hsettle]
  rfl

/-- A comment does what the end of its line does, and is added to the draft. -/
theorem onEnd_comment_of_onEnd {resume : Option Mode} (hplain : mode.isPlain = true)
    (hmode : mode.Untouched draft) (h : mode.onEnd scope draft = .ok (resume, draft'))
    (words : String) :
    mode.onChar scope ';' draft = .ok (comment "", draft') ∧
      (comment words).onEnd scope draft' = .ok (resume, draft'.addComment words) := by
  rw [onEnd_eq_settle hplain hmode] at h
  obtain ⟨settled, hsettle, hend⟩ := except_bind_eq_ok.mp h
  obtain ⟨rfl, rfl⟩ := Prod.mk.inj (Except.ok.inj hend)
  refine ⟨?_, ?_⟩
  · rw [onChar_semicolon hplain, hsettle]
    rfl
  · rw [onEnd, endArgument]
    unfold Draft.addComment
    split
    · rfl
    · rfl

/-! ## Lines without comments -/

/-- A line without a comment has had none from the start. -/
theorem Spans.comment_eq_none {texts : List String} {final : Draft}
    (h : mode.Spans scope draft texts final) (hnone : final.comment = none) : draft.comment = none := by
  induction h with
  | last hreads hend =>
    rw [← comment_of_reads hreads]
    exact (comment_of_onEnd hend hnone).1
  | more hreads hend _ ih =>
    rw [← comment_of_reads hreads]
    exact (comment_of_onEnd hend (ih hnone)).1

/-- Whether a string is open at the end of one of these physical lines, the last one apart. -/
def breaksString (scope : ScopeId) : Mode → Draft → List String → Bool
  | mode, draft, first :: next :: texts =>
    match mode.run scope 1 draft first.toList with
    | .ok (some resume, draft) => resume.isText || breaksString scope resume draft (next :: texts)
    | _ => false
  | _, _, _ => false

theorem breaksString_cons {resume : Mode} {text next : String} {texts : List String}
    (hrun : mode.run scope 1 draft text.toList = .ok (some resume, draft')) :
    mode.breaksString scope draft (text :: next :: texts) =
      (resume.isText || resume.breaksString scope draft' (next :: texts)) := by
  rw [breaksString, hrun]

/-- As `Spans`, and at the end of each physical line there is only a word to end. -/
inductive SpansPlainly (scope : ScopeId) : Mode → Draft → List String → Draft → Prop
  | last {mode mode' : Mode} {draft draft' final : Draft} {text : String} :
    mode.reads scope draft text.toList = .ok (mode', draft') →
    mode'.onEnd scope draft' = .ok (none, final) → mode'.isPlain = true → mode'.Untouched draft' →
      SpansPlainly scope mode draft [text] final
  | more {mode mode' resume : Mode} {draft draft' draft'' final : Draft} {text next : String}
      {texts : List String} :
    mode.reads scope draft text.toList = .ok (mode', draft') →
    mode'.onEnd scope draft' = .ok (some resume, draft'') → mode'.isPlain = true →
    mode'.Untouched draft' → SpansPlainly scope resume draft'' (next :: texts) final →
      SpansPlainly scope mode draft (text :: next :: texts) final

/-- Without a comment and without a string over several lines there are only words to end. -/
theorem Spans.plainly {texts : List String} {final : Draft} (h : mode.Spans scope draft texts final)
    (hmode : mode.Untouched draft) (hnone : final.comment = none)
    (hstrings : mode.breaksString scope draft texts = false) :
    mode.SpansPlainly scope draft texts final := by
  induction h with
  | last hreads hend =>
    have hplain := isPlain_of_onEnd hend hnone (by simp)
    exact .last hreads hend hplain (hmode.reads hreads)
  | @more mode mode' resume draft draft' draft'' final text texts hreads hend hmore ih =>
    obtain ⟨next, later, rfl⟩ := hmore.exists_cons
    rw [breaksString_cons (run_eq_ok.mpr ⟨_, _, hreads, hend⟩), Bool.or_eq_false_iff] at hstrings
    have hplain : mode'.isPlain = true := by
      refine isPlain_of_onEnd hend (hmore.comment_eq_none hnone) fun mode hresume => ?_
      rw [← Option.some.inj hresume]
      exact hstrings.1
    have hbegun : resume.Untouched draft'' := by
      rcases onEnd_eq_some hend with hopen | ⟨rfl, -⟩
      · rw [hstrings.1] at hopen
        cases hopen
      · exact untouches_begun rfl rfl
    exact .more hreads hend hplain (hmode.reads hreads) (ih hbegun hnone hstrings.2)

/-! ## Other layouts -/

/-- Joined by blanks, the physical lines are one. -/
theorem SpansPlainly.run_joined {texts : List String} {final : Draft}
    (h : mode.SpansPlainly scope draft texts final) (column : Nat) :
    mode.run scope column draft (String.intercalate " " texts).toList = .ok (none, final) := by
  induction h generalizing column with
  | last hreads hend =>
    rw [String.intercalate_singleton]
    exact run_eq_ok.mpr ⟨_, _, hreads, hend⟩
  | @more _ _ _ _ _ _ _ text next texts hreads hend hplain hmode _ ih =>
    have hjoined : (String.intercalate " " (text :: next :: texts)).toList =
        text.toList ++ ' ' :: (String.intercalate " " (next :: texts)).toList := by
      rw [String.toList_intercalate, String.toList_intercalate]
      simp [List.intercalate]
    rw [hjoined, run_append_of_reads hreads, run_cons_of_ok (onChar_blank_of_onEnd hplain hmode hend)]
    exact ih _

/-- The line with a comment behind it, or as it is. -/
def Commented (text text' : String) : Prop :=
  text' = text ∨ ∃ words, text' = text ++ ";" ++ words

theorem addComment_withComment (comment : Option String) (draft : Draft) (words : String) :
    ∃ comment', (draft.withComment comment).addComment words = draft.withComment comment' := by
  cases comment with
  | none => exact ⟨_, rfl⟩
  | some earlier => exact ⟨_, rfl⟩

/-- A comment at the end of a physical line adds to the comment of the draft and changes nothing
    else. -/
theorem reads_commented {mode₁ : Mode} {draft₁ : Draft} {resume : Option Mode} {text text' : String}
    (hreads : mode.reads scope draft text.toList = .ok (mode₁, draft₁))
    (hend : mode₁.onEnd scope draft₁ = .ok (resume, draft')) (hplain : mode₁.isPlain = true)
    (hmode : mode₁.Untouched draft₁) (h : Commented text text') (comment : Option String) :
    ∃ (mode₂ : Mode) (draft₂ : Draft) (comment' : Option String),
      mode.reads scope (draft.withComment comment) text'.toList = .ok (mode₂, draft₂) ∧
      mode₂.onEnd scope draft₂ = .ok (resume, draft'.withComment comment') := by
  have hreads' := reads_withComment comment hreads
  have hcomment : mode₁.isComment = false := by
    cases mode₁ with
    | comment words => cases hplain
    | _ => rfl
  have hend' := onEnd_withComment comment hcomment hend
  rcases h with rfl | ⟨words, rfl⟩
  · exact ⟨mode₁, _, comment, hreads', hend'⟩
  · have hmode' : mode₁.Untouched (draft₁.withComment comment) := hmode
    obtain ⟨hsemicolon, hlast⟩ := onEnd_comment_of_onEnd hplain hmode' hend' words
    obtain ⟨comment', hadded⟩ := addComment_withComment comment draft' words
    have htext : (text ++ ";" ++ words).toList = text.toList ++ ';' :: words.toList := by simp
    have hwords : (Mode.comment "").reads scope (draft'.withComment comment) words.toList =
        .ok (Mode.comment words, draft'.withComment comment) := by
      have hword : (Mode.comment "").reads scope (draft'.withComment comment) words.toList =
          .ok (Mode.comment ("" ++ String.ofList words.toList), draft'.withComment comment) :=
        reads_word (fun _ _ _ => rfl) ""
      rwa [String.ofList_toList, String.empty_append] at hword
    refine ⟨Mode.comment words, _, comment', ?_, hadded ▸ hlast⟩
    rw [htext, reads_append_of_ok hreads', reads_cons_of_ok hsemicolon, hwords]

/-- With comments behind some of them, the physical lines make up the same line but for its comment. -/
theorem SpansPlainly.commented {texts texts' : List String} {final : Draft}
    (h : mode.SpansPlainly scope draft texts final) (htexts : List.Forall₂ Commented texts texts')
    (comment : Option String) :
    ∃ comment', mode.Spans scope (draft.withComment comment) texts' (final.withComment comment') := by
  induction h generalizing texts' comment with
  | last hreads hend hplain hmode =>
    obtain ⟨text', _, htext, hnil, rfl⟩ := List.forall₂_cons_left_iff.mp htexts
    obtain rfl := List.forall₂_nil_left_iff.mp hnil
    obtain ⟨_, _, comment', hreads', hend'⟩ := reads_commented hreads hend hplain hmode htext comment
    exact ⟨comment', .last hreads' hend'⟩
  | more hreads hend hplain hmode _ ih =>
    obtain ⟨text', later, htext, hlater, rfl⟩ := List.forall₂_cons_left_iff.mp htexts
    obtain ⟨_, _, comment₂, hreads', hend'⟩ := reads_commented hreads hend hplain hmode htext comment
    obtain ⟨comment', hspans⟩ := ih hlater comment₂
    exact ⟨comment', .more hreads' hend' hspans⟩

end Mode

/-- Both lines have the same label, mnemonic and arguments. -/
structure Line.SameStatement (line other : Line) : Prop where
  label : line.label = other.label
  mnemonic : line.mnemonic = other.mnemonic
  arguments : line.arguments = other.arguments

namespace Reader

/-- **Layout does not matter.** Physical lines that make up a logical line without a comment, and
    with no string over the end of one of them, say the same if they are joined by blanks to a
    single one, and with comments behind any of them. A comment in the given line would swallow what
    is joined to it, and a string would get a blank in the place of its line feed; so there must be
    neither. -/
theorem next_layout {reader next : Reader} {scope : ScopeId} {line : Line} {texts : List String}
    (hnext : reader.next scope = .ok (some (line, next)))
    (hremaining : reader.remaining = texts ++ next.remaining) (hcomment : line.comment = none)
    (hstrings : Mode.labelStart.breaksString scope {} texts = false) :
    (∀ (other : Reader) (later : List String), other.stopped = false →
      other.remaining = String.intercalate " " texts :: later →
        ∃ line', other.next scope =
            .ok (some (line', { other with remaining := later, number := other.number + 1 })) ∧
          line'.SameStatement line) ∧
    ∀ (texts' : List String), List.Forall₂ Commented texts texts' →
      ∀ (other : Reader) (later : List String), other.stopped = false →
        other.remaining = texts' ++ later →
          ∃ line', other.next scope =
              .ok (some (line', { other with
                remaining := later, number := other.number + texts'.length })) ∧
            line'.SameStatement line := by
  obtain ⟨read, hread, ⟨final, hspans, hlabel, hmnemonic, hfinish, hfinal⟩, rfl, -⟩ :=
    exists_readFrom hnext
  obtain rfl : texts = read := List.append_cancel_right (hremaining.symm.trans hread)
  have hplainly := hspans.plainly (fun _ => rfl) (hfinal.symm.trans hcomment) hstrings
  constructor
  · intro other later hstopped hjoined
    obtain ⟨line', hnext', hlabel', hmnemonic', harguments', -⟩ :=
      next_of_run hstopped hjoined (hplainly.run_joined 1) hfinish
    exact ⟨line', hnext', hlabel'.trans hlabel.symm, hmnemonic'.trans hmnemonic.symm, harguments'⟩
  · intro texts' htexts other later hstopped hothers
    obtain ⟨comment, hcommented⟩ := hplainly.commented htexts none
    obtain ⟨line', hnext', hlabel', hmnemonic', harguments', -⟩ :=
      next_of_spans hstopped hothers hcommented hfinish
    exact ⟨line', hnext', hlabel'.trans hlabel.symm, hmnemonic'.trans hmnemonic.symm, harguments'⟩

theorem exists_next_of_any {reader : Reader} {scope : ScopeId} {p : Line × Reader → Bool}
    (h : (reader.next scope).toOption.join.any p = true) :
    ∃ line next, reader.next scope = .ok (some (line, next)) ∧ p (line, next) = true := by
  obtain ⟨⟨line, next⟩, hjoin, hp⟩ := (Option.any_eq_true _ _).mp h
  refine ⟨line, next, ?_, hp⟩
  cases hnext : reader.next scope with
  | error failure =>
    rw [hnext] at hjoin
    cases hjoin
  | ok found =>
    rw [hnext] at hjoin
    exact congrArg Except.ok (Option.some.inj (Option.join_eq_some_iff.mp hjoin))

/-- A line that ends behind an operator, inside a conditional and behind a hexadecimal number. -/
theorem next_layout_conditional :
    let texts := ["a: db 1 <", "2 ? af", "\t: $0F"]
    let reader (texts : List String) : Reader := { remaining := texts, file := none, outer := [] }
    ∃ line next, (reader (texts ++ [" nop"])).next ⟨0⟩ = .ok (some (line, next)) ∧
      (∃ line', (reader ["a: db 1 < 2 ? af \t: $0F"]).next ⟨0⟩ =
          .ok (some (line', { reader [] with number := 2 })) ∧ line'.SameStatement line) ∧
      ∃ line', (reader ["a: db 1 <;", "2 ? af", "\t: $0F; 5 : 6"]).next ⟨0⟩ =
          .ok (some (line', { reader [] with number := 4 })) ∧ line'.SameStatement line := by
  intro texts reader
  obtain ⟨line, next, hnext, htest⟩ := exists_next_of_any
    (show ((reader (texts ++ [" nop"])).next ⟨0⟩).toOption.join.any (fun read =>
      decide (read.2.remaining = [" nop"] ∧ read.1.comment = none)) = true by decide +kernel)
  obtain ⟨hrest, hcomment⟩ := of_decide_eq_true htest
  have hremaining : (reader (texts ++ [" nop"])).remaining = texts ++ next.remaining := by
    rw [hrest]
  have hstrings : Mode.labelStart.breaksString ⟨0⟩ {} texts = false := by decide +kernel
  have htexts : List.Forall₂ Commented texts ["a: db 1 <;", "2 ? af", "\t: $0F; 5 : 6"] :=
    .cons (.inr ⟨"", by decide +kernel⟩) (.cons (.inl rfl)
      (.cons (.inr ⟨" 5 : 6", by decide +kernel⟩) .nil))
  obtain ⟨hjoined, hcommented⟩ := next_layout hnext hremaining hcomment hstrings
  exact ⟨line, next, hnext, hjoined (reader _) [] rfl (by decide +kernel),
    hcommented _ htexts (reader _) [] rfl rfl⟩

end Reader

end Z80Asm
