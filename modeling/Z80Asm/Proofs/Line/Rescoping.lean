import Z80Asm.Proofs.Line.Steps

/-!
# The scope of a line does not matter to its reading

A line is read into a scope, and the names in its arguments carry that scope. Nothing on the way
looks at it: read into another scope, the line is the same but for the scopes of its names
(`Reader.next_rescope`). The proof follows the reader from its builder to whole lines, with one lemma
for each function that says how it behaves when all names that it has met so far are moved.

The two scopes are arbitrary, for nothing compares scopes while a line is read.

A draft is revised in two ways at once: its names are moved and its comment is another one. The
second is for `Line/Layout`, so that one traversal of the reader serves both.
-/
set_option autoImplicit false

namespace Z80Asm

section

variable (f : ScopeId → ScopeId)

/-! ## The builder -/

/-- A result whose value and state are replaced. -/
def resultMap {ε σ τ α β : Type} (g : α → β) (h : σ → τ) :
    EStateM.Result ε σ α → EStateM.Result ε τ β
  | .ok a s => .ok (g a) (h s)
  | .error e s => .error e (h s)

def Token.rename : Token → Token
  | .value e => .value (e.rename f)
  | t => t

namespace Builder

def rename (b : Builder) : Builder :=
  { b with operands := b.operands.map (Expr.rename f) }

theorem combine_rename (p : Pending) (operands : List Expr) :
    p.combine (operands.map (Expr.rename f)) =
      resultMap (Expr.rename f) (List.map (Expr.rename f)) (p.combine operands) := by
  rcases operands with _ | ⟨e, _ | ⟨e', rest⟩⟩
  · cases p <;> rfl
  · cases p with
    | member => cases e <;> rfl
    | _ => rfl
  · cases p with
    | member => cases e <;> rfl
    | annotate => cases e' <;> rfl
    | comma =>
      cases e' with
      | seq items =>
        simp [Pending.combine, Expr.rename, Expr.renameItems_eq_map, resultMap]
      | _ => rfl
    | ternary =>
      cases rest with
      | nil => rfl
      | cons cond rest => rfl
    | _ => rfl

theorem reduceWhile_rename (p : Pending → Bool) (pending : List Pending) (operands : List Expr) :
    reduceWhile p pending (operands.map (Expr.rename f)) =
      resultMap id (Prod.map id (List.map (Expr.rename f))) (reduceWhile p pending operands) := by
  induction pending generalizing operands with
  | nil => rfl
  | cons top pending ih =>
    simp only [reduceWhile, combine_rename]
    split
    · rfl
    · cases top.combine operands with
      | ok e rest => exact ih (e :: rest)
      | error cause rest => rfl

/-- Work on a builder that does not look at the scopes of names: on a builder whose names are moved
    it does what the other does, with names moved. -/
def Follows {α β : Type} (g : α → β) (x : Build α) (y : Build β) : Prop :=
  ∀ b, y (b.rename f) = resultMap g (rename f) (x b)

variable {f}

theorem Follows.bind {α β γ δ : Type} {g : α → β} {h : γ → δ} {x : Build α} {y : Build β}
    {k : α → Build γ} {l : β → Build δ} (hx : Follows f g x y) (hk : ∀ a, Follows f h (k a) (l (g a))) :
    Follows f h (x >>= k) (y >>= l) := by
  intro b
  show EStateM.bind y l _ = resultMap _ _ (EStateM.bind x k b)
  simp only [EStateM.bind, hx b]
  cases x b with
  | ok a b' => exact hk a b'
  | error cause b' => rfl

theorem follows_requireOperand : Follows f id requireOperand requireOperand := by
  rintro ⟨operands, pending, afterOperand⟩
  cases afterOperand <;> rfl

theorem follows_requireOperator : Follows f id requireOperator requireOperator := by
  rintro ⟨operands, pending, afterOperand⟩
  cases afterOperand <;> rfl

theorem follows_reduce (p : Pending → Bool) : Follows f id (reduce p) (reduce p) := by
  intro b
  simp only [reduce, rename, reduceWhile_rename]
  cases reduceWhile p b.pending b.operands with
  | ok u rest => rfl
  | error cause rest => rfl

theorem follows_push (p : Pending) : Follows f id (push p) (push p) :=
  fun _ => rfl

theorem follows_pushInfix (p : Pending) : Follows f id (pushInfix p) (pushInfix p) :=
  follows_requireOperand.bind fun _ => (follows_reduce _).bind fun _ => follows_push p

theorem follows_popOperand : Follows f (Expr.rename f) popOperand popOperand := by
  rintro ⟨operands, pending, afterOperand⟩
  cases operands with
  | nil => rfl
  | cons e rest => rfl

theorem follows_pushOperand (e : Expr) :
    Follows f id (pushOperand e) (pushOperand (e.rename f)) :=
  fun _ => rfl

theorem follows_close (bracket : Bracket) : Follows f id (close bracket) (close bracket) := by
  refine follows_requireOperand.bind fun _ => (follows_reduce _).bind fun _ => ?_
  rintro ⟨operands, pending, afterOperand⟩
  cases pending with
  | nil => rfl
  | cons top pending =>
    cases top with
    | bracket opened => cases opened <;> cases bracket <;> rfl
    | _ => rfl

theorem follows_feed (t : Token) : Follows f id (feed t) (feed (t.rename f)) := by
  cases t with
  | value e => exact follows_requireOperator.bind fun _ _ => rfl
  | unary op => exact follows_requireOperator.bind fun _ => follows_push _
  | binary op => exact follows_pushInfix _
  | member => exact follows_pushInfix _
  | comma => exact follows_pushInfix _
  | annotate => exact follows_pushInfix _
  | question => exact follows_pushInfix _
  | colon =>
    refine follows_requireOperand.bind fun _ => (follows_reduce _).bind fun _ => ?_
    rintro ⟨operands, pending, afterOperand⟩
    cases pending with
    | nil => rfl
    | cons top pending => cases top <;> rfl
  | openGroup => exact follows_requireOperator.bind fun _ => follows_push _
  | closeGroup =>
    exact (follows_close .paren).bind fun _ => follows_popOperand.bind fun e =>
      follows_pushOperand (.group e)
  | openIndex =>
    exact follows_requireOperand.bind fun _ => (follows_reduce _).bind fun _ => follows_push _
  | closeIndex =>
    exact (follows_close .square).bind fun _ => follows_popOperand.bind fun position =>
      follows_popOperand.bind fun sequence => follows_pushOperand (.index sequence position)

variable (f)

theorem isEmpty_rename (b : Builder) : (b.rename f).isEmpty = b.isEmpty := by
  simp [isEmpty, rename]

theorem finish_rename (b : Builder) :
    (b.rename f).finish = b.finish.map (Option.map (Expr.rename f)) := by
  simp only [finish, isEmpty_rename]
  split
  · rfl
  · show (if !b.afterOperand then _ else _) = Except.map _ (if !b.afterOperand then _ else _)
    split
    · rfl
    · simp only [rename, reduceWhile_rename]
      cases reduceWhile (fun _ => true) b.pending b.operands with
      | error cause rest => rfl
      | ok u rest =>
        obtain ⟨pending, operands⟩ := rest
        cases pending with
        | cons top pending => cases top <;> rfl
        | nil => rcases operands with _ | ⟨e, _ | ⟨e', rest⟩⟩ <;> rfl

end Builder

/-! ## Characters

What reads a character looks at the names in a draft as little as at its comment, so the comment may be
another one as well. -/

variable (g : Option String → Option String)

namespace Draft

/-- The draft with all names moved and with another comment. -/
def revise (draft : Draft) : Draft :=
  { draft with comment := g draft.comment, builder := draft.builder.rename f }

theorem feed_revise (draft : Draft) (t : Token) :
    (draft.revise f g).feed (t.rename f) = (draft.feed t).map (revise f g) := by
  simp only [feed, revise]
  have h := Builder.follows_feed t (f := f) draft.builder
  simp only [EStateM.run]
  rw [h]
  cases Builder.feed t draft.builder with
  | ok u b => rfl
  | error cause b => rfl

/-- Tokens that are no names are fed as they are. -/
theorem feed_revise_of_eq {t : Token} (h : t.rename f = t) (draft : Draft) :
    (draft.revise f g).feed t = (draft.feed t).map (revise f g) := by
  have := feed_revise f g draft t
  rwa [h] at this

theorem expectsValue_revise (draft : Draft) :
    (draft.revise f g).builder.expectsValue = draft.builder.expectsValue := rfl

theorem isIncomplete_revise (draft : Draft) :
    (draft.revise f g).builder.isIncomplete = draft.builder.isIncomplete := by
  simp only [Builder.isIncomplete, revise, Builder.isEmpty_rename]
  rfl

end Draft

/-- What is read, with the draft revised. -/
def revised {α : Type} (x : Except Cause (α × Draft)) : Except Cause (α × Draft) :=
  x.map (Prod.map id (Draft.revise f g))

/-- A step that goes on with a draft, when the draft is revised. -/
theorem bind_revise {α : Type} {x : Except Cause Draft} {k l : Draft → Except Cause (α × Draft)}
    (h : ∀ draft, l (draft.revise f g) = revised f g (k draft)) :
    (x.map (Draft.revise f g) >>= l) = revised f g (x >>= k) := by
  cases x with
  | ok draft => exact h draft
  | error cause => rfl

theorem token_revise (draft : Draft) (t : Token) :
    (draft.revise f g).token (t.rename f) = revised f g (draft.token t) := by
  simp only [Draft.token, Draft.feed_revise]
  exact bind_revise f g fun draft => rfl

theorem token_revise_of_eq {t : Token} (h : t.rename f = t) (draft : Draft) :
    (draft.revise f g).token t = revised f g (draft.token t) := by
  have := token_revise f g draft t
  rwa [h] at this

theorem startValue_revise (draft : Draft) (c : Char) :
    startValue (draft.revise f g) c = revised f g (startValue draft c) := by
  unfold startValue
  split
  · exact token_revise_of_eq f g rfl draft
  · split
    · rfl
    · rfl
    · rfl
    · rfl
    · rfl
    · exact token_revise_of_eq f g rfl draft
    · exact token_revise_of_eq f g rfl draft
    · split
      · rfl
      · split
        · rfl
        · rfl

theorem startOperator_revise (draft : Draft) (c : Char) :
    startOperator (draft.revise f g) c = revised f g (startOperator draft c) := by
  unfold startOperator
  split
  case h_14 | h_15 | h_16 | h_17 | h_18 | h_19 => rfl
  case h_20 =>
    split
    · rw [Draft.feed_revise_of_eq f g rfl]
      exact bind_revise f g fun draft => startValue_revise f g draft c
    · rfl
  all_goals exact token_revise_of_eq f g rfl draft

theorem argumentChar_revise (draft : Draft) (c : Char) :
    argumentChar (draft.revise f g) c = revised f g (argumentChar draft c) := by
  unfold argumentChar
  split
  · rfl
  · split
    · rfl
    · by_cases hvalue : draft.builder.expectsValue = true
      · rw [if_pos hvalue, if_pos ((Draft.expectsValue_revise f g draft).trans hvalue),
          startValue_revise]
      · rw [if_neg hvalue, if_neg (mt (Draft.expectsValue_revise f g draft).symm.trans hvalue),
          startOperator_revise]

theorem statementChar_revise (draft : Draft) (c : Char) :
    statementChar (draft.revise f g) c = revised f g (statementChar draft c) := by
  unfold statementChar
  split
  · rfl
  · split
    · rfl
    · split
      · rfl
      · rfl

theorem textChar_revise (draft : Draft) (bytes : List UInt8) (quote : Quote) (escaped : Bool)
    (c : Char) :
    textChar (draft.revise f g) bytes quote escaped c =
      revised f g (textChar draft bytes quote escaped c) := by
  unfold textChar
  split
  · cases unescape c with
    | ok byte => rfl
    | error cause => rfl
  · split
    · rfl
    · split
      · cases hlit : literal quote bytes with
        | error cause => rfl
        | ok e =>
          have hsame : (Token.value e).rename f = .value e := by
            unfold literal at hlit
            split at hlit <;> cases hlit <;> rfl
          exact token_revise_of_eq f g hsame draft
      · split
        · rfl
        · rfl

/-! ## Words

A word of the line is the same token in both scopes but for the scope that a name carries. -/

variable {f g}

theorem numberToken_rename (text : String) :
    numberToken text = (numberToken text).map (Token.rename f) := by
  unfold numberToken
  cases Number.parse text with
  | ok value => rfl
  | error cause => rfl

theorem identToken_rename {scope scope' : ScopeId} (hscope : f scope = scope') (name : String) :
    identToken scope' name = (identToken scope name).rename f := by
  rw [← hscope]
  rfl

theorem dollarToken_rename {scope scope' : ScopeId} (hscope : f scope = scope') (digits : String) :
    dollarToken scope' digits = (dollarToken scope digits).map (Token.rename f) := by
  unfold dollarToken
  split
  · exact congrArg Except.ok (identToken_rename hscope selfName)
  · cases Number.ofRadix 16 digits.toList digits with
    | ok value => rfl
    | error cause => rfl

/-- A word in front of what comes after it. -/
theorem word_revise {α : Type} {x y : Except Cause Token} (hxy : y = x.map (Token.rename f))
    {k l : Draft → Except Cause (α × Draft)}
    (h : ∀ draft, l (draft.revise f g) = revised f g (k draft)) (draft : Draft) :
    (do l (← (draft.revise f g).feed (← y))) = revised f g (do k (← draft.feed (← x))) := by
  subst hxy
  cases x with
  | error cause => rfl
  | ok t =>
    show ((draft.revise f g).feed (t.rename f) >>= l) = revised f g (draft.feed t >>= k)
    rw [Draft.feed_revise]
    exact bind_revise f g h

theorem onChar_revise {scope scope' : ScopeId} (hscope : f scope = scope') (c : Char) (mode : Mode)
    (draft : Draft) :
    mode.onChar scope' c (draft.revise f g) = revised f g (mode.onChar scope c draft) := by
  have hargument : ∀ draft : Draft,
      argumentChar (draft.revise f g) c = revised f g (argumentChar draft c) :=
    fun draft => argumentChar_revise f g draft c
  cases mode with
  | labelStart =>
    simp only [Mode.onChar]
    split
    · rfl
    · split
      · rfl
      · split
        · rfl
        · rfl
  | label name =>
    simp only [Mode.onChar]
    split
    · rfl
    · split
      · rfl
      · split
        · rfl
        · exact statementChar_revise f g { draft with label := some name } c
  | afterLabel name =>
    simp only [Mode.onChar]
    split
    · rfl
    · split
      · rfl
      · exact statementChar_revise f g { draft with label := some name } c
  | statementStart => exact statementChar_revise f g draft c
  | statement name =>
    simp only [Mode.onChar]
    split
    · rfl
    · show (if c == ':' && draft.label.isNone then _ else _) = _
      split
      · rfl
      · split
        · rfl
        · exact hargument { draft with mnemonic := some name }
  | afterStatement name =>
    simp only [Mode.onChar]
    split
    · rfl
    · show (if c == ':' && draft.label.isNone then _ else _) = _
      split
      · rfl
      · exact hargument { draft with mnemonic := some name }
  | argument => exact hargument draft
  | ident name =>
    simp only [Mode.onChar]
    split
    · rfl
    · split
      · rw [identToken_rename hscope]
        exact token_revise f g draft _
      · rw [identToken_rename hscope, Draft.feed_revise]
        exact bind_revise f g hargument
  | number digits =>
    simp only [Mode.onChar]
    split
    · rfl
    · exact word_revise (numberToken_rename digits) hargument draft
  | dollar digits =>
    simp only [Mode.onChar]
    split
    · rfl
    · exact word_revise (dollarToken_rename hscope digits) hargument draft
  | text bytes quote escaped => exact textChar_revise f g draft bytes quote escaped c
  | operator first =>
    simp only [Mode.onChar]
    split
    · exact token_revise_of_eq f g rfl draft
    · cases operatorAlone first with
      | error cause => rfl
      | ok op =>
        show ((draft.revise f g).feed (.binary op) >>= _) = revised f g (draft.feed _ >>= _)
        rw [Draft.feed_revise_of_eq f g rfl]
        exact bind_revise f g hargument
  | comment words => rfl

theorem endArgument_revise (draft : Draft) :
    Mode.endArgument (draft.revise f g) = revised f g (Mode.endArgument draft) := by
  unfold Mode.endArgument
  rw [Draft.isIncomplete_revise]
  rfl

/-- Whether a comment is being read. -/
def Mode.isComment : Mode → Bool
  | comment _ => true
  | _ => false

theorem addComment_rename (draft : Draft) (words : String) :
    (draft.revise f id).addComment words = (draft.addComment words).revise f id := by
  obtain ⟨label, mnemonic, comment, builder⟩ := draft
  cases comment with
  | some earlier => rfl
  | none => rfl

/-- Only the end of a comment adds to the comment of the draft. -/
theorem onEnd_revise {scope scope' : ScopeId} (hscope : f scope = scope') {mode : Mode}
    (hmode : mode.isComment = true → g = id) (draft : Draft) :
    mode.onEnd scope' (draft.revise f g) = revised f g (mode.onEnd scope draft) := by
  cases mode with
  | labelStart => rfl
  | label name => rfl
  | afterLabel name => rfl
  | statementStart => rfl
  | statement name => exact endArgument_revise { draft with mnemonic := some name }
  | afterStatement name => exact endArgument_revise { draft with mnemonic := some name }
  | argument => exact endArgument_revise draft
  | ident name =>
    simp only [Mode.onEnd]
    rw [identToken_rename hscope, Draft.feed_revise]
    exact bind_revise f g endArgument_revise
  | number digits => exact word_revise (numberToken_rename digits) endArgument_revise draft
  | dollar digits => exact word_revise (dollarToken_rename hscope digits) endArgument_revise draft
  | text bytes quote escaped => cases quote <;> rfl
  | operator first =>
    simp only [Mode.onEnd]
    cases operatorAlone first with
    | error cause => rfl
    | ok op =>
      show ((draft.revise f g).feed (.binary op) >>= _) = revised f g (draft.feed _ >>= _)
      rw [Draft.feed_revise_of_eq f g rfl]
      exact bind_revise f g endArgument_revise
  | comment words =>
    obtain rfl := hmode rfl
    simp only [Mode.onEnd, addComment_rename]
    exact endArgument_revise _

/-! ## Lines -/

theorem run_rename {scope scope' : ScopeId} (hscope : f scope = scope') (cs : List Char)
    (column : Nat) (mode : Mode) (draft : Draft) :
    mode.run scope' column (draft.revise f id) cs =
      (mode.run scope column draft cs).map (Prod.map id (Draft.revise f id)) := by
  induction cs generalizing column mode draft with
  | nil =>
    simp only [Mode.run, onEnd_revise hscope fun _ => rfl]
    cases mode.onEnd scope draft with
    | ok ending => rfl
    | error cause => rfl
  | cons c rest ih =>
    simp only [Mode.run, onChar_revise hscope]
    cases hchar : mode.onChar scope c draft with
    | ok read =>
      obtain ⟨step, draft'⟩ := read
      obtain ⟨mode', rfl⟩ := Mode.onChar_next hchar
      exact ih (column + 1) mode' draft'
    | error cause => rfl

def Physical.rename (f : ScopeId → ScopeId) (line : Physical) : Physical :=
  { line with draft := line.draft.revise f id }

theorem readPhysical_rename {scope scope' : ScopeId} (hscope : f scope = scope')
    (file : Option String) (outer : List Site) (rest : List String) (mode : Mode) (draft : Draft)
    (number : UInt32) (text : String) :
    readPhysical scope' file outer mode (draft.revise f id) number text rest =
      (readPhysical scope file outer mode draft number text rest).map (Physical.rename f) := by
  induction rest generalizing mode draft number text with
  | nil =>
    unfold readPhysical
    rw [run_rename hscope]
    cases mode.run scope 1 draft text.toList with
    | error failure => rfl
    | ok ending =>
      obtain ⟨resume, draft⟩ := ending
      cases resume with
      | none => rfl
      | some resume =>
        show (if resume.isText then _ else _) = Except.map _ (if resume.isText then _ else _)
        split <;> rfl
  | cons next rest ih =>
    unfold readPhysical
    rw [run_rename hscope]
    cases mode.run scope 1 draft text.toList with
    | error failure => rfl
    | ok ending =>
      obtain ⟨resume, draft⟩ := ending
      cases resume with
      | none => rfl
      | some resume =>
        show (readPhysical scope' file outer resume (draft.revise f id) (number + 1) next rest >>= _) =
          Except.map _ (readPhysical scope file outer resume draft (number + 1) next rest >>= _)
        rw [ih]
        cases readPhysical scope file outer resume draft (number + 1) next rest with
        | ok line => rfl
        | error failure => rfl

end

/-- The line as it is read into another scope. -/
def Line.inScope (scope : ScopeId) (line : Line) : Line :=
  { line with arguments := line.arguments.map (Expr.rename fun _ => scope), scope }

/-- **Read into another scope, the next line is the same but for its scope.** -/
theorem Reader.next_rescope (reader : Reader) (scope scope' : ScopeId) :
    reader.next scope' =
      (reader.next scope).map (Option.map (Prod.map (Line.inScope scope') id)) := by
  unfold Reader.next
  split
  · rfl
  · cases reader.remaining with
    | nil => rfl
    | cons text rest =>
      have h : readPhysical scope' reader.file reader.outer .labelStart {} reader.number text rest =
          (readPhysical scope reader.file reader.outer .labelStart {} reader.number text rest).map
            (Physical.rename fun _ => scope') :=
        readPhysical_rename (f := fun _ => scope') rfl _ _ rest .labelStart {} _ text
      simp only [h]
      cases readPhysical scope reader.file reader.outer .labelStart {} reader.number text rest with
      | error failure => rfl
      | ok read =>
        simp only [bind, Except.bind, Except.map, Physical.rename, Draft.revise,
          Builder.finish_rename]
        cases read.draft.builder.finish with
        | ok arguments => rfl
        | error cause => rfl

end Z80Asm
