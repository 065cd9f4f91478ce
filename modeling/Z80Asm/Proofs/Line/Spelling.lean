import Z80Asm.Proofs.Builder.Soundness
import Z80Asm.Proofs.Line.Steps

/-!
# How names are spelled

A label that is read is a word. A name inside an argument is a word as well, or it is `$`, or the
name of the second accumulator pair, which ends in an apostrophe. So all characters of a name are
those of words, but for apostrophes.

What holds of every word that is being read holds of the line in the end: `Mode.Spelled` and
`Draft.Spelled` are kept by every character. The names of an argument are those among the tokens that
it was built from, and a builder loses none of these.

The dots of a label are characters of words, so a name is not divided here.
-/
set_option autoImplicit false

namespace Z80Asm

open Success

namespace Text

/-- A character that a name may begin with, and characters that it may go on with. -/
def IsWord (name : String) : Prop :=
  ∃ c rest, name.toList = c :: rest ∧ isIdentStart c = true ∧ ∀ d ∈ rest, isIdentChar d = true

/-- All characters are those of words, or apostrophes. -/
def IsName (name : String) : Prop :=
  ∀ c ∈ name.toList, isIdentChar c = true ∨ c = '\''

/-- A name that begins as a word does. -/
def IsFullName (name : String) : Prop :=
  ∃ word tail, name = word ++ tail ∧ IsWord word ∧ IsName tail

/-- A name as arguments mention it: `$`, or one that begins as a word does. -/
def IsMention (name : String) : Prop :=
  name = selfName ∨ IsFullName name

theorem isIdentChar_of_isIdentStart {c : Char} (h : isIdentStart c = true) :
    isIdentChar c = true := by
  simp [isIdentChar, h]

theorem isWord_singleton {c : Char} (h : isIdentStart c = true) : IsWord (String.singleton c) :=
  ⟨c, [], by simp, h, by simp⟩

theorem IsWord.push {name : String} {c : Char} (h : IsWord name) (hc : isIdentChar c = true) :
    IsWord (name.push c) := by
  obtain ⟨d, rest, hname, hd, hrest⟩ := h
  refine ⟨d, rest ++ [c], by simp [hname], hd, ?_⟩
  intro e he
  rcases List.mem_append.mp he with he | he
  · exact hrest e he
  · rw [List.mem_singleton.mp he]
    exact hc

theorem IsWord.isIdentChar {name : String} (h : IsWord name) :
    ∀ c ∈ name.toList, Text.isIdentChar c = true := by
  obtain ⟨d, rest, hname, hd, hrest⟩ := h
  intro c hc
  rw [hname] at hc
  rcases List.mem_cons.mp hc with rfl | hc
  · exact isIdentChar_of_isIdentStart hd
  · exact hrest c hc

theorem IsWord.isName {name : String} (h : IsWord name) : IsName name :=
  fun c hc => .inl (h.isIdentChar c hc)

theorem IsName.append {name more : String} (h : IsName name) (hmore : IsName more) :
    IsName (name ++ more) := by
  intro c hc
  rw [String.toList_append] at hc
  rcases List.mem_append.mp hc with hc | hc
  · exact h c hc
  · exact hmore c hc

/-- A word goes on as a word as long as no apostrophe comes. -/
theorem IsWord.append {word tail : String} (h : IsWord word) (htail : IsName tail)
    (hplain : '\'' ∉ (word ++ tail).toList) : IsWord (word ++ tail) := by
  obtain ⟨c, rest, hword, hc, hrest⟩ := h
  rw [String.toList_append, hword] at hplain
  refine ⟨c, rest ++ tail.toList, by rw [String.toList_append, hword]; rfl, hc, ?_⟩
  refine List.forall_mem_append.mpr ⟨hrest, fun d hd => (htail d hd).resolve_right ?_⟩
  rintro rfl
  exact hplain (List.mem_append_right _ hd)

theorem IsFullName.isWord {name : String} (h : IsFullName name) (hplain : '\'' ∉ name.toList) :
    IsWord name := by
  obtain ⟨word, tail, rfl, hword, htail⟩ := h
  exact hword.append htail hplain

theorem IsFullName.newline_notMem {name : String} (h : IsFullName name) : '\n' ∉ name.toList := by
  obtain ⟨word, tail, rfl, hword, htail⟩ := h
  intro hmem
  rcases (hword.isName.append htail) _ hmem with hc | hc
  · exact absurd hc (by decide)
  · exact absurd hc (by decide)

theorem IsWord.ne_selfName {name : String} (h : IsWord name) : name ≠ selfName := by
  rintro rfl
  obtain ⟨c, rest, hname, hc, -⟩ := h
  cases hname
  exact absurd hc (by decide)

theorem IsWord.isEmpty_eq_false {name : String} (h : IsWord name) : name.isEmpty = false := by
  obtain ⟨c, rest, hname, -, -⟩ := h
  rw [Bool.eq_false_iff]
  intro hempty
  rw [String.isEmpty_iff.mp hempty] at hname
  cases hname

theorem IsName.push_apostrophe {name : String} (h : IsName name) : IsName (name.push '\'') := by
  intro c hc
  rw [String.toList_push] at hc
  rcases List.mem_append.mp hc with hc | hc
  · exact h c hc
  · exact .inr (List.mem_singleton.mp hc)

theorem isName_selfName : IsName selfName := by
  intro c hc
  exact .inl (by rw [List.mem_singleton.mp hc]; decide)

theorem IsMention.isName {name : String} (h : IsMention name) : IsName name := by
  rcases h with rfl | ⟨word, tail, rfl, hword, htail⟩
  · exact isName_selfName
  · exact hword.isName.append htail

theorem IsWord.isMention {name : String} (h : IsWord name) : IsMention name :=
  .inr ⟨name, "", by simp, h, by simp [IsName]⟩

theorem IsWord.isMention_push_apostrophe {name : String} (h : IsWord name) :
    IsMention (name.push '\'') := by
  have hmark : IsName "" := by simp [IsName]
  exact .inr ⟨name, "'", String.push_eq_append _, h, hmark.push_apostrophe⟩

end Text

/-- The values among tokens are atoms, and those that are names are spelled as names. -/
def Token.Spelled (scope : ScopeId) : Token → Prop
  | .value e => e.IsAtom scope ∧ ∀ name, e.name? = some name → Text.IsMention name
  | _ => True

theorem Token.Spelled.isAtomic {scope : ScopeId} {t : Token} (h : t.Spelled scope) :
    t.IsAtomic scope := by
  cases t with
  | value e => exact h.1
  | _ => trivial

/-! ## Tokens -/

theorem spelled_identToken (scope : ScopeId) {name : String} (h : Text.IsMention name) :
    (identToken scope name).Spelled scope := by
  refine ⟨.ident name, fun other hother => ?_⟩
  cases hother
  exact h

theorem spelled_nameless {scope : ScopeId} {e : Expr} (he : e.IsAtom scope) (hname : e.name? = none) :
    (Token.value e).Spelled scope :=
  ⟨he, by simp [hname]⟩

theorem spelled_numberToken (scope : ScopeId) {text : String} {t : Token}
    (h : numberToken text = .ok t) : t.Spelled scope := by
  simp only [numberToken, except_bind_eq_ok, except_pure_eq_ok] at h
  obtain ⟨value, -, rfl⟩ := h
  exact spelled_nameless (.int value) rfl

theorem spelled_dollarToken (scope : ScopeId) {digits : String} {t : Token}
    (h : dollarToken scope digits = .ok t) : t.Spelled scope := by
  unfold dollarToken at h
  split at h
  · cases h
    exact spelled_identToken scope (.inl rfl)
  · simp only [except_bind_eq_ok, except_pure_eq_ok] at h
    obtain ⟨value, -, rfl⟩ := h
    exact spelled_nameless (.int value) rfl

theorem spelled_literal (scope : ScopeId) {quote : Quote} {bytes : List UInt8} {e : Expr}
    (h : literal quote bytes = .ok e) : (Token.value e).Spelled scope := by
  unfold literal at h
  split at h
  · cases h
    exact spelled_nameless (.str _) rfl
  · cases h
    exact spelled_nameless (.chr _) rfl
  · cases h

/-! ## Characters -/

/-- The word that is being read. -/
def Mode.Spelled : Mode → Prop
  | .label name | .afterLabel name | .statement name | .afterStatement name | .ident name =>
    Text.IsWord name
  | _ => True

/-- What has been read of a line. -/
structure Draft.Spelled (scope : ScopeId) (draft : Draft) : Prop where
  label : ∀ label ∈ draft.label, Text.IsWord label
  mnemonic : ∀ mnemonic ∈ draft.mnemonic, Text.IsWord mnemonic
  tokens : ∃ ts, Builder.feedAll ts {} = .ok () draft.builder ∧ ∀ t ∈ ts, t.Spelled scope

/-- Reading gives a mode and a draft of which this holds, if any. -/
def Spells (scope : ScopeId) (x : Reading) : Prop :=
  ∀ ⦃mode : Mode⦄ ⦃draft⦄, x = .ok (.next mode, draft) → mode.Spelled ∧ draft.Spelled scope

section

variable {scope : ScopeId} {draft : Draft}

theorem spells_ok {mode : Mode} (hmode : mode.Spelled) (h : draft.Spelled scope) :
    Spells scope (.ok (mode, draft)) := by
  intro mode' draft' heq
  cases heq
  exact ⟨hmode, h⟩

theorem spells_error (cause : Cause) : Spells scope (.error cause) := by
  intro mode draft heq
  cases heq

theorem Spells.bind {α : Type} {x : Except Cause α} {f : α → Reading}
    (h : ∀ a, x = .ok a → Spells scope (f a)) : Spells scope (x >>= f) := by
  intro mode draft heq
  obtain ⟨a, ha, hfa⟩ := except_bind_eq_ok.mp heq
  exact h a ha hfa

theorem Draft.spelled_empty (scope : ScopeId) : Draft.Spelled scope {} :=
  ⟨by simp, by simp, [], rfl, List.forall_mem_nil _⟩

theorem Draft.Spelled.withLabel (h : draft.Spelled scope) {name : String} (hname : Text.IsWord name) :
    Draft.Spelled scope { draft with label := some name } := by
  refine ⟨fun label hlabel => ?_, h.mnemonic, h.tokens⟩
  cases hlabel
  exact hname

theorem Draft.Spelled.withMnemonic (h : draft.Spelled scope) {name : String}
    (hname : Text.IsWord name) : Draft.Spelled scope { draft with mnemonic := some name } := by
  refine ⟨h.label, fun mnemonic hmnemonic => ?_, h.tokens⟩
  cases hmnemonic
  exact hname

theorem Draft.Spelled.feed (h : draft.Spelled scope) {t : Token} (ht : t.Spelled scope)
    {draft' : Draft} (hfeed : draft.feed t = .ok draft') : draft'.Spelled scope := by
  obtain ⟨ts, hts, hspelled⟩ := h.tokens
  unfold Draft.feed at hfeed
  split at hfeed
  · next u builder hbuilder =>
    cases hfeed
    refine ⟨h.label, h.mnemonic, ts ++ [t], ?_, ?_⟩
    · rw [Builder.feedAll_append_eq_ok]
      refine ⟨draft.builder, hts, Builder.feedAll_cons_eq_ok.mpr ⟨builder, hbuilder, rfl⟩⟩
    · intro other hother
      rcases List.mem_append.mp hother with hother | hother
      · exact hspelled other hother
      · rw [List.mem_singleton.mp hother]
        exact ht
  · cases hfeed

theorem Draft.Spelled.token (h : draft.Spelled scope) {t : Token} (ht : t.Spelled scope) :
    Spells scope (draft.token t) :=
  Spells.bind fun _ hfeed => spells_ok trivial (h.feed ht hfeed)

theorem spells_startValue (h : draft.Spelled scope) (c : Char) :
    Spells scope (startValue draft c) := by
  unfold startValue
  split
  · exact h.token trivial
  · split
    case h_6 | h_7 => exact h.token trivial
    case h_8 =>
      split
      · exact spells_ok trivial h
      · split
        · next hstart => exact spells_ok (Text.isWord_singleton hstart) h
        · exact spells_error _
    all_goals exact spells_ok trivial h

theorem spells_startOperator (h : draft.Spelled scope) (c : Char) :
    Spells scope (startOperator draft c) := by
  unfold startOperator
  split
  case h_14 | h_15 | h_16 | h_17 | h_18 | h_19 => exact spells_ok trivial h
  case h_20 =>
    split
    · exact Spells.bind fun _ hfeed =>
        spells_startValue (h.feed (t := .annotate) trivial hfeed) c
    · exact spells_error _
  all_goals exact h.token trivial

theorem spells_argumentChar (h : draft.Spelled scope) (c : Char) :
    Spells scope (argumentChar draft c) := by
  unfold argumentChar
  split
  · exact spells_ok trivial h
  · split
    · exact spells_ok trivial h
    · split
      · exact spells_startValue h c
      · exact spells_startOperator h c

theorem spells_statementChar (h : draft.Spelled scope) (c : Char) :
    Spells scope (statementChar draft c) := by
  unfold statementChar
  split
  · exact spells_ok trivial h
  · split
    · exact spells_ok trivial h
    · split
      · next hstart => exact spells_ok (Text.isWord_singleton hstart) h
      · exact spells_error _

theorem spells_textChar (h : draft.Spelled scope) (bytes : List UInt8) (quote : Quote)
    (escaped : Bool) (c : Char) : Spells scope (textChar draft bytes quote escaped c) := by
  unfold textChar
  split
  · exact Spells.bind fun _ _ => spells_ok trivial h
  · split
    · exact spells_ok trivial h
    · split
      · exact Spells.bind fun _ hliteral => h.token (spelled_literal scope hliteral)
      · split
        · exact spells_ok trivial h
        · exact spells_error _

/-- Every character keeps the spelling of what has been read. -/
theorem spells_onChar (c : Char) {mode : Mode} (hmode : mode.Spelled) (h : draft.Spelled scope) :
    Spells scope (mode.onChar scope c draft) := by
  cases mode with
  | labelStart =>
    simp only [Mode.onChar]
    split
    · exact spells_ok trivial h
    · split
      · exact spells_ok trivial h
      · split
        · next hstart => exact spells_ok (Text.isWord_singleton hstart) h
        · exact spells_error _
  | label name =>
    simp only [Mode.onChar]
    split
    · next hc => exact spells_ok (hmode.push hc) h
    · split
      · exact spells_ok trivial (h.withLabel hmode)
      · split
        · exact spells_ok hmode h
        · exact spells_statementChar (h.withLabel hmode) c
  | afterLabel name =>
    simp only [Mode.onChar]
    split
    · exact spells_ok hmode h
    · split
      · exact spells_ok trivial (h.withLabel hmode)
      · exact spells_statementChar (h.withLabel hmode) c
  | statementStart => exact spells_statementChar h c
  | statement name =>
    simp only [Mode.onChar]
    split
    · next hc => exact spells_ok (hmode.push hc) h
    · split
      · exact spells_ok trivial (h.withLabel hmode)
      · split
        · exact spells_ok hmode h
        · exact spells_argumentChar (h.withMnemonic hmode) c
  | afterStatement name =>
    simp only [Mode.onChar]
    split
    · exact spells_ok hmode h
    · split
      · exact spells_ok trivial (h.withLabel hmode)
      · exact spells_argumentChar (h.withMnemonic hmode) c
  | argument => exact spells_argumentChar h c
  | ident name =>
    simp only [Mode.onChar]
    split
    · next hc => exact spells_ok (hmode.push hc) h
    · split
      · exact h.token (spelled_identToken scope (Text.IsWord.isMention_push_apostrophe hmode))
      · exact Spells.bind fun _ hfeed => spells_argumentChar
          (h.feed (spelled_identToken scope (Text.IsWord.isMention hmode)) hfeed) c
  | number digits =>
    simp only [Mode.onChar]
    split
    · exact spells_ok trivial h
    · exact Spells.bind fun _ ht => Spells.bind fun _ hfeed =>
        spells_argumentChar (h.feed (spelled_numberToken scope ht) hfeed) c
  | dollar digits =>
    simp only [Mode.onChar]
    split
    · exact spells_ok trivial h
    · exact Spells.bind fun _ ht => Spells.bind fun _ hfeed =>
        spells_argumentChar (h.feed (spelled_dollarToken scope ht) hfeed) c
  | text bytes quote escaped => exact spells_textChar h bytes quote escaped c
  | operator first =>
    simp only [Mode.onChar]
    split
    · exact h.token trivial
    · exact Spells.bind fun _ _ => Spells.bind fun _ hfeed =>
        spells_argumentChar (h.feed (t := .binary _) trivial hfeed) c
  | comment words => exact spells_ok trivial h

/-! ## Lines -/

/-- At the end of a physical line. -/
def SpellsEnd (scope : ScopeId) (x : Mode.Ending) : Prop :=
  ∀ ⦃resume draft⦄, x = .ok (resume, draft) →
    (∀ mode ∈ resume, mode.Spelled) ∧ draft.Spelled scope

theorem spellsEnd_ok (h : draft.Spelled scope) : SpellsEnd scope (.ok (none, draft)) := by
  intro resume draft' heq
  cases heq
  exact ⟨by simp, h⟩

theorem SpellsEnd.bind {α : Type} {x : Except Cause α} {f : α → Mode.Ending}
    (h : ∀ a, x = .ok a → SpellsEnd scope (f a)) : SpellsEnd scope (x >>= f) := by
  intro resume draft heq
  obtain ⟨a, ha, hfa⟩ := except_bind_eq_ok.mp heq
  exact h a ha hfa

theorem spellsEnd_endArgument (h : draft.Spelled scope) : SpellsEnd scope (Mode.endArgument draft) := by
  intro resume draft' heq
  unfold Mode.endArgument at heq
  split at heq
  · cases heq
    refine ⟨fun mode hmode => ?_, h⟩
    cases hmode
    trivial
  · cases heq
    exact ⟨by simp, h⟩

theorem spellsEnd_onEnd {mode : Mode} (hmode : mode.Spelled) (h : draft.Spelled scope) :
    SpellsEnd scope (mode.onEnd scope draft) := by
  cases mode with
  | labelStart => exact spellsEnd_ok h
  | label name => exact spellsEnd_ok (h.withLabel hmode)
  | afterLabel name => exact spellsEnd_ok (h.withLabel hmode)
  | statementStart => exact spellsEnd_ok h
  | statement name => exact spellsEnd_endArgument (h.withMnemonic hmode)
  | afterStatement name => exact spellsEnd_endArgument (h.withMnemonic hmode)
  | argument => exact spellsEnd_endArgument h
  | ident name =>
    exact SpellsEnd.bind fun _ hfeed =>
      spellsEnd_endArgument (h.feed (spelled_identToken scope (Text.IsWord.isMention hmode)) hfeed)
  | number digits =>
    exact SpellsEnd.bind fun _ ht => SpellsEnd.bind fun _ hfeed =>
      spellsEnd_endArgument (h.feed (spelled_numberToken scope ht) hfeed)
  | dollar digits =>
    exact SpellsEnd.bind fun _ ht => SpellsEnd.bind fun _ hfeed =>
      spellsEnd_endArgument (h.feed (spelled_dollarToken scope ht) hfeed)
  | text bytes quote escaped =>
    intro resume draft' heq
    cases quote with
    | char => cases heq
    | string =>
      cases heq
      refine ⟨fun mode hmode => ?_, h⟩
      cases hmode
      trivial
  | operator first =>
    exact SpellsEnd.bind fun _ _ => SpellsEnd.bind fun _ hfeed =>
      spellsEnd_endArgument (h.feed (t := .binary _) trivial hfeed)
  | comment words =>
    refine spellsEnd_endArgument ?_
    unfold Draft.addComment
    split
    · exact ⟨h.label, h.mnemonic, h.tokens⟩
    · exact ⟨h.label, h.mnemonic, h.tokens⟩

theorem spelled_run {cs : List Char} {column : Nat} {mode : Mode} {resume : Option Mode}
    {draft' : Draft} (hmode : mode.Spelled) (h : draft.Spelled scope)
    (hrun : mode.run scope column draft cs = .ok (resume, draft')) :
    (∀ mode ∈ resume, mode.Spelled) ∧ draft'.Spelled scope := by
  induction cs generalizing column mode draft with
  | nil =>
    rw [Mode.run] at hrun
    cases hend : mode.onEnd scope draft with
    | error cause =>
      rw [hend] at hrun
      cases hrun
    | ok ending =>
      rw [hend] at hrun
      cases hrun
      exact spellsEnd_onEnd hmode h hend
  | cons c rest ih =>
    obtain ⟨mode₁, draft₁, hchar, hrest⟩ := Mode.run_cons_eq_ok.mp hrun
    obtain ⟨hmode₁, h₁⟩ := spells_onChar c hmode h hchar
    exact ih hmode₁ h₁ hrest

theorem spelled_readPhysical {file : Option String} {outer : List Site} {mode : Mode} {number : UInt32}
    {text : String} {rest : List String} {line : Physical} (hmode : mode.Spelled)
    (h : draft.Spelled scope)
    (hread : readPhysical scope file outer mode draft number text rest = .ok line) :
    line.draft.Spelled scope := by
  induction rest generalizing mode draft number text line with
  | nil =>
    unfold readPhysical at hread
    dsimp only at hread
    split at hread
    · cases hread
    · next draft₁ hrun =>
      cases hread
      exact (spelled_run hmode h hrun).2
    · next resume draft₁ hrun =>
      split at hread
      · cases hread
      · cases hread
        exact (spelled_run hmode h hrun).2
  | cons next rest ih =>
    unfold readPhysical at hread
    dsimp only at hread
    split at hread
    · cases hread
    · next draft₁ hrun =>
      cases hread
      exact (spelled_run hmode h hrun).2
    · next resume draft₁ hrun =>
      obtain ⟨hresume, h₁⟩ := spelled_run hmode h hrun
      obtain ⟨line₁, hline, hlast⟩ := except_bind_eq_ok.mp hread
      cases hlast
      have hdraft := ih (hresume resume rfl) h₁ hline
      exact hdraft

end

/-! ## Arguments -/

/-- The name that an argument declares: that of a variable, or of a parameter with or without a
    default. -/
def Expr.declared? : Expr → Option String
  | .ident name _ => some name
  | .binary .eq (.ident name _) _ => some name
  | _ => none

/-- The label of a line is a word, and its arguments declare names only. -/
structure Line.Spelled (line : Line) : Prop where
  label : ∀ label ∈ line.label, Text.IsWord label
  arguments : ∀ e ∈ line.argumentList, ∀ name, e.declared? = some name → Text.IsName name

theorem mem_laterTokens {scope : ScopeId} {items : List Expr} {e : Expr} (h : e ∈ items) :
    e.tokens scope ⊆ laterTokens scope items := by
  induction items with
  | nil => cases h
  | cons first rest ih =>
    rw [laterTokens]
    apply List.subset_cons_of_subset
    cases h with
    | head => exact List.subset_append_left _ _
    | tail _ h => exact List.subset_append_of_subset_right _ (ih h)

/-- What is written of an element is written of the list. -/
theorem Expr.tokens_subset_of_mem_elements {scope : ScopeId} {e element : Expr}
    (h : element ∈ e.elements) : element.tokens scope ⊆ e.tokens scope := by
  cases e with
  | seq items =>
    cases items with
    | nil => cases h
    | cons first rest =>
      rw [Expr.tokens]
      cases h with
      | head => exact List.subset_append_left _ _
      | tail _ h => exact List.subset_append_of_subset_right _ (mem_laterTokens h)
  | _ =>
    rw [List.mem_singleton.mp h]
    exact List.Subset.refl _

theorem Expr.isName_declared {scope : ScopeId} {e : Expr} {name : String}
    (h : ∀ t ∈ e.tokens scope, t.Spelled scope) (hname : e.declared? = some name) :
    Text.IsName name := by
  unfold Expr.declared? at hname
  split at hname
  · next name' scope' =>
    cases hname
    exact ((h (.value (.ident name scope')) (by simp [Expr.tokens])).2 name rfl).isName
  · next name' scope' fallback =>
    cases hname
    exact ((h (.value (.ident name scope')) (by simp [Expr.tokens])).2 name rfl).isName
  · cases hname

/-- What is read is written with words and with tokens that are spelled as names. -/
theorem Reader.next_tokens {reader rest : Reader} {scope : ScopeId} {line : Line}
    (h : reader.next scope = .ok (some (line, rest))) :
    (∀ label ∈ line.label, Text.IsWord label) ∧ (∀ mnemonic ∈ line.mnemonic, Text.IsWord mnemonic) ∧
      ∀ e ∈ line.arguments, (∃ level, e.Derives scope level) ∧
        ∀ t ∈ e.tokens scope, t.Spelled scope := by
  unfold Reader.next at h
  split at h
  · cases h
  · split at h
    · cases h
    · simp only [except_bind_eq_ok, except_pure_eq_ok] at h
      obtain ⟨read, hread, arguments, harguments, hline⟩ := h
      cases hline
      have hstart : Mode.Spelled .labelStart := trivial
      have hdraft := spelled_readPhysical hstart (Draft.spelled_empty scope) hread
      refine ⟨hdraft.label, hdraft.mnemonic, ?_⟩
      intro e he
      cases hfinish : read.draft.builder.finish with
      | error cause =>
        rw [hfinish] at harguments
        cases harguments
      | ok built =>
        rw [hfinish] at harguments
        cases harguments
        cases arguments with
        | none => cases he
        | some whole =>
          -- The builder gives the tree that is written with the tokens it took.
          obtain ⟨ts, hts, hspelled⟩ := hdraft.tokens
          obtain ⟨hderives, hwritten⟩ :=
            Builder.derives_of_builds (fun t ht => (hspelled t ht).isAtomic) hts hfinish
          cases he
          rw [hwritten] at hspelled
          exact ⟨⟨_, hderives⟩, hspelled⟩

/-- **Spelling**: what is read has a word for its label, and its arguments declare names only. -/
theorem Reader.next_spelled {reader rest : Reader} {scope : ScopeId} {line : Line}
    (h : reader.next scope = .ok (some (line, rest))) : line.Spelled := by
  obtain ⟨hlabel, -, harguments⟩ := Reader.next_tokens h
  refine ⟨hlabel, fun e he name hname => ?_⟩
  cases hwhole : line.arguments with
  | none =>
    rw [Line.argumentList, hwhole] at he
    cases he
  | some whole =>
    rw [Line.argumentList, hwhole] at he
    obtain ⟨-, hspelled⟩ := harguments whole hwhole
    exact Expr.isName_declared
      (fun t ht => hspelled t (Expr.tokens_subset_of_mem_elements he ht)) hname

end Z80Asm
