import Z80Asm.Proofs.Line.Printing
import Z80Asm.Proofs.Text.Lines

/-!
# Printed expressions read back

An expression that the grammar derives is printed as the words of its tokens with single blanks
between them. Word by word the line feeds the builder with these tokens (`reads_tokens`), and the
builder makes the expression of them. Only annotations are not marked by a word: they are recognized
by an operand that begins where an operator would have to come, so the first character of that
operand must not be taken for an operator.

The other direction, that every text is a printed one, is not true: blanks, cases and numerals are
lost.
-/
set_option autoImplicit false

namespace Z80Asm

open Success Mode

/-! ## Printing -/

/-- Words with a blank in front of each. -/
def spacedWords (ts : List Token) : List Char :=
  (ts.filterMap Token.word?).flatMap (' ' :: ·)

/-- Words with single blanks between them. -/
def printed (ts : List Token) : String :=
  String.intercalate " " ((ts.filterMap Token.word?).map String.ofList)

theorem cons_intercalate (word : List Char) (words : List (List Char)) :
    ' ' :: [' '].intercalate (word :: words) = (word :: words).flatMap (' ' :: ·) := by
  induction words generalizing word with
  | nil => simp [List.intercalate]
  | cons next words ih =>
    rw [List.flatMap_cons, ← ih]
    simp [List.intercalate]

theorem cons_toList_printed {ts : List Token} (h : ts.filterMap Token.word? ≠ []) :
    ' ' :: (printed ts).toList = spacedWords ts := by
  obtain ⟨word, words, hwords⟩ := List.exists_cons_of_ne_nil h
  have hlist : ((ts.filterMap Token.word?).map String.ofList).map String.toList =
      word :: words := by
    rw [hwords]
    simp [Function.comp_def]
  rw [printed, String.toList_intercalate, hlist, spacedWords, hwords]
  exact cons_intercalate word words

/-! ## Annotations -/

mutual

/-- The operands of the annotations in a tree. -/
def Expr.annotatedOperands : Expr → List Expr
  | .unary _ operand => operand.annotatedOperands
  | .binary _ left right => left.annotatedOperands ++ right.annotatedOperands
  | .ifElse cond onTrue onFalse =>
    cond.annotatedOperands ++ onTrue.annotatedOperands ++ onFalse.annotatedOperands
  | .seq items => annotatedOperandsOf items
  | .member object _ => object.annotatedOperands
  | .index sequence position => sequence.annotatedOperands ++ position.annotatedOperands
  | .group inner => inner.annotatedOperands
  | .annotated _ inner => inner :: inner.annotatedOperands
  | _ => []

def annotatedOperandsOf : List Expr → List Expr
  | [] => []
  | e :: rest => e.annotatedOperands ++ annotatedOperandsOf rest

end

/-- Behind each annotation comes a token that can begin its operand. -/
def Unmistakable : List Token → Prop
  | [] => True
  | t :: rest =>
    (t = .annotate → ∃ next, rest.head? = some next ∧ next.BeginsAnnotated) ∧ Unmistakable rest

theorem Unmistakable.append {ts more : List Token} (h : Unmistakable ts) (hmore : Unmistakable more) :
    Unmistakable (ts ++ more) := by
  induction ts with
  | nil => exact hmore
  | cons t rest ih =>
    rw [List.cons_append]
    refine ⟨fun ht => ?_, ih h.2⟩
    obtain ⟨next, hnext, hbegins⟩ := h.1 ht
    refine ⟨next, ?_, hbegins⟩
    rw [List.head?_append, hnext]
    rfl

theorem Unmistakable.cons {t : Token} {rest : List Token} (ht : t.word?.isSome = true)
    (h : Unmistakable rest) : Unmistakable (t :: rest) := by
  refine ⟨?_, h⟩
  rintro rfl
  cases ht

/-- The operand of every annotation in the tree begins with a token that can begin one. -/
def Expr.AnnotatesOperands (scope : ScopeId) (e : Expr) : Prop :=
  ∀ operand ∈ e.annotatedOperands, ∃ t, (operand.tokens scope).head? = some t ∧ t.BeginsAnnotated

theorem annotatedOperands_subset {e : Expr} {items : List Expr} (h : e ∈ items) :
    e.annotatedOperands ⊆ annotatedOperandsOf items := by
  induction items with
  | nil => cases h
  | cons first rest ih =>
    cases h with
    | head => exact List.subset_append_left _ _
    | tail _ h => exact List.subset_append_of_subset_right _ (ih h)

theorem unmistakable_laterTokens {scope : ScopeId} {items : List Expr}
    (h : ∀ e ∈ items, Unmistakable (e.tokens scope)) : Unmistakable (laterTokens scope items) := by
  induction items with
  | nil => trivial
  | cons e rest ih =>
    obtain ⟨he, hrest⟩ := List.forall_mem_cons.mp h
    rw [laterTokens]
    exact .cons rfl (he.append (ih hrest))

/-- In the tokens of a tree, too, an operand that is annotated begins as it should. -/
theorem Expr.Derives.unmistakable {scope : ScopeId} {level : Int} {e : Expr}
    (h : e.Derives scope level) (hoperands : e.AnnotatesOperands scope) :
    Unmistakable (e.tokens scope) := by
  induction h with
  | atom ha =>
    rw [ha.tokens_eq]
    exact .cons rfl trivial
  | group _ ih =>
    rw [Expr.tokens]
    exact .cons rfl ((ih hoperands).append (.cons rfl trivial))
  | member name _ ih =>
    rw [Expr.tokens]
    exact (ih hoperands).append (.cons rfl (.cons rfl trivial))
  | index _ _ ihs ihp =>
    obtain ⟨hsequence, hposition⟩ := List.forall_mem_append.mp hoperands
    rw [Expr.tokens]
    exact (ihs hsequence).append (.cons rfl ((ihp hposition).append (.cons rfl trivial)))
  | unary op _ ih =>
    rw [Expr.tokens]
    exact .cons rfl (ih hoperands)
  | binary op _ _ ihl ihr =>
    obtain ⟨hleft, hright⟩ := List.forall_mem_append.mp hoperands
    rw [Expr.tokens]
    exact (ihl hleft).append (.cons rfl (ihr hright))
  | ifElse _ _ _ ihc iht ihf =>
    obtain ⟨hfront, hfalse⟩ := List.forall_mem_append.mp hoperands
    obtain ⟨hcond, htrue⟩ := List.forall_mem_append.mp hfront
    rw [Expr.tokens]
    exact (ihc hcond).append (.cons rfl ((iht htrue).append (.cons rfl (ihf hfalse))))
  | annotated word _ ih =>
    obtain ⟨hoperand, hinside⟩ := List.forall_mem_cons.mp hoperands
    rw [Expr.tokens]
    exact .cons rfl ⟨fun _ => hoperand, ih hinside⟩
  | @seq items _ _ ih =>
    have hitems : ∀ e ∈ items, Unmistakable (e.tokens scope) := fun e he =>
      ih e he fun operand hoperand => hoperands operand (annotatedOperands_subset he hoperand)
    cases items with
    | nil => trivial
    | cons first rest =>
      obtain ⟨hfirst, hrest⟩ := List.forall_mem_cons.mp hitems
      rw [Expr.tokens]
      exact hfirst.append (unmistakable_laterTokens hrest)
  | looser _ ih => exact ih hoperands

/-! ## Reading -/

variable {scope : ScopeId}

theorem reads_tokens {ts : List Token} (hatomic : ∀ t ∈ ts, t.IsAtomic scope)
    (hprintable : ∀ t ∈ ts, t.Printable) (hclear : Unmistakable ts) {front : List Token}
    {mode : Mode} {draft draft' : Draft} {b : Builder} (hcompletes : Completes scope mode draft draft')
    (hfront : front = [] ∨
      front = [.annotate] ∧ ∃ next, ts.head? = some next ∧ next.BeginsAnnotated)
    (hfeed : Builder.feedAll (front ++ ts) draft'.builder = .ok () b) :
    ∃ (mode₁ : Mode) (draft₁ : Draft),
      mode.reads scope draft (spacedWords ts) = .ok (.next mode₁, draft₁) ∧
        Completes scope mode₁ draft₁ { draft' with builder := b } := by
  induction ts generalizing front mode draft draft' with
  | nil =>
    rcases hfront with rfl | ⟨-, next, hnext, -⟩
    · obtain ⟨-, rfl⟩ := pure_eq_ok.mp hfeed
      exact ⟨mode, draft, rfl, hcompletes⟩
    · cases hnext
  | cons t rest ih =>
    obtain ⟨hatomicFirst, hatomicRest⟩ := List.forall_mem_cons.mp hatomic
    obtain ⟨hprintableFirst, hprintableRest⟩ := List.forall_mem_cons.mp hprintable
    obtain ⟨hnext, hclearRest⟩ := hclear
    by_cases ht : t = .annotate
    · -- The annotation is read with the word behind it.
      subst ht
      rcases hfront with rfl | ⟨-, next, hhead, hbegins⟩
      · exact ih hatomicRest hprintableRest hclearRest hcompletes (.inr ⟨rfl, hnext rfl⟩) hfeed
      · cases hhead
        cases hbegins
    · have hfront' : front = [] ∨ front = [.annotate] ∧ t.BeginsAnnotated := by
        refine hfront.imp_right ?_
        rintro ⟨rfl, next, hhead, hbegins⟩
        cases hhead
        exact ⟨rfl, hbegins⟩
      have happend : front ++ t :: rest = (front ++ [t]) ++ rest := by simp
      rw [happend] at hfeed
      obtain ⟨b₁, hfirst, hlater⟩ := Builder.feedAll_append_eq_ok.mp hfeed
      obtain ⟨word, mode₁, draft₁, hword, hread, hcompletes₁⟩ :=
        reads_token hatomicFirst hprintableFirst ht hfront' hfirst
      obtain ⟨mode₂, draft₂, hreadRest, hcompletes₂⟩ :=
        ih hatomicRest hprintableRest hclearRest hcompletes₁ (.inl rfl) hlater
      refine ⟨mode₂, draft₂, ?_, hcompletes₂⟩
      have hspaced : spacedWords (t :: rest) = ' ' :: (word ++ spacedWords rest) := by
        rw [spacedWords, List.filterMap_cons_some hword]
        rfl
      rw [hspaced, reads_cons_of_ok hcompletes.blank, reads_append_of_ok hread, hreadRest]

/-! ## Lines -/

theorem Builder.isEmpty_of_finish {b : Builder} (h : b.finish = .ok none) : b.isEmpty = true := by
  unfold finish at h
  split at h
  · assumption
  · split at h
    · cases h
    · split at h <;> cases h

/-- What can be finished is not continued on the next line. -/
theorem Builder.isIncomplete_of_finish {b : Builder} {arguments : Option Expr}
    (h : b.finish = .ok arguments) : b.isIncomplete = false := by
  have hbarriers : ∀ {e : Expr} {pending : List Pending} {operands : List Expr},
      reduceWhile (fun _ => true) pending operands = .ok () ([], [e]) →
        pending.any Pending.isBarrier = false := by
    intro e pending
    induction pending with
    | nil => exact fun _ => rfl
    | cons top rest ih =>
      intro operands hreduce
      simp only [reduceWhile, Bool.not_true, Bool.or_false] at hreduce
      cases hbarrier : top.isBarrier with
      | true => simp [hbarrier] at hreduce
      | false =>
        simp only [hbarrier, Bool.false_eq_true, if_false] at hreduce
        rw [List.any_cons, hbarrier, Bool.false_or]
        split at hreduce
        · exact ih hreduce
        · cases hreduce
  cases arguments with
  | none =>
    rw [isIncomplete, isEmpty_of_finish h]
    rfl
  | some e =>
    obtain ⟨hafter, hreduce⟩ := finish_eq_some.mp h
    rw [isIncomplete, hafter, hbarriers hreduce]
    simp

theorem newline_notMem_printedByte (b : UInt8) : '\n' ∉ printedByte b := by
  unfold printedByte
  split
  · next c hc =>
    unfold escapeOf? at hc
    split at hc <;> cases hc <;> decide
  · next hnone =>
    rw [List.mem_singleton]
    exact (ofUInt8_ne hnone rfl).symm

/-- A line feed is written as an escape, so all words stay on one line. -/
theorem newline_notMem_word {t : Token} {word : List Char} (hatomic : t.IsAtomic scope)
    (hprintable : t.Printable) (hword : t.word? = some word) : '\n' ∉ word := by
  have hbytes : ∀ bytes : List UInt8, '\n' ∉ bytes.flatMap printedByte := by
    intro bytes hmem
    obtain ⟨b, -, hb⟩ := List.mem_flatMap.mp hmem
    exact newline_notMem_printedByte b hb
  cases t with
  | value e =>
    cases hword
    cases hatomic with
    | int v =>
      intro hmem
      have hdigit := Nat.isDigit_of_mem_toDigits (by omega) (by omega) hmem
      cases hdigit
    | str bytes => simp [Expr.printedAtom, hbytes]
    | chr byte => simp [Expr.printedAtom, newline_notMem_printedByte]
    | ident name =>
      intro hmem
      have hchar := Text.IsWord.isIdentChar hprintable _ hmem
      exact absurd hchar (by decide)
  | unary op =>
    cases hword
    cases op <;> decide
  | binary op =>
    cases hword
    cases op <;> decide
  | annotate => cases hword
  | _ =>
    cases hword
    decide

/-- Behind a statement the argument begins. -/
theorem onChar_afterStatement {name : String} {draft : Draft} {c : Char}
    (hspace : Text.isSpace c = false) (hcolon : c ≠ ':') :
    (afterStatement name).onChar scope c draft =
      argumentChar { draft with mnemonic := some name } c := by
  rw [onChar, if_neg (by simp [hspace]), if_neg (by simp [hcolon])]

/-- The first word of a tree begins an operand, and not with a colon, which would make a label of the
    statement in front of it. -/
theorem exists_printed_eq_cons {ts : List Token} {b : Builder} {e : Expr}
    (hatomic : ∀ t ∈ ts, t.IsAtomic scope) (hprintable : ∀ t ∈ ts, t.Printable)
    (hfeed : Builder.feedAll ts {} = .ok () b) (hfinish : b.finish = .ok (some e)) :
    ∃ c rest, (printed ts).toList = c :: rest ∧ ' ' :: (printed ts).toList = spacedWords ts ∧
      Text.isSpace c = false ∧ c ≠ ':' := by
  cases ts with
  | nil =>
    obtain ⟨-, rfl⟩ := pure_eq_ok.mp hfeed
    cases hfinish
  | cons t ts =>
    obtain ⟨b₁, htoken, -⟩ := Builder.feedAll_cons_eq_ok.mp hfeed
    have hbegins : t.beginsOperand = true := by
      have hafter := Builder.afterOperand_of_feed htoken
      simpa using hafter
    obtain ⟨c, cs, hread, -⟩ := Token.readBy_startValue hbegins
      (hatomic t List.mem_cons_self) (hprintable t List.mem_cons_self)
    have hspaced : ' ' :: (printed (t :: ts)).toList = spacedWords (t :: ts) := by
      refine cons_toList_printed ?_
      rw [List.filterMap_cons_some hread.word]
      exact List.cons_ne_nil _ _
    have hwords : spacedWords (t :: ts) = ' ' :: c :: (cs ++ spacedWords ts) := by
      rw [spacedWords, List.filterMap_cons_some hread.word]
      rfl
    refine ⟨c, cs ++ spacedWords ts, ?_, hspaced, hread.space, ?_⟩
    · rw [hwords] at hspaced
      exact (List.cons.inj hspaced).2
    · rintro rfl
      have hfed : Draft.feed {} t = .ok { builder := b₁ } := Draft.feed_of_ok htoken
      obtain ⟨_, _, _, _, hstart, -⟩ := hread.reads hfed
      cases hstart

/-- A statement with a printed tree is read to its end. -/
theorem run_printed {e : Expr} (hderives : e.Derives scope (-2))
    (hprintable : ∀ t ∈ e.tokens scope, t.Printable) (hoperands : e.AnnotatesOperands scope) :
    ∃ builder, Mode.labelStart.run scope 1 {} (" x " ++ printed (e.tokens scope)).toList =
        .ok (none, { mnemonic := some "x", builder }) ∧ builder.finish = .ok (some e) := by
  obtain ⟨b, hfeed, hfinish⟩ := Builder.builds_of_derives hderives
  obtain ⟨c, rest, hprinted, hspaced, hspace, hcolon⟩ :=
    exists_printed_eq_cons hderives.isAtomic_tokens hprintable hfeed hfinish
  refine ⟨b, ?_, hfinish⟩
  have hfed : Builder.feedAll ([] ++ e.tokens scope) (Draft.builder { mnemonic := some "x" }) =
      .ok () b := hfeed
  obtain ⟨mode, draft, hreads, hcompletes⟩ := reads_tokens hderives.isAtomic_tokens hprintable
    (hderives.unmistakable hoperands) (completes_argument _) (.inl rfl) hfed
  have hblank : Mode.argument.onChar scope ' ' { mnemonic := some "x" } =
      .ok (.next .argument, { mnemonic := some "x" }) := rfl
  rw [← hspaced, reads_cons_of_ok hblank, hprinted] at hreads
  have hline : Mode.labelStart.reads scope {} (" x " ++ printed (e.tokens scope)).toList =
      .ok (.next mode, draft) := by
    have hstatement : Mode.labelStart.reads scope {} [' ', 'x', ' '] =
        .ok (.next (.afterStatement "x"), {}) := rfl
    rw [String.toList_append, hprinted]
    show Mode.labelStart.reads scope {} ([' ', 'x', ' '] ++ c :: rest) = _
    rw [reads_append_of_ok hstatement, Mode.reads, onChar_afterStatement hspace hcolon]
    exact hreads
  rw [run_of_reads hline, hcompletes.ending, endArgument]
  simp only [Builder.isIncomplete_of_finish hfinish]
  rfl

theorem newline_notMem_spacedWords {ts : List Token} (hatomic : ∀ t ∈ ts, t.IsAtomic scope)
    (hprintable : ∀ t ∈ ts, t.Printable) : '\n' ∉ spacedWords ts := by
  intro hmem
  obtain ⟨word, hword, hmem⟩ := List.mem_flatMap.mp hmem
  obtain ⟨t, ht, hprinted⟩ := List.mem_filterMap.mp hword
  rcases List.mem_cons.mp hmem with hblank | hmem
  · exact absurd hblank (by decide)
  · exact newline_notMem_word (hatomic t ht) (hprintable t ht) hprinted hmem

theorem newline_notMem_printed {ts : List Token} (hatomic : ∀ t ∈ ts, t.IsAtomic scope)
    (hprintable : ∀ t ∈ ts, t.Printable) : '\n' ∉ (printed ts).toList := by
  by_cases hwords : ts.filterMap Token.word? = []
  · simp [printed, hwords]
  · intro hmem
    have hspaced := List.mem_cons_of_mem ' ' hmem
    rw [cons_toList_printed hwords] at hspaced
    exact newline_notMem_spacedWords hatomic hprintable hspaced

namespace Reader

/-- **A printed expression is read back**: it is the argument of the one line that is there. Its
    tokens have to be printable, since trees can hold names and numbers for which there is no word.
    Where an operand is annotated, it has to begin with a character that cannot be an operator
    there. -/
theorem next_printed (file : Option String) (outer : List Site) {scope : ScopeId} {e : Expr}
    (hderives : e.Derives scope (-2)) (hprintable : ∀ t ∈ e.tokens scope, t.Printable)
    (hoperands : e.AnnotatesOperands scope) :
    ∃ line rest, (Reader.ofText (" x " ++ printed (e.tokens scope)) file outer).next scope =
        .ok (some (line, rest)) ∧
      line.label = none ∧ line.mnemonic = some "x" ∧ line.arguments = some e ∧
      line.comment = none ∧ ∀ other, rest.next other = .ok none := by
  obtain ⟨builder, hrun, hfinish⟩ := run_printed hderives hprintable hoperands
  have hlines : Text.lines (" x " ++ printed (e.tokens scope)) =
      [" x " ++ printed (e.tokens scope)] := by
    refine Text.lines_of_notMem ?_ (by simp)
    rw [String.toList_append]
    intro hmem
    rcases List.mem_append.mp hmem with hmem | hmem
    · exact absurd hmem (by decide)
    · exact newline_notMem_printed hderives.isAtomic_tokens hprintable hmem
  have hremaining : (Reader.ofText (" x " ++ printed (e.tokens scope)) file outer).remaining =
      (" x " ++ printed (e.tokens scope)) :: [] := hlines
  obtain ⟨line, hnext, hlabel, hmnemonic, harguments, hcomment, -⟩ :=
    next_of_run rfl hremaining hrun hfinish
  exact ⟨line, _, hnext, hlabel, hmnemonic, harguments, hcomment, fun _ => rfl⟩

/-- An annotated group with names that begin like operators, escapes, and an apostrophe behind the name
    of a register. -/
theorem next_printed_annotated :
    let e : Expr := .seq [
      .annotated "virtual" (.group (.ifElse (.binary .lt (.ident "?a" ⟨0⟩) (.int 5))
        (.unary .logicNot (.ident ".b" ⟨0⟩)) (.str #[0x0A, 0x22, 0xE9]))),
      .annotated "af" (.index (.member (.chr 0x27) "m$") (.int 0))]
    " x " ++ printed (e.tokens ⟨0⟩) =
        " x virtual ( ?a < 5 ? ! .b : \"\\n\\\"é\" ) , af '\\'' . m$ [ 0 ]" ∧
      ∃ line rest, (Reader.ofText (" x " ++ printed (e.tokens ⟨0⟩)) none []).next ⟨0⟩ =
          .ok (some (line, rest)) ∧
        line.label = none ∧ line.mnemonic = some "x" ∧ line.arguments = some e ∧
        line.comment = none ∧ ∀ other, rest.next other = .ok none := by
  intro e
  have hderives : e.Derives ⟨0⟩ (-2) := by
    refine .seq (by decide) (List.forall_mem_cons.mpr ⟨.annotated _ (.weaken (.group ?_) (by decide)),
      List.forall_mem_singleton.mpr (.annotated _ (.weaken (.index ?_ ?_) (by decide)))⟩)
    · refine .weaken (.ifElse (.weaken (.binary .lt ?_ ?_) (by decide)) ?_ ?_) (by decide)
      · exact .weaken (.atom (.ident _)) (by decide)
      · exact .weaken (.atom (.int _)) (by decide)
      · exact .weaken (.unary _ (.weaken (.atom (.ident _)) (by decide))) (by decide)
      · exact .weaken (.atom (.str _)) (by decide)
    · exact .member _ (.atom (.chr _))
    · exact .weaken (.atom (.int _)) (by decide)
  have hprintable : ∀ t ∈ e.tokens ⟨0⟩, t.Printable := by
    have hword : Text.IsWord "virtual" ∧ Text.IsWord "?a" ∧ Text.IsWord ".b" ∧ Text.IsWord "af" ∧
        Text.IsWord "m$" :=
      ⟨⟨'v', ['i', 'r', 't', 'u', 'a', 'l'], rfl, rfl, List.all_eq_true.mp rfl⟩,
        ⟨'?', ['a'], rfl, rfl, List.all_eq_true.mp rfl⟩, ⟨'.', ['b'], rfl, rfl, List.all_eq_true.mp rfl⟩,
        ⟨'a', ['f'], rfl, rfl, List.all_eq_true.mp rfl⟩, ⟨'m', ['$'], rfl, rfl, List.all_eq_true.mp rfl⟩⟩
    simp [e, Expr.tokens, laterTokens, Token.Printable, hword]
  have hoperands : e.AnnotatesOperands ⟨0⟩ := by
    refine List.forall_mem_cons.mpr ⟨⟨_, rfl, trivial⟩, List.forall_mem_cons.mpr ⟨⟨_, rfl, trivial⟩, ?_⟩⟩
    exact List.forall_mem_nil _
  exact ⟨by decide +kernel, next_printed none [] hderives hprintable hoperands⟩

end Reader

end Z80Asm
