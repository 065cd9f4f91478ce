import Z80Asm.Proofs.Line.Printing

/-!
# Literals as arguments

The literals of a listing can stand as the argument of any statement, with a label in front of it or
without one. What is in front of the argument is read up to its last blank; behind that the literal is
read as in a listing, as one number with a sign in front of it if it is negative.

The sign is an operator of its own. The number behind it is read without a sign and can be one more
than the largest number there is; as a signed word it is then the least, which is its own negative.
-/
set_option autoImplicit false

namespace Z80Asm

open Mode

namespace Text

/-- Nothing but blanks. -/
def IsBlanks (blanks : String) : Prop :=
  ∀ c ∈ blanks.toList, isSpace c = true

end Text

/-- A statement with a literal for its argument, and with a label if there is one. -/
def literalStatement (label : Option String) (indent mnemonic gap : String) (v : Int64) : String :=
  label.elim "" (· ++ ":") ++ indent ++ mnemonic ++ gap ++ Text.hexLiteral v

namespace Mode

variable {scope : ScopeId} {draft : Draft}

theorem reads_blanks {mode : Mode} {blanks : List Char}
    (hmode : ∀ c, Text.isSpace c = true → mode.onChar scope c draft = .ok (mode, draft))
    (h : ∀ c ∈ blanks, Text.isSpace c = true) : mode.reads scope draft blanks = .ok (mode, draft) := by
  induction blanks with
  | nil => rfl
  | cons c blanks ih =>
    obtain ⟨hc, hblanks⟩ := List.forall_mem_cons.mp h
    rw [reads_cons_of_ok (hmode c hc), ih hblanks]

theorem ne_of_isSpace {c d : Char} (h : Text.isSpace c = true) (hd : Text.isSpace d = false) :
    c ≠ d := by
  rintro rfl
  rw [h] at hd
  cases hd

theorem isIdentChar_of_isSpace {c : Char} (h : Text.isSpace c = true) : Text.isIdentChar c = false := by
  simp only [Text.isSpace, Bool.or_eq_true, beq_iff_eq] at h
  rcases h with rfl | rfl
  · rfl
  · rfl

theorem onChar_statementStart_space {c : Char} (h : Text.isSpace c = true) :
    statementStart.onChar scope c draft = .ok (statementStart, draft) := by
  have hcomment : ¬ (c == ';') = true := by simpa using ne_of_isSpace h rfl
  rw [onChar, statementChar, if_neg hcomment, if_pos h]

/-- The indentation in front of a statement that has no label. -/
theorem reads_indent {indent : String} (hne : indent ≠ "") (h : Text.IsBlanks indent) :
    labelStart.reads scope draft indent.toList = .ok (statementStart, draft) := by
  obtain ⟨c, blanks, hindent⟩ : ∃ c blanks, indent.toList = c :: blanks :=
    List.exists_cons_of_ne_nil (mt String.toList_eq_nil_iff.mp hne)
  rw [Text.IsBlanks, hindent] at h
  obtain ⟨hc, hblanks⟩ := List.forall_mem_cons.mp h
  have hfirst : labelStart.onChar scope c draft = .ok (statementStart, draft) := by
    have hcomment : ¬ (c == ';') = true := by simpa using ne_of_isSpace hc rfl
    rw [onChar, if_neg hcomment, if_pos hc]
  rw [hindent, reads_cons_of_ok hfirst]
  exact reads_blanks (fun _ => onChar_statementStart_space) hblanks

/-- A word in front of a colon is the label. -/
theorem reads_label {name : String} (h : Text.IsWord name) :
    labelStart.reads scope draft (name.toList ++ [':']) =
      .ok (statementStart, { draft with label := some name }) := by
  obtain ⟨c, cs, hname, hc, hcs⟩ := h
  have hword : (label (String.singleton c)).reads scope draft cs = .ok (label name, draft) := by
    refine reads_word_of_toList hname fun d hd text => ?_
    rw [onChar, if_pos (hcs d hd)]
  have hcolon : (label name).onChar scope ':' draft =
      .ok (statementStart, { draft with label := some name }) := rfl
  rw [hname, List.cons_append, reads_cons_of_ok (onChar_labelStart hc), reads_append_of_ok hword,
    reads_cons_of_ok hcolon, reads]

/-- What stands in front of a statement is its label and blanks. -/
theorem reads_front {label : Option String} {indent : String} (hlabel : ∀ name ∈ label, Text.IsWord name)
    (hindent : Text.IsBlanks indent) (hstart : label = none → indent ≠ "") :
    labelStart.reads scope {} (label.elim "" (· ++ ":") ++ indent).toList =
      .ok (statementStart, { label }) := by
  cases label with
  | none =>
    rw [String.toList_append]
    exact reads_indent (hstart rfl) hindent
  | some name =>
    have htext : (name ++ ":" ++ indent).toList = (name.toList ++ [':']) ++ indent.toList := by simp
    show labelStart.reads scope {} (name ++ ":" ++ indent).toList = _
    rw [htext, reads_append_of_ok (reads_label (hlabel name rfl))]
    exact reads_blanks (fun _ => onChar_statementStart_space) hindent

/-- A word with blanks behind it is the statement. -/
theorem reads_statement {name gap : String} (h : Text.IsWord name) (hne : gap ≠ "")
    (hgap : Text.IsBlanks gap) :
    statementStart.reads scope draft (name ++ gap).toList = .ok (afterStatement name, draft) := by
  obtain ⟨c, cs, hname, hc, hcs⟩ := h
  obtain ⟨b, blanks, hblanks⟩ : ∃ b blanks, gap.toList = b :: blanks :=
    List.exists_cons_of_ne_nil (mt String.toList_eq_nil_iff.mp hne)
  rw [Text.IsBlanks, hblanks] at hgap
  obtain ⟨hb, hmore⟩ := List.forall_mem_cons.mp hgap
  obtain ⟨-, hcomment, hspace⟩ := Token.not_marks (.inr hc)
  have hfirst : statementStart.onChar scope c draft = .ok (statement (String.singleton c), draft) := by
    rw [onChar, statementChar, if_neg (by simpa using hcomment), if_neg (by simp [hspace]), if_pos hc]
  have hword : (statement (String.singleton c)).reads scope draft cs =
      .ok (statement name, draft) := by
    refine reads_word_of_toList hname fun d hd text => ?_
    rw [onChar, if_pos (hcs d hd)]
  have hblank : (statement name).onChar scope b draft = .ok (afterStatement name, draft) := by
    have hcolon : (b == ':') = false := beq_eq_false_iff_ne.mpr (ne_of_isSpace hb rfl)
    rw [onChar, if_neg (by simp [isIdentChar_of_isSpace hb]), hcolon, if_neg (by simp), if_pos hb]
  have hgaps (d : Char) (hd : Text.isSpace d = true) :
      (afterStatement name).onChar scope d draft = .ok (afterStatement name, draft) := by
    rw [onChar, if_pos hd]
  rw [String.toList_append, hname, hblanks, List.cons_append, reads_cons_of_ok hfirst,
    reads_append_of_ok hword, reads_cons_of_ok hblank]
  exact reads_blanks hgaps hmore

end Mode

theorem elements_literalValue (v : Int64) : (literalValue v).elements = [literalValue v] := by
  unfold literalValue
  split
  · rfl
  · rfl

namespace Reader

/-- **Every literal of a listing is one complete argument** of the statement that it stands behind,
    and that argument has the value that the literal was written for. A statement without a label is
    indented, for else its first word would be the label. -/
theorem next_literal {reader : Reader} {rest : List String} (scope : ScopeId) {label : Option String}
    {indent mnemonic gap : String} (v : Int64) (hstopped : reader.stopped = false)
    (hremaining : reader.remaining = literalStatement label indent mnemonic gap v :: rest)
    (hlabel : ∀ name ∈ label, Text.IsWord name) (hindent : Text.IsBlanks indent)
    (hstart : label = none → indent ≠ "") (hmnemonic : Text.IsWord mnemonic)
    (hgap : Text.IsBlanks gap) (hne : gap ≠ "") :
    ∃ line e, reader.next scope =
        .ok (some (line, { reader with remaining := rest, number := reader.number + 1 })) ∧
      line.label = label ∧ line.mnemonic = some mnemonic ∧ line.comment = none ∧
      line.arguments = some e ∧ line.argumentList = [e] ∧ ∀ s : Scopes, e.integer s = .ok v := by
  have hfront : Mode.labelStart.reads scope {}
      ((label.elim "" (· ++ ":") ++ indent).toList ++ (mnemonic ++ gap).toList) =
        .ok (.next (.afterStatement mnemonic), { label }) := by
    rw [reads_append_of_ok (reads_front hlabel hindent hstart)]
    exact reads_statement hmnemonic hne hgap
  have htext : (literalStatement label indent mnemonic gap v).toList =
      ((label.elim "" (· ++ ":") ++ indent).toList ++ (mnemonic ++ gap).toList) ++
        (Text.hexLiteral v).toList := by
    simp [literalStatement]
  have hempty : (Draft.mk label none none {}).builder = {} := rfl
  obtain ⟨builder, hliteral, hfinish⟩ := Mode.run_literal scope mnemonic v
    (1 + ((label.elim "" (· ++ ":") ++ indent).toList ++ (mnemonic ++ gap).toList).length) hempty
  have hrun : Mode.labelStart.run scope 1 {} (literalStatement label indent mnemonic gap v).toList =
      .ok (none, { label, mnemonic := some mnemonic, builder }) := by
    rw [htext, run_append_of_reads hfront]
    exact hliteral
  obtain ⟨line, hnext, hline, hstatement, harguments, hcomment, -⟩ :=
    next_of_run hstopped hremaining hrun hfinish
  refine ⟨line, literalValue v, hnext, hline, hstatement, hcomment, harguments, ?_, fun s => ?_⟩
  · rw [Line.argumentList, harguments]
    exact elements_literalValue v
  · exact integer_literalValue s s.scopeOf (maxDepth - 1) v

/-- The least number behind a label and a tabulator, in front of another line. -/
theorem next_literal_least :
    let reader : Reader :=
      { remaining := ["least:\tdw \t-8000000000000000H", " nop"], file := none, outer := [] }
    ∃ line e, reader.next ⟨0⟩ =
        .ok (some (line, { reader with remaining := [" nop"], number := 2 })) ∧
      line.label = some "least" ∧ line.mnemonic = some "dw" ∧ line.comment = none ∧
      line.arguments = some e ∧ line.argumentList = [e] ∧
      ∀ s : Scopes, e.integer s = .ok Int64.minValue := by
  intro reader
  have hlabel : ∀ name ∈ some "least", Text.IsWord name := by
    intro name hname
    cases hname
    exact ⟨'l', ['e', 'a', 's', 't'], rfl, rfl, List.all_eq_true.mp rfl⟩
  have hremaining : reader.remaining =
      [literalStatement (some "least") "\t" "dw" " \t" Int64.minValue, " nop"] := by decide +kernel
  exact next_literal ⟨0⟩ Int64.minValue rfl hremaining hlabel (List.all_eq_true.mp rfl) (by simp)
    ⟨'d', ['w'], rfl, rfl, List.all_eq_true.mp rfl⟩ (List.all_eq_true.mp rfl) (by decide)

end Reader

end Z80Asm
