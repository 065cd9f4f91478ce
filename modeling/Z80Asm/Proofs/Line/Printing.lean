import Z80Asm.Proofs.Builder.Completeness
import Z80Asm.Proofs.Line.Definition

/-!
# Printed tokens

How tokens are written as words of a line, and that each word is read as the token that it was written
for. What a character means depends on whether an operand or an operator has to come, and the builder
knows which: a token that it takes is of the kind that it asks for (`Builder.afterOperand_of_feed`).

Some words end only where the next character does not belong to them. `Mode.Completes` says that a
blank or the end of the line will do.

Each token is printed in one way. Other spellings of numbers and strings are in `Line/Numerals` and
`Line/Strings`.
-/
set_option autoImplicit false

namespace Z80Asm

open Success

/-! ## Words -/

/-- The character that stands for a byte behind a backslash. -/
def escapeOf? : UInt8 → Option Char
  | 0x00 => some '0'
  | 0x07 => some 'a'
  | 0x09 => some 't'
  | 0x0A => some 'n'
  | 0x0C => some 'f'
  | 0x0D => some 'r'
  | 0x1B => some 'e'
  | 0x22 => some '"'
  | 0x27 => some '\''
  | 0x5C => some '\\'
  | _ => none

/-- A byte inside a literal. -/
def printedByte (b : UInt8) : List Char :=
  match escapeOf? b with
  | some c => ['\\', c]
  | none => [Char.ofUInt8 b]

/-- A literal or a name. -/
def Expr.printedAtom : Expr → List Char
  | .int v => Nat.toDigits 10 v.toInt.natAbs
  | .str bytes => '"' :: (bytes.toList.flatMap printedByte ++ ['"'])
  | .chr byte => '\'' :: (printedByte byte ++ ['\''])
  | .ident name _ => name.toList
  | _ => []

/-- The word for a token. An annotation is not marked by a word. -/
def Token.word? : Token → Option (List Char)
  | .value e => some e.printedAtom
  | .unary op => some op.symbol.toList
  | .binary op => some op.symbol.toList
  | .member => some ['.']
  | .comma => some [',']
  | .annotate => none
  | .question => some ['?']
  | .colon => some [':']
  | .openGroup => some ['(']
  | .closeGroup => some [')']
  | .openIndex => some ['[']
  | .closeIndex => some [']']

/-- Words are there for numbers that are not negative and for names that are words themselves. -/
def Token.Printable : Token → Prop
  | .value (.int v) => 0 ≤ v
  | .value (.ident name _) => Text.IsWord name
  | _ => True

/-- Tokens that can begin the operand of an annotation: literals, `(` and names, but for those whose
    first character is an operator behind an operand. -/
def Token.BeginsAnnotated : Token → Prop
  | .value (.ident name _) => name.toList.head? ≠ some '.' ∧ name.toList.head? ≠ some '?'
  | .value _ | .openGroup => True
  | _ => False

/-- Whether a token begins an operand. -/
def Token.beginsOperand : Token → Bool
  | .value _ | .unary _ | .openGroup => true
  | _ => false

theorem Token.BeginsAnnotated.beginsOperand {t : Token} (h : t.BeginsAnnotated) :
    t.beginsOperand = true := by
  cases t with
  | value e | openGroup => rfl
  | _ => cases h

/-! ## Numbers -/

namespace Number

/-- Decimal digits denote the number that they were written for. -/
theorem parse_decimal {n : Nat} (h : n < UInt64.size) :
    parse (String.ofList (Nat.toDigits 10 n)) = .ok (Int64.ofNat n) := by
  have hlower : ∀ d ∈ List.range 10, (Nat.digitChar d).toLower = Nat.digitChar d := by decide
  have htext : (String.ofList (Nat.toDigits 10 n)).toList.map Char.toLower =
      Style.plain.spelled 0 n := by
    have hspelled : Style.plain.spelled 0 n = Nat.toDigits 10 n := by
      simp [Style.spelled, Style.front, Style.behind, Style.radix, zeroPadded]
    rw [String.toList_ofList, hspelled]
    refine (List.map_congr_left fun c hc => ?_).trans (List.map_id _)
    obtain ⟨d, hd, rfl⟩ := exists_of_mem_toDigits (by omega) hc
    exact hlower d (List.mem_range.mpr hd)
  rw [parse_numeral .plain 0 n htext, if_pos h]

end Number

/-! ## Reading characters -/

namespace Mode

variable {scope : ScopeId} {mode mode' : Mode} {draft draft' : Draft}

theorem reads_append_of_ok {cs : List Char} (h : mode.reads scope draft cs = .ok (mode', draft'))
    (rest : List Char) :
    mode.reads scope draft (cs ++ rest) = mode'.reads scope draft' rest := by
  induction cs generalizing mode draft with
  | nil =>
    cases h
    rfl
  | cons c cs ih =>
    obtain ⟨mode₁, draft₁, hchar, h⟩ := reads_cons_eq_ok.mp h
    rw [List.cons_append, reads_cons_of_ok hchar]
    exact ih h

/-- Behind characters that can be read the line goes on. -/
theorem run_append_of_reads {cs : List Char} (h : mode.reads scope draft cs = .ok (mode', draft'))
    (column : Nat) (rest : List Char) :
    mode.run scope column draft (cs ++ rest) = mode'.run scope (column + cs.length) draft' rest := by
  induction cs generalizing mode draft column with
  | nil =>
    cases h
    rfl
  | cons c cs ih =>
    obtain ⟨mode₁, draft₁, hchar, h⟩ := reads_cons_eq_ok.mp h
    rw [List.cons_append, run_cons_of_ok hchar, ih h, List.length_cons, Nat.add_assoc,
      Nat.add_comm 1]

/-- Behind characters that can be read comes the end of the line. -/
theorem run_of_reads {cs : List Char} (h : mode.reads scope draft cs = .ok (mode', draft'))
    (column : Nat) :
    mode.run scope column draft cs = (mode'.onEnd scope draft').mapError (·, column + cs.length) := by
  have hrun := run_append_of_reads h column []
  rwa [List.append_nil] at hrun

/-- A word that is read character by character. -/
theorem reads_word {word : String → Mode} {cs : List Char}
    (h : ∀ c ∈ cs, ∀ text, (word text).onChar scope c draft = .ok (word (text.push c), draft))
    (text : String) :
    (word text).reads scope draft cs = .ok (word (text ++ String.ofList cs), draft) := by
  induction cs generalizing text with
  | nil => simp [reads]
  | cons c cs ih =>
    obtain ⟨hc, hcs⟩ := List.forall_mem_cons.mp h
    have htext : text.push c ++ String.ofList cs = text ++ String.ofList (c :: cs) := by
      rw [← String.toList_inj]
      simp
    rw [reads_cons_of_ok (hc text), ih hcs, htext]

/-- A word of which the first character has been read. -/
theorem reads_word_of_toList {word : String → Mode} {name : String} {c : Char} {cs : List Char}
    (hname : name.toList = c :: cs)
    (h : ∀ d ∈ cs, ∀ text, (word text).onChar scope d draft = .ok (word (text.push d), draft)) :
    (word (String.singleton c)).reads scope draft cs = .ok (word name, draft) := by
  have hwhole : String.singleton c ++ String.ofList cs = name := by
    rw [← String.toList_inj, hname]
    simp
  rw [reads_word h, hwhole]

/-! ## Literals -/

theorem unescape_escapeOf {b : UInt8} {c : Char} (h : escapeOf? b = some c) : unescape c = .ok b := by
  unfold escapeOf? at h
  split at h <;> cases h <;> rfl

theorem toUInt8_ofUInt8 (b : UInt8) : (Char.ofUInt8 b).toUInt8 = b :=
  UInt8.toUInt8_toUInt32 b

theorem toNat_ofUInt8 (b : UInt8) : (Char.ofUInt8 b).toNat = b.toNat :=
  UInt8.toNat_toUInt32 b

/-- A byte that has no escape is not written as a backslash or a quote. -/
theorem ofUInt8_ne {b : UInt8} (h : escapeOf? b = none) {c : Char}
    (hc : (escapeOf? c.toUInt8).isSome = true) : Char.ofUInt8 b ≠ c := by
  rintro rfl
  rw [toUInt8_ofUInt8, h] at hc
  cases hc

/-- A character with a code below 256 is the byte with that code, unless it means something. -/
theorem onChar_text {c : Char} {quote : Quote} (hescape : c ≠ '\\') (hmark : c ≠ quote.mark)
    (hrange : c.toNat < 256) (bytes : List UInt8) :
    (text bytes quote false).onChar scope c draft =
      .ok (text (c.toUInt8 :: bytes) quote false, draft) := by
  rw [onChar, textChar, if_neg Bool.false_ne_true, if_neg (by simpa using hescape),
    if_neg (by simpa using hmark), if_pos hrange]

/-- Behind a backslash a character stands for another byte. -/
theorem reads_escape {c : Char} {b : UInt8} (h : unescape c = .ok b) (bytes : List UInt8)
    (quote : Quote) :
    (text bytes quote false).reads scope draft ['\\', c] =
      .ok (text (b :: bytes) quote false, draft) := by
  have hescape : (text bytes quote false).onChar scope '\\' draft =
      .ok (text bytes quote true, draft) := rfl
  have hchar : (text bytes quote true).onChar scope c draft =
      .ok (text (b :: bytes) quote false, draft) := by
    rw [onChar, textChar, if_pos rfl, h]
    rfl
  rw [reads_cons_of_ok hescape, reads_cons_of_ok hchar, reads]

theorem reads_printedByte (b : UInt8) (bytes : List UInt8) (quote : Quote) :
    (text bytes quote false).reads scope draft (printedByte b) =
      .ok (text (b :: bytes) quote false, draft) := by
  unfold printedByte
  split
  · next c hc => exact reads_escape (unescape_escapeOf hc) bytes quote
  · next hnone =>
    have hmark : Char.ofUInt8 b ≠ quote.mark := by
      cases quote with
      | string => exact ofUInt8_ne hnone rfl
      | char => exact ofUInt8_ne hnone rfl
    rw [reads_cons_of_ok (onChar_text (ofUInt8_ne hnone rfl) hmark (toNat_ofUInt8 b ▸ b.toNat_lt) bytes),
      reads, toUInt8_ofUInt8]

theorem reads_bytes (more bytes : List UInt8) (quote : Quote) :
    (text bytes quote false).reads scope draft (more.flatMap printedByte) =
      .ok (text (more.reverse ++ bytes) quote false, draft) := by
  induction more generalizing bytes with
  | nil => rfl
  | cons b more ih =>
    rw [List.flatMap_cons, reads_append_of_ok (reads_printedByte b bytes quote), ih,
      List.reverse_cons, List.append_assoc]
    rfl

/-! ## The end of a word -/

/-- A blank, or the end of the line, makes the draft complete. -/
structure Completes (scope : ScopeId) (mode : Mode) (draft draft' : Draft) : Prop where
  blank : mode.onChar scope ' ' draft = .ok (argument, draft')
  ending : mode.onEnd scope draft = endArgument draft'

theorem completes_argument (draft : Draft) : Completes scope argument draft draft :=
  ⟨rfl, rfl⟩

theorem completes_ident {name : String} (h : draft.feed (identToken scope name) = .ok draft') :
    Completes scope (ident name) draft draft' where
  blank := by
    show (draft.feed (identToken scope name) >>= fun draft => argumentChar draft ' ') = _
    rw [h]
    rfl
  ending := by
    rw [onEnd, h]
    rfl

theorem completes_number {digits : String} {token : Token} (hnumber : numberToken digits = .ok token)
    (h : draft.feed token = .ok draft') : Completes scope (number digits) draft draft' where
  blank := by
    show (numberToken digits >>= fun token => draft.feed token >>= fun draft =>
      argumentChar draft ' ') = _
    rw [hnumber]
    show (draft.feed token >>= fun draft => argumentChar draft ' ') = _
    rw [h]
    rfl
  ending := by
    rw [onEnd, hnumber]
    show (draft.feed token >>= endArgument) = _
    rw [h]
    rfl

theorem completes_operator {first : Char} {op : BinaryOp} (hpair : operatorPair? first ' ' = none)
    (halone : operatorAlone first = .ok op) (h : draft.feed (.binary op) = .ok draft') :
    Completes scope (operator first) draft draft' where
  blank := by
    rw [onChar, hpair]
    show (operatorAlone first >>= fun op => draft.feed (.binary op) >>= fun draft =>
      argumentChar draft ' ') = _
    rw [halone]
    show (draft.feed (.binary op) >>= fun draft => argumentChar draft ' ') = _
    rw [h]
    rfl
  ending := by
    rw [onEnd, halone]
    show (draft.feed (.binary op) >>= endArgument) = _
    rw [h]
    rfl

end Mode

open Mode

/-! ## The first character of a word -/

variable {scope : ScopeId} {draft draft' : Draft}

theorem argumentChar_eq {c : Char} (hcomment : c ≠ ';') (hspace : Text.isSpace c = false) :
    argumentChar draft c =
      if draft.builder.expectsValue then startValue draft c else startOperator draft c := by
  rw [argumentChar, if_neg (by simpa using hcomment), if_neg (by simp [hspace])]

/-- The characters that mean something of their own where an operand has to begin. -/
def operandMarks : List Char :=
  ['+', '-', '~', '!', '$', '%', '#', '"', '\'', '(', ')']

theorem startValue_of_notMem {c : Char} (h : c ∉ operandMarks) :
    startValue draft c =
      if c.isDigit then .ok (.next (.number (String.singleton c)), draft)
      else if Text.isIdentStart c then .ok (.next (.ident (String.singleton c)), draft)
      else .error (.unexpectedChar c) := by
  simp only [operandMarks, List.mem_cons, List.not_mem_nil, or_false, not_or] at h
  unfold startValue unaryOf?
  simp [h]

/-- Behind an operand, an operand that begins with one of these characters is annotated. -/
theorem startOperator_of_startsAnnotated {c : Char} (h : startsAnnotated c = true) (hdot : c ≠ '.')
    (hquestion : c ≠ '?') :
    startOperator draft c = draft.feed .annotate >>= fun draft => startValue draft c := by
  unfold startOperator
  split
  case h_1 => exact absurd rfl hdot
  case h_3 => exact absurd rfl hquestion
  case h_20 => rw [if_pos h]
  all_goals exact absurd h (by decide)

/-! ## Reading a word -/

/-- A word that is read as the token, if it begins where `start` takes its first character. -/
structure Token.ReadBy (start : Draft → Char → Reading) (scope : ScopeId) (t : Token) (c : Char)
    (cs : List Char) : Prop where
  word : t.word? = some (c :: cs)
  comment : c ≠ ';'
  space : Text.isSpace c = false
  reads : ∀ {draft draft'}, draft.feed t = .ok draft' →
    ∃ (mode : Mode) (draft₁ : Draft) (mode' : Mode) (draft₂ : Draft),
      start draft c = .ok (.next mode, draft₁) ∧
        mode.reads scope draft₁ cs = .ok (.next mode', draft₂) ∧
        Completes scope mode' draft₂ draft'

namespace Token

/-- A character that is a token. -/
theorem readBy_single {start : Draft → Char → Reading} {t : Token} {c : Char}
    (hword : t.word? = some [c]) (hcomment : c ≠ ';') (hspace : Text.isSpace c = false)
    (hstart : ∀ draft, start draft c = draft.token t) : t.ReadBy start scope c [] where
  word := hword
  comment := hcomment
  space := hspace
  reads {draft draft'} hfeed := by
    refine ⟨.argument, draft', .argument, draft', ?_, rfl, completes_argument draft'⟩
    rw [hstart, Draft.token, hfeed]
    rfl

/-- Two characters that are an operator. -/
theorem readBy_pair {op : BinaryOp} {c d : Char} (hword : (binary op).word? = some [c, d])
    (hcomment : c ≠ ';') (hspace : Text.isSpace c = false)
    (hstart : ∀ draft, startOperator draft c = .ok (.next (.operator c), draft))
    (hpair : operatorPair? c d = some op) : (binary op).ReadBy startOperator scope c [d] where
  word := hword
  comment := hcomment
  space := hspace
  reads {draft draft'} hfeed := by
    refine ⟨.operator c, draft, .argument, draft', hstart draft, ?_, completes_argument draft'⟩
    have hchar : (Mode.operator c).onChar scope d draft = .ok (.next .argument, draft') := by
      rw [onChar, hpair]
      show draft.token (.binary op) = _
      rw [Draft.token, hfeed]
      rfl
    rw [reads_cons_of_ok hchar, Mode.reads]

/-- A character that is an operator unless another follows. -/
theorem readBy_alone {op : BinaryOp} {c : Char} (hword : (binary op).word? = some [c])
    (hcomment : c ≠ ';') (hspace : Text.isSpace c = false)
    (hstart : ∀ draft, startOperator draft c = .ok (.next (.operator c), draft))
    (hpair : operatorPair? c ' ' = none) (halone : operatorAlone c = .ok op) :
    (binary op).ReadBy startOperator scope c [] where
  word := hword
  comment := hcomment
  space := hspace
  reads {draft _} hfeed :=
    ⟨.operator c, draft, .operator c, draft, hstart draft, rfl, completes_operator hpair halone hfeed⟩

theorem readBy_binary (op : BinaryOp) :
    ∃ c cs, (binary op).ReadBy startOperator scope c cs := by
  cases op with
  | mul | div | mod | add | sub | bitXor =>
    exact ⟨_, _, readBy_single rfl (by decide) rfl fun _ => rfl⟩
  | shl | shr | le | ge | ne | logicAnd | logicOr =>
    exact ⟨_, _, readBy_pair rfl (by decide) rfl (fun _ => rfl) rfl⟩
  | lt | gt | eq | bitAnd | bitOr =>
    exact ⟨_, _, readBy_alone rfl (by decide) rfl (fun _ => rfl) rfl rfl⟩

/-- A word for a token that does not begin an operand is read as that token behind one. -/
theorem readBy_startOperator (scope : ScopeId) {t : Token} (h : t.beginsOperand = false)
    (hword : t ≠ annotate) :
    ∃ c cs, t.ReadBy startOperator scope c cs := by
  cases t with
  | value e | unary op | openGroup => cases h
  | annotate => exact absurd rfl hword
  | binary op => exact readBy_binary op
  | member | comma | question | colon | closeGroup | openIndex | closeIndex =>
    exact ⟨_, _, readBy_single rfl (by decide) rfl fun _ => rfl⟩

/-! ### Operands -/

theorem readBy_unary (scope : ScopeId) (op : UnaryOp) :
    ∃ c, (unary op).ReadBy startValue scope c [] := by
  cases op with
  | plus | minus | bitNot | logicNot =>
    exact ⟨_, readBy_single rfl (by decide) rfl fun _ => rfl⟩

/-- Bytes between quotes. -/
theorem readBy_literal (quote : Quote) (bytes : List UInt8) {e : Expr}
    (hword : e.printedAtom = quote.mark :: (bytes.flatMap printedByte ++ [quote.mark]))
    (hliteral : literal quote bytes.reverse = .ok e) :
    (value e).ReadBy startValue scope quote.mark (bytes.flatMap printedByte ++ [quote.mark]) where
  word := congrArg some hword
  comment := by
    cases quote with
    | string | char => decide
  space := by
    cases quote with
    | string | char => rfl
  reads {draft draft'} hfeed := by
    have hstart : startValue draft quote.mark = .ok (.next (.text [] quote false), draft) := by
      cases quote with
      | string | char => rfl
    have hclose : (Mode.text (bytes.reverse ++ []) quote false).onChar scope quote.mark draft =
        .ok (.next .argument, draft') := by
      have hmark : ¬ (quote.mark == '\\') = true := by
        cases quote with
        | string | char => decide
      rw [List.append_nil, onChar, textChar, if_neg Bool.false_ne_true, if_neg hmark,
        if_pos (beq_self_eq_true _), hliteral]
      show draft.token (.value e) = _
      rw [Draft.token, hfeed]
      rfl
    refine ⟨.text [] quote false, draft, .argument, draft', hstart, ?_, completes_argument draft'⟩
    rw [reads_append_of_ok (reads_bytes bytes [] quote), reads_cons_of_ok hclose, Mode.reads]

theorem not_isDigit_of_isIdentStart {c : Char} (h : Text.isIdentStart c = true) :
    ¬ c.isDigit = true := by
  intro hdigit
  have hlow : (c.val ≥ 48 && c.val ≤ 57) = true := hdigit
  simp only [Bool.and_eq_true, decide_eq_true_eq, UInt32.le_iff_toNat_le, ge_iff_le] at hlow
  simp only [Text.isIdentStart, Bool.or_eq_true, beq_iff_eq] at h
  rcases h with (((halpha | rfl) | rfl) | rfl) | rfl
  · have hhigh : (decide (c.val ≥ 65 ∧ c.val ≤ 90) || c.val ≥ 97 && c.val ≤ 122) = true := halpha
    simp only [Bool.or_eq_true, Bool.and_eq_true, decide_eq_true_eq, UInt32.le_iff_toNat_le,
      ge_iff_le] at hhigh
    simp only [UInt32.reduceToNat] at hlow hhigh
    omega
  all_goals exact absurd hdigit (by decide)

/-- What begins a number or a name means nothing else. -/
theorem not_marks {c : Char} (h : c.isDigit = true ∨ Text.isIdentStart c = true) :
    c ∉ operandMarks ∧ c ≠ ';' ∧ Text.isSpace c = false := by
  have hall : (';' :: ' ' :: '\t' :: operandMarks).all
      (fun d => !(d.isDigit || Text.isIdentStart d)) = true := rfl
  have hne : c ∉ ';' :: ' ' :: '\t' :: operandMarks := by
    intro hmem
    have hother := List.all_eq_true.mp hall c hmem
    rw [Bool.or_eq_true_iff.mpr h] at hother
    cases hother
  simp only [List.mem_cons, not_or] at hne
  obtain ⟨hcomment, hblank, htab, hmarks⟩ := hne
  exact ⟨hmarks, hcomment, by simp [Text.isSpace, hblank, htab]⟩

theorem readBy_int (scope : ScopeId) {v : Int64} (h : 0 ≤ v) :
    ∃ c cs, (value (.int v)).ReadBy startValue scope c cs ∧ c.isDigit = true := by
  obtain ⟨c, cs, hdigits⟩ : ∃ c cs, Nat.toDigits 10 v.toInt.natAbs = c :: cs :=
    List.exists_cons_of_ne_nil Nat.toDigits_ne_nil
  have hclass : ∀ d ∈ Nat.toDigits 10 v.toInt.natAbs, d.isDigit = true := fun d hd =>
    Nat.isDigit_of_mem_toDigits (by omega) (by omega) hd
  rw [hdigits] at hclass
  obtain ⟨hc, hcs⟩ := List.forall_mem_cons.mp hclass
  obtain ⟨hmarks, hcomment, hspace⟩ := not_marks (.inl hc)
  refine ⟨c, cs, ⟨congrArg some hdigits, hcomment, hspace, ?_⟩, hc⟩
  intro draft draft' hfeed
  have hstart : startValue draft c = .ok (.next (.number (String.singleton c)), draft) := by
    rw [startValue_of_notMem hmarks, if_pos hc]
  have hread : (Mode.number (String.singleton c)).reads scope draft cs =
      .ok (.next (.number (String.ofList (Nat.toDigits 10 v.toInt.natAbs))), draft) := by
    refine reads_word_of_toList (String.toList_ofList.trans hdigits) fun d hd text => ?_
    have halnum : d.isAlphanum = true := by simp [Char.isAlphanum, hcs d hd]
    rw [onChar, if_pos halnum]
  have hnumber : numberToken (String.ofList (Nat.toDigits 10 v.toInt.natAbs)) =
      .ok (.value (.int v)) := by
    rw [numberToken, Number.parse_decimal (Int64.natAbs_toInt_lt_size v),
      Int64.ofNat_natAbs_of_nonneg (Int64.not_lt.mpr h)]
    rfl
  exact ⟨_, _, _, _, hstart, hread, completes_number hnumber hfeed⟩

theorem readBy_ident (scope : ScopeId) {name : String} (h : Text.IsWord name) :
    ∃ c cs, (value (.ident name scope)).ReadBy startValue scope c cs ∧ name.toList = c :: cs ∧
      Text.isIdentStart c = true := by
  obtain ⟨c, cs, hname, hc, hcs⟩ := h
  obtain ⟨hmarks, hcomment, hspace⟩ := not_marks (.inr hc)
  refine ⟨c, cs, ⟨congrArg some hname, hcomment, hspace, ?_⟩, hname, hc⟩
  intro draft draft' hfeed
  have hstart : startValue draft c = .ok (.next (.ident (String.singleton c)), draft) := by
    rw [startValue_of_notMem hmarks, if_neg (not_isDigit_of_isIdentStart hc), if_pos hc]
  have hread : (Mode.ident (String.singleton c)).reads scope draft cs =
      .ok (.next (.ident name), draft) := by
    refine reads_word_of_toList hname fun d hd text => ?_
    rw [onChar, if_pos (hcs d hd)]
  exact ⟨_, _, _, _, hstart, hread, completes_ident hfeed⟩

/-- A word for a token that begins an operand is read as that token where one has to begin. -/
theorem readBy_startValue {t : Token} (h : t.beginsOperand = true) (hatomic : t.IsAtomic scope)
    (hprintable : t.Printable) :
    ∃ c cs, t.ReadBy startValue scope c cs ∧
      (t.BeginsAnnotated → startsAnnotated c = true ∧ c ≠ '.' ∧ c ≠ '?') := by
  cases t with
  | value e =>
    cases hatomic with
    | int v =>
      obtain ⟨c, cs, hread, hc⟩ := readBy_int scope hprintable
      refine ⟨c, cs, hread, fun _ => ⟨by simp [startsAnnotated, hc], ?_, ?_⟩⟩
      · rintro rfl
        cases hc
      · rintro rfl
        cases hc
    | str bytes =>
      refine ⟨_, _, readBy_literal .string bytes rfl ?_, fun _ => by decide⟩
      rw [literal, List.reverse_reverse]
    | chr byte =>
      refine ⟨_, _, readBy_literal .char [byte] ?_ rfl, fun _ => by decide⟩
      simp [Expr.printedAtom, Quote.mark]
    | ident name =>
      obtain ⟨c, cs, hread, hname, hc⟩ := readBy_ident scope hprintable
      refine ⟨c, cs, hread, fun hfirst => ⟨by simp [startsAnnotated, hc], ?_, ?_⟩⟩
      · rintro rfl
        exact hfirst.1 (by rw [hname]; rfl)
      · rintro rfl
        exact hfirst.2 (by rw [hname]; rfl)
  | unary op =>
    obtain ⟨c, hread⟩ := readBy_unary scope op
    exact ⟨c, [], hread, fun hfirst => hfirst.elim⟩
  | openGroup => exact ⟨_, _, readBy_single rfl (by decide) rfl fun _ => rfl, fun _ => by decide⟩
  | _ => cases h

end Token

/-! ## What the builder asks for -/

/-- A token that is taken begins an operand, unless one has just ended. -/
theorem Builder.afterOperand_of_feed {t : Token} {b b' : Builder} {u : Unit}
    (h : feed t b = .ok u b') : b.afterOperand = !t.beginsOperand := by
  cases t with
  | value e => exact (feed_value_eq_ok.mp h).1
  | unary op | openGroup => exact (requireOperator_push_eq_ok.mp h).1
  | binary op | member | comma | annotate | question => exact (pushInfix_eq_ok.mp h).1
  | colon => exact (feed_colon_eq_ok.mp h).1
  | closeGroup => exact (feed_closeGroup_eq_ok.mp h).1
  | openIndex => exact (feed_openIndex_eq_ok.mp h).1
  | closeIndex => exact (feed_closeIndex_eq_ok.mp h).1

theorem Draft.feed_of_ok {t : Token} {b : Builder} (h : Builder.feed t draft.builder = .ok () b) :
    draft.feed t = .ok { draft with builder := b } := by
  have hrun : (Builder.feed t).run draft.builder = .ok () b := h
  rw [Draft.feed, hrun]

/-- **The word for the next token, behind an operand that annotates it or not, is read as that
    token.** -/
theorem reads_token {front : List Token} {t : Token} {b : Builder} (hatomic : t.IsAtomic scope)
    (hprintable : t.Printable) (hword : t ≠ .annotate)
    (hfront : front = [] ∨ front = [.annotate] ∧ t.BeginsAnnotated)
    (hfeed : Builder.feedAll (front ++ [t]) draft.builder = .ok () b) :
    ∃ (word : List Char) (mode : Mode) (draft' : Draft), t.word? = some word ∧
      Mode.argument.reads scope draft word = .ok (.next mode, draft') ∧
      Completes scope mode draft' { draft with builder := b } := by
  obtain ⟨b₁, hfirst, hlast⟩ := Builder.feedAll_append_eq_ok.mp hfeed
  obtain ⟨b₂, htoken, hdone⟩ := Builder.feedAll_cons_eq_ok.mp hlast
  obtain ⟨-, rfl⟩ := pure_eq_ok.mp hdone
  have hfed : Draft.feed { draft with builder := b₁ } t = .ok { draft with builder := b₂ } :=
    Draft.feed_of_ok htoken
  -- It is enough to know what the first character of the word does.
  have hrest : ∀ {start : Draft → Char → Reading} {c : Char} {cs : List Char},
      t.ReadBy start scope c cs →
      argumentChar draft c = start { draft with builder := b₁ } c →
      ∃ (word : List Char) (mode : Mode) (draft' : Draft), t.word? = some word ∧
        Mode.argument.reads scope draft word = .ok (.next mode, draft') ∧
        Completes scope mode draft' { draft with builder := b₂ } := by
    intro start c cs hread hchar
    obtain ⟨mode, draft₁, mode', draft₂, hstart, hreads, hcompletes⟩ := hread.reads hfed
    have hfirst : Mode.argument.onChar scope c draft = .ok (mode, draft₁) := hchar.trans hstart
    exact ⟨c :: cs, mode', draft₂, hread.word, (reads_cons_of_ok hfirst cs).trans hreads, hcompletes⟩
  rcases hfront with rfl | ⟨rfl, hannotated⟩
  · obtain ⟨-, rfl⟩ := pure_eq_ok.mp hfirst
    have hafter := Builder.afterOperand_of_feed htoken
    cases hbegins : t.beginsOperand with
    | true =>
      obtain ⟨c, cs, hread, -⟩ := Token.readBy_startValue hbegins hatomic hprintable
      refine hrest hread ?_
      rw [argumentChar_eq hread.comment hread.space, Builder.expectsValue, hafter, hbegins]
      rfl
    | false =>
      obtain ⟨c, cs, hread⟩ := Token.readBy_startOperator scope hbegins hword
      refine hrest hread ?_
      rw [argumentChar_eq hread.comment hread.space, Builder.expectsValue, hafter, hbegins]
      rfl
  · obtain ⟨_, hannotate, hdone⟩ := Builder.feedAll_cons_eq_ok.mp hfirst
    obtain ⟨-, rfl⟩ := pure_eq_ok.mp hdone
    obtain ⟨c, cs, hread, hclass⟩ :=
      Token.readBy_startValue hannotated.beginsOperand hatomic hprintable
    obtain ⟨hstarts, hdot, hquestion⟩ := hclass hannotated
    refine hrest hread ?_
    rw [argumentChar_eq hread.comment hread.space, Builder.expectsValue,
      Builder.afterOperand_of_feed hannotate, startOperator_of_startsAnnotated hstarts hdot hquestion,
      Draft.feed_of_ok hannotate]
    rfl

end Z80Asm
