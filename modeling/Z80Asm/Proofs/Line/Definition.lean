import Z80Asm.Proofs.Line.Numerals
import Z80Asm.Proofs.Line.Spelling
import Z80Asm.Scope.Listing

/-!
# Reading a line of a listing

A line of a listing is `name: equ literal`. The literal is read as one number, with a sign in front
if it is negative, and denotes the number that it was written for. The name is read as the label if it
is a word; an apostrophe in it ends the word where no character of a statement can begin.

What the line means in a session, and whether the name is free there, is not a matter of reading it.

Literals are read behind any statement and with any draft in front of them, since `Line/Literals`
has the same digits in other lines.
-/
set_option autoImplicit false

namespace Z80Asm

open Success

/-! ## Literals -/

namespace Text

/-- The digits of a literal: a zero stands in front of a leading letter. -/
def literalDigits (n : Nat) : List Char :=
  if (hexDigits 4 n).head?.any Char.isAlpha then '0' :: hexDigits 4 n else hexDigits 4 n

theorem toList_hexLiteral (v : Int64) :
    (hexLiteral v).toList =
      (if v < 0 then ['-'] else []) ++ literalDigits v.toInt.natAbs ++ ['H'] := by
  rw [hexLiteral, String.toList_ofList]
  rfl

/-- What holds of the sixteen digits holds of all digits of a literal. -/
theorem forall_mem_literalDigits {p : Char → Prop}
    (h : ∀ d ∈ List.range 16, p (Nat.digitChar d).toUpper) (n : Nat) :
    ∀ c ∈ literalDigits n, p c := by
  intro c hc
  unfold literalDigits at hc
  split at hc
  · rcases List.mem_cons.mp hc with rfl | hc
    · exact h 0 (by decide)
    · exact forall_mem_hexDigits h 4 n c hc
  · exact forall_mem_hexDigits h 4 n c hc

theorem exists_literalDigits_eq (n : Nat) :
    ∃ c rest, literalDigits n = c :: rest ∧ c.isDigit = true := by
  obtain ⟨c, rest, hdigits⟩ := List.exists_cons_of_ne_nil (hexDigits_ne_nil 4 n)
  unfold literalDigits
  rw [hdigits]
  split
  · exact ⟨'0', c :: rest, rfl, rfl⟩
  · next hletter =>
    refine ⟨c, rest, rfl, ?_⟩
    have hclass : c.isAlpha = true ∨ c.isDigit = true :=
      forall_mem_hexDigits (p := fun c => c.isAlpha = true ∨ c.isDigit = true) (by decide) 4 n c
        (hdigits ▸ List.mem_cons_self)
    exact hclass.resolve_left fun halpha => hletter (by simp [halpha])

end Text

namespace Number

/-- In lower case a literal is a numeral with some zeros in front. -/
theorem exists_map_toLower_literalDigits (n : Nat) :
    ∃ zeros, (Text.literalDigits n).map Char.toLower = zeroPadded 16 zeros n := by
  have hdigits : (Text.hexDigits 4 n).map Char.toLower =
      zeroPadded 16 (4 - ((Nat.toDigits 16 n).map Char.toUpper).length) n := by
    have hback : ∀ d ∈ List.range 16, (Nat.digitChar d).toUpper.toLower = Nat.digitChar d := by decide
    have hlower : ((Nat.toDigits 16 n).map Char.toUpper).map Char.toLower = Nat.toDigits 16 n := by
      rw [List.map_map]
      refine (List.map_congr_left fun c hc => ?_).trans (List.map_id _)
      obtain ⟨d, hd, rfl⟩ := exists_of_mem_toDigits (by omega) hc
      exact hback d (List.mem_range.mpr hd)
    rw [Text.hexDigits, List.map_append, List.map_replicate, hlower]
    rfl
  unfold Text.literalDigits
  split
  · exact ⟨_ + 1, congrArg ('0' :: ·) hdigits⟩
  · exact ⟨_, hdigits⟩

/-- A literal denotes the number that it was written for. -/
theorem parse_literalDigits {n : Nat} (h : n < UInt64.size) :
    parse (String.ofList (Text.literalDigits n ++ ['H'])) = .ok (Int64.ofNat n) := by
  obtain ⟨zeros, hlower⟩ := exists_map_toLower_literalDigits n
  have htext : (String.ofList (Text.literalDigits n ++ ['H'])).toList.map Char.toLower =
      Style.letterH.spelled zeros n := by
    rw [String.toList_ofList, List.map_append, hlower]
    rfl
  rw [parse_numeral .letterH zeros n htext, if_pos h]

end Number

/-- The value that a literal is read as. -/
def literalValue (v : Int64) : Expr :=
  if v < 0 then .unary .minus (.int (Int64.ofNat v.toInt.natAbs))
  else .int (Int64.ofNat v.toInt.natAbs)

theorem Int64.natAbs_toInt_lt_size (v : Int64) : v.toInt.natAbs < UInt64.size := by
  have hle := v.le_toInt
  have hlt := v.toInt_lt
  simp only [UInt64.size]
  omega

theorem Int64.ofNat_natAbs_of_nonneg {v : Int64} (h : ¬ v < 0) :
    Int64.ofNat v.toInt.natAbs = v := by
  rw [Int64.lt_iff_toInt_lt] at h
  have hnonneg : 0 ≤ v.toInt := Int.not_lt.mp h
  have habs : (v.toInt.natAbs : Int) = v.toInt := Int.natAbs_of_nonneg hnonneg
  rw [← Int64.ofInt_eq_ofNat, habs, Int64.ofInt_toInt]

theorem Int64.neg_ofNat_natAbs_of_neg {v : Int64} (h : v < 0) :
    -Int64.ofNat v.toInt.natAbs = v := by
  rw [Int64.lt_iff_toInt_lt] at h
  have hneg : v.toInt ≤ 0 := Int.le_of_lt h
  have habs : (v.toInt.natAbs : Int) = -v.toInt := Int.ofNat_natAbs_of_nonpos hneg
  rw [← Int64.ofInt_eq_ofNat, habs, Int64.ofInt_neg, Int64.ofInt_toInt, Int64.neg_neg]

/-- What is read denotes what was written, the least number included. -/
theorem integer_literalValue (s : Scopes) (scopeOf : Expr → Option ScopeId) (steps : Nat) (v : Int64) :
    integerAt s scopeOf (steps + 2) (literalValue v) = .ok v := by
  unfold literalValue
  split
  · next hneg =>
    rw [integerAt, integerAt]
    exact congrArg Except.ok (Int64.neg_ofNat_natAbs_of_neg hneg)
  · next hneg =>
    rw [integerAt]
    exact congrArg Except.ok (Int64.ofNat_natAbs_of_nonneg hneg)

/-! ## Words -/

namespace Mode

variable {scope : ScopeId} {draft : Draft}

theorem run_cons_of_ok {c : Char} {rest : List Char} {column : Nat} {mode mode' : Mode}
    {draft' : Draft} (h : mode.onChar scope c draft = .ok (mode', draft')) :
    mode.run scope column draft (c :: rest) = mode'.run scope (column + 1) draft' rest := by
  rw [run, h]

theorem run_label {cs : List Char} (h : ∀ c ∈ cs, Text.isIdentChar c = true) (rest : List Char)
    (column : Nat) (name : String) :
    (label name).run scope column draft (cs ++ rest) =
      (label (name ++ String.ofList cs)).run scope (column + cs.length) draft rest := by
  induction cs generalizing column name with
  | nil => simp
  | cons c cs ih =>
    obtain ⟨hc, hcs⟩ := List.forall_mem_cons.mp h
    have hchar : (label name).onChar scope c draft = .ok (label (name.push c), draft) := by
      rw [onChar, if_pos hc]
    have hname : name.push c ++ String.ofList cs = name ++ String.ofList (c :: cs) := by
      rw [← String.toList_inj]
      simp
    rw [List.cons_append, run_cons_of_ok hchar, ih hcs, hname, List.length_cons]
    congr 1
    omega

theorem onChar_labelStart {c : Char} (h : Text.isIdentStart c = true) :
    labelStart.onChar scope c draft = .ok (label (String.singleton c), draft) := by
  have hcomment : (c == ';') = false := by
    rw [beq_eq_false_iff_ne]
    rintro rfl
    exact absurd h (by decide)
  have hspace : Text.isSpace c = false := by
    rw [Text.isSpace, Bool.or_eq_false_iff, beq_eq_false_iff_ne, beq_eq_false_iff_ne]
    constructor
    · rintro rfl
      exact absurd h (by decide)
    · rintro rfl
      exact absurd h (by decide)
  simp [onChar, hcomment, hspace, h]

/-- A word in front of a colon is the label. -/
theorem run_word {name : String} (h : Text.IsWord name) (rest : List Char) (column : Nat) :
    labelStart.run scope column draft (name.toList ++ ':' :: rest) =
      statementStart.run scope (column + name.toList.length + 1) { draft with label := some name }
        rest := by
  obtain ⟨c, cs, hname, hc, hcs⟩ := h
  have hwhole : String.singleton c ++ String.ofList cs = name := by
    rw [← String.toList_inj, hname]
    simp
  rw [hname, List.cons_append, run_cons_of_ok (onChar_labelStart hc), run_label hcs, hwhole]
  have hcolon : (label name).onChar scope ':' draft =
      .ok (statementStart, { draft with label := some name }) := rfl
  rw [run_cons_of_ok hcolon, List.length_cons]
  congr 1
  omega

theorem run_equ (rest : List Char) (column : Nat) :
    statementStart.run scope column draft (' ' :: 'e' :: 'q' :: 'u' :: ' ' :: rest) =
      (afterStatement "equ").run scope (column + 5) draft rest := by
  have hblank : statementStart.onChar scope ' ' draft = .ok (statementStart, draft) := rfl
  have hfirst : statementStart.onChar scope 'e' draft = .ok (statement "e", draft) := rfl
  have hsecond : (statement "e").onChar scope 'q' draft = .ok (statement "eq", draft) := rfl
  have hthird : (statement "eq").onChar scope 'u' draft = .ok (statement "equ", draft) := rfl
  have hlast : (statement "equ").onChar scope ' ' draft = .ok (afterStatement "equ", draft) := rfl
  rw [run_cons_of_ok hblank, run_cons_of_ok hfirst, run_cons_of_ok hsecond, run_cons_of_ok hthird,
    run_cons_of_ok hlast]

/-- No statement begins with an apostrophe. -/
theorem exists_run_label_eq_error {cs : List Char}
    (h : ∀ c ∈ cs, Text.isIdentChar c = true ∨ c = '\'') (hmem : '\'' ∈ cs) (rest : List Char)
    (column : Nat) (name : String) :
    ∃ failure, (label name).run scope column draft (cs ++ rest) = .error failure := by
  induction cs generalizing column name with
  | nil => cases hmem
  | cons c cs ih =>
    obtain ⟨hc, hcs⟩ := List.forall_mem_cons.mp h
    rcases hc with hc | rfl
    · have hchar : (label name).onChar scope c draft = .ok (label (name.push c), draft) := by
        rw [onChar, if_pos hc]
      rw [List.cons_append, run_cons_of_ok hchar]
      refine ih hcs ?_ _ _
      rcases List.mem_cons.mp hmem with rfl | hmem
      · exact absurd hc (by decide)
      · exact hmem
    · exact ⟨_, rfl⟩

/-! ## Numbers -/

theorem run_number {cs : List Char} (h : ∀ c ∈ cs, c.isAlphanum = true) (column : Nat)
    (digits : String) :
    (number digits).run scope column draft cs =
      ((number (digits ++ String.ofList cs)).onEnd scope draft).mapError
        (·, column + cs.length) := by
  induction cs generalizing column digits with
  | nil => simp [run]
  | cons c cs ih =>
    obtain ⟨hc, hcs⟩ := List.forall_mem_cons.mp h
    have hchar : (number digits).onChar scope c draft = .ok (number (digits.push c), draft) := by
      rw [onChar, if_pos hc]
    have hdigits : digits.push c ++ String.ofList cs = digits ++ String.ofList (c :: cs) := by
      rw [← String.toList_inj]
      simp
    have hcolumn : column + 1 + cs.length = column + (cs.length + 1) := by omega
    rw [run_cons_of_ok hchar, ih hcs, hdigits, List.length_cons, hcolumn]

theorem argumentChar_digit {c : Char} (h : c.isDigit = true)
    (hexpects : draft.builder.expectsValue = true) :
    argumentChar draft c = .ok (number (String.singleton c), draft) := by
  have hne : ∀ d : Char, d.isDigit = false → c ≠ d := by
    rintro d hd rfl
    rw [h] at hd
    cases hd
  have hcomment : (c == ';') = false := beq_eq_false_iff_ne.mpr (hne ';' rfl)
  have hspace : Text.isSpace c = false := by
    rw [Text.isSpace, Bool.or_eq_false_iff]
    exact ⟨beq_eq_false_iff_ne.mpr (hne ' ' rfl), beq_eq_false_iff_ne.mpr (hne '\t' rfl)⟩
  have hsign : unaryOf? c = none := by
    unfold unaryOf?
    split
    · exact absurd rfl (hne '+' rfl)
    · exact absurd rfl (hne '-' rfl)
    · exact absurd rfl (hne '~' rfl)
    · exact absurd rfl (hne '!' rfl)
    · rfl
  rw [argumentChar, hcomment, hspace, hexpects]
  simp only [Bool.false_eq_true, if_false, if_true]
  unfold startValue
  rw [hsign]
  dsimp only
  split
  · exact absurd rfl (hne '$' rfl)
  · exact absurd rfl (hne '%' rfl)
  · exact absurd rfl (hne '#' rfl)
  · exact absurd rfl (hne '"' rfl)
  · exact absurd rfl (hne '\'' rfl)
  · exact absurd rfl (hne '(' rfl)
  · exact absurd rfl (hne ')' rfl)
  · rw [if_pos h]

/-- Behind the digits of a literal the argument is complete. -/
theorem run_literalDigits {n : Nat} (h : n < UInt64.size) {c : Char} {rest : List Char}
    (hdigits : Text.literalDigits n = c :: rest) (column : Nat) {draft' : Draft}
    (hfeed : draft.feed (.value (.int (Int64.ofNat n))) = .ok draft')
    (hcomplete : draft'.builder.isIncomplete = false) :
    (number (String.singleton c)).run scope column draft (rest ++ ['H']) = .ok (none, draft') := by
  have halnum : ∀ d ∈ rest ++ ['H'], d.isAlphanum = true := by
    intro d hd
    rcases List.mem_append.mp hd with hd | hd
    · exact Text.forall_mem_literalDigits (p := fun d => d.isAlphanum = true) (by decide) n d
        (hdigits ▸ List.mem_cons_of_mem _ hd)
    · rw [List.mem_singleton.mp hd]
      rfl
  have hwhole : String.singleton c ++ String.ofList (rest ++ ['H']) =
      String.ofList (Text.literalDigits n ++ ['H']) := by
    rw [← String.toList_inj, hdigits]
    simp
  have hend : (number (String.ofList (Text.literalDigits n ++ ['H']))).onEnd scope draft =
      .ok (none, draft') := by
    rw [onEnd, numberToken, Number.parse_literalDigits h]
    show (draft.feed _ >>= endArgument) = _
    rw [hfeed]
    show endArgument draft' = _
    rw [endArgument, hcomplete]
    rfl
  rw [run_number halnum, hwhole, hend]
  rfl

/-- A literal is read as one complete argument of any statement. -/
theorem run_literal (scope : ScopeId) (statement : String) (v : Int64) (column : Nat)
    (hbuilder : draft.builder = {}) :
    ∃ builder, (afterStatement statement).run scope column draft (Text.hexLiteral v).toList =
          .ok (none, { draft with mnemonic := some statement, builder }) ∧
      builder.finish = .ok (some (literalValue v)) := by
  obtain ⟨c, rest, hdigits, hc⟩ := Text.exists_literalDigits_eq v.toInt.natAbs
  have hbound := Int64.natAbs_toInt_lt_size v
  have hcolon : (c == ':') = false := by
    rw [beq_eq_false_iff_ne]
    rintro rfl
    cases hc
  have hspace : Text.isSpace c = false := by
    rw [Text.isSpace, Bool.or_eq_false_iff, beq_eq_false_iff_ne, beq_eq_false_iff_ne]
    constructor
    · rintro rfl
      cases hc
    · rintro rfl
      cases hc
  obtain ⟨label, mnemonic, comment, builder⟩ := draft
  subst hbuilder
  rw [Text.toList_hexLiteral, hdigits, literalValue]
  by_cases hneg : v < 0
  · -- The sign waits for its operand.
    rw [if_pos hneg, if_pos hneg]
    refine ⟨{ pending := [.unary .minus], operands := [.int (Int64.ofNat v.toInt.natAbs)],
              afterOperand := true }, ?_, rfl⟩
    have hsign : (afterStatement statement).onChar scope '-' ⟨label, mnemonic, comment, {}⟩ =
        .ok (argument, { label, mnemonic := some statement, comment,
                         builder := { pending := [.unary .minus] } }) := rfl
    show run scope column _ _ ('-' :: c :: (rest ++ ['H'])) = _
    rw [run_cons_of_ok hsign]
    generalize hsigned : Draft.mk label (some statement) comment _ = signed
    have hstart : argument.onChar scope c signed = .ok (number (String.singleton c), signed) :=
      argumentChar_digit hc (by rw [← hsigned]; rfl)
    rw [run_cons_of_ok hstart, ← hsigned]
    exact run_literalDigits hbound hdigits _ rfl rfl
  · rw [if_neg hneg, if_neg hneg]
    refine ⟨{ operands := [.int (Int64.ofNat v.toInt.natAbs)], afterOperand := true }, ?_, rfl⟩
    have hstart : (afterStatement statement).onChar scope c ⟨label, mnemonic, comment, {}⟩ =
        .ok (number (String.singleton c), { label, mnemonic := some statement, comment }) := by
      rw [onChar, hspace, hcolon]
      exact argumentChar_digit hc rfl
    show run scope column _ _ (c :: (rest ++ ['H'])) = _
    rw [run_cons_of_ok hstart]
    exact run_literalDigits hbound hdigits _ rfl rfl

end Mode

/-! ## Lines -/

/-- A line of a listing, without the line feed behind it. -/
def definition (name : String) (v : Int64) : String :=
  name ++ ": equ " ++ Text.hexLiteral v

theorem toList_definition (name : String) (v : Int64) :
    (definition name v).toList =
      name.toList ++ ':' :: ' ' :: 'e' :: 'q' :: 'u' :: ' ' :: (Text.hexLiteral v).toList := by
  simp [definition]

namespace Reader

variable {reader : Reader} {rest : List String} {name : String} {v : Int64}

/-- What is read to the end of a logical line is the next line. -/
theorem next_of_readPhysical {scope : ScopeId} {text : String} {read : Physical}
    {arguments : Option Expr} (hstopped : reader.stopped = false)
    (hremaining : reader.remaining = text :: rest)
    (hread : readPhysical scope reader.file reader.outer .labelStart {} reader.number text rest =
      .ok read)
    (hfinish : read.draft.builder.finish = .ok arguments) :
    ∃ line, reader.next scope =
        .ok (some (line, { reader with
          remaining := read.rest, number := reader.number + read.texts.length })) ∧
      line.label = read.draft.label ∧ line.mnemonic = read.draft.mnemonic ∧
      line.arguments = arguments ∧ line.comment = read.draft.comment ∧ line.scope = scope := by
  let site : Site :=
    { file := reader.file, line := reader.number, text := String.intercalate "\n" read.texts }
  refine ⟨{ label := read.draft.label, mnemonic := read.draft.mnemonic, arguments,
            comment := read.draft.comment, position := { here := site, outer := reader.outer }, scope },
    ?_, rfl, rfl, rfl, rfl, rfl⟩
  unfold Reader.next
  rw [hstopped, hremaining]
  dsimp only
  rw [hread]
  show (read.draft.builder.finish.mapError _ >>= _) = _
  rw [hfinish]
  rfl

/-- A physical line that is read to its end is a line of its own. -/
theorem next_of_run {scope : ScopeId} {text : String} {draft : Draft} {arguments : Option Expr}
    (hstopped : reader.stopped = false) (hremaining : reader.remaining = text :: rest)
    (hrun : Mode.labelStart.run scope 1 {} text.toList = .ok (none, draft))
    (hfinish : draft.builder.finish = .ok arguments) :
    ∃ line, reader.next scope =
        .ok (some (line, { reader with remaining := rest, number := reader.number + 1 })) ∧
      line.label = draft.label ∧ line.mnemonic = draft.mnemonic ∧ line.arguments = arguments ∧
      line.comment = draft.comment ∧ line.scope = scope := by
  have hread : readPhysical scope reader.file reader.outer .labelStart {} reader.number text rest =
      .ok { draft, texts := [text], rest } := by
    unfold readPhysical
    rw [hrun]
  exact next_of_readPhysical hstopped hremaining hread hfinish

/-- **A line of a listing defines its name, if that is a word.** -/
theorem next_definition (hstopped : reader.stopped = false)
    (hremaining : reader.remaining = definition name v :: rest) (hname : Text.IsWord name)
    (scope : ScopeId) :
    ∃ line, reader.next scope =
        .ok (some (line, { reader with remaining := rest, number := reader.number + 1 })) ∧
      line.label = some name ∧ line.mnemonic = some "equ" ∧
      line.arguments = some (literalValue v) ∧ line.scope = scope := by
  have hempty : (Draft.mk (some name) none none {}).builder = {} := rfl
  obtain ⟨builder, hrun, hfinish⟩ :=
    Mode.run_literal scope "equ" v (1 + name.toList.length + 1 + 5) hempty
  have hline : Mode.labelStart.run scope 1 {} (definition name v).toList =
      .ok (none, { label := some name, mnemonic := some "equ", builder }) := by
    rw [toList_definition, Mode.run_word hname, Mode.run_equ]
    exact hrun
  obtain ⟨line, hnext, hlabel, hmnemonic, harguments, -, hscope⟩ :=
    next_of_run hstopped hremaining hline hfinish
  exact ⟨line, hnext, hlabel, hmnemonic, harguments, hscope⟩

/-- With an apostrophe in its name it cannot be read. -/
theorem exists_next_eq_error (hstopped : reader.stopped = false)
    (hremaining : reader.remaining = definition name v :: rest) (hname : Text.IsFullName name)
    (hmem : '\'' ∈ name.toList) (scope : ScopeId) :
    ∃ failure, reader.next scope = .error failure := by
  obtain ⟨word, tail, hname, ⟨c, cs, hcs, hc, hchars⟩, htail⟩ := hname
  have hlist : name.toList = c :: (cs ++ tail.toList) := by
    rw [hname, String.toList_append, hcs]
    rfl
  have hall : ∀ d ∈ cs ++ tail.toList, Text.isIdentChar d = true ∨ d = '\'' :=
    List.forall_mem_append.mpr ⟨fun d hd => .inl (hchars d hd), htail⟩
  have hbehind : '\'' ∈ cs ++ tail.toList := by
    rw [hlist] at hmem
    rcases List.mem_cons.mp hmem with rfl | hmem
    · exact absurd hc (by decide)
    · exact hmem
  obtain ⟨failure, hrun⟩ : ∃ failure, Mode.labelStart.run scope 1 {} (definition name v).toList =
      .error failure := by
    rw [toList_definition, hlist, List.cons_append, Mode.run_cons_of_ok (Mode.onChar_labelStart hc)]
    exact Mode.exists_run_label_eq_error hall hbehind _ _ _
  unfold Reader.next
  rw [hstopped, hremaining]
  dsimp only
  unfold readPhysical
  rw [hrun]
  exact ⟨_, rfl⟩

end Reader

end Z80Asm
