import Z80Asm.Proofs.Line.Printing
import Z80Asm.Proofs.Text.Lines

/-!
# String literals

Every list of bytes can be written as a string literal. All bytes stand for themselves but four: a
quote, a backslash and a carriage return are written as escapes, and so may be a line feed, which
may also be an end of line in the source, with or without a carriage return of its own.

A literal with such an end is read over several physical lines, and each of them begins inside the
string. The induction is on the bytes: what has been read of the physical line that they begin in is
`front`, back to front as `Text.linesFrom` holds it, and reading it from the mode in which the line
began has led into the string.
-/
set_option autoImplicit false

namespace Z80Asm

open Mode

/-! ## Spelling -/

/-- How a line feed is written inside a string. -/
inductive Newline where
  | escape
  | feed
  | returnFeed
  deriving DecidableEq, Repr, Inhabited

def Newline.spelled : Newline → List Char
  | escape => ['\\', 'n']
  | feed => ['\n']
  | returnFeed => ['\r', '\n']

/-- A byte inside a string. -/
def spelledByte (newline : Newline) (b : UInt8) : List Char :=
  if b = 0x0A then newline.spelled
  else if b = 0x22 then ['\\', '"']
  else if b = 0x5C then ['\\', '\\']
  else if b = 0x0D then ['\\', 'r']
  else [Char.ofUInt8 b]

/-- Bytes inside a string; how a line feed is written may be different at each place. -/
def spelledBytes (newline : Nat → Newline) : List UInt8 → List Char
  | [] => []
  | b :: rest => spelledByte (newline 0) b ++ spelledBytes (fun i => newline (i + 1)) rest

/-- A statement with a string for its argument. -/
def stringStatement (newline : Nat → Newline) (bytes : List UInt8) : String :=
  String.ofList ([' ', 'x', ' ', '"'] ++ (spelledBytes newline bytes ++ ['"']))

/-! ## Reading a byte -/

/-- Characters inside a string that are a byte and stay on their physical line. -/
structure IsByte (scope : ScopeId) (b : UInt8) (cs : List Char) : Prop where
  reads : ∀ (draft : Draft) (bytes : List UInt8),
    (text bytes .string false).reads scope draft cs = .ok (text (b :: bytes) .string false, draft)
  noFeed : '\n' ∉ cs
  noReturn : '\r' ∉ cs

variable {scope : ScopeId}

theorem isByte_escape {b : UInt8} {c : Char} (h : unescape c = .ok b)
    (hfeed : '\n' ∉ ['\\', c]) (hreturn : '\r' ∉ ['\\', c]) : IsByte scope b ['\\', c] :=
  ⟨fun _ bytes => reads_escape h bytes .string, hfeed, hreturn⟩

theorem ofUInt8_ne_of_ne {b : UInt8} {c : Char} (h : b ≠ c.toUInt8) : Char.ofUInt8 b ≠ c := by
  intro heq
  rw [← heq, toUInt8_ofUInt8] at h
  exact h rfl

/-- A byte is written on one line, or it is a line feed that ends the line. -/
theorem isByte_or_feed (scope : ScopeId) (newline : Newline) (b : UInt8) :
    IsByte scope b (spelledByte newline b) ∨
      b = 0x0A ∧ (spelledByte newline b = ['\n'] ∨ spelledByte newline b = ['\r', '\n']) := by
  unfold spelledByte
  split
  next hfeed =>
    subst hfeed
    cases newline with
    | escape => exact .inl (isByte_escape rfl (by decide) (by decide))
    | feed => exact .inr ⟨rfl, .inl rfl⟩
    | returnFeed => exact .inr ⟨rfl, .inr rfl⟩
  next hfeed =>
    left
    split
    next hquote =>
      subst hquote
      exact isByte_escape rfl (by decide) (by decide)
    next hquote =>
    split
    next hbackslash =>
      subst hbackslash
      exact isByte_escape rfl (by decide) (by decide)
    next hbackslash =>
    split
    next hreturn =>
      subst hreturn
      exact isByte_escape rfl (by decide) (by decide)
    next hreturn =>
      -- All other bytes stand for themselves, whatever they mean outside of a string.
      refine ⟨fun draft bytes => ?_, ?_, ?_⟩
      · have hmark : Char.ofUInt8 b ≠ Quote.string.mark := ofUInt8_ne_of_ne hquote
        have hrange : (Char.ofUInt8 b).toNat < 256 := toNat_ofUInt8 b ▸ b.toNat_lt
        rw [reads_cons_of_ok (onChar_text (ofUInt8_ne_of_ne hbackslash) hmark hrange bytes), reads,
          toUInt8_ofUInt8]
      · rw [List.mem_singleton]
        exact (ofUInt8_ne_of_ne hfeed).symm
      · rw [List.mem_singleton]
        exact (ofUInt8_ne_of_ne hreturn).symm

/-! ## Reading physical lines -/

theorem dropReturn_of_notMem {line : List Char} (h : '\r' ∉ line) : Text.dropReturn line = line := by
  unfold Text.dropReturn
  split
  next rest => exact absurd List.mem_cons_self h
  next => rfl

/-- At the end of its line a string goes on with the next one. -/
theorem readPhysical_open {file : Option String} {outer : List Site} {number : UInt32} {mode : Mode}
    {draft draft₁ : Draft} {line next : String} {rest : List String} {bytes : List UInt8}
    {read : Physical}
    (hreads : mode.reads scope draft line.toList = .ok (text bytes .string false, draft₁))
    (hnext : readPhysical scope file outer (text (0x0A :: bytes) .string false) draft₁ (number + 1)
      next rest = .ok read) :
    readPhysical scope file outer mode draft number line (next :: rest) =
      .ok { read with texts := line :: read.texts } := by
  have hrun : mode.run scope 1 draft line.toList =
      .ok (some (text (0x0A :: bytes) .string false), draft₁) := run_of_reads hreads 1
  rw [readPhysical, hrun]
  dsimp only
  rw [hnext]
  rfl

/-- Behind the last quote the argument is complete, and so is the line. -/
theorem readPhysical_close {file : Option String} {outer : List Site} {number : UInt32} {mode : Mode}
    {draft draft₁ draft' : Draft} {front : List Char} {bytes : List UInt8}
    (hreads : mode.reads scope draft front = .ok (text bytes .string false, draft₁))
    (hfeed : draft₁.feed (.value (.str bytes.reverse)) = .ok draft')
    (hcomplete : draft'.builder.isIncomplete = false) :
    readPhysical scope file outer mode draft number (String.ofList (front ++ ['"'])) [] =
      .ok { draft := draft', texts := [String.ofList (front ++ ['"'])], rest := [] } := by
  have hclose : (text bytes .string false).onChar scope '"' draft₁ = .ok (argument, draft') := by
    show draft₁.token (.value (.str bytes.reverse)) = _
    rw [Draft.token, hfeed]
    rfl
  have hline : mode.reads scope draft (front ++ ['"']) = .ok (argument, draft') := by
    rw [reads_append_of_ok hreads, reads_cons_of_ok hclose, reads]
  have hrun : mode.run scope 1 draft (front ++ ['"']) = .ok (none, draft') := by
    rw [run_of_reads hline, onEnd, endArgument, hcomplete]
    rfl
  rw [readPhysical, String.toList_ofList, hrun]

theorem readPhysical_spelledBytes (file : Option String) (outer : List Site) {draft₁ draft' : Draft}
    (hcomplete : draft'.builder.isIncomplete = false) {bytes done : List UInt8}
    (hfeed : draft₁.feed (.value (.str (done.reverse ++ bytes).toArray)) = .ok draft')
    (newline : Nat → Newline) {mode : Mode} {draft : Draft} {front : List Char}
    (hreturn : '\r' ∉ front)
    (hreads : mode.reads scope draft front.reverse = .ok (text done .string false, draft₁))
    (number : UInt32) :
    ∃ line rest texts,
      (Text.linesFrom front (spelledBytes newline bytes ++ ['"'])).map String.ofList = line :: rest ∧
      readPhysical scope file outer mode draft number line rest =
        .ok { draft := draft', texts, rest := [] } := by
  induction bytes generalizing done newline mode draft front number with
  | nil =>
    rw [List.append_nil] at hfeed
    refine ⟨_, [], _, ?_, readPhysical_close hreads hfeed hcomplete⟩
    rw [← List.reverse_cons]
    rfl
  | cons b rest ih =>
    have hbytes : done.reverse ++ b :: rest = (b :: done).reverse ++ rest := by simp
    rw [hbytes] at hfeed
    rw [spelledBytes, List.append_assoc]
    rcases isByte_or_feed scope (newline 0) b with hbyte | ⟨rfl, hends⟩
    · -- The physical line goes on behind the byte.
      rw [Text.linesFrom_append hbyte.noFeed]
      refine ih hfeed _ ?_ ?_ number
      · simp [hbyte.noReturn, hreturn]
      · rw [List.reverse_append, List.reverse_reverse, reads_append_of_ok hreads]
        exact hbyte.reads draft₁ done
    · -- The physical line ends here, and the next one begins inside the string.
      have hlines (more : List Char) : Text.linesFrom front (spelledByte (newline 0) 0x0A ++ more) =
          front.reverse :: Text.linesFrom [] more := by
        rcases hends with hfeed | hcrlf
        · rw [hfeed]
          show (Text.dropReturn front).reverse :: Text.linesFrom [] more = _
          rw [dropReturn_of_notMem hreturn]
        · rw [hcrlf]
          rfl
      have hinside : (text (0x0A :: done) .string false).reads scope draft₁ [] =
          .ok (text (0x0A :: done) .string false, draft₁) := rfl
      obtain ⟨next, later, texts, hnext, hread⟩ :=
        ih hfeed _ List.not_mem_nil hinside (number + 1)
      refine ⟨String.ofList front.reverse, next :: later, _, ?_, readPhysical_open ?_ hread⟩
      · rw [hlines, List.map_cons, hnext]
      · rw [String.toList_ofList]
        exact hreads

namespace Reader

/-- **Every list of bytes is the value of a string literal**: the text that spells it is one logical
    line, on as many physical lines as it takes, and its argument is the string. How a line feed is
    written is chosen at each place, so a literal may mix all three ways. -/
theorem next_string_literal (file : Option String) (outer : List Site) (scope : ScopeId)
    (newline : Nat → Newline) (bytes : List UInt8) :
    ∃ line rest, (Reader.ofText (stringStatement newline bytes) file outer).next scope =
        .ok (some (line, rest)) ∧
      line.label = none ∧ line.mnemonic = some "x" ∧ line.arguments = some (.str bytes) ∧
      line.comment = none ∧ ∀ other, rest.next other = .ok none := by
  have hopen : Mode.labelStart.reads scope {} ['"', ' ', 'x', ' '].reverse =
      .ok (.next (.text [] .string false), { mnemonic := some "x" }) := rfl
  have hfeed : Draft.feed { mnemonic := some "x" } (.value (.str ([].reverse ++ bytes).toArray)) =
      .ok { mnemonic := some "x", builder := { operands := [.str bytes], afterOperand := true } } := rfl
  obtain ⟨first, rest, texts, hlines, hread⟩ :=
    readPhysical_spelledBytes file outer rfl hfeed newline (by decide) hopen 1
  have hremaining : (Reader.ofText (stringStatement newline bytes) file outer).remaining =
      first :: rest := by
    rw [← hlines]
    show Text.lines _ = _
    rw [Text.lines, stringStatement, String.toList_ofList]
    rfl
  obtain ⟨line, hnext, hlabel, hmnemonic, harguments, hcomment, -⟩ :=
    next_of_readPhysical rfl hremaining hread rfl
  exact ⟨line, _, hnext, hlabel, hmnemonic, harguments, hcomment, fun _ => rfl⟩

end Reader

/-- The two kinds of line feeds around a semicolon, a quote and a character outside of ASCII. -/
example : stringStatement (fun i => if i = 0 then .escape else .feed) [0x0A, 0x3B, 0x22, 0x0A, 0xE9] =
    " x \"\\n;\\\"\né\"" := by decide

end Z80Asm
