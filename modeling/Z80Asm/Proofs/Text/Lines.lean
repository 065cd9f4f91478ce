import Z80Asm.Text

/-!
# Physical lines

`Text.linesFrom` holds the line that it is in back to front until a line feed comes. Characters that
are no line feeds only make that line longer (`linesFrom_append`); from this one induction follows
what the lines of a text are that ends in a line feed, in a carriage return and a line feed, or in
neither.

A carriage return belongs to the end of a line only in front of a line feed, and is a character
elsewhere.
-/
set_option autoImplicit false

namespace Z80Asm.Text

/-- **Up to the next line feed everything belongs to the current line.** -/
theorem linesFrom_append {cs : List Char} (h : '\n' ∉ cs) (line rest : List Char) :
    linesFrom line (cs ++ rest) = linesFrom (cs.reverse ++ line) rest := by
  induction cs generalizing line with
  | nil => rfl
  | cons c cs ih =>
    obtain ⟨hc, hcs⟩ := List.ne_and_not_mem_of_not_mem_cons h
    have hchar : ¬ (c == '\n') = true := by simpa using hc.symm
    rw [List.cons_append, linesFrom, if_neg hchar, ih hcs, List.reverse_cons, List.append_assoc]
    rfl

/-- A line feed ends a line and takes one carriage return along. -/
theorem linesFrom_feed {cs : List Char} (h : '\n' ∉ cs) (line rest : List Char) :
    linesFrom line (cs ++ '\n' :: rest) =
      (dropReturn (cs.reverse ++ line)).reverse :: linesFrom [] rest := by
  rw [linesFrom_append h]
  rfl

/-- A line that ends in a carriage return and a line feed is a line without both. -/
theorem linesFrom_crlf {line : List Char} (h : '\n' ∉ line) (rest : List Char) :
    linesFrom [] (line ++ '\r' :: '\n' :: rest) = line :: linesFrom [] rest := by
  rw [linesFrom_append h, List.append_nil]
  show line.reverse.reverse :: _ = _
  rw [List.reverse_reverse]

theorem linesFrom_of_notMem {cs : List Char} (h : '\n' ∉ cs) (line : List Char)
    (hne : line ++ cs ≠ []) : linesFrom line cs = [line.reverse ++ cs] := by
  have hlast := linesFrom_append h line []
  rw [List.append_nil] at hlast
  have hheld : (cs.reverse ++ line).isEmpty = false := by
    rw [List.isEmpty_eq_false_iff]
    intro hnil
    rw [List.append_eq_nil_iff, List.reverse_eq_nil_iff] at hnil
    exact hne (by rw [hnil.1, hnil.2]; rfl)
  rw [hlast, linesFrom, hheld]
  simp

theorem lines_of_notMem {text : String} (h : '\n' ∉ text.toList) (hne : text.toList ≠ []) :
    lines text = [text] := by
  rw [lines, linesFrom_of_notMem h [] hne, List.reverse_nil, List.nil_append, List.map_singleton,
    String.ofList_toList]

end Z80Asm.Text
