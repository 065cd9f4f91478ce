import Z80Asm.Block.Reader

/-!
# The grammar of blocks

Whether lines group into blocks is a matter of their directive keys alone. `Balanced` is the grammar
of key sequences, and `Nested` the same grammar on items, each block with the line that closes it as
the last of its body; the lines of nested items have balanced keys.

A line that stays in its text is an item of its own, or it opens, divides or closes a block
(`Line.Part`). `INCLUDE`, `INCBIN` and `END` do more than take part in the structure and have no place
in the grammar.

The grammar is on keys and not on lines because a line that closes a block and one that divides it
are told by their keys alone, whatever else they say.
-/
set_option autoImplicit false

namespace Z80Asm

/-! ## The grammar -/

/-- The words that open and close each kind of block. -/
def BlockKind.words : BlockKind → String × String
  | template => ("macro", "endm")
  | rept => ("rept", "endm")
  | irp => ("irp", "endm")
  | proc => ("proc", "endp")
  | segment => ("section", "ends")

/-- The keys that open, divide or close blocks. -/
def structureKeys : List String :=
  ["macro", "rept", "irp", "proc", "section", "if", "else", "endm", "endp", "ends", "endif"]

/-- No statement, or one that has no part in the block structure. -/
def IsPlain (key : Option String) : Prop :=
  ∀ word ∈ key, word ∉ structureKeys

/-- Sequences of directive keys in which every block is closed. `ELSE` belongs to the rule for `IF`
    and closes nothing by itself, so it can stand there only, and once. -/
inductive Balanced : List (Option String) → Prop
  | nil : Balanced []
  | plain {key : Option String} {rest : List (Option String)} :
    IsPlain key → Balanced rest → Balanced (key :: rest)
  | block (kind : BlockKind) {body rest : List (Option String)} :
    Balanced body → Balanced rest →
      Balanced (some kind.words.1 :: (body ++ some kind.words.2 :: rest))
  | choice {body rest : List (Option String)} :
    Balanced body → Balanced rest → Balanced (some "if" :: (body ++ some "endif" :: rest))
  | alternative {onTrue onFalse rest : List (Option String)} :
    Balanced onTrue → Balanced onFalse → Balanced rest →
      Balanced (some "if" :: (onTrue ++ some "else" :: (onFalse ++ some "endif" :: rest)))

/-- Items in which every block has its closing line as the last of its body. -/
inductive Nested : List Item → Prop
  | nil : Nested []
  | plain {line : Line} {role : Role} {rest : List Item} :
    IsPlain line.directiveKey? → Nested rest → Nested (.plain line role :: rest)
  | block {line last : Line} {kind : BlockKind} {role : Role} {body rest : List Item} :
    line.directiveKey? = some kind.words.1 → Nested body →
      last.directiveKey? = some kind.words.2 → Nested rest →
      Nested (.block line kind (body ++ [.plain last role]) :: rest)
  | choice {line last : Line} {role : Role} {body rest : List Item} :
    line.directiveKey? = some "if" → Nested body → last.directiveKey? = some "endif" → Nested rest →
      Nested (.choice line (body ++ [.plain last role]) [] :: rest)
  | alternative {line middle last : Line} {role role' : Role} {onTrue onFalse rest : List Item} :
    line.directiveKey? = some "if" → Nested onTrue → middle.directiveKey? = some "else" →
      Nested onFalse → last.directiveKey? = some "endif" → Nested rest →
      Nested (.choice line (onTrue ++ [.plain middle role]) (onFalse ++ [.plain last role']) :: rest)

mutual

/-- The lines of an item in the order of the text: its own line, then those of its bodies. -/
def Item.lines : Item → List Line
  | .plain line _ => [line]
  | .block line _ body => line :: linesOf body
  | .choice line onTrue onFalse => line :: (linesOf onTrue ++ linesOf onFalse)

def linesOf : List Item → List Line
  | [] => []
  | item :: rest => item.lines ++ linesOf rest

end

theorem linesOf_append (items more : List Item) :
    linesOf (items ++ more) = linesOf items ++ linesOf more := by
  induction items with
  | nil => rfl
  | cons item rest ih => simp only [List.cons_append, linesOf, ih, List.append_assoc]

theorem linesOf_plain (line : Line) (role : Role) : linesOf [.plain line role] = [line] := by
  simp [linesOf, Item.lines]

/-- **The keys of nested items are balanced.** -/
theorem Nested.balanced {items : List Item} (h : Nested items) :
    Balanced ((linesOf items).map Line.directiveKey?) := by
  induction h with
  | nil => exact .nil
  | plain hplain _ ih =>
    simpa [linesOf, Item.lines] using Balanced.plain hplain ih
  | @block line last kind role body rest hline _ hlast _ ihbody ihrest =>
    simpa [linesOf, Item.lines, linesOf_append, hline, hlast] using
      Balanced.block kind ihbody ihrest
  | choice hline _ hlast _ ihbody ihrest =>
    simpa [linesOf, Item.lines, linesOf_append, hline, hlast] using
      Balanced.choice ihbody ihrest
  | alternative hline _ hmiddle _ hlast _ ihtrue ihfalse ihrest =>
    simpa [linesOf, Item.lines, linesOf_append, hline, hmiddle, hlast] using
      Balanced.alternative ihtrue ihfalse ihrest

/-! ## Keys and directives -/

/-- The statements that refer to files or end the text. -/
def fileKeys : List String :=
  ["include", "incbin", "end"]

/-- A line that neither refers to a file nor ends the text. -/
def Line.StaysInText (line : Line) : Prop :=
  ∀ word ∈ line.directiveKey?, word ∉ fileKeys

instance (line : Line) : Decidable line.StaysInText :=
  inferInstanceAs (Decidable (∀ word ∈ line.directiveKey?, word ∉ fileKeys))

/-- The directives of lines that are items of their own. -/
def Directive.role? : Option Directive → Option Role
  | none => some .instruction
  | some .equ => some .equ
  | some .space => some .space
  | _ => none

theorem Directive.ofKey?_opens {word : String} {kind : BlockKind}
    (h : ofKey? word = some (.opens kind)) : word = kind.words.1 := by
  unfold ofKey? at h
  split at h <;> cases h <;> rfl

theorem Directive.ofKey?_choice {word : String} (h : ofKey? word = some .choice) :
    word = "if" := by
  unfold ofKey? at h
  split at h <;> cases h
  rfl

theorem Directive.ofKey?_closes {word : String} {closer : Closer}
    (h : ofKey? word = some (.closes closer)) : word = closer.key := by
  unfold ofKey? at h
  split at h <;> cases h <;> rfl

theorem Directive.ofKey?_words (kind : BlockKind) :
    ofKey? kind.words.1 = some (.opens kind) ∧ ofKey? kind.words.2 = some (.closes kind.closer) := by
  cases kind <;> exact ⟨rfl, rfl⟩

/-- A key of the block structure has a directive that no item of its own has. -/
theorem Directive.role?_of_mem {word : String} (h : word ∈ structureKeys) :
    role? (ofKey? word) = none := by
  simp only [structureKeys, List.mem_cons, List.not_mem_nil, or_false] at h
  rcases h with rfl | rfl | rfl | rfl | rfl | rfl | rfl | rfl | rfl | rfl | rfl <;> rfl

theorem Directive.mem_fileKeys {word : String} {directive : Directive}
    (h : ofKey? word = some directive)
    (hfile : directive = .stop ∨ directive = .splice ∨ directive = .incbin) :
    word ∈ fileKeys := by
  unfold ofKey? at h
  split at h <;> cases h <;> simp_all [fileKeys]

/-- A line is an item of its own, or it opens, divides or closes a block. -/
inductive Line.Part (line : Line) : Prop
  | own (role : Role) : Directive.role? line.directive? = some role → IsPlain line.directiveKey? →
    Line.Part line
  | opens (kind : BlockKind) : line.directive? = some (.opens kind) →
    line.directiveKey? = some kind.words.1 → Line.Part line
  | choice : line.directive? = some .choice → line.directiveKey? = some "if" → Line.Part line
  | closes (closer : Closer) : line.directive? = some (.closes closer) →
    line.directiveKey? = some closer.key → Line.Part line

theorem Line.part {line : Line} (hstays : line.StaysInText) : line.Part := by
  cases hkey : line.directiveKey? with
  | none =>
    have hdir : line.directive? = none := by rw [Line.directive?, hkey]; rfl
    refine .own .instruction (by rw [hdir]; rfl) ?_
    rw [hkey]
    rintro _ ⟨⟩
  | some word =>
    have hdir : line.directive? = Directive.ofKey? word := by rw [Line.directive?, hkey]; rfl
    have hplain (role : Role) (h : Directive.role? (Directive.ofKey? word) = some role) :
        line.Part := by
      refine .own role (by rw [hdir, h]) ?_
      rw [hkey]
      rintro _ ⟨⟩ hmem
      rw [Directive.role?_of_mem hmem] at h
      cases h
    have hfile {directive : Directive} (h : Directive.ofKey? word = some directive)
        (hfile : directive = .stop ∨ directive = .splice ∨ directive = .incbin) : line.Part :=
      absurd (Directive.mem_fileKeys h hfile) (hstays word hkey)
    cases hword : Directive.ofKey? word with
    | none => exact hplain .instruction (by rw [hword]; rfl)
    | some directive =>
      rw [hword] at hdir
      cases directive with
      | opens kind => exact .opens kind hdir (by rw [hkey, Directive.ofKey?_opens hword])
      | choice => exact .choice hdir (by rw [hkey, Directive.ofKey?_choice hword])
      | closes closer => exact .closes closer hdir (by rw [hkey, Directive.ofKey?_closes hword])
      | equ => exact hplain .equ (by rw [hword]; rfl)
      | space => exact hplain .space (by rw [hword]; rfl)
      | splice => exact hfile hword (.inr (.inl rfl))
      | incbin => exact hfile hword (.inr (.inr rfl))
      | stop => exact hfile hword (.inl rfl)

theorem Line.own_of_isPlain {line : Line} (hstays : line.StaysInText)
    (hplain : IsPlain line.directiveKey?) :
    ∃ role, Directive.role? line.directive? = some role := by
  cases Line.part hstays with
  | own role hrole _ => exact ⟨role, hrole⟩
  | opens kind _ hkey =>
    refine absurd ?_ (hplain _ hkey)
    cases kind <;> simp [BlockKind.words, structureKeys]
  | choice _ hkey => exact absurd (by simp [structureKeys]) (hplain _ hkey)
  | closes closer _ hkey =>
    refine absurd ?_ (hplain _ hkey)
    cases closer <;> simp [Closer.key, structureKeys]

theorem Line.directive?_of_key {line : Line} {word : String}
    (h : line.directiveKey? = some word) : line.directive? = Directive.ofKey? word := by
  rw [Line.directive?, h]
  rfl

theorem BlockKind.key_closer (kind : BlockKind) : kind.closer.key = kind.words.2 := by
  cases kind <;> rfl

end Z80Asm
