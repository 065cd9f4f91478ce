import Z80Asm.Program.Session

/-!
# The files that a text mentions

Before a source is assembled, the files it can need are collected. A text mentions the names on its
`INCLUDE` and `INCBIN` lines, up to its `END` and up to the first line that cannot be read.
-/
set_option autoImplicit false

namespace Z80Asm.Command

/-- A file name in a text, and whether the file is source itself. -/
structure Mention where
  name : String
  isSource : Bool
  deriving DecidableEq, Repr, Inhabited

/-- The file that a line mentions. -/
def mention? (line : Line) : Option Mention :=
  match line.directive? with
  | some .splice =>
    (includedName predefinedScopes line).toOption.map fun (_, name) => { name, isSource := true }
  | some .incbin =>
    (embeddedName predefinedScopes line).toOption.map fun name => { name, isSource := false }
  | _ => none

/-- The files that the lines of a reader mention. Every line takes one of `fuel`. -/
def mentionsFrom : Nat → Reader → List Mention
  | 0, _ => []
  | fuel + 1, reader =>
    match reader.next ⟨0⟩ with
    | .error _ | .ok none => []
    | .ok (some (line, rest)) =>
      let rest := if line.directive? = some .stop then rest.stop else rest
      (mention? line).toList ++ mentionsFrom fuel rest

/-- The files that a text mentions. -/
def mentions (text : String) : List Mention :=
  let reader := Reader.ofText text none []
  mentionsFrom (reader.remaining.length + 1) reader

/-- The paths under which a mentioned file is looked for. -/
def Mention.paths (mention : Mention) (dir : String) (includeDirs : List String) : List String :=
  (dir :: includeDirs).map (Path.join · mention.name)

end Z80Asm.Command
