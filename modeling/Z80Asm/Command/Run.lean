import Z80Asm.Command.Arguments
import Z80Asm.Image.Hex
import Z80Asm.Program.Assemble

/-!
# Running a command line

A run assembles the source and writes the code and the symbols to the files that were asked for.
The run itself is a function from files to files.
-/
set_option autoImplicit false

namespace Z80Asm.Command

/-- The form in which code is written. -/
inductive ObjectFormat where
  | binary
  | hex
  deriving DecidableEq, Repr, Inhabited

/-- Files with the extension `hex` or `ihx`, in any case, hold Intel HEX. -/
def ObjectFormat.ofPath (path : String) : ObjectFormat :=
  match (Path.extension? path).map Text.lower with
  | some "hex" | some "ihx" => .hex
  | _ => .binary

/-- A file to write, and what is reported once it is written. -/
structure Artifact where
  path : String
  bytes : List UInt8
  failure : Option Cause := none
  deriving Repr, Inhabited

/-- The file for the code. What can be written of an image that has no HEX form is written. -/
def Artifact.ofImage (path : String) (image : Image) : Artifact :=
  match ObjectFormat.ofPath path with
  | .binary => { path, bytes := image.toBinary }
  | .hex =>
    { path
      bytes := image.writtenHex.toUTF8.toList
      failure := image.writable.2.map (.imageUnwritable · path) }

/-- The files that a command line asks for. -/
def Options.artifacts (options : Options) (image : Image) (symbols : String) : List Artifact :=
  (options.object.map fun path => Artifact.ofImage path image).toList ++
  (options.symbols.map fun path => { path, bytes := symbols.toUTF8.toList }).toList

/-- Writes a file. -/
def Artifact.write (artifact : Artifact) : EStateM Failure FileSystem Unit := do
  match (← get).write artifact.path artifact.bytes with
  | .error reason => throw (Cause.unwritable reason artifact.path).untraced
  | .ok files => set files
  if let some cause := artifact.failure then throw cause.untraced

/-- Assembles the source of a command line. -/
def Options.assemble (options : Options) : Assembly (List Artifact) := do
  let source ← Assembly.loadFile options.source
  let _ ← Assembly.assemble source
  return options.artifacts (← get).output.image (← Assembly.symbols source.scope)

/-- The session in which a command line is run. -/
def Options.session (options : Options) (files : FileSystem) : Session :=
  Session.new { files, includeDirs := options.includeDirs }

/-- What a run leaves. -/
structure Outcome where
  result : Except Failure Unit
  files : FileSystem
  warnings : List Warning

/-- Runs a command line on files. -/
def Options.run (options : Options) (files : FileSystem) : Outcome :=
  match options.assemble (options.session files) with
  | .error failure session =>
    { result := .error failure, files, warnings := session.output.warnings }
  | .ok artifacts session =>
    let warnings := session.output.warnings
    match artifacts.forM Artifact.write files with
    | .ok () files => { result := .ok (), files, warnings }
    | .error failure files => { result := .error failure, files, warnings }

end Z80Asm.Command
