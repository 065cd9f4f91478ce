import Z80Asm.Command.Mentions
import Z80Asm.Command.Run

/-!
# The command line

Collects the files that a source can need, runs the command line on them, and writes the files that
the run asks for. Errors and warnings go to the standard error.
-/
set_option autoImplicit false

namespace Z80Asm.Command

/-- The contents of a file on disk. -/
def readBytes? (path : String) : IO (Option (List UInt8)) := do
  try return some (← IO.FS.readBinFile path).toList
  catch _ => return none

/-- Adds the files that paths lead to, and those they mention. `seen` are the files that are done,
    as source or as data. -/
partial def collect (includeDirs : List String) (seen : List (FilePlace × Bool))
    (files : FileSystem) : List (String × Bool) → IO FileSystem
  | [] => return files
  | (path, isSource) :: rest => do
    match ← readBytes? path with
    | none => collect includeDirs seen files rest
    | some bytes =>
      let files := files.add path bytes
      let file := (files.place path, isSource)
      if seen.contains file then collect includeDirs seen files rest
      else
        let inside :=
          if isSource then
            (mentions (Text.ofBytes bytes)).flatMap fun mention =>
              (mention.paths (Path.directory path) includeDirs).map (·, mention.isSource)
          else []
        collect includeDirs (file :: seen) files (inside ++ rest)

/-- Reports warnings, unless only errors are asked for. -/
def reportWarnings (level : LogLevel) (warnings : List Warning) : IO Unit := do
  if level = .error then return
  for warning in warnings do
    let file := warning.file.getD "<input>"
    IO.eprintln s!"WARN {file}:{warning.line}: {warning.message}"

def reportFailure (failure : Failure) : IO Unit :=
  IO.eprintln ((Failure.summary failure).render false)

/-- Writes a file to disk, and tells whether all went well. -/
def Artifact.save (artifact : Artifact) : IO Bool := do
  try
    IO.FS.writeBinFile artifact.path (ByteArray.mk artifact.bytes.toArray)
    match artifact.failure with
    | some cause => reportFailure cause.untraced; return false
    | none => return true
  catch e =>
    IO.eprintln (toString e)
    return false

def usage : String :=
  "Usage: z80asm [-I DIR]... [--log-level LEVEL] SOURCE [OBJECT [SYMBOLS]]"

def refuse (refusal : Refusal) : IO UInt32 := do
  match refusal with
  | .help => IO.println usage
  | .version => IO.println "z80asm 1.0"
  | _ => IO.eprintln usage
  return UInt32.ofNat refusal.exitCode

/-- Runs a command line on disk. -/
def Options.runOnDisk (options : Options) : IO UInt32 := do
  let current := ((Path.names (toString (← IO.currentDir))).filter (!·.isEmpty))
  let files ← collect options.includeDirs [] { current } [(options.source, true)]
  match options.assemble (options.session files) with
  | .error failure session =>
    reportWarnings options.logLevel session.output.warnings
    reportFailure failure
    return 1
  | .ok artifacts session =>
    reportWarnings options.logLevel session.output.warnings
    for artifact in artifacts do
      unless ← artifact.save do return 1
    return 0

end Z80Asm.Command

def main (args : List String) : IO UInt32 :=
  match Z80Asm.Command.Options.ofArguments args with
  | .ok options => options.runOnDisk
  | .error refusal => Z80Asm.Command.refuse refusal
