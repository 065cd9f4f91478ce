import Z80Asm.Line.Number

/-!
# Command-line arguments

The command line names a source, and optionally a file for the code and one for the symbols.
Options may stand between them: `-I` or `--include` with a directory, any number of times, and
`--log-level` with a level, once. `--` ends the options.

The value of an option follows it as the next argument, or behind `=`; behind the letter of a short
option it may also follow at once. A value is checked when the next option or operand begins, or at
the end, so an unknown option is reported before a wrong value in front of it.
-/
set_option autoImplicit false

namespace Z80Asm.Command

/-- How much is reported while assembling. -/
inductive LogLevel where
  | error | warn | info | debug | trace
  deriving DecidableEq, Repr, Inhabited

namespace LogLevel

def all : List LogLevel :=
  [error, warn, info, debug, trace]

def name : LogLevel → String
  | error => "ERROR" | warn => "WARN" | info => "INFO" | debug => "DEBUG" | trace => "TRACE"

/-- Reads a name in any case, or a number from 1 on. -/
def ofText? (text : String) : Option LogLevel :=
  let numbered :=
    match Number.unsigned? 10 UInt64.size text.toList with
    | some (n + 1) => all[n]?
    | _ => none
  numbered.or (all.find? fun level => level.name == Text.upper text)

end LogLevel

/-- What the command line asks for. -/
structure Options where
  includeDirs : List String := []
  source : String
  object : Option String := none
  symbols : Option String := none
  logLevel : LogLevel := .warn
  deriving DecidableEq, Repr, Inhabited

/-- Why the command line leads to no run. -/
inductive Refusal where
  | help
  | version
  | missingOperand
  | unknownArgument
  /-- The value is missing, or it is an empty path. -/
  | invalidValue
  | invalidLevel
  /-- A flag that takes no value was given one. -/
  | unexpectedValue
  /-- An option that may be given once was given again. -/
  | repeated
  deriving DecidableEq, Repr, Inhabited

/-- The exit code of the program. Asking for help or for the version is no error. -/
def Refusal.exitCode : Refusal → Nat
  | help | version => 0
  | _ => 2

/-- What a value is for. -/
inductive Slot where
  | includeDir
  | logLevel
  | operand
  deriving DecidableEq, Repr, Inhabited

/-- What has been read of a command line. -/
structure Scan where
  includeDirs : List String := []
  logLevel : Option LogLevel := none
  operands : List String := []
  /-- The value that is not checked yet, or an option whose value is still to come. -/
  pending : Option (Slot × Option String) := none
  /-- Whether the next argument can be the value of the pending option. -/
  awaiting : Bool := false
  /-- Whether the options have ended. -/
  operandsOnly : Bool := false
  deriving Repr, Inhabited

/-- The number of operands that a command line can have. -/
def maxOperands : Nat := 3

namespace Scan

def nonEmpty (path : String) : Except Refusal String :=
  if path.isEmpty then .error .invalidValue else .ok path

/-- Checks the pending value and puts it where it belongs. -/
def settle (scan : Scan) : Except Refusal Scan := do
  let rest := { scan with pending := none, awaiting := false }
  match scan.pending with
  | none => return rest
  | some (_, none) => throw .invalidValue
  | some (.includeDir, some dir) =>
    return { rest with includeDirs := rest.includeDirs ++ [← nonEmpty dir] }
  | some (.operand, some path) =>
    return { rest with operands := rest.operands ++ [← nonEmpty path] }
  | some (.logLevel, some text) =>
    if rest.logLevel.isSome then throw .repeated
    match LogLevel.ofText? text with
    | some level => return { rest with logLevel := some level }
    | none => throw .invalidLevel

/-- An option begins, perhaps with its value attached. -/
def option (scan : Scan) (slot : Slot) (value : Option String) : Except Refusal Scan := do
  let scan ← scan.settle
  match value with
  | some _ => ({ scan with pending := some (slot, value) } : Scan).settle
  | none => return { scan with pending := some (slot, none), awaiting := true }

/-- A flag that ends the run. -/
def flag (scan : Scan) (refusal : Refusal) : Except Refusal Scan := do
  let _ ← scan.settle
  throw refusal

/-- A long option, without the dashes, and the value behind its `=`. -/
def long (scan : Scan) (name : String) (value : Option String) : Except Refusal Scan :=
  match name with
  | "include" => scan.option .includeDir value
  | "log-level" => scan.option .logLevel value
  | "help" => if value.isSome then .error .unexpectedValue else scan.flag .help
  | "version" => if value.isSome then .error .unexpectedValue else scan.flag .version
  | _ => .error .unknownArgument

/-- What follows the letter of a short option in the same argument. -/
def attached : List Char → Option String
  | [] => none
  | '=' :: value => some (String.ofList value)
  | value => some (String.ofList value)

/-- Short options, without the dash. All letters but `I` end the run. -/
def short (scan : Scan) : List Char → Except Refusal Scan
  | 'I' :: rest => scan.option .includeDir (attached rest)
  | 'h' :: _ => scan.flag .help
  | 'V' :: _ => scan.flag .version
  | _ => .error .unknownArgument

/-- The number of operands so far, with one that is not checked yet. -/
def operandCount (scan : Scan) : Nat :=
  scan.operands.length + (if scan.pending.any (·.1 == .operand) then 1 else 0)

def operand (scan : Scan) (text : String) : Except Refusal Scan := do
  if maxOperands ≤ scan.operandCount then throw .unknownArgument
  return { ← scan.settle with pending := some (.operand, some text) }

/-- A name and the value behind its first `=`. -/
def splitValue (cs : List Char) : String × Option String :=
  match cs.span (· != '=') with
  | (name, []) => (String.ofList name, none)
  | (name, _ :: value) => (String.ofList name, some (String.ofList value))

/-- Reads one argument. -/
def next (scan : Scan) (arg : String) : Except Refusal Scan :=
  if scan.operandsOnly then scan.operand arg
  else
    match arg.toList with
    | ['-', '-'] => .ok { scan with operandsOnly := true }
    | '-' :: '-' :: cs => scan.long (splitValue cs).1 (splitValue cs).2
    | '-' :: c :: cs => scan.short (c :: cs)
    | _ =>
      match scan.awaiting, scan.pending with
      | true, some (slot, _) => .ok { scan with pending := some (slot, some arg), awaiting := false }
      | _, _ => scan.operand arg

/-- What a finished command line asks for. -/
def finish (scan : Scan) : Except Refusal Options := do
  let scan ← scan.settle
  match scan.operands with
  | [] => throw .missingOperand
  | source :: outputs =>
    return {
      includeDirs := scan.includeDirs
      source
      object := outputs[0]?
      symbols := outputs[1]?
      logLevel := scan.logLevel.getD .warn }

end Scan

/-- Reads the arguments of a command line, without the name of the program. -/
def Options.ofArguments (args : List String) : Except Refusal Options := do
  (← args.foldlM Scan.next {}).finish

end Z80Asm.Command
