import Z80Asm.Expr.Basic

/-!
# Causes of failure

Every way in which assembling can fail, with the values that the message mentions. `Cause.kind`
groups them and `Cause.message` is the only place where they are worded.
-/
set_option autoImplicit false

namespace Z80Asm

/-- The groups of failures. -/
inductive ErrorKind where
  | syntactic | expression | argument | symbolNotFound | addressNotInitialized | addressAlreadySet
  | errorDirective | assembly | file
  deriving DecidableEq, Repr, Inhabited

def ErrorKind.label : ErrorKind → String
  | syntactic => "syntax error"
  | expression => "expression error"
  | argument => "argument error"
  | symbolNotFound => "symbol not found"
  | addressNotInitialized => "address not initialized"
  | addressAlreadySet => "address already set"
  | errorDirective => "error directive"
  | assembly => "assembly error"
  | file => "i/o error"

/-- The two kinds of brackets in expressions. -/
inductive Bracket where
  | paren | square
  deriving DecidableEq, Repr, Inhabited

def Bracket.closer : Bracket → Char
  | paren => ')'
  | square => ']'

/-- Why a file could not be read or written. -/
inductive FileError where
  | nulInName | notFound | notDirectory | isDirectory | nameTooLong
  deriving DecidableEq, Repr, Inhabited

def FileError.message : FileError → String
  | nulInName => "file name contained an unexpected NUL byte"
  | notFound => "No such file or directory (os error 2)"
  | notDirectory => "Not a directory (os error 20)"
  | isDirectory => "Is a directory (os error 21)"
  | nameTooLong => "File name too long (os error 36)"

inductive Cause where
  -- Reading characters
  | unexpectedChar (c : Char)
  | unterminatedString
  | unterminatedChar
  | charLength
  | charRange
  | invalidEscape (c : Char)
  | invalidNumber (text : String)
  -- Building expressions
  | operatorExpected
  | missingOperand
  | colonWithoutQuestion
  | questionWithoutColon
  | unexpectedClose (bracket : Bracket)
  | missingClose (bracket : Bracket)
  | unbalancedBrackets
  | memberNotName
  | annotationNotName
  -- Evaluating expressions
  | recursiveReference
  | divisionByZero
  | moduloByZero
  | memberOfValue (name : String)
  | indexOutOfRange (position : Int64)
  | notInteger (e : Expr)
  | notString (e : Expr)
  | symbolNotFound (name : String)
  | addressNotInitialized
  -- Scopes
  | missingSymbolName
  | duplicateSymbol (name : String)
  | addressAlreadySet (address : UInt32)
  | noEnclosingScope
  -- Block structure and files
  | unexpectedTerminator (mnemonic : String)
  | missingTerminator (names : List String)
  | missingFileName
  | fileNotFound (name : String)
  | includeTooDeep (name : String)
  | unreadable (reason : FileError) (path : String)
  | unwritable (reason : FileError) (path : String)
  | imageUnwritable (address : UInt32) (path : String)
  -- Labels and expansion
  | missingLabel (mnemonic : Option String)
  | missingValue (label : Option String)
  | invalidParameter (e : Expr)
  | unknownInstruction (mnemonic : String)
  | notInstruction (mnemonic : String)
  | expansionTooDeep (mnemonic : String)
  | missingBody (mnemonic : Option String)
  | tooManyArguments (template : String)
  | missingArgument (parameter : String)
  | missingCount
  | negativeCount (count : Int64)
  | missingVariable
  | invalidVariable (e : Expr)
  | missingCondition
  | missingSpace
  | notSpace (e : Expr)
  -- Placement
  | missingSize
  | invalidSize (size : Int64)
  | missingAddress
  | invalidAddress (address : Int64)
  | rangeOutsideFile (offset length : Int64)
  | sectionTooLarge (used size : UInt32)
  | addressOutOfRange (address : UInt32)
  | spaceNeverPlaced
  -- Instructions
  | invalidOperands (mnemonic : String) (arguments : Option Expr)
  | mixedIndex (mnemonic : String)
  | indexNotAllowed (mnemonic : String)
  | registerCombination (mnemonic : String)
  | operandCombination (mnemonic : String)
  | missingOperandValue (mnemonic : String)
  | invalidRegister (mnemonic : String)
  | invalidPair (mnemonic : String)
  | invalidCondition (mnemonic : String)
  | bitRange (bit : Int64)
  | restartAddress (address : Int64)
  | interruptMode (mode : Int64)
  | notZero (value : Int64)
  | displacementRange (offset : Int64)
  | jumpRange (offset : Int64)
  -- Generation
  | valueRange (value : Int64)
  | dataSizeChanged
  | instructionSizeChanged (mnemonic : String)
  | directive (message : Option String)
  deriving Repr, Inhabited

namespace Cause

def kind : Cause → ErrorKind
  | unexpectedChar _ | unterminatedString | unterminatedChar | charLength | charRange
  | invalidEscape _ | invalidNumber _ => .syntactic
  | operatorExpected | missingOperand | colonWithoutQuestion | questionWithoutColon
  | unexpectedClose _ | missingClose _ | unbalancedBrackets | memberNotName
  | annotationNotName | recursiveReference | divisionByZero | moduloByZero => .expression
  | memberOfValue _ | indexOutOfRange _ | notInteger _ | notString _ | missingSymbolName
  | missingFileName | missingLabel _ | missingValue _ | invalidParameter _
  | unknownInstruction _ | notInstruction _ | tooManyArguments _ | missingArgument _
  | missingCount | negativeCount _ | missingVariable | invalidVariable _ | missingCondition
  | missingSpace | notSpace _ | missingSize | invalidSize _ | missingAddress
  | invalidAddress _ | rangeOutsideFile _ _ | invalidOperands _ _ | mixedIndex _
  | indexNotAllowed _ | registerCombination _ | operandCombination _ | missingOperandValue _
  | invalidRegister _ | invalidPair _ | invalidCondition _ | bitRange _ | restartAddress _
  | interruptMode _ | notZero _ | displacementRange _ | jumpRange _ | valueRange _ => .argument
  | symbolNotFound _ => .symbolNotFound
  | addressNotInitialized => .addressNotInitialized
  | addressAlreadySet _ => .addressAlreadySet
  | directive _ => .errorDirective
  | duplicateSymbol _ | noEnclosingScope | unexpectedTerminator _ | missingTerminator _
  | includeTooDeep _ | expansionTooDeep _ | missingBody _ | sectionTooLarge _ _
  | addressOutOfRange _ | spaceNeverPlaced | dataSizeChanged
  | instructionSizeChanged _ => .assembly
  | fileNotFound _ | unreadable _ _ | unwritable _ _ | imageUnwritable _ _ => .file

/-- A message with the thing it is about, if there is one. -/
def withSubject (text : String) : Option String → String
  | some subject => text ++ ": " ++ subject
  | none => text

/-- Message about a number. -/
def withNumber (text : String) (v : Int64) : String :=
  text ++ ": " ++ toString v.toInt

def message : Cause → String
  | unexpectedChar c => "Unexpected character '" ++ String.singleton c ++ "'"
  | unterminatedString => "Unterminated string"
  | unterminatedChar => "Unterminated character literal"
  | charLength => "Character literal must contain exactly one character"
  | charRange => "Character outside the 8-bit range"
  | invalidEscape c => "Invalid escape sequence '\\" ++ String.singleton c ++ "'"
  | invalidNumber text => "Invalid number: " ++ text
  | operatorExpected => "Operator expected"
  | missingOperand => "Missing operand"
  | colonWithoutQuestion => "':' without matching '?'"
  | questionWithoutColon => "'?' without matching ':'"
  | unexpectedClose bracket => "Unexpected '" ++ String.singleton bracket.closer ++ "'"
  | missingClose bracket => "Missing '" ++ String.singleton bracket.closer ++ "'"
  | unbalancedBrackets => "Unbalanced brackets"
  | memberNotName => "Member access requires an identifier"
  | annotationNotName => "Annotation requires an identifier"
  | recursiveReference => "Recursive symbol reference"
  | divisionByZero => "Division by zero"
  | moduloByZero => "Modulo by zero"
  | memberOfValue name => "Member access on a non-context value: " ++ name
  | indexOutOfRange position => withNumber "Index out of range" position
  | notInteger e => "Not an integer: " ++ e.display
  | notString e => "Not a string: " ++ e.display
  | symbolNotFound name => "Symbol not found: " ++ name
  | addressNotInitialized => "Address not initialized"
  | missingSymbolName => "Missing symbol name"
  | duplicateSymbol name => "Duplicate symbol: " ++ name
  | addressAlreadySet address =>
    "Address already set: " ++ Text.hexLiteral (Int64.ofNat address.toNat)
  | noEnclosingScope => "Line without enclosing scope"
  | unexpectedTerminator mnemonic => "Unexpected block terminator: " ++ mnemonic
  | missingTerminator names => "Missing block terminator: " ++ String.intercalate " or " names
  | missingFileName => "Missing file name"
  | fileNotFound name => "File not found: " ++ name
  | includeTooDeep name => "Include too deep: " ++ name
  | unreadable reason path => reason.message ++ ": " ++ path
  | unwritable reason path => reason.message ++ ": " ++ path
  | imageUnwritable address path =>
    "Address " ++ Text.hex address.toNat ++ "H out of 16-bit range: " ++ path
  | missingLabel mnemonic => withSubject "Missing label" mnemonic
  | missingValue label => withSubject "Missing value" label
  | invalidParameter e => "Invalid macro parameter: " ++ e.display
  | unknownInstruction mnemonic => "Unknown instruction: " ++ mnemonic
  | notInstruction mnemonic => "Not an instruction: " ++ mnemonic
  | expansionTooDeep mnemonic => "Expansion too deep: " ++ mnemonic
  | missingBody mnemonic => withSubject "Block statement without body" mnemonic
  | tooManyArguments template => "Too many arguments: " ++ template
  | missingArgument parameter => "Missing argument: " ++ parameter
  | missingCount => "Missing repeat count"
  | negativeCount count => withNumber "Negative repeat count" count
  | missingVariable => "Missing repeat variable"
  | invalidVariable e => "Invalid repeat variable: " ++ e.display
  | missingCondition => "Missing condition"
  | missingSpace => "Missing section space"
  | notSpace e => "Section target is not a DS space: " ++ e.display
  | missingSize => "Missing size"
  | invalidSize size => withNumber "Invalid size" size
  | missingAddress => "Missing address"
  | invalidAddress address => withNumber "Invalid address" address
  | rangeOutsideFile offset length =>
    withNumber "Range outside of file" offset ++ ", " ++ toString length.toInt
  | sectionTooLarge used size =>
    "Section size exceeds space: " ++ toString used.toNat ++ " > " ++ toString size.toNat
  | addressOutOfRange address => "Address out of range: " ++ Text.hex address.toNat ++ "H"
  | spaceNeverPlaced => "Section space was never placed"
  | invalidOperands mnemonic arguments =>
    "Invalid operands: " ++ mnemonic ++ " " ++ (arguments.map Expr.display).getD ""
  | mixedIndex mnemonic => "Cannot combine IX and IY: " ++ mnemonic
  | indexNotAllowed mnemonic => "Index register not allowed: " ++ mnemonic
  | registerCombination mnemonic => "Invalid register combination: " ++ mnemonic
  | operandCombination mnemonic => "Invalid operand combination: " ++ mnemonic
  | missingOperandValue mnemonic => "Missing operand value: " ++ mnemonic
  | invalidRegister mnemonic => "Invalid register: " ++ mnemonic
  | invalidPair mnemonic => "Invalid register pair: " ++ mnemonic
  | invalidCondition mnemonic => "Invalid condition: " ++ mnemonic
  | bitRange bit => withNumber "Bit number out of range" bit
  | restartAddress address => withNumber "Invalid restart address" address
  | interruptMode mode => withNumber "Invalid interrupt mode" mode
  | notZero value => withNumber "Value must be zero" value
  | displacementRange offset => withNumber "Index offset out of range" offset
  | jumpRange offset => withNumber "Relative jump out of range" offset
  | valueRange value => withNumber "Value out of range" value
  | dataSizeChanged => "Data size changed after resolve"
  | instructionSizeChanged mnemonic => "Instruction size changed after resolve: " ++ mnemonic
  | directive message => message.getD "Error directive"

end Cause

end Z80Asm
