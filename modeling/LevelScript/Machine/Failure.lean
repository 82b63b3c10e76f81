import LevelScript.Bytecode.Opcode
import LevelScript.SyntaxError
import LevelScript.Text.Escape
import LevelScript.Value

/-!
# Errors of a running script

An error has a cause, and the calls that were open when it arose, the innermost first.
-/

namespace LevelScript

inductive ErrorKind where
  | grammar | runtime | fault | thrown
  deriving Repr, DecidableEq

/-- Why a script stopped. Names and types are given as they are shown. -/
inductive Cause where
  | grammar (e : SyntaxError)
  | fault (addr : UInt64)
  | thrown (value : Variable) (text : String)
  | badType (text : String)
  -- names
  | variableNotFound (name : String)
  | variableExists (name : String)
  | symbolNotFound (name : String)
  | fileNotFound (path : String)
  | fieldNotFound (name : String)
  | fieldMissing (name : String)
  | inlineFieldAssigned (name : String)
  | parameterNotFound (name : String)
  | parameterNotAType (name : String)
  | parameterCaptured (name : String)
  | parameterRepeated (name : String)
  -- limits
  | stackOverflow (max : Nat)
  | expressionOverflow (max : Nat)
  | cannotAllocate (size : UInt64)
  | tooManyElements (count : UInt64)
  -- values of the wrong kind
  | notAType
  | notAFunction
  | notAStruct
  | notAnIntegerType
  | notAllocated
  | notFunctionOrStruct
  | notDereferencable (type : String)
  | arraySizeNotInteger
  | levelNotInteger
  | indexNotInteger
  | inlineCountNotInteger
  | offsetNotInteger
  | codeOnNonFunction
  | emptyFunction
  | scalarFunction
  | temporaryAddress
  -- operators
  | operandMismatch (shape : String)
  | missingOperand
  | needsIntegers (op : Opcode)
  | unexpectedOperator (op : Opcode)
  | divisionByZero
  | nullDereference
  | structUnset
  -- calls
  | callNonFunction
  | callUnset
  | argumentCount (atLeast : Bool) (expected got : Nat)
  | nativeAssignable
  | noReturn
  | returnNotAssignable
  | returnTypesDiffer (got expected : String)
  | noVarargs
  | varargOutOfBounds
  -- form
  | expectedValue
  | unknownKind
  | unexpectedNode (op : Opcode)
  | unexpectedCommand (op : Opcode)
  | continueOutside
  | breakOutside
  deriving Repr, DecidableEq

namespace Cause

def kind : Cause → ErrorKind
  | grammar _ => .grammar
  | fault _ => .fault
  | thrown .. => .thrown
  | _ => .runtime

def message : Cause → String
  | grammar e => e.message
  | fault addr => "Invalid memory access at 0x" ++ hexDigits addr.toNat
  | thrown _ text => text
  | badType text => text
  | variableNotFound name => "Variable '" ++ name ++ "' not found"
  | variableExists name => "Variable '" ++ name ++ "' already exists in the current scope"
  | symbolNotFound name => "Cannot find symbol '" ++ name ++ "'"
  | fileNotFound path => "File '" ++ path ++ "' not found"
  | fieldNotFound name => "Field '" ++ name ++ "' not found"
  | fieldMissing name => "Field '" ++ name ++ "' doesn't exist"
  | inlineFieldAssigned name => "Cannot assign to inline field '" ++ name ++ "'"
  | parameterNotFound name => "Parameter '" ++ name ++ "' not found"
  | parameterNotAType name => "Parameter '" ++ name ++ "' is not a type"
  | parameterCaptured name => "Cannot create parameter '" ++ name
      ++ "' because a variable of the same name was captured"
  | parameterRepeated name => "Duplicate parameter name '" ++ name ++ "'"
  | stackOverflow max => "Stack overflow (max " ++ Nat.repr max ++ " frames)"
  | expressionOverflow max => "Expression stack overflow (max " ++ Nat.repr max ++ " values)"
  | cannotAllocate size => "Cannot allocate " ++ Nat.repr size.toNat ++ " bytes"
  | tooManyElements count => "Cannot allocate " ++ Nat.repr count.toNat ++ " elements"
  | notAType => "Not a type"
  | notAFunction => "Not a function"
  | notAStruct => "Not a struct"
  | notAnIntegerType => "Not an integer type"
  | notAllocated => "Not a pointer, struct or function"
  | notFunctionOrStruct => "Not a function or struct"
  | notDereferencable type => "Type " ++ type ++ " is not a pointer or a function"
  | arraySizeNotInteger => "Array size is not an integer"
  | levelNotInteger => "Level is not an integer"
  | indexNotInteger => "Index must be an integer"
  | inlineCountNotInteger => "Inline count is not an integer"
  | offsetNotInteger => "Field offset is not an integer"
  | codeOnNonFunction => "Cannot attach code to a non-function variable"
  | emptyFunction => "Allocating an empty function"
  | scalarFunction => "Cannot allocate a function using the scalar initializer"
  | temporaryAddress => "Cannot take the address of a temporary value"
  | operandMismatch shape => "Operand type mismatch " ++ shape
  | missingOperand => "Missing operand"
  | needsIntegers op => "Operator '" ++ op.symbol ++ "' needs integers"
  | unexpectedOperator op => "Unexpected operator '" ++ op.symbol ++ "'"
  | divisionByZero => "Division by zero"
  | nullDereference => "Null pointer dereference"
  | structUnset => "Struct is unset"
  | callNonFunction => "Attempt to call a non-function value"
  | callUnset => "Calling an unset function"
  | argumentCount atLeast expected got => "Non-matching number of arguments (expected "
      ++ (if atLeast then ">=" else "") ++ Nat.repr expected ++ ", got " ++ Nat.repr got ++ ")"
  | nativeAssignable => "Cannot call a native assignable function"
  | noReturn => "No return specified in a non-void return function"
  | returnNotAssignable => "Return value is not assignable"
  | returnTypesDiffer got expected => "Types " ++ got ++ " and " ++ expected ++ " aren't the same"
  | noVarargs => "No varargs available in current context"
  | varargOutOfBounds => "Vararg index out of bounds"
  | expectedValue => "Expected a value"
  | unknownKind => "Unknown type kind"
  | unexpectedNode op => "Unexpected node '" ++ op.name ++ "'"
  | unexpectedCommand op => "Unexpected command '" ++ op.name ++ "'"
  | continueOutside => "'continue' outside of loop"
  | breakOutside => "'break' outside of loop"

end Cause

structure TraceFrame where
  name : String
  file : String
  row : Int
  col : Int
  deriving Repr, DecidableEq

structure RunError where
  cause : Cause
  frames : List TraceFrame := []
  deriving Repr, DecidableEq

namespace RunError

def kind (e : RunError) : ErrorKind := e.cause.kind

def message (e : RunError) : String := e.cause.message

def payload? (e : RunError) : Option Variable :=
  match e.cause with
  | .thrown value _ => some value
  | _ => none

def span? (e : RunError) : Option Span :=
  match e.cause with
  | .grammar e => some e.span
  | _ => none

/-- A syntax error stands in the file and has no calls around it. -/
def ofSyntax (e : SyntaxError) : RunError :=
  { cause := .grammar e, frames := [⟨"<syntax>", e.file, e.row, e.col⟩] }

/-- The message, and a line for each call. -/
def report (e : RunError) : String :=
  let place (f : TraceFrame) : String := "(" ++ toString f.row ++ ":" ++ toString f.col ++ ")"
  let call (f : TraceFrame) : String := "\n  in " ++ f.name ++ " at " ++ f.file ++ " " ++ place f
  "Error: " ++ e.message ++ String.join (e.frames.map call)

end RunError

end LevelScript
