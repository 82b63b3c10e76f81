/-!
# Opcodes

Every node of the bytecode starts with an opcode. Some of them are operators, which have a symbol
and a written shape; the binary ones also have a precedence.
-/

namespace LevelScript

inductive Opcode where
  | endMark
  -- commands
  | ifElse | whileLoop | forLoop | returnValue | continueLoop | breakLoop | tryCatch
  | throwValue | codeblock | expression
  -- suffix operators
  | constType | suffixIncrement | suffixDecrement | pointerType | index | call | functionType
  | getSize | getLength | getScope | member
  -- prefix operators
  | prefixIncrement | prefixDecrement | address | dereference | arithPlus | arithNegate
  | logicNegate | binaryNegate
  -- operands
  | integer | float | text | typeLiteral | truth | null | variableRef | paren | deferName
  | varargs | sizeOf | typeOf | scopeOf | newValue | deleteValue | moveValue | ternary
  | declare | includeFile
  -- binary operators
  | power | multiplication | division | modulo | addition | subtraction | shiftLeft
  | shiftRight | elvis | less | greater | lessEqual | greaterEqual | equals | notEquals
  | bitAnd | bitOr | bitXor | logicalAnd | logicalOr | assign | addAssign | subAssign
  | mulAssign | divAssign | powAssign | modAssign | shlAssign | shrAssign | andAssign
  | orAssign | xorAssign | elvisAssign | cast | bitcast
  deriving Repr, DecidableEq, Inhabited

namespace Opcode

/-- Every opcode, at the index of its code. -/
def all : Array Opcode := #[
  endMark, ifElse, whileLoop, forLoop, returnValue, continueLoop, breakLoop, tryCatch,
  throwValue, codeblock, expression, constType, suffixIncrement, suffixDecrement, pointerType,
  index, call, functionType, getSize, getLength, getScope, member, prefixIncrement,
  prefixDecrement, address, dereference, arithPlus, arithNegate, logicNegate, binaryNegate,
  integer, float, text, typeLiteral, truth, null, variableRef, paren, deferName, varargs,
  sizeOf, typeOf, scopeOf, newValue, deleteValue, moveValue, ternary, declare, includeFile,
  power, multiplication, division, modulo, addition, subtraction, shiftLeft, shiftRight, elvis,
  less, greater, lessEqual, greaterEqual, equals, notEquals, bitAnd, bitOr, bitXor, logicalAnd,
  logicalOr, assign, addAssign, subAssign, mulAssign, divAssign, powAssign, modAssign,
  shlAssign, shrAssign, andAssign, orAssign, xorAssign, elvisAssign, cast, bitcast]

def code (op : Opcode) : UInt8 := op.ctorIdx.toUInt8

def ofCode? (code : UInt8) : Option Opcode := all[code.toNat]?

theorem ofCode?_code (op : Opcode) : ofCode? op.code = some op := by cases op <;> rfl

def name : Opcode → String
  | endMark => "End"
  | ifElse => "If"
  | whileLoop => "While"
  | forLoop => "For"
  | returnValue => "Return"
  | continueLoop => "Continue"
  | breakLoop => "Break"
  | tryCatch => "Try"
  | throwValue => "Throw"
  | codeblock => "Codeblock"
  | expression => "Expr"
  | constType => "Const"
  | suffixIncrement => "SuffixIncrement"
  | suffixDecrement => "SuffixDecrement"
  | pointerType => "Pointer"
  | index => "Array"
  | call => "Call"
  | functionType => "Function"
  | getSize => "GetSize"
  | getLength => "GetLength"
  | getScope => "GetScope"
  | member => "WalkStruct"
  | prefixIncrement => "PrefixIncrement"
  | prefixDecrement => "PrefixDecrement"
  | address => "Address"
  | dereference => "Dereference"
  | arithPlus => "ArithPlus"
  | arithNegate => "ArithNegate"
  | logicNegate => "LogicNegate"
  | binaryNegate => "BinaryNegate"
  | integer => "Integer"
  | float => "Float"
  | text => "String"
  | typeLiteral => "Type"
  | truth => "Truthy"
  | null => "Null"
  | variableRef => "Variable"
  | paren => "Paren"
  | deferName => "Defer"
  | varargs => "Varargs"
  | sizeOf => "Sizeof"
  | typeOf => "Typeof"
  | scopeOf => "Scopeof"
  | newValue => "New"
  | deleteValue => "Delete"
  | moveValue => "Move"
  | ternary => "Ternary"
  | declare => "Decl"
  | includeFile => "Include"
  | power => "Power"
  | multiplication => "Multiplication"
  | division => "Division"
  | modulo => "Modulo"
  | addition => "Addition"
  | subtraction => "Subtraction"
  | shiftLeft => "ShiftLeft"
  | shiftRight => "ShiftRight"
  | elvis => "Elvis"
  | less => "Less"
  | greater => "Greater"
  | lessEqual => "LessEqual"
  | greaterEqual => "GreaterEqual"
  | equals => "Equals"
  | notEquals => "NotEquals"
  | bitAnd => "BitAnd"
  | bitOr => "BitOr"
  | bitXor => "BitXor"
  | logicalAnd => "LogicalAnd"
  | logicalOr => "LogicalOr"
  | assign => "Assign"
  | addAssign => "AddAssign"
  | subAssign => "SubAssign"
  | mulAssign => "MulAssign"
  | divAssign => "DivAssign"
  | powAssign => "PowAssign"
  | modAssign => "ModAssign"
  | shlAssign => "ShlAssign"
  | shrAssign => "ShrAssign"
  | andAssign => "AndAssign"
  | orAssign => "OrAssign"
  | xorAssign => "XorAssign"
  | elvisAssign => "ElvisAssign"
  | cast => "Cast"
  | bitcast => "Bitcast"

/-- Precedence of a binary operator, and whether it associates to the right. -/
def binary? : Opcode → Option (Nat × Bool)
  | cast | bitcast => some (14, false)
  | power => some (13, false)
  | multiplication | division | modulo => some (12, false)
  | addition | subtraction => some (11, false)
  | shiftLeft | shiftRight => some (10, false)
  | less | greater | lessEqual | greaterEqual => some (9, false)
  | equals | notEquals => some (8, false)
  | bitAnd => some (7, false)
  | bitXor => some (6, false)
  | bitOr => some (5, false)
  | logicalAnd => some (4, false)
  | logicalOr => some (3, false)
  | elvis => some (2, false)
  | assign | addAssign | subAssign | mulAssign | divAssign | powAssign | modAssign | shlAssign
  | shrAssign | andAssign | orAssign | xorAssign | elvisAssign => some (1, true)
  | _ => none

def compoundBase? : Opcode → Option Opcode
  | addAssign => some addition
  | subAssign => some subtraction
  | mulAssign => some multiplication
  | divAssign => some division
  | powAssign => some power
  | modAssign => some modulo
  | shlAssign => some shiftLeft
  | shrAssign => some shiftRight
  | andAssign => some bitAnd
  | orAssign => some bitOr
  | xorAssign => some bitXor
  | elvisAssign => some elvis
  | _ => none

inductive Shape where
  | before | behind | between | brackets | parens | arrow | query
  deriving Repr, DecidableEq

def Shape.name : Shape → String
  | before => "Prefix"
  | behind => "Suffix"
  | between => "Binary"
  | brackets => "Array"
  | parens => "Call"
  | arrow => "Function"
  | query => "Member"

/-- The shape of an operator; `none` for commands and operands. -/
def shape? (op : Opcode) : Option Shape :=
  if op.binary?.isSome then some .between
  else match op with
  | prefixIncrement | prefixDecrement | address | dereference | arithPlus | arithNegate
  | logicNegate | binaryNegate => some .before
  | constType | suffixIncrement | suffixDecrement | pointerType | member => some .behind
  | index => some .brackets
  | call => some .parens
  | functionType => some .arrow
  | getSize | getLength | getScope => some .query
  | _ => none

def isOperator (op : Opcode) : Bool := op.shape?.isSome

def symbol : Opcode → String
  | cast => "->"
  | bitcast => "~>"
  | power => "^^"
  | multiplication => "*"
  | division => "/"
  | modulo => "%"
  | addition | arithPlus => "+"
  | subtraction | arithNegate => "-"
  | shiftLeft => "<<"
  | shiftRight => ">>"
  | less => "<"
  | greater => ">"
  | lessEqual => "<="
  | greaterEqual => ">="
  | equals => "=="
  | notEquals => "!="
  | bitAnd => "&"
  | bitXor => "^"
  | bitOr => "|"
  | logicalAnd => "&&"
  | logicalOr => "||"
  | elvis => "?"
  | assign => "="
  | addAssign => "+="
  | subAssign => "-="
  | mulAssign => "*="
  | divAssign => "/="
  | powAssign => "^^="
  | modAssign => "%="
  | shlAssign => "<<="
  | shrAssign => ">>="
  | andAssign => "&="
  | orAssign => "|="
  | xorAssign => "^="
  | elvisAssign => "?="
  | prefixIncrement | suffixIncrement => "++"
  | prefixDecrement | suffixDecrement => "--"
  | address => "$"
  | dereference | pointerType => "#"
  | logicNegate => "!"
  | binaryNegate => "~"
  | constType => " const"
  | member => "."
  | index => "["
  | call => "("
  | functionType => "<-"
  | getSize => "::size"
  | getLength => "::length"
  | getScope => "::scope"
  | _ => "?"

end Opcode

/-- How a function holds on to the variables around it. -/
inductive Capture where
  | nothing
  /-- The function and its creator use the same variables. -/
  | shared
  /-- Every call starts from copies made when the function was created. -/
  | copyPerCall
  /-- All calls share one set of copies made when the function was created. -/
  | copyOnce
  deriving Repr, DecidableEq, Inhabited

namespace Capture

def code (c : Capture) : UInt8 := c.ctorIdx.toUInt8

/-- Unknown codes mean no capture. -/
def ofCode (code : UInt8) : Capture :=
  (#[nothing, shared, copyPerCall, copyOnce][code.toNat]?).getD nothing

def name : Capture → String
  | nothing => "None"
  | shared => "Shared"
  | copyPerCall => "CopyPerCall"
  | copyOnce => "CopyOnce"

end Capture

inductive AllocForm where
  | bare | scalar | struct | function | array
  deriving Repr, DecidableEq, Inhabited

namespace AllocForm

def code (f : AllocForm) : UInt8 := f.ctorIdx.toUInt8

/-- Unknown codes mean no initial value. -/
def ofCode (code : UInt8) : AllocForm :=
  (#[bare, scalar, struct, function, array][code.toNat]?).getD bare

def name : AllocForm → String
  | bare => "None"
  | scalar => "Scalar"
  | struct => "Struct"
  | function => "Function"
  | array => "Array"

end AllocForm

end LevelScript
