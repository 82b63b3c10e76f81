import LevelScript.Token
import LevelScript.Tree

/-!
# Operators and precedence

A chain of operands with binary operators between them is put into postfix order: an operator waits
on a stack until one that binds no tighter comes.
-/

namespace LevelScript

def Mark.binary? : Mark → Option Opcode
  | .plus => some .addition
  | .minus => some .subtraction
  | .star => some .multiplication
  | .slash => some .division
  | .percent => some .modulo
  | .hatHat => some .power
  | .shiftLeft => some .shiftLeft
  | .shiftRight => some .shiftRight
  | .ampersand => some .bitAnd
  | .pipe => some .bitOr
  | .hat => some .bitXor
  | .question => some .elvis
  | .equalEqual => some .equals
  | .notEqual => some .notEquals
  | .less => some .less
  | .greater => some .greater
  | .lessEqual => some .lessEqual
  | .greaterEqual => some .greaterEqual
  | .ampAmp => some .logicalAnd
  | .pipePipe => some .logicalOr
  | .equal => some .assign
  | .plusEqual => some .addAssign
  | .minusEqual => some .subAssign
  | .starEqual => some .mulAssign
  | .slashEqual => some .divAssign
  | .percentEqual => some .modAssign
  | .hatHatEqual => some .powAssign
  | .shiftLeftEqual => some .shlAssign
  | .shiftRightEqual => some .shrAssign
  | .ampEqual => some .andAssign
  | .pipeEqual => some .orAssign
  | .hatEqual => some .xorAssign
  | .questionEqual => some .elvisAssign
  | .minusArrow => some .cast
  | .tildeArrow => some .bitcast
  | _ => none

def Mark.prefix? : Mark → Option Opcode
  | .plusPlus => some .prefixIncrement
  | .minusMinus => some .prefixDecrement
  | .dollar => some .address
  | .hash => some .dereference
  | .plus => some .arithPlus
  | .minus => some .arithNegate
  | .bang => some .logicNegate
  | .tilde => some .binaryNegate
  | _ => none

def Opcode.precedence (op : Opcode) : Nat := (op.binary?.getD (0, false)).1

def Opcode.rightAssociative (op : Opcode) : Bool := (op.binary?.getD (0, false)).2

/-- Whether `top`, which waits on the stack, is complete once `op` follows. -/
def Opcode.yields (top op : Opcode) : Bool :=
  if op.rightAssociative then op.precedence < top.precedence else op.precedence ≤ top.precedence

/-- A binary operator between two operands, waiting for the right one. -/
structure Waiting where
  op : Opcode
  pos : Position

def Waiting.node (w : Waiting) : Node := .mk w.pos (.operator w.op)

/-- Puts `operand (operator operand)*` in postfix order, below the operators that wait. -/
def postfixRest : List Waiting → List (Waiting × List Node) → List Node
  | stack, [] => stack.map Waiting.node
  | stack, (w, operand) :: more =>
    let done := stack.takeWhile (·.op.yields w.op)
    done.map Waiting.node ++ operand
      ++ postfixRest (w :: stack.dropWhile (·.op.yields w.op)) more

def postfixOrder (first : List Node) (rest : List (Waiting × List Node)) : List Node :=
  first ++ postfixRest [] rest

end LevelScript
