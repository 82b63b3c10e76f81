import LevelScript.Bytecode.Opcode
import LevelScript.Types.Kind

/-!
# Programs as trees

A command or an expression with all that belongs to it. Expressions are kept in postfix order: an
operator stands behind its operands, and a prefix operator behind everything it applies to.
-/

namespace LevelScript

structure Position where
  row : Nat
  col : Nat
  deriving Repr, DecidableEq, Inhabited

mutual

/-- Nodes in postfix order. -/
inductive Expr where
  | mk (nodes : List Node)

inductive Node where
  | mk (pos : Position) (form : Form)

/-- What a node of an expression does. -/
inductive Form where
  | integer (value : UInt64)
  | float (bits : UInt64)
  | text (value : String)
  | variableRef (name : String)
  | truth (value : Bool)
  | null
  | paren (inner : Expr)
  | deferName (name : String)
  | varargs (index : Expr)
  | varargCount
  | sizeOf (inner : Expr)
  | typeOf (inner : Expr)
  | deleteValue (inner : Expr)
  | scopeHere
  | scopeOf (name : String)
  | newValue (scope : Bool) (type : Expr) (init : Init)
  | moveValue (target level : Expr)
  | ternary (condition yes no : Expr)
  | includeFile (path : String)
  | baseType (isConst : Bool) (kind : Kind) (unsigned : Bool)
  | structType (isConst : Bool) (base : Option Expr) (fields : List FieldTree)
  | declare (external : Bool) (name : String) (generics : List Binding) (body : BodyTree)
  /-- An operator whose operands are all in front of it. -/
  | operator (op : Opcode)
  /-- An operator written as `::` and a name. -/
  | query (op : Opcode) (name : String)
  | call (args : List Expr)
  | index (inner : Expr)
  | member (name : String)
  | functionType (assignable : Bool) (params : List ParamTree)

inductive Init where
  | bare
  | scalar (value : Expr)
  | struct (overrides : List Binding)
  | function (capture : Capture) (body : Block)
  | array (count : Expr) (elements : List Expr)

inductive Binding where
  | mk (name : String) (value : Expr)

inductive ParamTree where
  | mk (type : Expr) (name : Option String)

inductive BodyTree where
  | absent
  | code (capture : Capture) (body : Block)

inductive FieldTree where
  | mk (pos : Position) (inlined : Inlined) (type : Expr) (name : Option String)
    (value : FieldValue) (placement : Placement)

inductive Inlined where
  | no
  | once
  | times (count : Expr)

inductive FieldValue where
  | absent
  | value (init : Expr)
  | method (capture : Capture) (body : Block)

/-- Where a field is put, if not behind the one before it. -/
inductive Placement where
  | auto
  | absolute (offset : Expr)
  | relative (offset : Expr)

inductive Command where
  | mk (pos : Position) (form : CommandForm)

inductive CommandForm where
  | ifElse (condition : Expr) (yes : Block) (no : Option Block)
  | whileLoop (condition : Expr) (body : Block)
  | forLoop (type : Expr) (name : String) (low : Expr) (lowExcluded : Bool) (high : Expr)
    (highExcluded : Bool) (step : Option Expr) (body : Block)
  | returnValue (value : Option Expr)
  | continueLoop
  | breakLoop
  | tryCatch (body : Block) (handler : Handler)
  | throwValue (value : Expr) (message : Option String)
  | codeblock (body : Block)
  | expression (value : Expr)

inductive Handler where
  | absent
  | handle (silently : Bool) (name : Option String) (body : Block)

/-- Commands that belong together. -/
inductive Block where
  | mk (commands : List Command)

end

instance : Inhabited Expr := ⟨.mk []⟩

structure Program where
  file : String
  commands : List Command

end LevelScript
