import LevelScript.Bytecode.Writer
import LevelScript.Tree

/-!
# From trees to bytecode

Every node is its opcode, row, column and operands; an expression ends in an end mark, and commands
that belong together form a block. Names join the pool in the order in which they are written.
-/

namespace LevelScript

/-- Bytecode in the making, and the pool its names are in. -/
structure Emitter where
  writer : Writer := {}
  names : Names

namespace Emitter

def write (e : Emitter) (f : Writer → Writer) : Emitter := { e with writer := f e.writer }

def op (e : Emitter) (op : Opcode) (pos : Position) : Emitter :=
  e.write (·.op op pos.row pos.col)

def u8 (e : Emitter) (n : UInt8) : Emitter := e.write (·.u8 n)

def bool (e : Emitter) (b : Bool) : Emitter := e.write (·.bool b)

def u64 (e : Emitter) (n : UInt64) : Emitter := e.write (·.u64 n)

def endMark (e : Emitter) : Emitter := e.write (·.endMark)

def push (e : Emitter) : Emitter := e.write (·.push)

def pop (e : Emitter) : Emitter := e.write (·.pop)

def know (e : Emitter) (name : String) : Emitter := { e with names := (e.names.intern name).2 }

def name (e : Emitter) (name : String) : Emitter :=
  let (id, names) := e.names.intern name
  ⟨e.writer.name id, names⟩

/-- A flag, and the name if there is one. -/
def optName (e : Emitter) : Option String → Emitter
  | none => e.bool false
  | some n => (e.bool true).name n

end Emitter

mutual

def Expr.emit : Expr → Emitter → Emitter
  | .mk nodes, e => (emitNodes nodes e).endMark

def emitNodes : List Node → Emitter → Emitter
  | [], e => e
  | node :: nodes, e => emitNodes nodes (node.emit e)

def Node.emit : Node → Emitter → Emitter
  | .mk pos form, e => form.emit pos e

def Form.emit (pos : Position) : Form → Emitter → Emitter
  | .integer value, e => (e.op .integer pos).u64 value
  | .float bits, e => (e.op .float pos).u64 bits
  | .text value, e => (e.op .text pos).name value
  | .variableRef name, e => (e.op .variableRef pos).name name
  | .truth value, e => (e.op .truth pos).bool value
  | .null, e => e.op .null pos
  | .paren inner, e => inner.emit (e.op .paren pos)
  | .deferName name, e => (e.op .deferName pos).name name
  | .varargs index, e => index.emit (e.op .varargs pos)
  | .varargCount, e => (e.op .sizeOf pos).bool true
  | .sizeOf inner, e => inner.emit ((e.op .sizeOf pos).bool false)
  | .typeOf inner, e => inner.emit (e.op .typeOf pos)
  | .deleteValue inner, e => inner.emit (e.op .deleteValue pos)
  | .scopeHere, e => (e.op .scopeOf pos).bool false
  | .scopeOf name, e => ((e.op .scopeOf pos).bool true).name name
  | .newValue scope type init, e =>
    init.emit (type.emit ((e.op .newValue pos).bool scope))
  | .moveValue target level, e => level.emit (target.emit (e.op .moveValue pos))
  | .ternary condition yes no, e =>
    let e := (yes.emit (condition.emit (e.op .ternary pos)).push).pop
    (no.emit e.push).pop
  | .includeFile path, e => (e.op .includeFile pos).name path
  | .baseType isConst kind unsigned, e =>
    (((e.op .typeLiteral pos).bool isConst).u8 kind.code).bool unsigned
  | .structType isConst none fields, e =>
    (emitFields fields
      ((((e.op .typeLiteral pos).bool isConst).u8 Kind.struct.code).bool false)).bool false
  | .structType isConst (some base) fields, e =>
    (emitFields fields (base.emit
      ((((e.op .typeLiteral pos).bool isConst).u8 Kind.struct.code).bool true))).bool false
  | .declare external name generics body, e =>
    let e := ((e.op .declare pos).bool external).name name
    body.emit ((emitBindings generics e).bool false)
  | .operator op, e => e.op op pos
  | .query op name, e => (e.know name).op op pos
  | .call args, e => (emitExprs args (e.op .call pos)).endMark
  | .index inner, e => inner.emit (e.op .index pos)
  | .member name, e => (e.op .member pos).name name
  | .functionType assignable params, e =>
    (emitParams params ((e.op .functionType pos).bool assignable)).endMark

def emitExprs : List Expr → Emitter → Emitter
  | [], e => e
  | x :: xs, e => emitExprs xs (x.emit e)

def Init.emit : Init → Emitter → Emitter
  | .bare, e => e.u8 AllocForm.bare.code
  | .scalar value, e => value.emit (e.u8 AllocForm.scalar.code)
  | .struct overrides, e => (emitBindings overrides (e.u8 AllocForm.struct.code)).bool false
  | .function capture body, e =>
    body.emit ((e.u8 AllocForm.function.code).u8 capture.code)
  | .array count elements, e =>
    (emitExprs elements (count.emit (e.u8 AllocForm.array.code))).endMark

def emitBindings : List Binding → Emitter → Emitter
  | [], e => e
  | .mk name value :: more, e => emitBindings more (value.emit ((e.bool true).name name))

def emitParams : List ParamTree → Emitter → Emitter
  | [], e => e
  | .mk type name :: more, e => emitParams more ((type.emit e).optName name)

def BodyTree.emit : BodyTree → Emitter → Emitter
  | .absent, e => e.bool false
  | .code capture body, e => body.emit ((e.bool true).u8 capture.code)

def emitFields : List FieldTree → Emitter → Emitter
  | [], e => e
  | field :: more, e => emitFields more (field.emit e)

def FieldTree.emit : FieldTree → Emitter → Emitter
  | .mk pos inlined type name value placement, e =>
    let e := (e.bool true).write fun w => (w.i32 pos.row).i32 pos.col
    placement.emit (value.emit ((type.emit (inlined.emit e)).optName name))

def Inlined.emit : Inlined → Emitter → Emitter
  | .no, e => e.bool false
  | .once, e => (e.bool true).bool false
  | .times count, e => count.emit ((e.bool true).bool true)

def FieldValue.emit : FieldValue → Emitter → Emitter
  | .absent, e => e.bool false
  | .value init, e => init.emit ((e.bool true).bool false)
  | .method capture body, e => body.emit (((e.bool true).bool true).u8 capture.code)

def Placement.emit : Placement → Emitter → Emitter
  | .auto, e => e.bool false
  | .absolute offset, e => offset.emit ((e.bool true).bool false)
  | .relative offset, e => offset.emit ((e.bool true).bool true)

/-- A block of commands with its end mark. -/
def Block.emit : Block → Emitter → Emitter
  | .mk commands, e => (emitCommands commands e.push).endMark.pop

def emitCommands : List Command → Emitter → Emitter
  | [], e => e
  | command :: commands, e => emitCommands commands (command.emit e)

def Command.emit : Command → Emitter → Emitter
  | .mk pos form, e => form.emit pos e

def CommandForm.emit (pos : Position) : CommandForm → Emitter → Emitter
  | .ifElse condition yes none, e =>
    (yes.emit (condition.emit (e.op .ifElse pos))).bool false
  | .ifElse condition yes (some no), e =>
    no.emit ((yes.emit (condition.emit (e.op .ifElse pos))).bool true)
  | .whileLoop condition body, e => body.emit (condition.emit (e.op .whileLoop pos))
  | .forLoop type name low lowExcluded high highExcluded none body, e =>
    let e := (type.emit (e.op .forLoop pos)).name name
    let e := (high.emit ((low.emit e).bool lowExcluded)).bool highExcluded
    body.emit (e.bool false)
  | .forLoop type name low lowExcluded high highExcluded (some step) body, e =>
    let e := (type.emit (e.op .forLoop pos)).name name
    let e := (high.emit ((low.emit e).bool lowExcluded)).bool highExcluded
    body.emit (step.emit (e.bool true))
  | .returnValue none, e => (e.op .returnValue pos).bool false
  | .returnValue (some value), e => value.emit ((e.op .returnValue pos).bool true)
  | .continueLoop, e => e.op .continueLoop pos
  | .breakLoop, e => e.op .breakLoop pos
  | .tryCatch body handler, e => handler.emit (body.emit (e.op .tryCatch pos))
  | .throwValue value message, e => (value.emit (e.op .throwValue pos)).optName message
  | .codeblock body, e => body.emit (e.op .codeblock pos)
  | .expression value, e => value.emit (e.op .expression pos)

def Handler.emit : Handler → Emitter → Emitter
  | .absent, e => e.bool false
  | .handle silently name body, e =>
    body.emit (((e.bool true).bool silently).optName name)

end

/-- The bytes of a program, which start with its file name, and the pool with its names. -/
def Program.emit (program : Program) (names : Names) : Array UInt8 × Names :=
  let e := Emitter.name { names } program.file
  let e := (emitCommands program.commands e).endMark
  (e.writer.bytes, e.names)

end LevelScript
