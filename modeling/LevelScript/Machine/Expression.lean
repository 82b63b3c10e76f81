import LevelScript.Machine.Operator

/-!
# Expressions

An expression is a sequence of nodes in postfix order, closed by an end mark. Operands put values
on a stack, and operators take theirs from it.
-/

namespace LevelScript

namespace Exec

/-- The type of an integer literal: the first that holds it of 32 bits, 64 bits and unsigned
64 bits. -/
def literalType (n : UInt64) : Exec TypeId :=
  if n < 0x80000000 then return TypeTable.int32
  else if n < 0x8000000000000000 then return TypeTable.int64
  else wordType

/-- The innermost level, or the one that a name refers to. -/
def scopeOf (name : Option NameId) : Exec Variable := do
  let m ← get
  let level ← match name with
    | none => pure m.topLevel
    | some name =>
      match m.scopes.levelOf name m.base with
      | some level => pure level
      | none => raise (.variableNotFound (m.names.text name))
  return Variable.value TypeTable.int32 level.toUInt64

/-- A level that exists, next to the one asked for. -/
def clampLevel (depth : Nat) (n : UInt64) : Nat := min n.toInt64.toInt.toNat (depth - 1)

def copyStruct (source target size : UInt64) : Exec Unit :=
  if source = 0 then return else copyBytes source target size.toNat

def symbolAddress (name : NameId) : Exec UInt64 := do
  let m ← get
  let text := m.names.text name
  match m.symbols[text]? with
  | some addr => if addr = 0 then raise (.symbolNotFound text) else return addr
  | none => raise (.symbolNotFound text)

/-- The text of a file that the current one names, and its path. -/
def loadSource (name : String) : Exec (String × String) := do
  let m ← get
  let path := Path.relativeTo (m.names.text m.frame.file) name
  match m.sources path with
  | some source => return (path, source)
  | none => raise (.fileNotFound path)

def resultValue : Exec Variable := do
  match (← get).scopes.lookup NameId.result 0 with
  | some v => toValue v
  | none => return voidValue

end Exec

namespace Interp

open Exec

/-! ## Struct types -/

/-- How often a field lies inside its struct. -/
def inlineCount (i : Interp) : Run (Option UInt64) := do
  if !(← Run.bool) then return none
  if !(← Run.bool) then return some 1
  let count ← i.value
  if (← kindOf count).isInteger then return some (← bits count)
  else raise .inlineCountNotInteger

/-- The value that a field starts with. A pointer may point to a type that is not known yet. -/
def fieldValue (i : Interp) (type : TypeId) (name : Option NameId) : Run UInt64 := do
  if !(← Run.bool) then return 0
  if ← Run.bool then readFunction type (name.getD NameId.anonymous) false
  else
    let v ← i.value
    match (← getThe Machine).types.kind type with
    | .pointer | .deferred => bits v
    | _ => castBits type v

def fieldPlace (i : Interp) : Run FieldPlace := do
  if !(← Run.bool) then return .auto
  let relative ← Run.bool
  let offset ← i.value
  if !(← kindOf offset).isInteger then raise .offsetNotInteger
  let offset ← bits offset
  return if relative then .relative offset else .absolute offset

def field (i : Interp) : Run Field := do
  let inlined ← i.inlineCount
  let type ← i.type
  let name ← Run.name?
  let value ← i.fieldValue type name
  let place ← i.fieldPlace
  return { name, type, place, value, inlined }

/-- Fields as long as there are more. -/
def fields (i : Interp) : Nat → Run (List Field)
  | 0 => outOfFuel
  | n + 1 => do
    if !(← Run.bool) then return []
    let (row, col) ← Run.place
    modifyThe Machine (·.setPosition row col)
    let f ← i.field
    return f :: (← fields i n)

def structType (i : Interp) : Run TypeId := do
  let base ← if ← Run.bool then some <$> i.type else pure none
  let fields ← i.fields i.fuel
  let m ← getThe Machine
  match m.types.struct fields base with
  | .ok (id, types) =>
    set { m with types }
    return id
  | .error e => raise (.badType (e.message m.names))

def typeLiteral (i : Interp) : Run TypeId := do
  let isConst ← Run.bool
  let type ← match Kind.ofCode? (← Run.next Reader.u8) with
    | none => raise .unknownKind
    | some .struct => i.structType
    | some kind =>
      let unsigned ← Run.bool
      withTypes fun ts =>
        let (id, ts) := ts.primitive kind
        if unsigned then ts.unsign id else (id, ts)
  if isConst then withTypes (·.constant type) else return type

/-! ## Operands -/

def vararg (i : Interp) : Run Variable := do
  let index ← i.value
  match (← getThe Machine).frame.varargs with
  | none => raise .noVarargs
  | some args =>
    checkIndex index
    let index ← bits index
    if index.toInt64 < 0 then raise .varargOutOfBounds
    match args[index.toNat]? with
    | some v => return v
    | none => raise .varargOutOfBounds

def sizeOf (i : Interp) : Run Variable := do
  if ← Run.bool then
    match (← getThe Machine).frame.varargs with
    | none => raise .noVarargs
    | some args => wordValue args.size.toUInt64
  else
    let v ← i.value
    let type ← if (← kindOf v) = .type then do resolveType (← asType v) else pure v.type
    wordValue (← typeInfo type).size

def delete (i : Interp) : Run Variable := do
  let v ← i.value
  match ← kindOf v with
  | .pointer | .struct | .function =>
    i.free (← bits v)
    return voidValue
  | _ => raise .notAllocated

def move (i : Interp) : Run Variable := do
  let v ← i.value
  let level ← i.value
  if !(← kindOf level).isInteger then raise .levelNotInteger
  let level := clampLevel (← getThe Machine).scopes.depth (← bits level)
  moveAllocation (← bits v) level
  return v

def ternary (i : Interp) : Run Variable := do
  let truth ← truthy (← i.value)
  let yes ← Run.enter
  let no ← Run.enter
  i.value.run' (if truth then yes else no)

/-- Runs an included file; its last value is that of the node. -/
def includeFile (i : Interp) : Run Variable := do
  let (path, source) ← loadSource (← nameText (← Run.name))
  i.source source path
  resultValue

/-! ## Declarations -/

def bindGenerics (i : Interp) : Nat → Run Unit
  | 0 => outOfFuel
  | n + 1 => do
    if ← Run.bool then
      let name ← Run.name
      let v ← i.value
      if (← kindOf v) ≠ .type then raise (.parameterNotAType (← nameText name))
      declareNew name (← fresh v.type (← bits v))
      bindGenerics i n

/-- The declared type; its parameters are known only while it is resolved. -/
def declaredType (i : Interp) (type : TypeId) : Run TypeId := fun r => do
  pushLevel
  let outcome ← attempt ((do i.bindGenerics i.fuel; resolveType type : Run TypeId).run r)
  i.closeLevel
  match outcome with
  | .ok resolved => return resolved
  | .error e => throw (.raised e)

/-- Declares a variable; the type has been evaluated before. -/
def declaration (i : Interp) (type : Option Variable) : Run Variable := do
  let external ← Run.bool
  let name ← Run.name
  let declared ← match type with
    | none => raise .notAType
    | some v => expectType v
  let symbol ← if external then some <$> symbolAddress name else pure none
  let type ← i.declaredType declared
  let kind := (← getThe Machine).types.kind type
  let v ← match symbol with
    | none => fresh type 0
    | some addr => if kind = .function then fresh type addr else pure (Variable.atAddress type addr)
  declareNew name v
  if ← Run.bool then
    if kind ≠ .function then raise .codeOnNonFunction
    store v (← readFunction type name true)
  return { v with origin := some { name } }

/-! ## Allocations -/

/-- Initial values of an array; those beyond its end are dropped. -/
def elements (i : Interp) (type : TypeId) (addr stride count : UInt64) :
    Nat → UInt64 → Run Unit
  | 0, _ => outOfFuel
  | n + 1, index => do
    match ← i.eval with
    | none => return
    | some v =>
      if index < count then
        let t ← typeInfo type
        let at_ := addr + index * stride
        if t.kind = .struct then copyStruct (← bits v) at_ t.size
        else poke at_ t.valueSize (← castBits type v)
      elements i type addr stride count n (index + 1)

def newArray (i : Interp) (type : TypeId) (inner : Bool) : Run UInt64 := do
  let count ← i.value
  if !(← kindOf count).isInteger then raise .arraySizeNotInteger
  let count ← bits count
  let count := if count.toInt64 < 0 then 0 else count
  let t ← typeInfo type
  let stride := if t.kind = .struct then t.size else t.valueSize.toUInt64
  if UInt64.size ≤ stride.toNat * count.toNat then raise (.tooManyElements count)
  let addr ← allocate (stride * count) type inner .nothing
  i.elements type addr stride count i.fuel 0
  return addr

/-- Values for the fields of a new struct. -/
def overrides (i : Interp) (type : TypeId) (addr : UInt64) : Nat → Run Unit
  | 0 => outOfFuel
  | n + 1 => do
    if ← Run.bool then
      let name ← Run.name
      overrideField type addr name (← i.value)
      overrides i type addr n

def newStruct (type : TypeId) (inner : Bool) : Exec UInt64 := do
  let addr ← allocate (← typeInfo type).size type inner .struct
  initStruct type addr
  return addr

/-- The address of a new allocation. -/
def newAddress (i : Interp) (type : TypeId) (inner : Bool) : AllocForm → Run UInt64
  | .bare => do
    let t ← typeInfo type
    match t.kind with
    | .function => raise .emptyFunction
    | .struct => newStruct type inner
    | _ => allocate t.valueSize.toUInt64 type inner .nothing
  | .scalar => do
    let v ← i.value
    let t ← typeInfo type
    match t.kind with
    | .function => raise .scalarFunction
    | .struct =>
      let addr ← allocate t.size type inner .struct
      copyStruct (← bits v) addr t.size
      return addr
    | _ =>
      let addr ← allocate t.valueSize.toUInt64 type inner .nothing
      poke addr t.valueSize (← castBits type v)
      return addr
  | .array => i.newArray type inner
  | .function => do
    if (← typeInfo type).kind ≠ .function then raise .notAFunction
    readFunction type NameId.anonymous inner
  | .struct => do
    if (← typeInfo type).kind ≠ .struct then raise .notAStruct
    let addr ← newStruct type inner
    i.overrides type addr i.fuel
    i.callMethod type addr NameId.constructor
    return addr

def newValue (i : Interp) : Run Variable := do
  let inner ← Run.bool
  let type ← resolveType (← i.type)
  let form ← Run.next Reader.form
  let result ← match (← typeInfo type).kind with
    | .struct | .function => pure type
    | _ => withTypes (·.pointer type)
  return Variable.value result (← i.newAddress type inner form)

/-! ## Nodes -/

/-- The value of an operand; a declaration finds its type on the stack. -/
def operand (i : Interp) (op : Opcode) : Run Variable := do
  match op with
  | .integer =>
    let n ← Run.next Reader.u64
    return Variable.value (← literalType n) n
  | .float => return Variable.value TypeTable.float64 (← Run.next Reader.u64)
  | .text => textValue (← Run.name)
  | .typeLiteral => return typeValue (← i.typeLiteral)
  | .truth => boolValue (← Run.bool)
  | .null => return Variable.value (← withTypes (·.pointer TypeTable.void)) 0
  | .variableRef => load (← Run.name)
  | .paren => i.value
  | .deferName =>
    let name ← Run.name
    return typeValue (← withTypes (·.deferred name))
  | .varargs => i.vararg
  | .sizeOf => i.sizeOf
  | .typeOf => return typeValue (← i.value).type
  | .scopeOf => scopeOf (← Run.name?)
  | .newValue => i.newValue
  | .deleteValue => i.delete
  | .moveValue => i.move
  | .ternary => i.ternary
  | .includeFile => i.includeFile
  | other => raise (.unexpectedNode other)

def node (i : Interp) (op : Opcode) (stack : List Variable) : Run (List Variable) := do
  if op.isOperator then i.applyOperator op stack
  else if op = .declare then return (← i.declaration stack.head?) :: stack.tail
  else return (← i.operand op) :: stack

def nodes (i : Interp) : Nat → List Variable → Run (Option Variable)
  | 0, _ => outOfFuel
  | n + 1, stack => do
    let op ← Run.next Reader.opcode
    if op = .endMark then return stack.head?
    let (row, col) ← Run.place
    let stack ← Run.atPlace row col do
      let stack ← i.node op stack
      checkFault
      let max := (← getThe Machine).settings.maxStack
      if max < stack.length then raise (.expressionOverflow max)
      return stack
    nodes i n stack

def expression (i : Interp) : Run (Option Variable) := i.nodes i.fuel []

end Interp

end LevelScript
