import LevelScript.Arithmetic.Integer
import LevelScript.Machine.Call

/-!
# Operators

Each operator has rules that say for which operands it does what; the first rule that fits the top
of the stack counts. The stack is a list with its top first.
-/

namespace LevelScript

namespace Operator

inductive Pattern where
  | integer | number | pointer | struct | function | type | any
  deriving Repr, DecidableEq

def Pattern.accepts : Pattern → Kind → Bool
  | integer, k => k.isInteger
  | number, k => k.isNumber
  | pointer, k => k == .pointer
  | struct, k => k == .struct
  | function, k => k == .function
  | type, k => k == .type
  | any, _ => true

/-- An operand of a rule; one that is assigned to has to have an address. -/
structure Operand where
  pattern : Pattern
  assigned : Bool := false
  deriving Repr, DecidableEq

inductive Action where
  | arithmetic | pointerOffset | elvis | compare | logical | assign | compound | cast | step
  | address | dereference | dereferenceType | sign | logicNot | bitNot | modifyType
  | functionType | indexPointer | indexStruct | call | allocationInfo | member | memberType
  deriving Repr, DecidableEq

/-- The last operand is on top of the stack. -/
structure Rule where
  ops : List Opcode
  operands : List Operand
  action : Action

def val (p : Pattern) : Operand := ⟨p, false⟩

def ref (p : Pattern) : Operand := ⟨p, true⟩

def additive : List Opcode := [.addition, .subtraction]

def multiplicative : List Opcode := [.multiplication, .division, .modulo, .power]

def bitwise : List Opcode := [.shiftLeft, .shiftRight, .bitAnd, .bitOr, .bitXor]

def ordering : List Opcode := [.less, .greater, .lessEqual, .greaterEqual]

open Pattern in
def rules : List Rule :=
  [ ⟨additive, [val number, val number], .arithmetic⟩,
    ⟨additive, [val pointer, val integer], .pointerOffset⟩,
    ⟨[.addition], [val integer, val pointer], .pointerOffset⟩,
    ⟨multiplicative, [val number, val number], .arithmetic⟩,
    ⟨bitwise, [val integer, val integer], .arithmetic⟩,
    ⟨[.elvis], [val any, val any], .elvis⟩,
    ⟨[.equals, .notEquals], [val any, val any], .compare⟩,
    ⟨ordering, [val number, val number], .compare⟩,
    ⟨ordering, [val pointer, val pointer], .compare⟩,
    ⟨[.logicalAnd, .logicalOr], [val any, val any], .logical⟩,
    ⟨[.assign], [ref any, val any], .assign⟩,
    ⟨[.addAssign, .subAssign], [ref number, val number], .compound⟩,
    ⟨[.addAssign, .subAssign], [ref pointer, val integer], .compound⟩,
    ⟨[.mulAssign, .divAssign, .modAssign, .powAssign], [ref number, val number], .compound⟩,
    ⟨[.shlAssign, .shrAssign, .andAssign, .orAssign, .xorAssign], [ref integer, val integer],
      .compound⟩,
    ⟨[.elvisAssign], [ref any, val any], .compound⟩,
    ⟨[.cast, .bitcast], [val any, val type], .cast⟩,
    ⟨[.prefixIncrement, .prefixDecrement, .suffixIncrement, .suffixDecrement], [ref number],
      .step⟩,
    ⟨[.address], [ref any], .address⟩,
    ⟨[.dereference], [val pointer], .dereference⟩,
    ⟨[.dereference], [val type], .dereferenceType⟩,
    ⟨[.arithPlus, .arithNegate], [val number], .sign⟩,
    ⟨[.logicNegate], [val any], .logicNot⟩,
    ⟨[.binaryNegate], [val integer], .bitNot⟩,
    ⟨[.constType, .pointerType], [val type], .modifyType⟩,
    ⟨[.functionType], [val type], .functionType⟩,
    ⟨[.index], [val pointer], .indexPointer⟩,
    ⟨[.index], [val struct], .indexStruct⟩,
    ⟨[.call], [val function], .call⟩,
    ⟨[.getSize, .getLength, .getScope], [val any], .allocationInfo⟩,
    ⟨[.member], [val struct], .member⟩,
    ⟨[.member], [val type], .memberType⟩ ]

def fits (ts : TypeTable) (o : Operand) (v : Variable) : Bool :=
  (!o.assigned || v.isLvalue) && o.pattern.accepts (ts.kind v.type)

def fitAll (ts : TypeTable) : List Operand → List Variable → Bool
  | [], _ => true
  | _, [] => false
  | o :: os, v :: vs => fits ts o v && fitAll ts os vs

def action? (ts : TypeTable) (op : Opcode) (stack : List Variable) : Option Action :=
  (rules.find? fun r => r.ops.contains op && fitAll ts r.operands.reverse stack).map (·.action)

end Operator

namespace Exec

open Operator

/-! ## Operands that do not fit -/

def describe (m : Machine) : Option Variable → String
  | some v => m.types.display m.names v.type ++ (if v.isLvalue then "=" else "")
  | none => "?"

def mismatch (op : Opcode) (stack : List Variable) : Exec α := do
  let m ← get
  let top := describe m stack.head?
  let symbol := op.symbol
  let shape := match op.shape?.getD .behind with
    | .between => describe m stack[1]? ++ " " ++ symbol ++ " " ++ top
    | .before => symbol ++ top
    | .behind | .query => top ++ symbol
    | .brackets => top ++ "[]"
    | .parens => top ++ "()"
    | .arrow => top ++ "<-()"
  raise (.operandMismatch ("(" ++ shape ++ ")"))

/-! ## Numbers -/

/-- The type in which two values are combined: the wider of the two kinds, but at least 32 bits;
unsigned if one of them is. Values that are no numbers are taken as words. -/
def commonType (a b : Variable) : Exec TypeId := do
  withTypes fun ts =>
    let ka := ts.kind a.type
    let kb := ts.kind b.type
    if ka.isNumber && kb.isNumber then
      let kind := (ka.widest kb).widest .int32
      let (base, ts) := ts.primitive kind
      if !kind.isFloat && (ts.isUnsignedLike a.type || ts.isUnsignedLike b.type) then ts.unsign base
      else (base, ts)
    else ts.unsign TypeTable.int64

/-- Both values in their common type. -/
def promote (a b : Variable) : Exec (TypeId × Variable × Variable) := do
  let type ← commonType a b
  let x ← cast type a
  let y ← cast type b
  return (type, x, y)

def realOperation? : Opcode → Option (Real64.Bits → Real64.Bits → Real64.Bits)
  | .addition => some Real64.add
  | .subtraction => some Real64.sub
  | .multiplication => some Real64.mul
  | .division => some Real64.div
  | .modulo => some Real64.rem
  | .power => some Real64.pow
  | _ => none

def realBits (kind : Kind) (x : Real64.Bits) : UInt64 :=
  if kind = .float32 then (Real32.ofDouble x).toUInt64 else x

/-- The result of an operator on two values of one type. -/
def compute (op : Opcode) (type : TypeId) (x y : Variable) : Exec UInt64 := do
  let t ← typeInfo type
  if t.kind.isFloat then
    match realOperation? op with
    | some f => return realBits t.kind (f (← asDouble x) (← asDouble y))
    | none => raise (.needsIntegers op)
  else
    match Integer.apply op t.isSignedInteger (← bits x) (← bits y) with
    | .ok n => return extend t n
    | .error .byZero => raise .divisionByZero
    | .error .noOperator => raise (.unexpectedOperator op)

def arithmetic (op : Opcode) (a b : Variable) : Exec Variable := do
  let (type, x, y) ← promote a b
  return Variable.value type (← compute op type x y)

/-- How two values compare. Integers of different sign are compared by their signs alone. -/
def ordering? (a b : Variable) : Exec (Option Ordering) := do
  let (type, x, y) ← promote a b
  let t ← typeInfo type
  if t.kind.isFloat then return Real64.compare? (← asDouble x) (← asDouble y)
  else
    match ← isNegative a, ← isNegative b with
    | true, false => return some .lt
    | false, true => return some .gt
    | _, _ => return some (Integer.compare t.isSignedInteger (← bits x) (← bits y))

/-- Whether an operator holds for an ordering; two values that do not compare are only unequal. -/
def holds (op : Opcode) (o : Option Ordering) : Bool :=
  match op with
  | .less => o == some .lt
  | .greater => o == some .gt
  | .lessEqual => o == some .lt || o == some .eq
  | .greaterEqual => o == some .gt || o == some .eq
  | .equals => o == some .eq
  | _ => o != some .eq

def stepped (kind : Kind) (up : Bool) (bits : UInt64) : UInt64 :=
  let real (x : Real64.Bits) := if up then Real64.add x Real64.one else Real64.sub x Real64.one
  match kind with
  | .float32 => realBits .float32 (real (Real32.widen bits.toUInt32))
  | .float64 => real bits
  | _ => if up then bits + 1 else bits - 1

/-- Increments and decrements a variable. The result is the new value if the operator stands before
the operand, and otherwise the old one. -/
def step (op : Opcode) (v : Variable) : Exec Variable := do
  let old ← toValue v
  let up := op = .prefixIncrement || op = .suffixIncrement
  store v (stepped (← kindOf v) up (← bits old))
  if op = .prefixIncrement || op = .prefixDecrement then toValue v else return old

def negated (kind : Kind) (bits : UInt64) : UInt64 :=
  match kind with
  | .float32 => (Real32.neg bits.toUInt32).toUInt64
  | .float64 => Real64.neg bits
  | _ => 0 - bits

/-- Applies a function to the bits of a value; the result is not constant. -/
def mapBits (f : Kind → UInt64 → UInt64) (v : Variable) : Exec Variable := do
  let type ← withTypes (·.mutableOf v.type)
  let t ← typeInfo type
  return Variable.value type (extend t (f t.kind (← bits v)))

/-! ## Pointers -/

/-- What a pointer moves by for each unit of an integer. -/
def stride (ts : TypeTable) (pointer : TypeId) : UInt64 :=
  match (ts.get pointer).base? with
  | some base => if ts.kind base = .void then 1 else max (ts.get base).size 1
  | none => 1

def pointerOffset (op : Opcode) (a b : Variable) : Exec Variable := do
  let (pointer, index) := if (← kindOf a) = .pointer then (a, b) else (b, a)
  let offset := (← bits index) * stride (← get).types pointer.type
  let base ← bits pointer
  return Variable.value pointer.type (if op = .subtraction then base - offset else base + offset)

/-- The variable that a pointer to type `pointer` points at. It is read once, so that an invalid
address shows here. -/
def elementAt (pointer : TypeId) (addr : UInt64) : Exec Variable := do
  let base := ((← typeInfo pointer).base?).getD TypeTable.void
  let t ← typeInfo base
  let v := Variable.atAddress base addr
  discard (peek addr t.valueSize)
  if t.isConst then toValue v else return v

def dereference (v : Variable) : Exec Variable := do
  let addr ← bits v
  if addr = 0 then raise .nullDereference
  elementAt v.type addr

def dereferenceType (v : Variable) : Exec Variable := do
  let type ← asType v
  let t ← typeInfo type
  match t.base? <|> t.result? with
  | some inner => return typeValue inner
  | none => raise (.notDereferencable (← displayType type))

/-- An index has to be an integer. -/
def checkIndex (v : Variable) : Exec Unit := do
  if !(← kindOf v).isInteger then raise .indexNotInteger

def addressOf (v : Variable) : Exec Variable := do
  match v.address? with
  | none => raise .temporaryAddress
  | some addr => return Variable.value (← withTypes (·.pointer v.type)) addr

/-- What is known about the allocation at an address; all ones if there is none. -/
def allocationInfo (op : Opcode) (v : Variable) : Exec Variable := do
  let addr ← bits v
  let m ← get
  let found := (m.heap.find? addr).bind m.heap.get?
  wordValue <| match found with
    | none => 0xFFFFFFFFFFFFFFFF
    | some a =>
      match op with
      | .getSize => a.size
      | .getScope => a.level.toUInt64
      | _ =>
        let t := m.types.get v.type
        let element : UInt64 := match t.base? with
          | some base => (m.types.get base).valueSize.toUInt64
          | none => if t.kind = .struct then t.size else 1
        if element = 0 then a.size else a.size / element

/-! ## Types -/

def memberType (type : TypeId) (name : NameId) : Exec Variable := do
  let type ← resolveType type
  let ts := (← get).types
  match ts.kind type with
  | .struct =>
    match ts.field? type name with
    | some f => return typeValue f.type
    | none => raise (.fieldNotFound (← nameText name))
  | .function =>
    match ts.param? type name with
    | some p => return typeValue p.type
    | none => raise (.parameterNotFound (← nameText name))
  | _ => raise .notFunctionOrStruct

def member (v : Variable) (name : NameId) : Exec Variable := do
  let addr ← bits v
  if addr = 0 then raise .structUnset
  match ← fieldAt? v.type addr name with
  | some field => return field
  | none => raise (.fieldNotFound (← nameText name))

def assign (target v : Variable) : Exec Variable := do
  store target (← castBits target.type v)
  return target

end Exec

namespace Interp

open Exec Operator

/-- Parameter types up to an end mark, each with an optional name. -/
def parameters (i : Interp) : Nat → Run (List Param)
  | 0 => outOfFuel
  | n + 1 => do
    match ← i.eval with
    | none => return []
    | some v =>
      let type ← expectType v
      let name ← Run.name?
      return ⟨name, type⟩ :: (← parameters i n)

def indexPointer (i : Interp) (v : Variable) : Run Variable := do
  let index ← i.value
  checkIndex index
  let addr ← bits v
  if addr = 0 then raise .nullDereference
  let ts := (← getThe Machine).types
  let stride : UInt64 := match (ts.get v.type).base? with
    | some base => (ts.get base).valueSize.toUInt64
    | none => 0
  elementAt v.type (addr + (← bits index) * stride)

def indexStruct (i : Interp) (v : Variable) : Run Variable := do
  let index ← i.value
  checkIndex index
  let addr ← bits v
  if addr = 0 then raise .structUnset
  return Variable.value v.type (addr + (← bits index) * (← typeInfo v.type).size)

def unary (i : Interp) (op : Opcode) (action : Action) (v : Variable) : Run Variable := do
  match action with
  | .step => step op v
  | .address => addressOf v
  | .dereference => dereference v
  | .dereferenceType => dereferenceType v
  | .sign => mapBits (fun kind bits => if op = .arithPlus then bits else negated kind bits) v
  | .logicNot => boolValue (!(← truthy v))
  | .bitNot => mapBits (fun _ bits => ~~~bits) v
  | .modifyType =>
    let type ← asType v
    return typeValue (← withTypes fun ts =>
      if op = .constType then ts.constant type else ts.pointer type)
  | .functionType =>
    let result ← asType v
    let assignable ← Run.bool
    let params ← i.parameters i.fuel
    return typeValue (← withTypes (·.function result params assignable))
  | .indexPointer => i.indexPointer v
  | .indexStruct => i.indexStruct v
  | .call => i.call v (← i.values i.fuel)
  | .allocationInfo => allocationInfo op v
  | .member => member v (← Run.name)
  | .memberType =>
    let name ← Run.name
    memberType (← asType v) name
  | _ => raise .missingOperand

def binary (op : Opcode) (action : Action) (a b : Variable) : Exec Variable := do
  match action with
  | .arithmetic => arithmetic op a b
  | .pointerOffset => pointerOffset op a b
  | .elvis => if ← truthy a then return a else return b
  | .compare => boolValue (holds op (← ordering? a b))
  | .logical =>
    let x ← truthy a
    let y ← truthy b
    boolValue (if op = .logicalAnd then x && y else x || y)
  | .assign => assign a b
  | .cast =>
    let target ← asType b
    if op = .bitcast then bitcast target a else cast target a
  | _ => raise .missingOperand

/-- Performs an operation and assigns its result to the first operand. -/
def compound (op : Opcode) (a b : Variable) : Exec Variable := do
  match op.compoundBase? with
  | none => raise (.unexpectedOperator op)
  | some base =>
    match action? (← get).types base [b, a] with
    | none => mismatch base [b, a]
    | some action => assign a (← binary base action a b)

/-- Applies an operator to the top of the stack. -/
def applyOperator (i : Interp) (op : Opcode) (stack : List Variable) : Run (List Variable) := do
  match action? (← getThe Machine).types op stack with
  | none => mismatch op stack
  | some action =>
    if op.shape? = some .between then
      match stack with
      | b :: a :: rest =>
        let v ← if action = .compound then compound op a b else binary op action a b
        return v :: rest
      | _ => raise .missingOperand
    else
      match stack with
      | v :: rest => return (← i.unary op action v) :: rest
      | [] => raise .missingOperand

end Interp

end LevelScript
