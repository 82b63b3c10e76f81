import LevelScript.Machine.Level
import LevelScript.Native.CallFrame

/-!
# Calls

A function value is an address of code. The code is a script function or a native one; native code
can call script functions through their addresses in turn. An error in a script function that
native code calls waits until the native code has returned.
-/

namespace LevelScript

/-- All that a call of a script function needs besides its arguments. -/
structure ScriptCall where
  id : Nat
  origin : Option Origin
  result : TypeId
  assignable : Bool
  params : List Param
  /-- How many parameters have one argument each. -/
  fixed : Nat

namespace Exec

/-- Makes the arguments fit the parameters; those beyond them are taken as they are. -/
def convertArguments : List Param → List Variable → Exec (List Variable)
  | p :: ps, v :: vs => do
    let v ← cast p.type v
    return v :: (← convertArguments ps vs)
  | [], v :: vs => do
    let v ← toValue v
    return v :: (← convertArguments [] vs)
  | _, [] => return []

/-- Declares what a function has captured; of two variables of a name the first one counts. -/
def declareCaptured (capture : Capture) : List (NameId × Variable) → Exec Unit
  | [] => return
  | (name, v) :: more => do
    let v ← if capture = .copyPerCall then fresh v.type (← bits v) else pure v
    discard (declare name v)
    declareCaptured capture more

def declareParameters (captured : List (NameId × Variable)) :
    List (Param × Variable) → Exec Unit
  | [] => return
  | (p, v) :: more => do
    match p.name with
    | none => pure ()
    | some name =>
      if captured.any fun c => c.1 == name then raise (.parameterCaptured (← nameText name))
      let arg ← fresh v.type (← bits v)
      if !(← declare name arg) then raise (.parameterRepeated (← nameText name))
    declareParameters captured more

/-- Opens the frame and the level of a call; the number of levels before. -/
def openFrame (name file : NameId) : Exec Nat :=
  modifyGet fun m =>
    let depth := m.scopes.depth
    (depth, { m with
      frames := m.frames.push { name, file, base := depth }
      scopes := m.scopes.push })

/-- The result of a function whose body has ended. -/
def functionResult (call : ScriptCall) (control : Control) : Exec Variable := do
  match control with
  | .returning v =>
    if !call.assignable then cast call.result v
    else if !v.isLvalue then raise .returnNotAssignable
    else if v.type ≠ call.result then
      raise (.returnTypesDiffer (← displayType v.type) (← displayType call.result))
    else return v
  | .running =>
    if (← get).types.kind call.result = .void then return voidValue else raise .noReturn
  | .breaking => raise .breakOutside
  | .continuing => raise .continueOutside

end Exec

namespace Interp

open Exec

/-- Leaves a call that was opened over `depth` levels: its result, and then its levels are closed. -/
def leaveCall (i : Interp) (call : ScriptCall) (depth : Nat) (control : Control) : Exec Variable := do
  let result ← functionResult call control
  closeTo i.closeLevel depth i.fuel
  modify fun m => { m with frames := m.frames.pop }
  return result

def runBody (i : Interp) (call : ScriptCall) (depth : Nat) (r : Reader) : Exec Variable := do
  discard (i.block r)
  let control ← modifyGet fun m => (m.control, { m with control := .running })
  i.leaveCall call depth control

def callScript (i : Interp) (call : ScriptCall) (args : List Variable) : Exec Variable := do
  let m ← get
  if m.settings.maxFrames ≤ m.frames.size then raise (.stackOverflow m.settings.maxFrames)
  match m.functions.get? call.id with
  | none => raise .callUnset
  | some f =>
    let depth ← openFrame ((call.origin.map (·.name)).getD f.name) f.file
    declareCaptured f.capture f.captured
    declareParameters f.captured ((call.params.zip args).take call.fixed)
    if let some (type, addr) := call.origin.bind (·.receiver) then
      let type ← withTypes (·.constant type)
      discard (declare NameId.this (← fresh type addr))
    if call.fixed < call.params.length then
      modify (·.modifyFrame ({ · with varargs := some (args.drop call.fixed).toArray }))
    i.runBody call depth (Reader.slice f.chunk f.entry f.len)

/-! ## Native code -/

end Interp

namespace Exec

/-- How an argument is passed to native code; floats beyond the parameters are doubles. -/
def nativeArgument (fixed : Bool) (v : Variable) : Exec NativeArg := do
  let bits ← bits v
  match ← kindOf v with
  | .float32 =>
    if fixed then return .float32 bits.toUInt32 else return .float64 (Real32.widen bits.toUInt32)
  | .float64 => return .float64 bits
  | _ => return .int bits

def nativeArguments : Nat → List Variable → Exec (List NativeArg)
  | _, [] => return []
  | fixed, v :: vs => do
    let arg ← nativeArgument (fixed != 0) v
    return arg :: (← nativeArguments (fixed - 1) vs)

/-- Runs what a native function does, with `enter` for the calls it makes. An invalid access ends
all native code at once. -/
def runNative (enter : UInt64 → List NativeArg → Exec (Except UInt64 NativeResult)) :
    NativeAction → Exec (Except UInt64 NativeResult)
  | .done result => return .ok result
  | .print line next => do
    modify fun m => { m with lines := m.lines.push line }
    runNative enter next
  | .read addr next => do
    if Memory.isValid addr then runNative enter (next ((← get).memory.read addr 8))
    else return .error addr
  | .write addr bits next => do
    modify fun m => { m with memory := m.memory.write addr 8 bits }
    runNative enter next
  | .readText addr next => do
    if Memory.isValid addr then runNative enter (next ((← get).memory.textBytes addr textLimit))
    else return .error addr
  | .call code args next => do
    match ← enter code args with
    | .ok result => runNative enter (next result)
    | .error addr => return .error addr

/-- The class of register that a value of a kind is passed in. -/
def argClass : Kind → ArgClass
  | .float32 | .float64 => .float
  | _ => .int

/-- Arguments of a list of tagged numbers, each of which takes sixteen bytes. -/
def varargsAt (memory : Memory) : Nat → UInt64 → List Variable
  | 0, _ => []
  | n + 1, addr =>
    let value := memory.read (addr + 8) 8
    match memory.read addr 4 with
    | 1 => Variable.value TypeTable.int64 value :: varargsAt memory n (addr + 16)
    | 2 => Variable.value TypeTable.float64 value :: varargsAt memory n (addr + 16)
    | _ => []

/-- The arguments that native code has passed, one word for each parameter. -/
def receiveArguments (fuel : Nat) (m : Machine) : List Param → List UInt64 → List Variable
  | [], _ => []
  | p :: ps, words =>
    let raw := words.headD 0
    let rest := receiveArguments fuel m ps words.tail
    let t := m.types.get p.type
    match t.kind with
    | .varargs => (if raw = 0 then [] else varargsAt m.memory fuel raw) ++ rest
    | _ => Variable.value p.type (extend t raw) :: rest

end Exec

namespace Interp

open Exec

/-- Enters a script function from native code. -/
def enterStub (i : Interp) (type : TypeId) (id : Nat) (words : List UInt64) : Exec UInt64 := do
  let m ← get
  let args := receiveArguments i.fuel m (m.types.get type).params words
  match m.functions.get? id with
  | none => raise .callUnset
  | some f => bits (← i.call (Variable.value type f.stub) args)

/-- Jumps to an address of code. An error in a script function is kept, and the function gives
zero. -/
def enterCode (i : Interp) : Nat → UInt64 → List NativeArg → Exec (Except UInt64 NativeResult)
  | 0, _, _ => outOfFuel
  | n + 1, addr, args => do
    let m ← get
    let frame := CallFrame.systemV args
    match m.code[addr]? with
    | none => return .error addr
    | some (.native f) => runNative (enterCode i n) (f.run (frame.arguments f.params))
    | some (.stub type id) =>
      let classes := (m.types.get type).params.map fun p => argClass (m.types.kind p.type)
      match ← attempt (i.enterStub type id (frame.arguments classes)) with
      | .ok bits => return .ok ⟨bits, bits⟩
      | .error e =>
        park e
        return .ok {}

/-- The result of a native function of the given type. -/
def nativeResult (t : TypeInfo) (r : NativeResult) : UInt64 :=
  match t.kind with
  | .void => 0
  | .float32 => r.float &&& 0xFFFFFFFF
  | .float64 => r.float
  | _ => extend t r.int

/-- Calls native code with converted arguments. An invalid access comes before errors that were
kept. -/
def callNative (i : Interp) (addr : UInt64) (result : TypeId) (assignable : Bool) (fixed : Nat)
    (args : List Variable) : Exec Variable := do
  note (.nativeCall addr)
  if assignable then raise .nativeAssignable
  let args ← nativeArguments fixed args
  let outcome ← i.enterCode i.fuel addr args
  let parked ← takeParked
  match outcome with
  | .error addr => raise (.fault addr)
  | .ok r =>
    match parked with
    | some e => throw (.raised e)
    | none => return Variable.value result (nativeResult (← typeInfo result) r)

def callFunction (i : Interp) (f : Variable) (args : List Variable) : Exec Variable := do
  let m ← get
  let t := m.types.get f.type
  if t.kind ≠ .function then raise .callNonFunction
  let variadic := m.types.isVariadic f.type
  let fixed := if variadic then t.params.length - 1 else t.params.length
  if (variadic && args.length < fixed) || (!variadic && args.length ≠ fixed) then
    raise (.argumentCount variadic fixed args.length)
  let converted ← convertArguments (t.params.take fixed) args
  let addr ← bits f
  if addr = 0 then raise .callUnset
  let result := t.result?.getD TypeTable.void
  match (← get).functions.classify addr with
  | .native addr => i.callNative addr result t.flags.assignable fixed converted
  | .script id =>
    let call : ScriptCall :=
      { id, origin := f.origin, result, fixed
        assignable := t.flags.assignable, params := t.params }
    i.callScript call converted

end Interp

/-! ## New functions -/

namespace Exec

def copyCaptured : List (NameId × Variable) → Exec (List (NameId × Variable))
  | [] => return []
  | (name, v) :: more => do
    let copy ← fresh v.type (← bits v)
    return (name, copy) :: (← copyCaptured more)

/-- A number and an address for a new function of a type. -/
def newStub (type : TypeId) : Exec (Nat × UInt64) :=
  modifyGet fun m =>
    match m.functions.reuse type with
    | some (found, functions) => (found, { m with functions })
    | none =>
      let id := m.functions.nextId
      let stub := m.addresses.stub
      ((id, stub), { m with
        code := m.code.insert stub (.stub type id)
        addresses := { m.addresses with stub := stub + 16 } })

/-- The address of the function whose body lies at `entry`. A function without captures is made once
for each place; it belongs to the innermost level or to the outermost one. -/
def createFunction (chunk : Chunk) (entry len : Nat) (capture : Capture) (type : TypeId)
    (name : NameId) (inner : Bool) : Exec UInt64 := do
  let type ← resolveType type
  if (← get).types.kind type ≠ .function then raise .notAFunction
  let key := (chunk.serial, entry)
  let cached := (← get).functions.cached? key
  let known := if capture = .nothing then cached else none
  match known with
  | some stub => return stub
  | none =>
    let (id, stub) ← newStub type
    let visible := (← get).scopes.visibleFrom (← get).base
    let captured ← match capture with
      | .nothing => pure []
      | .shared => pure visible
      | .copyPerCall | .copyOnce => copyCaptured visible
    let f : ScriptFunction :=
      { name, file := (← get).frame.file, chunk, entry, len, capture, captured, type, stub,
        key := if capture = .nothing then some key else none }
    modify fun m =>
      let level := if inner then m.topLevel else 0
      let (owner, heap) := m.heap.track stub type level (.function id)
      { m with
        functions := m.functions.insert id f
        heap
        scopes := m.scopes.addAlloc level owner
        journal := .placed m.heap.nextSeq level :: m.journal }
    return stub

/-- Reads how a body captures and where it is, and makes a function of it. -/
def readFunction (type : TypeId) (name : NameId) (inner : Bool) : Run UInt64 := do
  let capture ← Run.next Reader.capture
  let chunk := (← getThe Reader).chunk
  let (entry, len) ← Run.next Reader.skip
  createFunction chunk entry len capture type name inner

end Exec

end LevelScript
