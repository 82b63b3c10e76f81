import LevelScript.Listing
import LevelScript.Machine.Run

/-!
# Sessions

What a program that embeds the machine can do with it: run texts and files, and read and write
global variables, which stay from one run to the next.
-/

namespace LevelScript

/-- Plain values that can be moved in and out of global variables. -/
inductive Scalar where
  | int (size : Nat) (signed : Bool)
  | float32
  | float64
  deriving Repr, DecidableEq

def Scalar.size : Scalar → Nat
  | int size _ => size
  | float32 => 4
  | float64 => 8

namespace Session

open Exec

/-- Ends a run: the machine goes back to its outermost level, and the error is raised again. -/
def finish (i : Interp) (body : Exec Unit) : Exec Unit := do
  let outcome ← attempt body
  i.reset
  match outcome with
  | .ok () => return
  | .error e => throw (.raised e)

def memoryFile : String := "<memory>"

def runAs (i : Interp) (source file : String) : Exec Unit := finish i (i.runSource source file)

def run (i : Interp) (source : String) : Exec Unit := runAs i source memoryFile

def runFile (i : Interp) (path : String) : Exec Unit := finish i (i.runFile path)

def disassemble (source file : String) : Exec String := do
  match ← compileSource source file with
  | .ok chunk => return LevelScript.disassemble chunk.bytes (← get).names
  | .error e => throw (.raised e)

/-! ## Global variables -/

def global? (name : String) : Exec (Option Variable) := do
  let m ← get
  return (m.names.get? name).bind fun id => m.scopes.lookup id 0

/-- The bytes of a global variable, the lowest first. -/
def getBytes (name : String) : Exec (Option (List UInt8)) := do
  match ← global? name with
  | none => return none
  | some v =>
    let size := (← typeInfo v.type).valueSize
    return some (bytesLE size (← bits v).toNat)

/-- Overwrites a global variable with the first bytes of a list; constants cannot be changed. -/
def setBytes (name : String) (bytes : List UInt8) : Exec Bool := do
  match ← global? name with
  | none => return false
  | some v =>
    let t ← typeInfo v.type
    if t.isConst || bytes.length < t.valueSize then return false
    store v (ofBytesLE (bytes.take t.valueSize)).toUInt64
    return true

/-- The bits of a global variable of the same size as the scalar. -/
def getScalar (s : Scalar) (name : String) : Exec (Option UInt64) := do
  match ← getBytes name with
  | none => return none
  | some bytes => return if bytes.length = s.size then some (ofBytesLE bytes).toUInt64 else none

def setScalar (s : Scalar) (name : String) (value : UInt64) : Exec Bool := do
  match ← getBytes name with
  | none => return false
  | some bytes =>
    if bytes.length = s.size then setBytes name (bytesLE s.size value.toNat) else return false

/-- The value of a global variable as text. -/
def render (i : Interp) (name : String) : Exec (Option String) := do
  match ← global? name with
  | none => return none
  | some v => return some (← renderVariable i.fuel v)

def typeOf (name : String) : Exec (Option String) := do
  match ← global? name with
  | none => return none
  | some v => return some (← displayType v.type)

/-! ## Output -/

def writeLine (text : String) : Exec Unit :=
  modify fun m => { m with output := m.output ++ text ++ "\n" }

def printVariable (i : Interp) (name : String) : Exec Bool := do
  match ← typeOf name, ← render i name with
  | some type, some value =>
    writeLine (type ++ " " ++ name ++ " = " ++ value)
    return true
  | _, _ => return false

def printType (name : String) : Exec Bool := do
  match ← typeOf name with
  | some type =>
    writeLine type
    return true
  | none => return false

/-! ## Calls from outside -/

/-- What a call of code from outside of a run can come to. -/
inductive CallOutcome where
  | result (r : NativeResult)
  /-- There is no code at address zero. -/
  | nullCode
  /-- An invalid access that nothing stops. -/
  | crashed (addr : UInt64)

def nullCodeMessage : String := "Cannot call a null native function"

/-- Calls an address of code as native code does. -/
def callCode (i : Interp) (addr : UInt64) (args : List NativeArg) : Exec CallOutcome := do
  if addr = 0 then return .nullCode
  match ← i.enterCode i.fuel addr args with
  | .ok r => return .result r
  | .error addr => return .crashed addr

end Session

end LevelScript
