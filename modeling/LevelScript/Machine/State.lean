import LevelScript.Function
import LevelScript.Machine.Failure
import LevelScript.Memory
import LevelScript.Native.Action
import LevelScript.Scope
import LevelScript.Settings
import LevelScript.Sources
import LevelScript.Types.Display

/-!
# The state of the machine

All that a running script can change, and the computations on it. A computation ends with a value,
with an error, or because it was cut short; the state is there in each case.
-/

namespace LevelScript

inductive Control where
  | running
  | returning (value : Variable)
  | continuing
  | breaking
  deriving Repr, DecidableEq, Inhabited

def Control.isRunning : Control → Bool
  | running => true
  | _ => false

/-- What an address of code does when native code jumps to it. -/
inductive Code where
  | native (f : NativeFunction)
  /-- Enters the script function of a number with arguments of a type. -/
  | stub (type : TypeId) (id : Nat)

/-- Where the next addresses of each sort are taken from. -/
structure Addresses where
  slot : UInt64 := 0x200000000000
  stub : UInt64 := 0x300000000000
  text : UInt64 := 0x400000000000
  deriving Inhabited

/-- What a run does beside its results. -/
inductive Event where
  | nativeCall (addr : UInt64)
  /-- An allocation, by its number, was given to a level when it was made or moved. -/
  | placed (seq level : Nat)
  /-- A script asked for an allocation to be released. -/
  | deleted (seq : Nat)
  /-- A level was taken away; what it owned is released next. -/
  | closed (level : Nat)
  | finalized (seq : Nat)
  deriving Repr, DecidableEq

structure Machine where
  types : TypeTable := .initial
  names : Names := .initial
  memory : Memory := {}
  heap : Heap := {}
  scopes : Scopes := {}
  /-- The open calls, the innermost last. -/
  frames : Array Frame := #[]
  functions : FunctionTable := {}
  settings : Settings := {}
  sources : Sources := fun _ => none
  /-- Names that external declarations can refer to. -/
  symbols : Std.HashMap String UInt64 := ∅
  code : Std.HashMap UInt64 Code := ∅
  control : Control := .running
  /-- The first error in a script function that native code has called. -/
  parked : Option RunError := none
  /-- The first invalid access that has not been raised yet. -/
  pending : Option UInt64 := none
  /-- Where the texts of names are, for those that have been asked for. -/
  texts : Std.HashMap NameId UInt64 := ∅
  addresses : Addresses := {}
  chunks : Nat := 0
  output : String := ""
  errors : String := ""
  lines : Array String := #[]
  /-- All that has happened, the last first. -/
  journal : List Event := []
  deriving Inhabited

/-- What ends a computation early. -/
inductive Halt where
  | raised (e : RunError)
  | outOfFuel

abbrev Exec := EStateM Halt Machine

namespace Exec

def attempt (x : Exec α) : Exec (Except RunError α) := fun m =>
  match x m with
  | .ok a m => .ok (.ok a) m
  | .error (.raised e) m => .ok (.error e) m
  | .error .outOfFuel m => .error .outOfFuel m

def outOfFuel : Exec α := throw .outOfFuel

end Exec

namespace Machine

/-! ## Frames -/

def frame (m : Machine) : Frame := m.frames.back?.getD default

/-- The first level of the innermost call. -/
def base (m : Machine) : Nat := m.frame.base

def topLevel (m : Machine) : Nat := m.scopes.depth - 1

def modifyFrame (m : Machine) (f : Frame → Frame) : Machine :=
  { m with frames := m.frames.modify (m.frames.size - 1) f }

def setPosition (m : Machine) (row col : Int) : Machine := m.modifyFrame ({ · with row, col })

/-- The open calls as a report shows them. -/
def trace (m : Machine) : List TraceFrame :=
  m.frames.toList.reverse.map fun f => ⟨m.names.text f.name, m.names.text f.file, f.row, f.col⟩

end Machine

namespace Exec

/-- Ends with an error at the current place. -/
def raise (cause : Cause) : Exec α := do
  throw (.raised ⟨cause, (← get).trace⟩)

def nameText (name : NameId) : Exec String := return (← get).names.text name

/-- Raises an invalid access that is still to be raised. -/
def checkFault : Exec Unit := do
  match (← get).pending with
  | none => return
  | some addr =>
    modify ({ · with pending := none })
    raise (.fault addr)

/-- Runs `body` at a place; afterwards the place is the old one, unless there was an error. -/
def atPlace (row col : Int) (body : Exec α) : Exec α := do
  let before := (← get).frame
  modify (·.setPosition row col)
  let a ← body
  modify (·.setPosition before.row before.col)
  return a

/-- Changes the table of types. -/
def withTypes (f : TypeTable → α × TypeTable) : Exec α :=
  modifyGet fun m =>
    let (a, types) := f m.types
    (a, { m with types })

def typeInfo (id : TypeId) : Exec TypeInfo := return (← get).types.get id

def kindOf (v : Variable) : Exec Kind := return (← get).types.kind v.type

def displayType (id : TypeId) : Exec String := do
  let m ← get
  return m.types.display m.names id

/-! ## Errors -/

def logError (e : RunError) : Exec Unit :=
  modify fun m => { m with errors := m.errors ++ e.report ++ "\n" }

def note (e : Event) : Exec Unit := modify fun m => { m with journal := e :: m.journal }

/-- Keeps an error for the end of a native call, unless there is one. -/
def park (e : RunError) : Exec Unit :=
  modify fun m => { m with parked := m.parked <|> some e }

/-- The error that was kept. -/
def takeParked : Exec (Option RunError) := modifyGet fun m => (m.parked, { m with parked := none })

end Exec

end LevelScript
