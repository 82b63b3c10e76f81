import LevelScript.Grammar
import LevelScript.Machine.Command

/-!
# Running source texts

A source text is compiled and its commands are run in the outermost level or, if it is included, in
the innermost. The value of the last command that succeeded is kept as the result, also after an
error.
-/

namespace LevelScript

namespace Exec

def errorHere (cause : Cause) : Exec RunError := return ⟨cause, (← get).trace⟩

/-- Compiles a text; its bytecode gets a number of its own. -/
def compileSource (source file : String) : Exec (Except RunError Chunk) :=
  modifyGet fun m =>
    match compile source file m.names with
    | .ok (bytes, names) =>
      (.ok { serial := m.chunks, bytes }, { m with names, chunks := m.chunks + 1 })
    | .error e => (.error (.ofSyntax e), m)

def setFile (index : Nat) (file : NameId) : Exec Unit :=
  modify fun m => { m with frames := m.frames.modify index ({ · with file }) }

def keepResult (type : TypeId) (bits : UInt64) : Exec Unit := do
  let v ← fresh type bits
  modify fun m =>
    match m.scopes.assign NameId.result 0 v with
    | some scopes => { m with scopes }
    | none => m

end Exec

namespace Interp

open Exec

/-- Runs commands up to the end of a text: the last value, and the error that stopped it. -/
def topCommands (i : Interp) : Nat → Reader → Variable → Exec (Variable × Option RunError)
  | 0, _, _ => outOfFuel
  | n + 1, r, last => do
    if r.atEnd then return (last, none)
    match ← attempt (i.command.run r) with
    | .error e => return (last, some e)
    | .ok (none, _) => return (last, none)
    | .ok (some v, r) =>
      match (← get).control with
      | .running => topCommands i n r v
      | .returning v => return (v, none)
      | .continuing => return (last, some (← errorHere .continueOutside))
      | .breaking => return (last, some (← errorHere .breakOutside))

/-- Compiles and runs a text: the last value, and the error that stopped it. -/
def topLevel (i : Interp) (source file : String) : Exec (Variable × Option RunError) := do
  match ← compileSource source file with
  | .error e => return (voidValue, some e)
  | .ok chunk =>
    let (file, r) := (Reader.ofChunk chunk).name
    setFile ((← get).frames.size - 1) file
    i.topCommands i.fuel r voidValue

def runSource (i : Interp) (source file : String) : Exec Unit := do
  let index := (← get).frames.size - 1
  let before := (← get).frame.file
  let (last, error) ← i.topLevel source file
  setControl .running
  let value ← bits last
  let error ← match error with
    | some e => pure (some e)
    | none =>
      match ← attempt checkFault with
      | .ok () => pure none
      | .error e => pure (some e)
  keepResult last.type value
  setFile index before
  match error with
  | some e => throw (.raised e)
  | none => return

/-- The interpreter that runs at most `fuel` parts inside each other. -/
def ofFuel : Nat → Interp
  | 0 =>
    { fuel := 0
      eval := fun _ => outOfFuel
      command := fun _ => outOfFuel
      call := fun _ _ => outOfFuel
      source := fun _ _ => outOfFuel }
  | n + 1 =>
    { fuel := n
      eval := fun r => (ofFuel n).expression r
      command := fun r => (ofFuel n).oneCommand r
      call := fun f args => (ofFuel n).callFunction f args
      source := fun source file => (ofFuel n).runSource source file }

def runFile (i : Interp) (path : String) : Exec Unit := do
  let (path, source) ← loadSource path
  i.runSource source path

/-- Goes back to the outermost level and call. -/
def reset (i : Interp) : Exec Unit := do
  i.unwind 1 1
  modify ({ · with control := .running, parked := none })

def shutdown (i : Interp) : Exec Unit := do
  modify fun m =>
    let (file, names) := m.names.intern "<context destroy>"
    { m with names, frames := (m.frames.take 1).modify 0 ({ · with file }) }
  closeTo i.closeLevel 0 i.fuel

end Interp

namespace Machine

/-- A machine before its first run: one level, with the result in it, and one call. -/
def start (m : Machine) : Machine :=
  let (file, names) := m.names.intern "<memory>"
  let slot := m.addresses.slot
  let result := Variable.atAddress TypeTable.void slot
  { m with
    names
    scopes := (m.scopes.push.declare NameId.result result).getD {}
    frames := #[{ name := NameId.global, file, base := 0 }]
    addresses := { m.addresses with slot := slot + 16 } }

end Machine

end LevelScript
