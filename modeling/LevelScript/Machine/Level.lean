import LevelScript.Machine.Struct

/-!
# Levels and what they own

Every allocation belongs to a level and is released with it: first the structs, then the rest, each
group from the newest to the oldest. A struct's method `delete` runs before; an error in it is
reported and stops nothing else.
-/

namespace LevelScript

namespace Exec

def pushLevel : Exec Unit := modify fun m => { m with scopes := m.scopes.push }

def popLevel? : Exec (Option Level) :=
  modifyGet fun m => (m.scopes.innermost?, { m with scopes := m.scopes.outer })

/-- A new block of zeros, owned by the innermost level or by the outermost one. -/
def allocate (size : UInt64) (type : TypeId) (inner : Bool) (cleanup : Cleanup) : Exec UInt64 := do
  if Heap.maxSize < size then raise (.cannotAllocate size)
  modifyGet fun m =>
    let level := if inner then m.topLevel else 0
    let (id, addr, heap) := m.heap.addBlock size type level cleanup
    (addr, { m with
      heap
      scopes := m.scopes.addAlloc level id
      journal := .placed m.heap.nextSeq level :: m.journal })

def moveAllocation (addr : UInt64) (level : Nat) : Exec Unit :=
  modify fun m =>
    match m.heap.find? addr with
    | none => m
    | some id =>
      let scopes := match m.heap.get? id with
        | some a => m.scopes.removeAlloc a.level id
        | none => m.scopes
      { m with
        heap := m.heap.setLevel id level
        scopes := scopes.addAlloc level id
        journal := match m.heap.get? id with
          | some a => .placed a.seq level :: m.journal
          | none => m.journal }

def takeAllocation (id : AllocId) : Exec (Option Allocation) :=
  modifyGet fun m =>
    match m.heap.get? id with
    | some a => (some a, { m with heap := m.heap.remove id a.addr })
    | none => (none, m)

def releaseFunction (id : Nat) : Exec Unit :=
  modify fun m =>
    match m.functions.get? id with
    | some f => { m with functions := m.functions.remove id f }
    | none => m

end Exec

namespace Heap

/-- Whether `a` is released before `b`. -/
def releasedBefore (a b : Allocation) : Bool :=
  let plain (x : Allocation) : Bool := x.cleanup != .struct
  if plain a == plain b then b.seq ≤ a.seq else plain b

def releaseOrder (h : Heap) (ids : List AllocId) : List AllocId :=
  let live := ids.filterMap fun id => (h.get? id).map fun a => (id, a)
  (live.mergeSort fun x y => releasedBefore x.2 y.2).map (·.1)

end Heap

namespace Interp

/-- Closes levels until `depth` are left. -/
def closeTo (close : Exec Unit) (depth : Nat) : Nat → Exec Unit
  | 0 => Exec.outOfFuel
  | n + 1 => do
    if depth < (← get).scopes.depth then
      close
      closeTo close depth n

/-- Drops calls and levels beyond the given numbers; one call always stays. -/
def unwindWith (i : Interp) (close : Exec Unit) (depth frames : Nat) : Exec Unit := do
  modify fun m => { m with frames := m.frames.take (max frames 1) }
  closeTo close depth i.fuel

/-- What happens to an allocation that has been taken out of the heap. If `delete` fails, the levels
it left open are closed. -/
def finalize (i : Interp) (close : Exec Unit) (depth : Nat) (a : Allocation) : Exec Unit := do
  Exec.note (.finalized a.seq)
  match a.cleanup with
  | .nothing => return
  | .function id => Exec.releaseFunction id
  | .struct =>
    let frames := (← get).frames.size
    match ← Exec.attempt (i.callMethod a.type a.addr NameId.destructor) with
    | .ok () => return
    | .error e =>
      Exec.logError e
      i.unwindWith close depth frames
      modify ({ · with control := .running })

def finalizeAll (i : Interp) (close : Exec Unit) (depth : Nat) : List AllocId → Exec Unit
  | [] => return
  | id :: ids => do
    match ← Exec.takeAllocation id with
    | some a => i.finalize close depth a
    | none => pure ()
    finalizeAll i close depth ids

def closeLevelWithin (i : Interp) : Nat → Exec Unit
  | 0 => Exec.outOfFuel
  | n + 1 => do
    match ← Exec.popLevel? with
    | none => return
    | some level =>
      let m ← get
      Exec.note (.closed m.scopes.depth)
      i.finalizeAll (closeLevelWithin i n) m.scopes.depth (m.heap.releaseOrder level.allocs.toList)

def closeLevel (i : Interp) : Exec Unit := i.closeLevelWithin i.fuel

/-- Drops calls and levels beyond the given numbers. -/
def unwind (i : Interp) (depth frames : Nat) : Exec Unit := i.unwindWith i.closeLevel depth frames

def free (i : Interp) (addr : UInt64) : Exec Unit := do
  let m ← get
  match m.heap.find? addr with
  | none => return
  | some id =>
    match m.heap.get? id with
    | some a =>
      modify fun m => { m with
        scopes := m.scopes.removeAlloc a.level id
        journal := .deleted a.seq :: m.journal }
    | none => pure ()
    match ← Exec.takeAllocation id with
    | some a => i.finalize i.closeLevel (← get).scopes.depth a
    | none => return

def levelBlock (i : Interp) (r : Reader) : Exec Variable := do
  Exec.pushLevel
  let v ← i.block r
  i.closeLevel
  return v

end Interp

end LevelScript
