import LevelScript.Types.Basic
import Std.Data.HashMap

/-!
# The heap

Allocations are kept in numbered slots. A slot counts how often it was emptied, and a handle is
only good for the count it was given out with, so the handle of a released allocation stays dead
when its slot is used again.
-/

namespace LevelScript

structure AllocId where
  index : Nat
  generation : Nat
  deriving Repr, DecidableEq, Inhabited

/-- What else has to happen when an allocation is released. -/
inductive Cleanup where
  | nothing
  | struct
  | function (id : Nat)
  deriving Repr, DecidableEq, Inhabited

structure Allocation where
  addr : UInt64
  size : UInt64
  type : TypeId
  level : Nat
  cleanup : Cleanup
  /-- Allocations are numbered in the order of their creation. -/
  seq : Nat
  deriving Repr, DecidableEq, Inhabited

structure HeapSlot where
  generation : Nat := 0
  entry : Option Allocation := none
  deriving Inhabited

structure Heap where
  slots : Array HeapSlot := #[]
  /-- Empty slots, the last emptied first. -/
  free : List Nat := []
  byAddr : Std.HashMap UInt64 AllocId := ∅
  nextSeq : Nat := 0
  /-- Where the next block of memory starts. -/
  nextAddr : UInt64 := 0x100000000000

namespace Heap

def size (h : Heap) : Nat := h.byAddr.size

def isEmpty (h : Heap) : Bool := h.byAddr.isEmpty

def insert (h : Heap) (a : Allocation) : AllocId × Heap :=
  let (id, h) := match h.free with
    | index :: free =>
      let generation := (h.slots[index]?.getD {}).generation
      (AllocId.mk index generation,
        { h with slots := h.slots.setIfInBounds index ⟨generation, some a⟩, free := free })
    | [] => (AllocId.mk h.slots.size 0, { h with slots := h.slots.push ⟨0, some a⟩ })
  (id, { h with byAddr := h.byAddr.insert a.addr id })

/-- No block is larger than the part of the address space that the heap has. -/
def maxSize : UInt64 := 0x0FFFFFFFFFFF

/-- The addresses that a block of `size` bytes takes up, in steps of sixteen. -/
def blockStep (size : UInt64) : UInt64 := (size / 16 + 1) * 16

def addBlock (h : Heap) (size : UInt64) (type : TypeId) (level : Nat) (cleanup : Cleanup) :
    AllocId × UInt64 × Heap :=
  let addr := h.nextAddr
  let seq := h.nextSeq
  let h := { h with nextAddr := addr + blockStep size, nextSeq := seq + 1 }
  let (id, h) := h.insert ⟨addr, size, type, level, cleanup, seq⟩
  (id, addr, h)

/-- A new block of zeros, unless it is too large. -/
def allocate (h : Heap) (size : UInt64) (type : TypeId) (level : Nat) (cleanup : Cleanup) :
    Option (AllocId × UInt64 × Heap) :=
  if maxSize < size then none else some (h.addBlock size type level cleanup)

/-- Keeps track of an address that has no block of its own. -/
def track (h : Heap) (addr : UInt64) (type : TypeId) (level : Nat) (cleanup : Cleanup) :
    AllocId × Heap :=
  let seq := h.nextSeq
  { h with nextSeq := seq + 1 }.insert ⟨addr, 0, type, level, cleanup, seq⟩

def find? (h : Heap) (addr : UInt64) : Option AllocId := h.byAddr[addr]?

def get? (h : Heap) (id : AllocId) : Option Allocation :=
  match h.slots[id.index]? with
  | some slot => if slot.generation = id.generation then slot.entry else none
  | none => none

def setLevel (h : Heap) (id : AllocId) (level : Nat) : Heap :=
  match h.get? id with
  | some a =>
    { h with slots := h.slots.setIfInBounds id.index ⟨id.generation, some { a with level }⟩ }
  | none => h

/-- Generations are counted in 32 bits. -/
def nextGeneration (generation : Nat) : Nat := (generation + 1) % UInt32.size

/-- The heap without a live allocation, which has the given address. -/
def remove (h : Heap) (id : AllocId) (addr : UInt64) : Heap :=
  { h with
    slots := h.slots.setIfInBounds id.index ⟨nextGeneration id.generation, none⟩
    free := id.index :: h.free
    byAddr := h.byAddr.erase addr }

def take (h : Heap) (id : AllocId) : Option (Allocation × Heap) :=
  (h.get? id).map fun a => (a, h.remove id a.addr)

end Heap

end LevelScript
