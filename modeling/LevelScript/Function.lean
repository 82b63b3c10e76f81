import LevelScript.Bytecode.Reader
import LevelScript.Value

/-!
# Script functions

A function value is an address of code. The table tells which addresses belong to script functions;
the address of a released function is used again for one of the same type.
-/

namespace LevelScript

inductive Callee where
  | native (addr : UInt64)
  | script (id : Nat)
  deriving Repr, DecidableEq

structure ScriptFunction where
  name : NameId
  file : NameId
  chunk : Chunk
  entry : Nat
  len : Nat
  capture : Capture
  captured : List (NameId × Variable)
  type : TypeId
  stub : UInt64
  /-- Functions without captures are made once for each place in the code. -/
  key : Option (Nat × Nat)
  deriving Inhabited

structure FunctionTable where
  slots : Array (Option ScriptFunction) := #[]
  stubs : Array UInt64 := #[]
  byAddr : Std.HashMap UInt64 Nat := ∅
  /-- Released functions by type, the last released first. -/
  free : Std.HashMap TypeId (List Nat) := ∅
  cache : Std.HashMap (Nat × Nat) Nat := ∅

namespace FunctionTable

def classify (t : FunctionTable) (addr : UInt64) : Callee :=
  match t.byAddr[addr]? with
  | some id => .script id
  | none => .native addr

def get? (t : FunctionTable) (id : Nat) : Option ScriptFunction := (t.slots[id]?).getD none

def cached? (t : FunctionTable) (key : Nat × Nat) : Option UInt64 := do
  let id ← t.cache[key]?
  let f ← t.get? id
  return f.stub

/-- A released function of the same type, and its address. -/
def reuse (t : FunctionTable) (type : TypeId) : Option ((Nat × UInt64) × FunctionTable) :=
  match t.free[type]? with
  | some (id :: more) =>
    some ((id, t.stubs[id]?.getD 0), { t with free := t.free.insert type more })
  | _ => none

def nextId (t : FunctionTable) : Nat := t.slots.size

def padTo (n : Nat) (a : α) (xs : Array α) : Array α := xs ++ Array.replicate (n - xs.size) a

def insert (t : FunctionTable) (id : Nat) (f : ScriptFunction) : FunctionTable :=
  { t with
    slots := (padTo (id + 1) none t.slots).setIfInBounds id (some f)
    stubs := (padTo (id + 1) 0 t.stubs).setIfInBounds id f.stub
    byAddr := t.byAddr.insert f.stub id
    cache := match f.key with
      | some key => t.cache.insert key id
      | none => t.cache }

def remove (t : FunctionTable) (id : Nat) (f : ScriptFunction) : FunctionTable :=
  { t with
    slots := t.slots.setIfInBounds id none
    byAddr := t.byAddr.erase f.stub
    free := t.free.insert f.type (id :: t.free[f.type]?.getD [])
    cache := match f.key with
      | some key => t.cache.erase key
      | none => t.cache }

def release (t : FunctionTable) (id : Nat) : Option (ScriptFunction × FunctionTable) :=
  (t.get? id).map fun f => (f, t.remove id f)

end FunctionTable

end LevelScript
