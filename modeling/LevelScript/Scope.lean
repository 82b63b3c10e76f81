import LevelScript.Heap
import LevelScript.Value

/-!
# Levels and frames

Blocks open levels, which hold variables and own allocations. A call opens a frame, which says from
which level on names can be seen; level zero, with the global variables, always can.
-/

namespace LevelScript

structure Level where
  /-- Names and variables, the last declared first. -/
  vars : List (NameId × Variable) := []
  /-- Allocations that the level owns, the oldest first. -/
  allocs : Array AllocId := #[]
  /-- No name is declared twice. -/
  distinct : (vars.map (·.1)).Nodup := by exact List.nodup_nil

namespace Level

instance : Inhabited Level := ⟨{}⟩

def find? (l : Level) (name : NameId) : Option Variable := l.vars.lookup name

def declares (l : Level) (name : NameId) : Bool := (l.find? name).isSome

def declared (l : Level) : List (NameId × Variable) := l.vars.reverse

theorem declares_of_mem {l : Level} {name : NameId} (h : name ∈ l.vars.map (·.1)) : l.declares name := by
  obtain ⟨e, he, rfl⟩ := List.mem_map.mp h
  exact List.lookup_isSome_iff.mpr ⟨e, he, beq_self_eq_true e.1⟩

/-- Declares a variable, unless there is one of the name. -/
def adding (l : Level) (name : NameId) (v : Variable) : Level :=
  if h : l.declares name then l
  else { l with
    vars := (name, v) :: l.vars
    distinct := List.nodup_cons.mpr ⟨fun hm => h (declares_of_mem hm), l.distinct⟩ }

@[simp]
theorem allocs_adding (l : Level) (name : NameId) (v : Variable) : (l.adding name v).allocs = l.allocs := by
  rw [adding]
  split <;> rfl

def assign (l : Level) (name : NameId) (v : Variable) : Level :=
  { l with
    vars := l.vars.map fun (n, old) => (n, if n == name then v else old)
    distinct := by
      rw [List.map_map]
      exact l.distinct }

end Level

/-- One call: its name and file, where it is, and the first of its levels. -/
structure Frame where
  name : NameId
  file : NameId
  row : Int := 0
  col : Int := 0
  base : Nat
  /-- Arguments beyond the named parameters. -/
  varargs : Option (Array Variable) := none
  deriving Inhabited

structure Scopes where
  levels : Array Level := #[]

namespace Scopes

def depth (s : Scopes) : Nat := s.levels.size

def push (s : Scopes) : Scopes := ⟨s.levels.push {}⟩

def innermost? (s : Scopes) : Option Level := s.levels.back?

def outer (s : Scopes) : Scopes := ⟨s.levels.pop⟩

def pop (s : Scopes) : Option (Level × Scopes) := s.innermost?.map (·, s.outer)

def level? (s : Scopes) (index : Nat) : Option Level := s.levels[index]?

def modifyLevel (s : Scopes) (index : Nat) (f : Level → Level) : Scopes :=
  ⟨s.levels.modify index f⟩

def declaresAt (s : Scopes) (index : Nat) (name : NameId) : Bool :=
  match s.levels[index]? with
  | some level => level.declares name
  | none => false

def isFree (s : Scopes) (name : NameId) : Bool :=
  !s.levels.isEmpty && !s.declaresAt (s.depth - 1) name

def add (s : Scopes) (name : NameId) (v : Variable) : Scopes :=
  s.modifyLevel (s.depth - 1) (·.adding name v)

/-- Declares a variable in the innermost level, unless that has one of the name. -/
def declare (s : Scopes) (name : NameId) (v : Variable) : Option Scopes :=
  if s.isFree name then some (s.add name v) else none

/-- The innermost level below `top` and not below `low` that declares a name. -/
def searchDown (s : Scopes) (name : NameId) (low : Nat) : Nat → Option Nat
  | 0 => none
  | top + 1 =>
    if top < low then none
    else if s.declaresAt top name then some top
    else searchDown s name low top

/-- The level that a name refers to in a frame with this base. -/
def levelOf (s : Scopes) (name : NameId) (base : Nat) : Option Nat :=
  match s.searchDown name (max base 1) s.depth with
  | some i => some i
  | none => if s.declaresAt 0 name then some 0 else none

def lookup (s : Scopes) (name : NameId) (base : Nat) : Option Variable := do
  let i ← s.levelOf name base
  let level ← s.levels[i]?
  level.find? name

def assign (s : Scopes) (name : NameId) (base : Nat) (v : Variable) : Option Scopes := do
  let i ← s.levelOf name base
  return s.modifyLevel i (·.assign name v)

/-- All variables that a function created in this frame can capture, from the outside in. -/
def visibleFrom (s : Scopes) (base : Nat) : List (NameId × Variable) :=
  (s.levels.toList.drop (max base 1)).flatMap Level.declared

def addAlloc (s : Scopes) (index : Nat) (id : AllocId) : Scopes :=
  s.modifyLevel index fun l => { l with allocs := l.allocs.push id }

def removeAlloc (s : Scopes) (index : Nat) (id : AllocId) : Scopes :=
  s.modifyLevel index fun l => { l with allocs := l.allocs.filter (· != id) }

end Scopes

end LevelScript
