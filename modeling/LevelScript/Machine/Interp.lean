import LevelScript.Machine.Access

/-!
# The parts of the interpreter

Expressions, commands, calls and source texts can contain each other. Each part of the interpreter
is written against an `Interp`, which runs what is inside it, and `fuel` bounds how often a part
repeats itself.
-/

namespace LevelScript

/-- A computation that reads bytecode. -/
abbrev Run := StateT Reader Exec

structure Interp where
  fuel : Nat
  /-- Evaluates one expression; an end mark alone has no value. -/
  eval : Run (Option Variable)
  /-- Runs one command; an end mark alone has no value. -/
  command : Run (Option Variable)
  call : Variable → List Variable → Exec Variable
  source : String → String → Exec Unit

namespace Run

def next (read : Reader → α × Reader) : Run α := fun r => pure (read r)

def bool : Run Bool := next Reader.bool

def name : Run NameId := next Reader.name

def name? : Run (Option NameId) := do
  if ← bool then return some (← name) else return none

/-- A reader inside the next block; the block is passed. -/
def enter : Run Reader := next Reader.enter

def place : Run (Int × Int) := do
  let row ← next Reader.i32
  let col ← next Reader.i32
  return (row, col)

/-- Runs `body` at a place, as in `Exec.atPlace`. -/
def atPlace (row col : Int) (body : Run α) : Run α := fun r => Exec.atPlace row col (body r)

end Run

namespace Interp

def value (i : Interp) : Run Variable := do
  match ← i.eval with
  | some v => return v
  | none => Exec.raise .expectedValue

def values (i : Interp) : Nat → Run (List Variable)
  | 0 => Exec.outOfFuel
  | n + 1 => do
    match ← i.eval with
    | none => return []
    | some v => return v :: (← values i n)

def type (i : Interp) : Run TypeId := do
  Exec.expectType (← i.value)

/-- Runs commands until the end of a block or until the control leaves it. The last value is that
of the block. -/
def commands (i : Interp) (last : Variable) : Nat → Run Variable
  | 0 => Exec.outOfFuel
  | n + 1 => do
    if (← getThe Machine).control.isRunning then
      match ← i.command with
      | some v => commands i v n
      | none => return last
    else return last

def block (i : Interp) (r : Reader) : Exec Variable :=
  (i.commands Exec.voidValue i.fuel).run' r

end Interp

end LevelScript
