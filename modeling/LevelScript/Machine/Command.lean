import LevelScript.Machine.Expression

/-!
# Commands

A command has a value and may change the control: to return, or to leave or repeat a loop. Blocks
stop at such a change, and loops and functions take it back.
-/

namespace LevelScript

/-- The range of a counting loop. A negative step goes from the upper bound down. -/
structure LoopRange where
  signed : Bool
  down : Bool
  low : UInt64
  lowExcluded : Bool
  high : UInt64
  highExcluded : Bool
  deriving Repr, DecidableEq

namespace LoopRange

def compare (l : LoopRange) (a b : UInt64) : Ordering := Integer.compare l.signed a b

def first (l : LoopRange) : UInt64 := if l.down then l.high else l.low

def firstExcluded (l : LoopRange) : Bool := if l.down then l.highExcluded else l.lowExcluded

def contains (l : LoopRange) (x : UInt64) : Bool :=
  let above := l.compare x l.low
  let below := l.compare x l.high
  (if l.lowExcluded then above == .gt else above != .lt)
    && (if l.highExcluded then below == .lt else below != .gt)

/-- Whether a step from `x` to `y` went in the direction of the loop: a number that wraps around, or
that stays, ends it. -/
def advances (l : LoopRange) (x y : UInt64) : Bool :=
  l.compare y x == if l.down then .lt else .gt

end LoopRange

namespace Exec

def setControl (control : Control) : Exec Unit := modify ({ · with control })

/-- Takes a change of control back that a loop answers; whether the loop goes on. -/
def loopControl : Exec Bool := do
  match (← get).control with
  | .running => return true
  | .continuing =>
    setControl .running
    return true
  | .breaking =>
    setControl .running
    return false
  | .returning _ => return false

end Exec

namespace Interp

open Exec

def ifElse (i : Interp) : Run Variable := do
  let truth ← truthy (← i.value)
  let yes ← Run.enter
  let no ← if ← Run.bool then some <$> Run.enter else pure none
  if truth then i.levelBlock yes
  else match no with
    | some no => i.levelBlock no
    | none => return voidValue

/-- A loop whose condition starts at `start`. -/
def whileFrom (i : Interp) (start : Nat) : Nat → Variable → Run Variable
  | 0, _ => outOfFuel
  | n + 1, last => do
    modifyThe Reader (·.seek start)
    let truth ← truthy (← i.value)
    let body ← Run.enter
    if !truth then return last
    let last ← i.levelBlock body
    if ← loopControl then whileFrom i start n last else return last

/-- Ends a round of a counting loop, and goes on with `again` from the value that the variable has
in the end. -/
def nextRound (i : Interp) (l : LoopRange) (type : TypeId) (name : NameId) (step x : UInt64)
    (last : Variable) (again : UInt64 → Exec Variable) : Exec Variable := do
  let m ← get
  let x ← match m.scopes.lookup name m.base with
    | some v => bits v
    | none => pure x
  let next := extend (← typeInfo type) (x + step)
  i.closeLevel
  if l.advances x next then again next else return last

/-- Rounds of a counting loop. The variable is new in each of them. -/
def forRounds (i : Interp) (l : LoopRange) (type : TypeId) (name : NameId) (step : UInt64)
    (body : Reader) : Nat → UInt64 → Variable → Exec Variable
  | 0, _, _ => outOfFuel
  | n + 1, x, last => do
    if !l.contains x then return last
    pushLevel
    discard (declare name (← fresh type x))
    let last ← i.block body
    if ← loopControl then
      i.nextRound l type name step x last fun next => forRounds i l type name step body n next last
    else
      i.closeLevel
      return last

def forLoop (i : Interp) : Run Variable := do
  let type ← resolveType (← i.type)
  let t ← typeInfo type
  if !t.kind.isInteger then raise .notAnIntegerType
  let name ← Run.name
  let low ← castBits type (← i.value)
  let lowExcluded ← Run.bool
  let high ← castBits type (← i.value)
  let highExcluded ← Run.bool
  let step ← if ← Run.bool then castBits TypeTable.int64 (← i.value) else pure 1
  let body ← Run.enter
  let l : LoopRange :=
    { signed := t.isSignedInteger, down := step.toInt64 < 0, low, lowExcluded, high, highExcluded }
  let start := if l.firstExcluded then extend t (l.first + step) else l.first
  i.forRounds l type name step body i.fuel start voidValue

structure Handler where
  silent : Bool
  bound : Option NameId
  body : Reader

def handler? : Run (Option Handler) := do
  if !(← Run.bool) then return none
  let silent ← Run.bool
  let bound ← Run.name?
  return some { silent, bound, body := ← Run.enter }

/-- The value under which a handler gets an error: what was thrown, or the message. -/
def caughtValue (e : RunError) : Exec Variable := do
  match e.payload? with
  | some v => fresh v.type (← bits v)
  | none =>
    let name ← modifyGet fun m =>
      let (name, names) := m.names.intern e.message
      (name, { m with names })
    textValue name

/-- Goes on after an error in a block. -/
def handle (i : Interp) (e : RunError) (handler : Option Handler) : Exec Variable := do
  let logged := (← get).settings.logCaughtErrors
  match handler with
  | none =>
    if logged then logError e
    return voidValue
  | some h =>
    if logged && !h.silent then logError e
    pushLevel
    if let some name := h.bound then discard (declare name (← caughtValue e))
    let v ← i.block h.body
    i.closeLevel
    return v

def tryCatch (i : Interp) : Run Variable := do
  let m ← getThe Machine
  let depth := m.scopes.depth
  let frames := m.frames.size
  let body ← Run.enter
  let handler ← handler?
  match ← attempt (i.levelBlock body) with
  | .ok v => return v
  | .error e =>
    i.unwind depth frames
    setControl .running
    i.handle e handler

def throwValue (i : Interp) : Run Variable := do
  let v ← i.value
  let text ← if ← Run.bool then nameText (← Run.name) else renderVariable i.fuel v
  let frames := (← getThe Machine).trace
  throw (.raised ⟨.thrown (← toValue v) text, frames⟩)

def returnValue (i : Interp) : Run Variable := do
  let v ← if ← Run.bool then i.value else pure voidValue
  setControl (.returning v)
  return v

def body (i : Interp) (op : Opcode) : Run Variable := do
  match op with
  | .ifElse => i.ifElse
  | .whileLoop => i.whileFrom (← getThe Reader).pos i.fuel voidValue
  | .forLoop => i.forLoop
  | .returnValue => i.returnValue
  | .continueLoop =>
    setControl .continuing
    return voidValue
  | .breakLoop =>
    setControl .breaking
    return voidValue
  | .tryCatch => i.tryCatch
  | .throwValue => i.throwValue
  | .codeblock => i.levelBlock (← Run.enter)
  | .expression => return (← i.eval).getD voidValue
  | other => raise (.unexpectedCommand other)

def oneCommand (i : Interp) : Run (Option Variable) := do
  let op ← Run.next Reader.opcode
  if op = .endMark then return none
  let (row, col) ← Run.place
  Run.atPlace row col do
    let v ← i.body op
    checkFault
    return some v

end Interp

end LevelScript
