/-!
# Arguments of native calls

Which argument goes into which register, and which onto the stack. Under the System V rule integers
and floats fill registers of their own; under the Windows rule the first four arguments have fixed
places.
-/

namespace LevelScript

inductive NativeArg where
  | int (bits : UInt64)
  | float32 (bits : UInt32)
  | float64 (bits : UInt64)
  deriving Repr, DecidableEq

inductive ArgClass where
  | int | float
  deriving Repr, DecidableEq

namespace NativeArg

def bits : NativeArg → UInt64
  | int bits => bits
  | float32 bits => bits.toUInt64
  | float64 bits => bits

def argClass : NativeArg → ArgClass
  | int _ => .int
  | float32 _ | float64 _ => .float

end NativeArg

/-- Six integer registers, eight float registers, and what is left, in order. -/
structure CallFrame where
  ints : List UInt64
  floats : List UInt64
  stack : List UInt64
  deriving Repr, DecidableEq

namespace CallFrame

def intRegisters : Nat := 6
def floatRegisters : Nat := 8

def pad (count : Nat) (regs : List UInt64) : List UInt64 :=
  regs ++ List.replicate (count - regs.length) 0

/-- Places arguments when `ints` and `floats` registers are still free. -/
def place : Nat → Nat → List NativeArg → CallFrame
  | _, _, [] => ⟨[], [], []⟩
  | ints, floats, arg :: args =>
    match arg.argClass, ints, floats with
    | .int, ints + 1, floats =>
      let rest := place ints floats args
      { rest with ints := arg.bits :: rest.ints }
    | .float, ints, floats + 1 =>
      let rest := place ints floats args
      { rest with floats := arg.bits :: rest.floats }
    | _, ints, floats =>
      let rest := place ints floats args
      { rest with stack := arg.bits :: rest.stack }

def systemV (args : List NativeArg) : CallFrame :=
  let placed := place intRegisters floatRegisters args
  ⟨pad intRegisters placed.ints, pad floatRegisters placed.floats, placed.stack⟩

/-- The first four arguments by position; a float is also in the integer register beside it. -/
def windows (args : List NativeArg) : CallFrame :=
  let first := args.take 4
  let floatBits (a : NativeArg) : UInt64 := match a.argClass with
    | .int => 0
    | .float => a.bits
  ⟨pad intRegisters (first.map NativeArg.bits), pad floatRegisters (first.map floatBits),
    (args.drop 4).map NativeArg.bits⟩

/-- Reads arguments back when `ints` and `floats` registers are unread, knowing the classes. -/
def fetch : List UInt64 → List UInt64 → List UInt64 → List ArgClass → List UInt64
  | _, _, _, [] => []
  | i :: ints, floats, stack, .int :: cs => i :: fetch ints floats stack cs
  | [], floats, stack, .int :: cs => stack.headD 0 :: fetch [] floats stack.tail cs
  | ints, f :: floats, stack, .float :: cs => f :: fetch ints floats stack cs
  | ints, [], stack, .float :: cs => stack.headD 0 :: fetch ints [] stack.tail cs

/-- What a System V callee finds for parameters of these classes. -/
def arguments (frame : CallFrame) (classes : List ArgClass) : List UInt64 :=
  fetch frame.ints frame.floats frame.stack classes

end CallFrame

/-- The two registers that a result can be in. -/
structure NativeResult where
  int : UInt64 := 0
  float : UInt64 := 0
  deriving Repr, DecidableEq, Inhabited

end LevelScript
