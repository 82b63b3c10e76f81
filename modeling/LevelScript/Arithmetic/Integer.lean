import LevelScript.Bytecode.Opcode

/-!
# Arithmetic of integers

Integers are 64-bit words; results wrap around.
-/

namespace LevelScript

namespace Integer

/-- `base ^ exp`, modulo two to the 64th, by squaring. -/
def powMod (base : UInt64) (exp : Nat) : UInt64 :=
  if exp = 0 then 1
  else
    let half := powMod (base * base) (exp / 2)
    if exp % 2 = 1 then base * half else half
termination_by exp

def maxExponent : Nat := UInt32.size - 1

/-- A power. With a negative exponent only `1` and `-1` have powers other than zero. -/
def pow (signed : Bool) (base exp : UInt64) : UInt64 :=
  if signed && exp.toInt64 < 0 then
    if base = 1 then 1
    else if base = 0xFFFFFFFFFFFFFFFF then (if exp % 2 = 1 then base else 1)
    else 0
  else powMod base (min exp.toNat maxExponent)

/-- Division toward zero. The least integer divided by `-1` is itself. -/
def div (signed : Bool) (a b : UInt64) : UInt64 :=
  if signed then (a.toInt64 / b.toInt64).toUInt64 else a / b

def rem (signed : Bool) (a b : UInt64) : UInt64 :=
  if signed then (a.toInt64 % b.toInt64).toUInt64 else a % b

/-- Shifts count modulo 64; a signed number keeps its sign. -/
def shiftRight (signed : Bool) (a b : UInt64) : UInt64 :=
  if signed then (a.toInt64 >>> b.toInt64).toUInt64 else a >>> b

inductive Undefined where
  | byZero
  | noOperator
  deriving Repr, DecidableEq

/-- The result of a binary operator, before it is cut to the width of its type. -/
def apply (op : Opcode) (signed : Bool) (a b : UInt64) : Except Undefined UInt64 :=
  match op with
  | .addition => .ok (a + b)
  | .subtraction => .ok (a - b)
  | .multiplication => .ok (a * b)
  | .division => if b = 0 then .error .byZero else .ok (div signed a b)
  | .modulo => if b = 0 then .error .byZero else .ok (rem signed a b)
  | .power => .ok (pow signed a b)
  | .shiftLeft => .ok (a <<< b)
  | .shiftRight => .ok (shiftRight signed a b)
  | .bitAnd => .ok (a &&& b)
  | .bitOr => .ok (a ||| b)
  | .bitXor => .ok (a ^^^ b)
  | _ => .error .noOperator

def compare (signed : Bool) (a b : UInt64) : Ordering :=
  if signed then compareOfLessAndEq a.toInt64 b.toInt64 else compareOfLessAndEq a b

end Integer

end LevelScript
