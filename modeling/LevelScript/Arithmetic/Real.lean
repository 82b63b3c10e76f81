import LevelScript.Decimal.Binary

/-!
# Arithmetic of floats

Floats are given by their bits. An operation on a NaN gives that NaN with its quiet bit set; an
operation that has no result gives one fixed NaN. Negation only flips the sign.
-/

namespace LevelScript

namespace Real64

abbrev Bits := UInt64

def signMask : UInt64 := 0x8000000000000000

def isNaN (bits : Bits) : Bool := 0x7FF0000000000000 < bits &&& ~~~signMask

/-- The NaN of operations without a result. -/
def invalid : Bits := 0xFFF8000000000000

def quiet (bits : Bits) : Bits := bits ||| 0x0008000000000000

/-- A binary operation with the rules for NaN around it. -/
def lift (f : Float → Float → Float) (a b : Bits) : Bits :=
  let result := (f (Float.ofBits a) (Float.ofBits b)).toBits
  if !isNaN result then result
  else if isNaN a then quiet a
  else if isNaN b then quiet b
  else invalid

def add : Bits → Bits → Bits := lift (· + ·)
def sub : Bits → Bits → Bits := lift (· - ·)
def mul : Bits → Bits → Bits := lift (· * ·)
def div : Bits → Bits → Bits := lift (· / ·)
def pow : Bits → Bits → Bits := lift Float.pow

def neg (a : Bits) : Bits := a ^^^ signMask

/-- The remainder of a division that is rounded toward zero; it has the sign of the dividend. -/
def rem (a b : Bits) : Bits :=
  if isNaN a then quiet a
  else if isNaN b then quiet b
  else match Double.ofBits a, Double.ofBits b with
    | .finite negative m e, .finite _ n f =>
      if n = 0 then invalid
      else
        let low := min e f
        let r := (m <<< (e - low).toNat) % (n <<< (f - low).toNat)
        let (num, den) := scaledFraction r low 0
        nearestBits num den ||| (if negative then signMask else 0)
    | .finite .., .infinite _ => a
    | _, _ => invalid

/-- How two doubles compare; `none` if one is a NaN. -/
def compare? (a b : Bits) : Option Ordering :=
  let (x, y) := (Float.ofBits a, Float.ofBits b)
  if x < y then some .lt
  else if x > y then some .gt
  else if x == y then some .eq
  else none

def isZero (a : Bits) : Bool := a &&& ~~~signMask = 0

def ofUnsigned (n : UInt64) : Bits := n.toFloat.toBits

def ofSigned (n : UInt64) : Bits := n.toInt64.toFloat.toBits

/-- The integer part, or the nearest integer there is; a NaN gives zero. -/
def toSigned (a : Bits) : UInt64 := (Float.ofBits a).toInt64.toUInt64

def toUnsigned (a : Bits) : UInt64 := (Float.ofBits a).toUInt64

def one : Bits := 0x3FF0000000000000

end Real64

namespace Real32

abbrev Bits := UInt32

def isNaN (bits : Bits) : Bool := 0x7F800000 < bits &&& 0x7FFFFFFF

def widen (a : Bits) : Real64.Bits :=
  if isNaN a then
    let sign : UInt64 := (a >>> 31).toUInt64 <<< 63
    let payload : UInt64 := (a &&& 0x7FFFFF).toUInt64 <<< 29
    Real64.quiet (sign ||| (0x7FF0000000000000 : UInt64) ||| payload)
  else (Float32.ofBits a).toFloat.toBits

/-- The 32-bit float nearest to a double. -/
def ofDouble (a : Real64.Bits) : Bits :=
  if Real64.isNaN a then
    let sign : UInt32 := (a >>> 63).toUInt32 <<< 31
    let payload : UInt32 := ((a &&& 0xFFFFFFFFFFFFF) >>> 29).toUInt32
    sign ||| (0x7FC00000 : UInt32) ||| payload
  else (Float.ofBits a).toFloat32.toBits

def neg (a : Bits) : Bits := a ^^^ 0x80000000

end Real32

end LevelScript
