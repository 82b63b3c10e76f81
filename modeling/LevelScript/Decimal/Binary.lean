/-!
# Doubles as exact numbers

A double is read from its 64 bits as `± mantissa · 2 ^ exponent`, and a fraction of
natural numbers is rounded to the nearest double, a tie going to the even mantissa.
-/

namespace LevelScript

/-- What the bits of a double stand for. -/
inductive Double where
  | nan
  | infinite (negative : Bool)
  | finite (negative : Bool) (mantissa : Nat) (exponent : Int)
  deriving Repr, DecidableEq

namespace Double

def ofBits (bits : UInt64) : Double :=
  let n := bits.toNat
  let negative := n >>> 63 == 1
  let biased : Nat := (n >>> 52) % 2048
  let fraction := n % (1 <<< 52)
  if biased = 2047 then
    if fraction = 0 then .infinite negative else .nan
  else if biased = 0 then .finite negative fraction (-1074)
  else .finite negative ((1 <<< 52) + fraction) ((biased : Int) - 1075)

end Double

/-- The fraction `n · 2 ^ two · 10 ^ ten` as numerator and denominator. -/
def scaledFraction (n : Nat) (two ten : Int) : Nat × Nat :=
  (Nat.pow 10 ten.toNat * (n <<< two.toNat), Nat.pow 10 (-ten).toNat <<< (-two).toNat)

/-- The integer nearest to `num / den`, a tie going to the even one. -/
def roundEven (num den : Nat) : Nat :=
  let q := num / den
  let twice := 2 * (num % den)
  if twice < den ∨ (twice = den ∧ q % 2 = 0) then q else q + 1

/-- The binary exponent at which the mantissa of `num / den` has 53 bits, but never below
the exponent of the smallest doubles. -/
def mantissaExponent (num den : Nat) : Int :=
  let guess : Int := (num.log2 : Int) - den.log2 - 52
  let (n, d) := scaledFraction num (-guess) 0
  let guess := if n / (d * den) < 1 <<< 52 then guess - 1 else guess
  max guess (-1074)

/-- Bits of the double nearest to `num / den`; beyond the largest double, those of infinity. -/
def nearestBits (num den : Nat) : UInt64 :=
  if num = 0 then 0 else
    let e := mantissaExponent num den
    let (n, d) := scaledFraction num (-e) 0
    let bits := ((e + 1074).toNat <<< 52) + roundEven n (d * den)
    (min bits (2047 <<< 52)).toUInt64

def digitCount (n : Nat) : Nat := (Nat.toDigits 10 n).length

/-- Bits of the double nearest to `digits · 10 ^ exp`. -/
def nearestDecimal (digits : Nat) (exp : Int) : UInt64 :=
  if digits = 0 then 0 else
    let magnitude := digitCount digits + exp
    if magnitude > 400 then 0x7FF0000000000000
    else if magnitude < -400 then 0
    else
      let (num, den) := scaledFraction digits 0 exp
      nearestBits num den

end LevelScript
