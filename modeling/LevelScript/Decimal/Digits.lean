import LevelScript.Decimal.Binary

/-!
# Decimal digits of a double

Two ways to choose them: the fewest digits that read back as the same double, and a fixed
number of significant digits. Both work on the exact value `mantissa · 2 ^ exponent`.
-/

namespace LevelScript

/-- The number `digits · 10 ^ exponent`. -/
structure Decimal where
  digits : Nat
  exponent : Int
  deriving Repr, DecidableEq

namespace Decimal

/-- The `e` with `10 ^ (e - 1) ≤ num / den < 10 ^ e`, for a positive fraction. -/
def magnitude (num den : Nat) : Int :=
  if den ≤ num then digitCount (num / den)
  else
    let d := digitCount (den / num)
    if num * Nat.pow 10 (d - 1) = den then 2 - (d : Int) else 1 - (d : Int)

def trim (d : Decimal) : Decimal :=
  go (digitCount d.digits) d
where
  go : Nat → Decimal → Decimal
    | 0, d => d
    | n + 1, d =>
      if d.digits ≠ 0 ∧ d.digits % 10 = 0 then go n ⟨d.digits / 10, d.exponent + 1⟩ else d

/-- Tries the grid of `count` digits, then finer ones: of the two grid points around the value,
those inside the interval of reals that round to it are candidates, the nearer one wins, and an
exact tie goes up. -/
def shortestFrom (mantissa : Nat) (exponent : Int) (narrow : Bool) (mag : Int) :
    Nat → Nat → Decimal
  | 0, count => ⟨0, count⟩
  | fuel + 1, count =>
    let unit := mag - count
    let (scale, den) := scaledFraction 1 (exponent - 2) (-unit)
    let value := 4 * mantissa * scale
    let low := (if narrow then 4 * mantissa - 1 else 4 * mantissa - 2) * scale
    let high := (4 * mantissa + 2) * scale
    let closed := mantissa % 2 = 0
    let down := value / den
    let up := down + 1
    let downOk := low < down * den ∨ (closed ∧ low = down * den)
    let upOk := up * den < high ∨ (closed ∧ up * den = high)
    if downOk ∧ (¬ upOk ∨ 2 * (value % den) < den) then ⟨down, unit⟩
    else if upOk then ⟨up, unit⟩
    else shortestFrom mantissa exponent narrow mag fuel (count + 1)

/-- The fewest digits that read back as `mantissa · 2 ^ exponent`; of those, the nearest. -/
def shortest (mantissa : Nat) (exponent : Int) : Decimal :=
  let (num, den) := scaledFraction mantissa exponent 0
  -- below a power of two the doubles lie twice as dense
  let narrow := mantissa = 1 <<< 52 ∧ -1074 < exponent
  (shortestFrom mantissa exponent narrow (magnitude num den) 17 1).trim

/-- `mantissa · 2 ^ exponent` rounded to `count` significant digits, a tie going to the even one. -/
def significant (count : Nat) (mantissa : Nat) (exponent : Int) : Decimal :=
  let (num, den) := scaledFraction mantissa exponent 0
  let unit := magnitude num den - count
  let (scale, den) := scaledFraction 1 exponent (-unit)
  let digits := roundEven (mantissa * scale) den
  if digits = Nat.pow 10 count then ⟨digits / 10, unit + 1⟩ else ⟨digits, unit⟩

/-! ## Text -/

/-- Plain positional notation, without an exponent and without a final `.0`. -/
def positional (d : Decimal) : String :=
  let ds := Nat.toDigits 10 d.digits
  if 0 ≤ d.exponent then String.ofList (ds ++ List.replicate d.exponent.toNat '0')
  else
    let places := (-d.exponent).toNat
    let ds := List.replicate (places + 1 - ds.length) '0' ++ ds
    String.ofList (ds.take (ds.length - places) ++ '.' :: ds.drop (ds.length - places))

/-- One digit, the others after a point, and a signed exponent of at least two digits. -/
def scientific (d : Decimal) : String :=
  let ds := Nat.toDigits 10 d.digits
  let exp := d.exponent + ds.length - 1
  let mantissa := match ds with
    | [] => []
    | [c] => [c]
    | c :: rest => c :: '.' :: rest
  let size := exp.natAbs
  let expText := (if size < 10 then "0" else "") ++ Nat.repr size
  String.ofList mantissa ++ (if exp < 0 then "e-" else "e+") ++ expText

end Decimal

namespace Double

def signText (negative : Bool) : String := if negative then "-" else ""

/-- The fewest digits that read back, never with an exponent. -/
def shortestText (bits : UInt64) : String :=
  match ofBits bits with
  | .nan => "NaN"
  | .infinite negative => signText negative ++ "inf"
  | .finite negative 0 _ => signText negative ++ "0"
  | .finite negative m e => signText negative ++ (Decimal.shortest m e).positional

/-- At most six significant digits: positional for exponents from -4 to 5, scientific otherwise. -/
def generalText (bits : UInt64) : String :=
  match ofBits bits with
  | .nan => "nan"
  | .infinite negative => signText negative ++ "inf"
  | .finite negative 0 _ => signText negative ++ "0"
  | .finite negative m e =>
    let d := Decimal.significant 6 m e
    let exp := d.exponent + 5
    let text := if -4 ≤ exp ∧ exp < 6 then d.trim.positional else d.trim.scientific
    signText negative ++ text

end Double

end LevelScript
