import LevelScript.Token

/-!
# Numeric words

A word that starts with a digit, or with a point and a digit, is taken greedily and then
classified: as an integer, as a floating-point number, or else as names joined by points.
-/

namespace LevelScript

def isWordChar (c : Char) : Bool := c.isAlphanum || c == '_'

def isNameStart (c : Char) : Bool := c.isAlpha || c == '_'

def digitValue? (base : Nat) (c : Char) : Option Nat :=
  let value :=
    if '0' ≤ c ∧ c ≤ '9' then c.toNat - '0'.toNat
    else if 'a' ≤ c ∧ c ≤ 'z' then c.toNat - 'a'.toNat + 10
    else if 'A' ≤ c ∧ c ≤ 'Z' then c.toNat - 'A'.toNat + 10
    else base
  if value < base then some value else none

def isDigitIn (base : Nat) (c : Char) : Bool := (digitValue? base c).isSome

def ofDigits (base : Nat) (cs : List Char) : Nat :=
  cs.foldl (fun n c => n * base + (digitValue? base c).getD 0) 0

namespace Word

/-- A sign belongs to the word only right behind the first exponent letter. -/
inductive Sign where
  | waiting | allowed | past
  deriving DecidableEq

def Sign.next (s : Sign) (c : Char) : Sign :=
  if s = .waiting then
    if c = 'e' ∨ c = 'E' ∨ c = 'p' ∨ c = 'P' then .allowed else .waiting
  else .past

/-- Splits off the rest of a word; `dot` says whether a point may still come. -/
def takeRest (dot : Bool) (sign : Sign) : List Char → List Char × List Char
  | [] => ([], [])
  | c :: cs =>
    if isWordChar c || (c == '.' && dot) || ((c == '+' || c == '-') && sign = .allowed) then
      let (word, rest) := takeRest (dot && c != '.') (sign.next c) cs
      (c :: word, rest)
    else ([], c :: cs)

/-- The numeric word at the start of `cs`. -/
def take? : List Char → Option (List Char × List Char)
  | '.' :: d :: cs =>
    if d.isDigit then
      let (word, rest) := takeRest false .waiting cs
      some ('.' :: d :: word, rest)
    else none
  | d :: cs =>
    if d.isDigit then
      let (word, rest) := takeRest true .waiting cs
      some (d :: word, rest)
    else none
  | [] => none

inductive Number where
  | integer (value : Nat)
  | float (bits : UInt64)

/-- The digits and the base of an integer: `0x`, `0b`, a leading zero for octal, or decimal. -/
def integerDigits : List Char → List Char × Nat
  | '0' :: c :: rest =>
    if c = 'x' ∨ c = 'X' then (rest, 16)
    else if c = 'b' ∨ c = 'B' then (rest, 2)
    else (c :: rest, 8)
  | word => (word, 10)

def integer? (word : List Char) : Option Nat :=
  let (digits, base) := integerDigits word
  if digits ≠ [] ∧ digits.all (isDigitIn base) then some (ofDigits base digits) else none

/-- The text before the first character with `p`, and behind it if there is one. -/
def splitAt (p : Char → Bool) (cs : List Char) : List Char × Option (List Char) :=
  match cs.dropWhile (!p ·) with
  | [] => (cs, none)
  | _ :: rest => (cs.takeWhile (!p ·), some rest)

def exponent? (cs : List Char) : Option Int :=
  let (negative, digits) := match cs with
    | '-' :: ds => (true, ds)
    | '+' :: ds => (false, ds)
    | ds => (false, ds)
  if digits ≠ [] ∧ digits.all Char.isDigit then
    let n : Int := ofDigits 10 digits
    some (if negative then -n else n)
  else none

/-- `digits [. digits] [e [+-] digits]`, with at least one digit before the exponent. -/
def decimal? (word : List Char) : Option UInt64 := do
  let (mantissa, exp) := splitAt (fun c => c == 'e' || c == 'E') word
  let (whole, fraction) := splitAt (· == '.') mantissa
  let fraction := fraction.getD []
  let digits := whole ++ fraction
  guard (digits ≠ [] ∧ digits.all Char.isDigit)
  let exp ← match exp with
    | none => some 0
    | some cs => exponent? cs
  return nearestDecimal (ofDigits 10 digits) (exp - fraction.length)

/-- Two to the power `exp`: infinite from 1024 up, zero from -1024 down. -/
def powerOfTwo (exp : Int) : Float :=
  if 1024 ≤ exp then 1.0 / 0.0
  else if exp ≤ -1024 then 0.0
  else Float.scaleB 1.0 exp

def hexWhole (digits : List Nat) : Float :=
  digits.foldl (fun value d => value * 16.0 + d.toFloat) 0.0

/-- Adds hexadecimal digits behind the point, each a sixteenth of the one before. -/
def hexFraction (digits : List Nat) (value : Float) : Float :=
  (digits.foldl (fun (value, scale) d => (value + d.toFloat * scale, scale / 16.0))
    (value, (1.0 / 16.0 : Float))).1

/-- `hexdigits [. hexdigits] p [+-] digits`; the binary exponent is required. Every step rounds. -/
def hexadecimal? (cs : List Char) : Option UInt64 := do
  let (mantissa, exp) := splitAt (fun c => c == 'p' || c == 'P') cs
  let exp ← exp
  let (whole, fraction) := splitAt (· == '.') mantissa
  let fraction := fraction.getD []
  guard (whole ≠ [] ∨ fraction ≠ [])
  let whole ← whole.mapM (digitValue? 16)
  let fraction ← fraction.mapM (digitValue? 16)
  let exp ← exponent? exp
  return (hexFraction fraction (hexWhole whole) * powerOfTwo exp).toBits

def float? : List Char → Option UInt64
  | '0' :: c :: rest => if c = 'x' ∨ c = 'X' then hexadecimal? rest else decimal? ('0' :: c :: rest)
  | word => decimal? word

def classify (word : List Char) : Except Issue (Option Number) :=
  match integer? word with
  | some value =>
    if value < UInt64.size then .ok (some (.integer value))
    else .error (.integerRange (String.ofList word))
  | none =>
    match float? word with
    | some bits =>
      match Double.ofBits bits with
      | .infinite _ => .error (.floatRange (String.ofList word))
      | _ => .ok (some (.float bits))
    | none => .ok none

/-- The names in a word that is no number, and the points between them. -/
def splitDots : List Char → List (Token × List Char)
  | [] => []
  | c :: cs =>
    if c = '.' then (.mark .dot, ['.']) :: splitDots cs
    else match splitDots cs with
      | (.identifier name, part) :: rest =>
        (.identifier (String.ofList [c] ++ name), c :: part) :: rest
      | rest => (.identifier (String.ofList [c]), [c]) :: rest

/-- The tokens of a numeric word, each with the characters it covers. -/
def tokens (word : List Char) : Except Issue (List (Token × List Char)) := do
  match ← classify word with
  | some (.integer value) => return [(.integer value.toUInt64, word)]
  | some (.float bits) => return [(.float bits, word)]
  | none => return splitDots word

end Word

end LevelScript
