import LevelScript.Types.Basic

/-!
# Values and variables

Every value fits in a 64-bit word: a struct is the address of its data, a function the address of
its code, a type its number. A variable is a typed value, either by itself or at an address.
-/

namespace LevelScript

/-- The lowest `size` bytes of a word, extended to 64 bits by sign or by zeros. -/
def extendWord (size : Nat) (signed : Bool) (bits : UInt64) : UInt64 :=
  if size = 0 then 0
  else if 8 ≤ size then bits
  else
    let shift := (64 - 8 * size).toUInt64
    let high := bits <<< shift
    if signed then (high.toInt64 >>> shift.toInt64).toUInt64 else high >>> shift

def extend (t : TypeInfo) (bits : UInt64) : UInt64 :=
  extendWord t.valueSize t.isSignedInteger bits

/-- A value by itself, or the address where it is kept; only the latter can be assigned to. -/
inductive Storage where
  | value (bits : UInt64)
  | location (addr : UInt64)
  deriving Repr, DecidableEq, Inhabited

/-- The name under which a function was reached, and the struct it was reached through. -/
structure Origin where
  name : NameId
  receiver : Option (TypeId × UInt64) := none
  deriving Repr, DecidableEq

structure Variable where
  type : TypeId
  storage : Storage
  origin : Option Origin := none
  deriving Repr, DecidableEq, Inhabited

namespace Variable

def value (type : TypeId) (bits : UInt64) : Variable := { type, storage := .value bits }

def atAddress (type : TypeId) (addr : UInt64) : Variable := { type, storage := .location addr }

def isLvalue (v : Variable) : Bool :=
  match v.storage with
  | .value _ => false
  | .location _ => true

def address? (v : Variable) : Option UInt64 :=
  match v.storage with
  | .value _ => none
  | .location addr => some addr

end Variable

end LevelScript
