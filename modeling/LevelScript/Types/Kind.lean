/-!
# Kinds of types

The kinds are ordered: of two number kinds, the later one is the wider.
-/

namespace LevelScript

inductive Kind where
  | void | int8 | int16 | int32 | int64 | float32 | float64
  | pointer | struct | function | type | varargs
  /-- A name whose type is looked up later. -/
  | deferred
  /-- The struct some levels further out. -/
  | parent
  deriving Repr, DecidableEq, Inhabited

namespace Kind

def all : List Kind :=
  [void, int8, int16, int32, int64, float32, float64, pointer, struct, function, type, varargs,
    deferred, parent]

def code (k : Kind) : UInt8 := k.ctorIdx.toUInt8

def ofCode? (code : UInt8) : Option Kind := all[code.toNat]?

theorem ofCode?_code (k : Kind) : ofCode? k.code = some k := by cases k <;> rfl

def name : Kind → String
  | void => "Void"
  | int8 => "Int8"
  | int16 => "Int16"
  | int32 => "Int32"
  | int64 => "Int64"
  | float32 => "Float32"
  | float64 => "Float64"
  | pointer => "Pointer"
  | struct => "Struct"
  | function => "Function"
  | type => "Type"
  | varargs => "Varargs"
  | deferred => "Deferred"
  | parent => "Parent"

def ofName? (name : String) : Option Kind := all.find? (·.name == name)

def isInteger : Kind → Bool
  | int8 | int16 | int32 | int64 => true
  | _ => false

def isFloat : Kind → Bool
  | float32 | float64 => true
  | _ => false

def isNumber (k : Kind) : Bool := k.isInteger || k.isFloat

def widest (a b : Kind) : Kind := if a.ctorIdx < b.ctorIdx then b else a

/-- Bytes that a value of this kind takes in a variable. -/
def valueSize : Kind → Nat
  | void => 0
  | int8 => 1
  | int16 => 2
  | int32 | float32 => 4
  | _ => 8

end Kind

end LevelScript
