import LevelScript.Names
import LevelScript.Types.Kind
import Std.Data.HashMap

/-!
# The table of types

Types are kept in a table and referred to by their index. A type that is asked for again is found
by its hash, so two requests for the same structure give the same index. Closed types, which form
cycles, are never looked up this way.
-/

namespace LevelScript

abbrev TypeId := Nat

namespace TypeId

/-- A type as a value of a script. -/
def toBits (id : TypeId) : UInt64 := id.toUInt64

def ofBits (bits : UInt64) : TypeId := bits.toNat % UInt32.size

end TypeId

structure TypeFlags where
  isConst : Bool := false
  unsigned : Bool := false
  /-- A function whose result can be assigned to. -/
  assignable : Bool := false
  closed : Bool := false
  deriving Repr, DecidableEq, Inhabited

def TypeFlags.bits (f : TypeFlags) : Nat :=
  f.isConst.toNat + 2 * f.unsigned.toNat + 4 * f.assignable.toNat + 8 * f.closed.toNat

/-- How a field got its offset: behind all earlier ones, at a fixed offset, or at a distance from
the end of the one before it. -/
inductive FieldPlace where
  | auto
  | absolute (offset : UInt64)
  | relative (delta : UInt64)
  deriving Repr, DecidableEq, Inhabited

structure Field where
  name : Option NameId
  type : TypeId
  offset : UInt64 := 0
  place : FieldPlace := .auto
  value : UInt64 := 0
  /-- How many times a field lies inside its struct; other fields hold values or addresses. -/
  inlined : Option UInt64 := none
  deriving Repr, DecidableEq, Inhabited

structure Param where
  name : Option NameId
  type : TypeId
  deriving Repr, DecidableEq, Inhabited

inductive TypeShape where
  | plain
  | pointer (base : TypeId)
  | struct (fields : List Field)
  | function (result : TypeId) (params : List Param)
  | deferred (name : NameId)
  | parent (depth : Nat)
  deriving Repr, DecidableEq, Inhabited

structure TypeInfo where
  kind : Kind
  shape : TypeShape
  flags : TypeFlags := {}
  hash : UInt64 := 0
  size : UInt64 := 8
  alignment : UInt64 := 8
  /-- Whether a reference to an enclosing type occurs anywhere below. -/
  containsParent : Bool := false
  deriving Repr, DecidableEq, Inhabited

namespace TypeInfo

def isConst (t : TypeInfo) : Bool := t.flags.isConst

def unsigned (t : TypeInfo) : Bool := t.flags.unsigned

def valueSize (t : TypeInfo) : Nat := t.kind.valueSize

def isSignedInteger (t : TypeInfo) : Bool := t.kind.isInteger && !t.unsigned

def fields (t : TypeInfo) : List Field :=
  match t.shape with
  | .struct fields => fields
  | _ => []

def params (t : TypeInfo) : List Param :=
  match t.shape with
  | .function _ params => params
  | _ => []

def base? (t : TypeInfo) : Option TypeId :=
  match t.shape with
  | .pointer base => some base
  | _ => none

def result? (t : TypeInfo) : Option TypeId :=
  match t.shape with
  | .function result _ => some result
  | _ => none

end TypeInfo

/-! ## Hashes -/

def hashBasis : UInt64 := 0xCBF29CE484222325

def hashMix (a b : UInt64) : UInt64 :=
  let left : UInt64 := a <<< 6
  let right : UInt64 := a >>> 2
  a ^^^ (b + 0x9E3779B97F4A7C15 + left + right)

/-- A hash of the four bytes of a name's number. -/
def hashName : Option NameId → UInt64
  | none => hashBasis
  | some id =>
    [id, id >>> 8, id >>> 16, id >>> 24].foldl
      (fun h b => (h ^^^ (b &&& 0xFF).toUInt64) * 0x100000001B3) hashBasis

/-- The numbers that a shape brings into the hash. Of a field's placement only the offset counts. -/
def TypeShape.hashParts : TypeShape → List UInt64
  | plain => []
  | pointer base => [base.toUInt64]
  | struct fields => fields.length.toUInt64 :: fields.flatMap fun f =>
      [f.value, hashName f.name, f.type.toUInt64, f.inlined.getD 0xFFFFFFFFFFFFFFFF, f.offset]
  | function result params => result.toUInt64 :: params.length.toUInt64 ::
      params.flatMap fun p => [hashName p.name, p.type.toUInt64]
  | deferred name => [hashName (some name)]
  | parent depth => [depth.toUInt64]

def TypeInfo.computeHash (t : TypeInfo) : UInt64 :=
  let flags := [t.kind.code.toUInt64, t.flags.isConst.toUInt64, t.flags.unsigned.toUInt64,
    t.flags.assignable.toUInt64]
  (flags ++ t.shape.hashParts).foldl hashMix hashBasis

/-! ## The table -/

structure TypeTable where
  types : Array TypeInfo
  interned : Std.HashMap UInt64 TypeId
  closed : Std.HashMap TypeId TypeId
  closedConst : Std.HashMap TypeId TypeId

namespace TypeTable

def size (ts : TypeTable) : Nat := ts.types.size

def get (ts : TypeTable) (id : TypeId) : TypeInfo := (ts.types[id]?).getD default

def kind (ts : TypeTable) (id : TypeId) : Kind := (ts.get id).kind

/-- Whether a type of this shape has a reference to an enclosing type below it. -/
def shapeContainsParent (ts : TypeTable) : TypeShape → Bool
  | .plain | .deferred _ => false
  | .parent _ => true
  | .pointer base => (ts.get base).containsParent
  | .struct fields => fields.any fun f => (ts.get f.type).containsParent
  | .function result params =>
    (ts.get result).containsParent || params.any fun p => (ts.get p.type).containsParent

/-- The index of a type with the hash of `t`, which joins the table if there is none. -/
def register (ts : TypeTable) (t : TypeInfo) : TypeId × TypeTable :=
  let hash := t.computeHash
  match ts.interned[hash]? with
  | some id => (id, ts)
  | none =>
    let t := { t with hash, containsParent := ts.shapeContainsParent t.shape }
    let id := ts.types.size
    (id, { ts with types := ts.types.push t, interned := ts.interned.insert hash id })

def plainType (kind : Kind) : TypeInfo :=
  let size : UInt64 := match kind with
    | .int8 => 1
    | .int16 => 2
    | .int32 | .float32 => 4
    | _ => 8
  { kind, shape := .plain, size, alignment := size }

def primitiveKinds : List Kind :=
  [.void, .int8, .int16, .int32, .int64, .float32, .float64, .type, .varargs]

def initial : TypeTable :=
  primitiveKinds.foldl (fun ts kind => (ts.register (plainType kind)).2) ⟨#[], ∅, ∅, ∅⟩

instance : Inhabited TypeTable := ⟨initial⟩

def primitive (ts : TypeTable) (kind : Kind) : TypeId × TypeTable :=
  match primitiveKinds.idxOf? kind with
  | some id => (id, ts)
  | none => ts.register (plainType kind)

def void : TypeId := 0
def int8 : TypeId := 1
def int32 : TypeId := 3
def int64 : TypeId := 4
def float64 : TypeId := 6
def type : TypeId := 7

/-- The unsigned version of a type; closed types have none. -/
def unsign (ts : TypeTable) (id : TypeId) : TypeId × TypeTable :=
  let t := ts.get id
  if t.flags.closed then (id, ts)
  else ts.register { t with flags := { t.flags with unsigned := true } }

def constClosed (ts : TypeTable) (id : TypeId) : TypeId × TypeTable :=
  match ts.closedConst[id]? with
  | some found => (found, ts)
  | none =>
    let t := ts.get id
    let t := { t with flags := { t.flags with isConst := true }, hash := hashMix t.hash 1 }
    let new := ts.types.size
    (new, { ts with types := ts.types.push t, closedConst := ts.closedConst.insert id new })

def constant (ts : TypeTable) (id : TypeId) : TypeId × TypeTable :=
  let t := ts.get id
  if t.flags.closed then ts.constClosed id
  else ts.register { t with flags := { t.flags with isConst := true } }

/-- The type without `const`; closed types stay as they are. -/
def mutableOf (ts : TypeTable) (id : TypeId) : TypeId × TypeTable :=
  let t := ts.get id
  if !t.isConst || t.flags.closed then (id, ts)
  else ts.register { t with flags := { t.flags with isConst := false } }

def pointer (ts : TypeTable) (base : TypeId) : TypeId × TypeTable :=
  ts.register { kind := .pointer, shape := .pointer base }

def function (ts : TypeTable) (result : TypeId) (params : List Param) (assignable : Bool) :
    TypeId × TypeTable :=
  ts.register { kind := .function, shape := .function result params, flags := { assignable } }

def deferred (ts : TypeTable) (name : NameId) : TypeId × TypeTable :=
  ts.register { kind := .deferred, shape := .deferred name }

def parentRef (ts : TypeTable) (depth : Nat) : TypeId × TypeTable :=
  ts.register { kind := .parent, shape := .parent depth, size := 0, alignment := 1 }

/-! ## Questions -/

/-- Unsigned integers and pointers. -/
def isUnsignedLike (ts : TypeTable) (id : TypeId) : Bool :=
  let t := ts.get id
  t.unsigned || t.kind == .pointer

def field? (ts : TypeTable) (id : TypeId) (name : NameId) : Option Field :=
  (ts.get id).fields.find? (·.name == some name)

def param? (ts : TypeTable) (id : TypeId) (name : NameId) : Option Param :=
  (ts.get id).params.find? (·.name == some name)

def isVariadic (ts : TypeTable) (id : TypeId) : Bool :=
  match (ts.get id).params.getLast? with
  | some p => ts.kind p.type == .varargs
  | none => false

end TypeTable

/-! ## Errors -/

inductive TypeError where
  | duplicateField (name : NameId)
  | methodNotFunction (name : NameId)
  | methodTakesParameters (name : NameId)
  | deferRecurses (name : NameId)
  | deferNotFound (name : NameId)
  | deferNotAType (name : NameId)
  | inlineRecurses (name : Option NameId)
  | inlineNotComposite (name : Option NameId)
  | inlinePointerUnnamed
  deriving Repr, DecidableEq

def TypeError.message (names : Names) : TypeError → String
  | duplicateField n => "Duplicate field names found: '" ++ names.text n ++ "'"
  | methodNotFunction n => "Field '" ++ names.text n ++ "' must be a function"
  | methodTakesParameters n => "Field '" ++ names.text n ++ "' cannot take any parameters"
  | deferRecurses n => "Cannot resolve defers: Defer '" ++ names.text n ++ "' recurses"
  | deferNotFound n => "Cannot resolve defers: Variable '" ++ names.text n ++ "' not found"
  | deferNotAType n => "Cannot resolve defers: Variable '" ++ names.text n ++ "' is not a type"
  | inlineRecurses n => "Cannot resolve defers: Inline field '" ++ optional n ++ "' recurses"
  | inlineNotComposite n => "Inline field '" ++ optional n ++ "' is not a struct or pointer type"
  | inlinePointerUnnamed => "Inline field is a pointer but has no identifier"
where
  optional (name : Option NameId) : String :=
    match name with
    | some id => names.text id
    | none => "<anonymous>"

end LevelScript
