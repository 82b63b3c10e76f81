import LevelScript.Types.Basic

/-!
# Struct layout

Fields are placed in the order of their declaration. Offsets and sizes are 64-bit words and wrap.
-/

namespace LevelScript

/-- The least multiple of `alignment` that is not below `n`. -/
def alignUp (n alignment : UInt64) : UInt64 :=
  let r := n % alignment
  if r = 0 then n else n + (alignment - r)

namespace TypeTable

/-- The bytes that a field takes in its struct. -/
def fieldExtent (ts : TypeTable) (f : Field) : UInt64 :=
  let t := ts.get f.type
  match f.inlined with
  | some count => t.size * count
  | none => t.valueSize.toUInt64

def fieldAlignment (ts : TypeTable) (f : Field) : UInt64 :=
  let t := ts.get f.type
  let alignment := match f.inlined with
    | some _ => t.alignment
    | none => t.valueSize.toUInt64
  max alignment 1

/-- A layout in progress: the end of all fields so far, the end of the last one, and the largest
alignment. -/
structure LayoutState where
  size : UInt64 := 0
  lastEnd : UInt64 := 0
  alignment : UInt64 := 1

def placeField (ts : TypeTable) (s : LayoutState) (f : Field) : Field × LayoutState :=
  let alignment := ts.fieldAlignment f
  let offset := match f.place with
    | .auto => alignUp s.size alignment
    | .absolute offset => offset
    | .relative delta => s.lastEnd + delta
  let f := { f with offset }
  let lastEnd := offset + ts.fieldExtent f
  (f, ⟨max s.size lastEnd, lastEnd, max s.alignment alignment⟩)

def placeFields (ts : TypeTable) (s : LayoutState) : List Field → List Field × LayoutState
  | [] => ([], s)
  | f :: fs =>
    let (f, s) := ts.placeField s f
    let (fs, s) := placeFields ts s fs
    (f :: fs, s)

/-- Offsets of all fields, and the size and alignment of the struct; other types stay as they
are. -/
def withLayout (ts : TypeTable) (t : TypeInfo) : TypeInfo :=
  match t.shape with
  | .struct fields =>
    let (fields, s) := ts.placeFields {} fields
    { t with shape := .struct fields, size := alignUp s.size s.alignment, alignment := s.alignment }
  | _ => t

/-- Field names differ, and `new` and `delete` are functions without parameters. -/
def checkFields (ts : TypeTable) (seen : List NameId) : List Field → Except TypeError Unit
  | [] => .ok ()
  | f :: fs =>
    match f.name with
    | none => checkFields ts seen fs
    | some name =>
      if seen.contains name then .error (.duplicateField name)
      else
        let t := ts.get f.type
        let isMethod := name == NameId.constructor || name == NameId.destructor
        if isMethod && t.kind != .function then .error (.methodNotFunction name)
        else if isMethod && !t.params.isEmpty then .error (.methodTakesParameters name)
        else checkFields ts (name :: seen) fs

/-- A struct; its base, if it has one, is an inline field `super` at offset zero. -/
def struct (ts : TypeTable) (fields : List Field) (base : Option TypeId) :
    Except TypeError (TypeId × TypeTable) := do
  let inherited := base.toList.map fun b : TypeId =>
    { name := some NameId.super, type := b, inlined := some 1, place := .absolute 0 : Field }
  let fields := inherited ++ fields
  ts.checkFields [] fields
  return ts.register (ts.withLayout { kind := .struct, shape := .struct fields })

end TypeTable

end LevelScript
