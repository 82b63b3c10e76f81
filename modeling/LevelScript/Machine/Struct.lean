import LevelScript.Machine.Interp

/-!
# Structs in memory

A field is found by its name; structs that lie inside a struct without a name of their own are
searched in place. To read a field, the struct is walked in memory from address to address; to give a
new struct the value of a field, the field is located by its offset. The methods `new` and `delete` run
when a struct comes and goes.
-/

namespace LevelScript

namespace TypeTable

/-- A field, and the struct that declares it: its type and where it lies. -/
structure FieldSite where
  owner : TypeId
  ownerOffset : UInt64
  field : Field

namespace FieldSite

def offset (s : FieldSite) : UInt64 := s.ownerOffset + s.field.offset

def shift (offset : UInt64) (s : FieldSite) : FieldSite :=
  { s with ownerOffset := offset + s.ownerOffset }

end FieldSite

/-- The first field of a name, with `inner` for structs inside. -/
def locateIn (owner : TypeId) (name : NameId) (inner : TypeId → Option FieldSite) :
    List Field → Option FieldSite
  | [] => none
  | f :: fs =>
    let here := if f.inlined.isSome && f.name.isNone then (inner f.type).map (·.shift f.offset)
      else if f.name = some name then some ⟨owner, 0, f⟩
      else none
    here <|> locateIn owner name inner fs

/-- The field that a name refers to. Inline structs form a finite tree, which is not deeper than
the table is long. -/
def locate (ts : TypeTable) (name : NameId) : Nat → TypeId → Option FieldSite
  | 0, _ => none
  | n + 1, id => locateIn id name (locate ts name n) (ts.get id).fields

def locateField (ts : TypeTable) (id : TypeId) (name : NameId) : Option FieldSite :=
  ts.locate name (ts.size + 1) id

/-- A field in memory, and the struct that declares it: its type and its address. -/
structure PlacedField where
  owner : TypeId
  ownerAddr : UInt64
  field : Field

def PlacedField.addr (p : PlacedField) : UInt64 := p.ownerAddr + p.field.offset

/-- The first field of a name in the struct `owner` at an address, with `inner` for structs inside,
each at its own address. Nothing but structs is looked into. -/
def walkIn (ts : TypeTable) (owner : TypeId) (addr : UInt64) (name : NameId)
    (inner : TypeId → UInt64 → Option PlacedField) : List Field → Option PlacedField
  | [] => none
  | f :: fs =>
    let at_ := addr + f.offset
    if f.inlined.isSome && f.name.isNone then
      let found := if ts.kind f.type = .struct then inner f.type at_ else none
      found <|> walkIn ts owner addr name inner fs
    else if f.name = some name then some ⟨owner, addr, f⟩
    else walkIn ts owner addr name inner fs

/-- The field that a name refers to in a struct in memory, which is as deep as its type. -/
def walk (ts : TypeTable) (name : NameId) : Nat → TypeId → UInt64 → Option PlacedField
  | 0, _, _ => none
  | n + 1, id, addr => ts.walkIn id addr name (walk ts name n) (ts.get id).fields

def walkField (ts : TypeTable) (id : TypeId) (addr : UInt64) (name : NameId) : Option PlacedField :=
  ts.walk name (ts.size + 1) id addr

/-- A number that is written when a struct is made: address, size and bits. -/
abbrev Write := UInt64 × Nat × UInt64

/-- What a field starts with; `inner` gives the writes for a struct inside. Without a value, a type
starts as `void`, the number of which is zero. -/
def fieldWrites (ts : TypeTable) (addr : UInt64) (inner : TypeId → UInt64 → List Write)
    (f : Field) : List Write :=
  let t := ts.get f.type
  let at_ := addr + f.offset
  match f.inlined with
  | some count =>
    if t.kind = .struct then
      (List.range count.toNat).flatMap fun i => inner f.type (at_ + i.toUInt64 * t.size)
    else []
  | none => if f.value = 0 then [] else [(at_, t.valueSize, f.value)]

def initialWrites (ts : TypeTable) : Nat → TypeId → UInt64 → List Write
  | 0, _, _ => []
  | n + 1, id, addr => (ts.get id).fields.flatMap (ts.fieldWrites addr (initialWrites ts n))

end TypeTable

namespace Exec

/-- Gives the fields of a struct the values they start with. -/
def initStruct (id : TypeId) (addr : UInt64) : Exec Unit := do
  let ts := (← get).types
  for (at_, size, value) in ts.initialWrites (ts.size + 1) id addr do
    poke at_ size value

/-- A field of the struct at an address. Constant fields can only be read, a struct inside is its
address, and a function knows the struct it was reached through. -/
def fieldAt? (id : TypeId) (addr : UInt64) (name : NameId) : Exec (Option Variable) := do
  match (← get).types.walkField id addr name with
  | none => return none
  | some place =>
    let f := place.field
    if f.inlined.isSome then return some (Variable.value f.type place.addr)
    let t ← typeInfo f.type
    let v := Variable.atAddress f.type place.addr
    let v ← if t.isConst then toValue v else pure v
    if t.kind = .function then
      return some { v with origin := some ⟨name, some (place.owner, place.ownerAddr)⟩ }
    return some v

/-- A function in a field of a struct, unless it is not set. -/
def method? (id : TypeId) (addr : UInt64) (name : NameId) : Exec (Option Variable) := do
  match ← fieldAt? id addr name with
  | none => return none
  | some method =>
    if (← kindOf method) ≠ .function then return none
    if (← bits method) = 0 then return none
    return some method

/-- Writes a field of a new struct; constant fields can be written here, too. -/
def overrideField (id : TypeId) (addr : UInt64) (name : NameId) (v : Variable) : Exec Unit := do
  match (← get).types.locateField id name with
  | none => raise (.fieldMissing (← nameText name))
  | some site =>
    if site.field.inlined.isSome then raise (.inlineFieldAssigned (← nameText name))
    let bits ← castBits site.field.type v
    poke (addr + site.offset) (← typeInfo site.field.type).valueSize bits

end Exec

/-- Calls a method of a struct without arguments, if it has one. -/
def Interp.callMethod (i : Interp) (id : TypeId) (addr : UInt64) (name : NameId) : Exec Unit := do
  match ← Exec.method? id addr name with
  | none => return
  | some method => discard (i.call method [])

end LevelScript
