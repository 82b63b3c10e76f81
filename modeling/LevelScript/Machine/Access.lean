import LevelScript.Arithmetic.Real
import LevelScript.Decimal.Digits
import LevelScript.Machine.State
import LevelScript.Text.Utf8
import LevelScript.Types.Resolve

/-!
# Values in memory

Reading and writing variables. An invalid access is remembered and raised later, at the end of the
node or command it occurs in; until then a read gives zero and a write does nothing.
-/

namespace LevelScript

namespace Machine

/-- Remembers an invalid access, unless there is one to raise already. -/
def noteFault (m : Machine) (addr : UInt64) : Machine :=
  { m with pending := m.pending <|> some addr }

/-- Whether an access to `size` bytes is possible. -/
def canAccess (addr : UInt64) (size : Nat) : Bool := size = 0 || Memory.isValid addr

end Machine

namespace Exec

def peek (addr : UInt64) (size : Nat) : Exec UInt64 := do
  if Machine.canAccess addr size then return (← get).memory.read addr size
  else
    modify (·.noteFault addr)
    return 0

def poke (addr : UInt64) (size : Nat) (bits : UInt64) : Exec Unit :=
  modify fun m =>
    if size = 0 then m
    else if Memory.isValid addr then { m with memory := m.memory.write addr size bits }
    else m.noteFault addr

/-- Copies bytes; nothing is copied if the source is not valid. -/
def copyBytes (source target : UInt64) (size : Nat) : Exec Unit :=
  modify fun m =>
    if !Machine.canAccess source size then m.noteFault source
    else if !Machine.canAccess target size then m.noteFault target
    else { m with memory := m.memory.copy source target size }

def bits (v : Variable) : Exec UInt64 := do
  let t ← typeInfo v.type
  match v.storage with
  | .value bits => return extend t bits
  | .location addr => return extend t (← peek addr t.valueSize)

def store (v : Variable) (bits : UInt64) : Exec Unit := do
  match v.storage with
  | .value _ => return
  | .location addr => poke addr (← typeInfo v.type).valueSize bits

def toValue (v : Variable) : Exec Variable := return { v with storage := .value (← bits v) }

def asDouble (v : Variable) : Exec Real64.Bits := do
  let bits ← bits v
  let t ← typeInfo v.type
  return match t.kind with
    | .float32 => Real32.widen bits.toUInt32
    | .float64 => bits
    | kind => if t.unsigned || !kind.isInteger then Real64.ofUnsigned bits else Real64.ofSigned bits

/-- The type that a value stands for. -/
def asType (v : Variable) : Exec TypeId := return TypeId.ofBits (← bits v)

/-- The type that a value stands for, if it is one. -/
def expectType (v : Variable) : Exec TypeId := do
  if (← kindOf v) = .type then asType v else raise .notAType

def isNegative (v : Variable) : Exec Bool := do
  let bits ← bits v
  return (← typeInfo v.type).isSignedInteger && bits.toInt64 < 0

def fresh (type : TypeId) (bits : UInt64) : Exec Variable :=
  modifyGet fun m =>
    let slot := m.addresses.slot
    let size := (m.types.get type).valueSize
    (Variable.atAddress type slot, { m with
      memory := if size = 0 then m.memory else m.memory.write slot size bits
      addresses := { m.addresses with slot := slot + 16 } })

def voidValue : Variable := Variable.value TypeTable.void 0

def typeValue (id : TypeId) : Variable := Variable.value TypeTable.type id.toBits

def boolType : Exec TypeId := withTypes (·.unsign TypeTable.int8)

def wordType : Exec TypeId := withTypes (·.unsign TypeTable.int64)

def textType : Exec TypeId := withTypes fun ts =>
  let (chars, ts) := ts.constant TypeTable.int8
  ts.pointer chars

def boolValue (b : Bool) : Exec Variable := return Variable.value (← boolType) b.toUInt64

def wordValue (n : UInt64) : Exec Variable := return Variable.value (← wordType) n

/-- The address of the text of a name, with a zero behind it. -/
def textAddress (name : NameId) : Exec UInt64 :=
  modifyGet fun m =>
    match m.texts[name]? with
    | some addr => (addr, m)
    | none =>
      if !m.names.isKnown name then (0, m)
      else
        let bytes := Text.toBytesNul (m.names.text name)
        let addr := m.addresses.text
        let next := addr + (bytes.length / 16 + 1).toUInt64 * 16
        (addr, { m with
          memory := m.memory.writeAll addr bytes
          texts := m.texts.insert name addr
          addresses := { m.addresses with text := next } })

def textValue (name : NameId) : Exec Variable :=
  return Variable.value (← textType) (← textAddress name)

/-! ## Names -/

/-- The variable of a name; constants can only be read. -/
def load? (name : NameId) : Exec (Option Variable) := do
  let m ← get
  match m.scopes.lookup name m.base with
  | none => return none
  | some v =>
    let v ← if (m.types.get v.type).isConst then toValue v else pure v
    return some { v with origin := v.origin <|> some { name } }

def load (name : NameId) : Exec Variable := do
  match ← load? name with
  | some v => return v
  | none => raise (.variableNotFound (← nameText name))

def declare (name : NameId) (v : Variable) : Exec Bool :=
  modifyGet fun m =>
    if m.scopes.isFree name then (true, { m with scopes := m.scopes.add name v }) else (false, m)

def declareNew (name : NameId) (v : Variable) : Exec Unit := do
  if !(← declare name v) then raise (.variableExists (← nameText name))

/-! ## Conversions -/

/-- What a name means where a type is expected. -/
def deferTarget (scopes : Scopes) (memory : Memory) (base : Nat) (constType : TypeId)
    (name : NameId) : DeferTarget :=
  match scopes.lookup name base with
  | none => .missing
  | some v =>
    if v.type ≠ TypeTable.type ∧ v.type ≠ constType then .notAType
    else match v.storage with
      | .value bits => .type (TypeId.ofBits bits)
      | .location addr => .type (TypeId.ofBits (memory.read addr 8))

/-- Replaces the deferred names of a type by what they mean here. -/
def resolveType (id : TypeId) : Exec TypeId := do
  let constType ← withTypes (·.constant TypeTable.type)
  let m ← get
  let lookup := deferTarget m.scopes m.memory m.base constType
  match ← withTypes (·.resolve lookup id) with
  | .ok id => return id
  | .error e => raise (.badType (e.message m.names))

def truthy (v : Variable) : Exec Bool := do
  match ← kindOf v with
  | .type => return (← get).types.kind (← resolveType (← asType v)) != .void
  | .float32 | .float64 => return !Real64.isZero (← asDouble v)
  | _ => return (← bits v) != 0

/-- The bits of a value of type `source` as a value of type `target`. -/
def convertBits (source target : TypeInfo) (bits : UInt64) (double : Real64.Bits) : UInt64 :=
  match target.kind with
  | .float32 => (Real32.ofDouble double).toUInt64
  | .float64 => double
  | kind =>
    if source.kind.isFloat && kind.isInteger then
      extend target (if target.unsigned then Real64.toUnsigned double else Real64.toSigned double)
    else extend target bits

def cast (target : TypeId) (v : Variable) : Exec Variable := do
  let target ← resolveType target
  let goal ← typeInfo target
  let raw ← bits v
  return Variable.value target (convertBits (← typeInfo v.type) goal raw (← asDouble v))

/-- Takes the bits of a value over to a type as they are. -/
def bitcast (target : TypeId) (v : Variable) : Exec Variable := do
  let target ← resolveType target
  return Variable.value target (extend (← typeInfo target) (← bits v))

def castBits (target : TypeId) (v : Variable) : Exec UInt64 := do
  bits (← cast target v)

/-! ## Text -/

/-- More than any text has characters. -/
def textLimit : Nat := 1 <<< 40

/-- The bytes from an address up to the first zero. -/
def textAt (addr : UInt64) : Exec (List UInt8) := do
  if Memory.isValid addr then return (← get).memory.textBytes addr textLimit
  else
    modify (·.noteFault addr)
    return []

def renderFields (render : TypeId → UInt64 → Exec String) (addr : UInt64) :
    List Field → Exec (List String)
  | [] => return []
  | f :: fs => do
    let name ← match f.name with
      | some name => nameText name
      | none => pure "<anonymous>"
    let at_ := addr + f.offset
    let t ← typeInfo f.type
    let value ← if f.inlined.isSome then pure at_ else pure (extend t (← peek at_ t.valueSize))
    let text ← render f.type value
    return (" " ++ name ++ " = " ++ text) :: (← renderFields render addr fs)

/-- A value as text. Structs can refer to themselves, so this may not end. -/
def render : Nat → TypeId → UInt64 → Exec String
  | 0, _, _ => outOfFuel
  | n + 1, id, value => do
    let m ← get
    let t := m.types.get id
    let isText := t.base?.any fun base =>
      m.types.kind base = .int8 && !(m.types.get base).unsigned
    if isText && value ≠ 0 then
      return "\"" ++ Text.escape (Text.ofBytesLossy (← textAt value)) ++ "\""
    match t.kind with
    | .void => return "(void)"
    | .int8 | .int16 | .int32 | .int64 =>
      return if t.unsigned then Nat.repr value.toNat else toString value.toInt64.toInt
    | .float32 => return Double.generalText (Real32.widen value.toUInt32)
    | .float64 => return Double.generalText value
    | .pointer => return "0x" ++ hexPadded 16 value.toNat
    | .type => displayType (TypeId.ofBits value)
    | .struct =>
      if value = 0 then return "(null)"
      else
        let fields ← renderFields (render n) value t.fields
        return "\x7b" ++ ",".intercalate fields ++ " \x7d"
    | _ => displayType id

def renderVariable (fuel : Nat) (v : Variable) : Exec String := do
  render fuel v.type (← bits v)

end Exec

end LevelScript
