import LevelScript.Types.Basic

/-!
# Types as text

A struct is written out once and called `S1`, `S2`, … from then on, in the order of appearance. A
pointer or function type inside itself shows as a cycle.

Every step of the walk opens a type that is not open, so the size of the table bounds the depth.
-/

namespace LevelScript

namespace TypeTable

def plainText (t : TypeInfo) : Option String :=
  let sized (signed unsigned : String) := some (if t.unsigned then unsigned else signed)
  match t.kind with
  | .void => some "void"
  | .type => some "type"
  | .int8 => sized "s8" "u8"
  | .int16 => sized "s16" "u16"
  | .int32 => sized "s32" "u32"
  | .int64 => sized "s64" "u64"
  | .float32 => some "f32"
  | .float64 => some "f64"
  | .varargs => some "..."
  | _ => none

/-- Text of a part, and the structs named so far. -/
abbrev Shown := StateM (List TypeId)

def nameText (names : Names) : Option NameId → String
  | some id => " " ++ names.text id
  | none => ""

def showParams (names : Names) (render : TypeId → Shown String) : List Param → Shown (List String)
  | [] => return []
  | p :: ps => do
    let text ← render p.type
    return (text ++ nameText names p.name) :: (← showParams names render ps)

def showFields (names : Names) (render : TypeId → Shown String) : List Field → Shown String
  | [] => return ""
  | f :: fs => do
    let inlined := match f.inlined with
      | some count => "inline(" ++ Nat.repr count.toNat ++ ") "
      | none => ""
    let text ← if f.inlined.getD 1 = 1 then render f.type else pure "..."
    let offset := " @ " ++ Nat.repr f.offset.toNat ++ "; "
    return inlined ++ text ++ nameText names f.name ++ offset ++ (← showFields names render fs)

/-- The text of a type below the types of `opened`. -/
def render (ts : TypeTable) (names : Names) : Nat → List TypeId → TypeId → Shown String
  | 0, _, _ => return "(cycle)"
  | n + 1, opened, id => do
    let structs ← getThe (List TypeId)
    match structs.idxOf? id with
    | some at_ => return "S" ++ Nat.repr (at_ + 1)
    | none =>
      if opened.contains id then return "(cycle)"
      let t := ts.get id
      let start := if t.isConst then "const " else ""
      match plainText t with
      | some text => return start ++ text
      | none =>
        let below := render ts names n (id :: opened)
        match t.shape with
        | .pointer base => return start ++ (← below base) ++ "#"
        | .function result params =>
          let result ← below result
          let params ← showParams names below params
          let arrow := if t.flags.assignable then "<-$(" else "<-("
          return start ++ result ++ arrow ++ ", ".intercalate params ++ ")"
        | .struct fields =>
          set (structs ++ [id])
          let fields ← showFields names (render ts names n opened) fields
          let number := Nat.repr (structs.length + 1)
          return start ++ "struct S" ++ number ++ " \x7b " ++ fields ++ "\x7d"
        | .deferred name => return start ++ "(defer " ++ names.text name ++ ")"
        | .parent depth => return start ++ "(parent " ++ Nat.repr depth ++ ")"
        | .plain => return start ++ "?"

def display (ts : TypeTable) (names : Names) (id : TypeId) : String :=
  ((ts.render names (ts.size + 2) [] id).run []).1

end TypeTable

end LevelScript
