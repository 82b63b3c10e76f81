import LevelScript.Types.Layout

/-!
# Resolving deferred names

Every deferred name below a type is replaced by the type it names. A type that contains itself is
first built with references to the enclosing type, and then closed into a cycle.

A step of the walk either pushes a type that is not among its ancestors or looks up a name, and all
types met were in the table at the start; twice the size of the table bounds the depth.
-/

namespace LevelScript

/-- What a deferred name refers to. -/
inductive DeferTarget where
  | missing
  | notAType
  | type (id : TypeId)
  deriving Repr, DecidableEq

namespace TypeTable

abbrev Lookup := NameId → DeferTarget

/-- A table being changed by steps that can fail; what has been added stays. -/
abbrev Resolver := ExceptT TypeError (StateM TypeTable)

/-- A reference to `id` if it is among the ancestors, the innermost of which comes first. -/
def ancestorRef (id : TypeId) (ancestors : List TypeId) : Resolver (Option TypeId) := do
  match ancestors.idxOf? id with
  | none => return none
  | some at_ => some <$> modifyGet (·.parentRef (at_ + 1))

/-- Follows deferred names to a type that is none. -/
def followDefers (ts : TypeTable) (lookup : Lookup) :
    Nat → List TypeId → TypeId → Except TypeError TypeId
  | 0, _, id => .ok id
  | n + 1, visited, id =>
    match (ts.get id).shape with
    | .deferred name =>
      if visited.contains id then .error (.deferRecurses name)
      else match lookup name with
        | .missing => .error (.deferNotFound name)
        | .notAType => .error (.deferNotAType name)
        | .type target => followDefers ts lookup n (id :: visited) target
    | _ => .ok id

def resolveAll (resolve : TypeId → Resolver TypeId) (get : α → TypeId) (set : α → TypeId → α) :
    List α → Resolver (List α)
  | [] => return []
  | a :: as => do
    let id ← resolve (get a)
    return set a id :: (← resolveAll resolve get set as)

def setFieldType (f : Field) (type : TypeId) : Field := { f with type }

def setParamType (p : Param) (type : TypeId) : Param := { p with type }

/-- Replaces deferred names below `id`; occurrences of an ancestor become references to it. -/
def resolveInner (lookup : Lookup) : Nat → List TypeId → TypeId → Resolver TypeId
  | 0, _, id => return id
  | n + 1, ancestors, id => do
    if let some parent ← ancestorRef id ancestors then return parent
    let ts ← getThe TypeTable
    let t := ts.get id
    if t.flags.closed then return id
    let below := resolveInner lookup n (id :: ancestors)
    match t.shape with
    | .deferred _ =>
      let target ← ts.followDefers lookup (ts.size + 1) [] id
      let found ← resolveInner lookup n ancestors target
      return (← ancestorRef found ancestors).getD found
    | .pointer base =>
      let base ← below base
      modifyGet (·.register { t with shape := .pointer base })
    | .function result params =>
      let result ← below result
      let params ← resolveAll below Param.type setParamType params
      modifyGet (·.register { t with shape := .function result params })
    | .struct fields =>
      let fields ← resolveAll below Field.type setFieldType fields
      modifyGet fun ts => ts.register (ts.withLayout { t with shape := .struct fields })
    | _ => return id

/-! ## Closing -/

def closeAll (close : TypeId → TypeTable → TypeId × TypeTable) (get : α → TypeId)
    (set : α → TypeId → α) : List α → TypeTable → List α × TypeTable
  | [], ts => ([], ts)
  | a :: as, ts =>
    let (id, ts) := close (get a) ts
    let (as, ts) := closeAll close get set as ts
    (set a id :: as, ts)

/-- A copy of an open type in which every reference to an enclosing type is that type's copy.
`stack` holds the copies around it, the innermost first. -/
def close : Nat → List TypeId → TypeId → TypeTable → TypeId × TypeTable
  | 0, _, id, ts => (id, ts)
  | n + 1, stack, id, ts =>
    let t := ts.get id
    if !t.containsParent then (id, ts)
    else
      let new := ts.types.size
      let copy := { t with
        flags := { t.flags with closed := true }
        hash := hashMix t.hash 8
        containsParent := false }
      let opened := { ts with types := ts.types.push copy }
      let below := close n (new :: stack)
      let finish (shape : TypeShape) (ts : TypeTable) : TypeId × TypeTable :=
        (new, { ts with types := ts.types.setIfInBounds new (ts.withLayout { copy with shape }) })
      match t.shape with
      | .parent depth =>
        if depth = 0 then (id, ts) else ((stack[depth - 1]?).getD id, ts)
      | .pointer base =>
        let (base, ts) := below base opened
        finish (.pointer base) ts
      | .function result params =>
        let (result, ts) := below result opened
        let (params, ts) := closeAll below Param.type setParamType params ts
        finish (.function result params) ts
      | .struct fields =>
        let (fields, ts) := closeAll below Field.type setFieldType fields opened
        finish (.struct fields) ts
      | shape => finish shape opened

/-- The closed copy of an open type, which is made once. -/
def closeRoot (ts : TypeTable) (id : TypeId) : TypeId × TypeTable :=
  match ts.closed[id]? with
  | some found => (found, ts)
  | none =>
    let (new, ts) := close (ts.size + 1) [] id ts
    (new, { ts with closed := ts.closed.insert id new })

/-! ## Inline fields -/

/-- Checks inline fields with `check` for the structs among them. -/
def validateFields (ts : TypeTable) (path : List TypeId) (check : TypeId → Except TypeError Unit) :
    List Field → Except TypeError Unit
  | [] => .ok ()
  | f :: fs => do
    if f.inlined.isSome then
      let kind := ts.kind f.type
      if path.contains f.type || kind == .parent then throw (.inlineRecurses f.name)
      match kind with
      | .struct => check f.type
      | .pointer => if f.name.isNone then throw .inlinePointerUnnamed
      | _ => throw (.inlineNotComposite f.name)
    validateFields ts path check fs

/-- Inline fields form a finite tree of structs and named pointers. -/
def validate (ts : TypeTable) : Nat → List TypeId → TypeId → Except TypeError Unit
  | 0, _, _ => .ok ()
  | n + 1, path, id =>
    let t := ts.get id
    if t.kind != .struct then .ok ()
    else ts.validateFields (id :: path) (validate ts n (id :: path)) t.fields

/-- The type `id` with every deferred name replaced. The table may have grown even if this
fails. -/
def resolve (ts : TypeTable) (lookup : Lookup) (id : TypeId) :
    Except TypeError TypeId × TypeTable :=
  match resolveInner lookup (2 * ts.size + 2) [] id ts with
  | (.error e, ts) => (.error e, ts)
  | (.ok open_, ts) =>
    let (resolved, ts) :=
      if (ts.get open_).containsParent then ts.closeRoot open_ else (open_, ts)
    match ts.validate (ts.size + 1) [] resolved with
    | .error e => (.error e, ts)
    | .ok () => (.ok resolved, ts)

end TypeTable

end LevelScript
