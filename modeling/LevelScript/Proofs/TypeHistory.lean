import LevelScript.Proofs.TypeWalks

/-!
# Histories of the table

Whatever is asked of a table, in whatever order, it stays sane: what is in it never changes, and every
struct that a hash leads to has the layout that its own fields ask for.
-/

namespace LevelScript

namespace TypeTable

/-! ## What is asked for -/

/-- The fields of a struct with those of its base, which lie in the first one. -/
def withBase (fields : List Field) (base : Option TypeId) : List Field :=
  base.toList.map (fun b : TypeId =>
    { name := some NameId.super, type := b, inlined := some 1, place := .absolute 0 : Field }) ++ fields

theorem struct_eq (ts : TypeTable) (fields : List Field) (base : Option TypeId) : ts.struct fields base =
    (ts.checkFields [] (withBase fields base)).map fun _ =>
      ts.register (ts.withLayout { kind := .struct, shape := .struct (withBase fields base) }) := by
  unfold struct withBase
  simp only [bind, Except.bind, pure, Except.pure]
  cases ts.checkFields [] _ <;> rfl

def marker (depth : Nat) : TypeInfo := { kind := .parent, shape := .parent depth, size := 0, alignment := 1 }

section
variable {α : Type}

/-- What is asked for after a step, unless it failed. -/
def asksAfter (r : Walked α) (f : α → TypeTable → List TypeInfo) : List TypeInfo :=
  match r with
  | (.ok a, ts) => f a ts
  | (.error _, _) => []

def askedAll (resolve : TypeId → Resolver TypeId) (asked : TypeId → TypeTable → List TypeInfo) (get : α → TypeId) :
    List α → TypeTable → List TypeInfo
  | [], _ => []
  | a :: as, ts => asked (get a) ts ++ asksAfter (resolve (get a) ts) fun _ ts => askedAll resolve asked get as ts

end

def askedBelow (resolve : TypeId → Resolver TypeId) (asked : TypeId → TypeTable → List TypeInfo) :
    TypeShape → TypeTable → List TypeInfo
  | .pointer base, ts => asked base ts
  | .function result params, ts =>
    asked result ts ++ asksAfter (resolve result ts) fun _ ts => askedAll resolve asked Param.type params ts
  | .struct fields, ts => askedAll resolve asked Field.type fields ts
  | _, _ => []

def askedMarker (ancestors : List TypeId) (id : TypeId) : List TypeInfo :=
  match ancestors.idxOf? id with
  | none => []
  | some k => [marker (k + 1)]

/-- All types that resolving asks the table for, in order. -/
def askedInner (lookup : Lookup) : Nat → List TypeId → TypeId → TypeTable → List TypeInfo
  | 0, _, _, _ => []
  | n + 1, ancestors, id, ts =>
    let t := ts.get id
    if ancestors.contains id then askedMarker ancestors id
    else if t.flags.closed then []
    else
      match t.shape with
      | .plain | .parent _ => []
      | .deferred _ =>
        asksAfter (ts.followDefers lookup (ts.size + 1) [] id, ts) fun target ts =>
          askedInner lookup n ancestors target ts ++
            asksAfter (resolveInner lookup n ancestors target ts) fun found _ => askedMarker ancestors found
      | shape =>
        let below := resolveInner lookup n (id :: ancestors)
        askedBelow below (askedInner lookup n (id :: ancestors)) shape ts ++
          asksAfter (resolveBelow below shape ts) fun shape ts => [ts.withLayout { t with shape }]

end TypeTable

open TypeTable

inductive TypeOp where
  | primitive (kind : Kind)
  | unsign (id : TypeId)
  | constant (id : TypeId)
  | mutableOf (id : TypeId)
  | pointer (base : TypeId)
  | function (result : TypeId) (params : List Param) (assignable : Bool)
  | struct (fields : List Field) (base : Option TypeId)
  | deferred (name : NameId)
  | parentRef (depth : Nat)
  | resolve (lookup : Lookup) (id : TypeId)

namespace TypeOp

def run (ts : TypeTable) : TypeOp → Walked TypeId
  | primitive kind => answered (ts.primitive kind)
  | unsign id => answered (ts.unsign id)
  | constant id => answered (ts.constant id)
  | mutableOf id => answered (ts.mutableOf id)
  | pointer base => answered (ts.pointer base)
  | function result params assignable => answered (ts.function result params assignable)
  | struct fields base =>
    match ts.struct fields base with
    | .ok r => answered r
    | .error e => (.error e, ts)
  | deferred name => answered (ts.deferred name)
  | parentRef depth => answered (ts.parentRef depth)
  | resolve lookup id => ts.resolve lookup id

/-- `P` holds of all types that it mentions. -/
def Mentions (P : TypeId → Prop) : TypeOp → Prop
  | primitive _ | deferred _ | parentRef _ => True
  | unsign id | constant id | mutableOf id | pointer id => P id
  | function result params _ => P result ∧ ∀ p ∈ params, P p.type
  | struct fields base => (∀ f ∈ fields, P f.type) ∧ ∀ b ∈ base, P b
  | resolve lookup id => P id ∧ ∀ name target, lookup name = .type target → P target

/-- The one type that is asked for, with its layout. Well-known types and the versions of closed types are
not asked for by their hash, and resolving asks for many types. -/
def request (ts : TypeTable) : TypeOp → Option TypeInfo
  | primitive kind => if (primitiveKinds.idxOf? kind).isSome then none else some (plainType kind)
  | unsign id =>
    let t := ts.get id
    if t.flags.closed then none else some { t with flags := { t.flags with unsigned := true } }
  | constant id =>
    let t := ts.get id
    if t.flags.closed then none else some { t with flags := { t.flags with isConst := true } }
  | mutableOf id =>
    let t := ts.get id
    if !t.isConst || t.flags.closed then none else some { t with flags := { t.flags with isConst := false } }
  | pointer base => some { kind := .pointer, shape := .pointer base }
  | function result params assignable =>
    some { kind := .function, shape := .function result params, flags := { assignable } }
  | struct fields base =>
    match ts.checkFields [] (withBase fields base) with
    | .ok () => some (ts.withLayout { kind := .struct, shape := .struct (withBase fields base) })
    | .error _ => none
  | deferred name => some { kind := .deferred, shape := .deferred name }
  | parentRef depth => some (marker depth)
  | resolve .. => none

def asked (ts : TypeTable) : TypeOp → List TypeInfo
  | resolve lookup id => askedInner lookup (2 * ts.size + 2) [] id ts
  | op => (op.request ts).toList

section
variable {ts : TypeTable} {op : TypeOp} {t : TypeInfo}

theorem run_request (h : op.request ts = some t) : op.run ts = answered (ts.register t) := by
  cases op with
  | primitive kind =>
    simp only [request] at h
    split at h
    · cases h
    case isFalse hk =>
      cases h
      rw [Bool.not_eq_true, Option.isSome_eq_false_iff, Option.isNone_iff_eq_none] at hk
      simp only [run, TypeTable.primitive, hk]
  | unsign | constant | mutableOf =>
    simp only [request] at h
    split at h
    · cases h
    case isFalse hk =>
      cases h
      simp only [run, TypeTable.unsign, TypeTable.constant, TypeTable.mutableOf, if_neg hk]
  | pointer | function | deferred | parentRef =>
    cases h
    rfl
  | struct fields base =>
    simp only [request] at h
    split at h
    case h_1 hc =>
      cases h
      simp only [run, struct_eq, hc, Except.map]
    case h_2 => cases h
  | resolve => cases h

/-- A type is asked for by its hash, or a closed one is made constant, or names are resolved, or else nothing
changes: what is given is well-known or was there. -/
theorem run_cases (ts : TypeTable) (op : TypeOp) :
    (∃ t, op.request ts = some t ∧ op.run ts = answered (ts.register t)) ∨
      (∃ id, op = .constant id ∧ (ts.get id).flags.closed = true ∧ op.run ts = answered (ts.constClosed id)) ∨
      (∃ lookup id, op = .resolve lookup id) ∨
      ∃ r, op.run ts = (r, ts) ∧ ∀ id, r = .ok id →
        (∃ kind, primitiveKinds.idxOf? kind = some id) ∨ ∀ P, op.Mentions P → P id := by
  cases hr : op.request ts with
  | some t => exact .inl ⟨t, rfl, run_request hr⟩
  | none =>
    cases op with
    | primitive kind =>
      simp only [request] at hr
      split at hr
      case isTrue hk =>
        obtain ⟨id, hk⟩ := Option.isSome_iff_exists.mp hk
        refine .inr (.inr (.inr ⟨.ok id, ?_, fun _ he => .inl ⟨kind, Except.ok.inj he ▸ hk⟩⟩))
        simp only [run, TypeTable.primitive, hk, answered]
      case isFalse => cases hr
    | unsign id | mutableOf id =>
      simp only [request] at hr
      split at hr
      case isTrue hc =>
        refine .inr (.inr (.inr ⟨.ok id, ?_, fun _ he => .inr fun P hm => Except.ok.inj he ▸ hm⟩))
        simp only [run, TypeTable.unsign, TypeTable.mutableOf, if_pos hc, answered]
      case isFalse => cases hr
    | constant id =>
      simp only [request] at hr
      split at hr
      case isTrue hc =>
        refine .inr (.inl ⟨id, rfl, hc, ?_⟩)
        simp only [run, TypeTable.constant, if_pos hc]
      case isFalse => cases hr
    | struct fields base =>
      simp only [request] at hr
      split at hr
      case h_1 => cases hr
      case h_2 e hc =>
        refine .inr (.inr (.inr ⟨.error e, ?_, by rintro _ ⟨⟩⟩))
        simp only [run, struct_eq, hc, Except.map]
    | resolve lookup id => exact .inr (.inr (.inl ⟨lookup, id, rfl⟩))
    | pointer | function | deferred | parentRef => cases hr

theorem asked_request (h : op.request ts = some t) : op.asked ts = [t] := by
  cases op with
  | resolve => cases h
  | _ => exact congrArg Option.toList h

theorem mem_withBase {fields : List Field} {base : Option TypeId} {f : Field} (h : f ∈ withBase fields base) :
    f.type ∈ base ∨ f ∈ fields := by
  obtain h | h := List.mem_append.mp h
  · obtain ⟨b, hb, rfl⟩ := List.mem_map.mp h
    exact .inl (Option.mem_toList.mp hb)
  · exact .inr h

structure Proper (ts : TypeTable) (t : TypeInfo) : Prop where
  isOpen : t.flags.closed = false
  next (s : TypeStep) (c : TypeId) : t.shape.next? s = some c → c < ts.size
  laid : ts.Laid → ts.withLayout t = t

theorem Proper.flags (h : ts.Sane) {id : TypeId} (hid : id < ts.size)
    (ho : (ts.get id).flags.closed = false) {flags : TypeFlags}
    (hf : flags.closed = false) : Proper ts { ts.get id with flags } where
  isOpen := hf
  next _ _ hn := h.next_lt (lookup_of_lt hid) hn
  laid hl := withLayout_of_same (hl id _ (lookup_of_lt hid) ho) rfl rfl rfl

/-- What is asked for is an open type that the request mentions with other flags, or it is new and made of what the
request mentions. -/
theorem request_cases {P : TypeId → Prop} (hm : op.Mentions P) (hr : op.request ts = some t) :
    (∃ id flags, t = { ts.get id with flags } ∧ P id ∧ (ts.get id).flags.closed = false ∧ flags.closed = false) ∨
      t.flags.closed = false ∧ ts.withLayout t = t ∧ (∀ s c, t.shape.next? s = some c → P c) ∧
        ∀ depth, t.shape = .parent depth → op = .parentRef depth := by
  cases op with
  | primitive kind =>
    simp only [request] at hr
    split at hr
    · cases hr
    · cases hr
      exact .inr ⟨rfl, rfl, fun s c hn => (by cases s <;> cases hn), nofun⟩
  | unsign id | constant id =>
    simp only [request] at hr
    split at hr
    · cases hr
    case isFalse hk =>
      cases hr
      rw [Bool.not_eq_true] at hk
      exact .inl ⟨id, _, rfl, hm, hk, hk⟩
  | mutableOf id =>
    simp only [request] at hr
    split at hr
    · cases hr
    case isFalse hk =>
      cases hr
      rw [Bool.not_eq_true, Bool.or_eq_false_iff] at hk
      exact .inl ⟨id, _, rfl, hm, hk.2, hk.2⟩
  | pointer base =>
    cases hr
    refine .inr ⟨rfl, rfl, fun s c hn => ?_, nofun⟩
    cases s <;> cases hn
    exact hm
  | function result params assignable =>
    cases hr
    refine .inr ⟨rfl, rfl, fun s c hn => ?_, nofun⟩
    obtain rfl | ⟨p, hp, rfl⟩ := TypeShape.next?_function hn
    · exact hm.1
    · exact hm.2 p hp
  | struct fields base =>
    simp only [request] at hr
    split at hr
    · cases hr
      -- The layout changes offsets, not the types of the fields.
      refine .inr ⟨congrArg TypeFlags.closed (withLayout_flags _), withLayout_withLayout _, fun s c hn => ?_, nofun⟩
      rw [withLayout_next?] at hn
      obtain ⟨f, hf, rfl⟩ := TypeShape.next?_struct hn
      exact (mem_withBase hf).elim (hm.2 _) (hm.1 f)
    · cases hr
  | deferred name =>
    cases hr
    exact .inr ⟨rfl, rfl, fun s c hn => (by cases s <;> cases hn), nofun⟩
  | parentRef depth =>
    cases hr
    exact .inr ⟨rfl, rfl, fun s c hn => (by cases s <;> cases hn), by rintro _ ⟨⟩; rfl⟩
  | resolve => cases hr

theorem request_proper (h : ts.Sane) (hm : op.Mentions (· < ts.size)) (hr : op.request ts = some t) :
    Proper ts t := by
  obtain ⟨id, flags, rfl, hid, ho, hf⟩ | ⟨ho, hl, hn, -⟩ := request_cases hm hr
  · exact .flags h hid ho hf
  · exact ⟨ho, hn, fun _ => hl⟩

theorem run_answers (h : ts.Sane) (hm : op.Mentions (· < ts.size)) (hr : op.request ts = some t) :
    ts.Answers t (ts.register t) :=
  have hp := request_proper h hm hr
  h.register hp.isOpen hp.next hp.laid

end

end TypeOp

namespace TypeTable

/-! ## Histories -/

section
variable {ts : TypeTable} {id : TypeId}

theorem constClosed_keeps (h : ts.Sane) (hid : ts.IsClosed id) : ts.Keeps (ts.constClosed id).2 := by
  obtain ⟨t, ht, hc⟩ := hid
  unfold constClosed
  split
  · exact .refl h
  · rw [get_eq ht]
    let u : TypeInfo := { t with flags := { t.flags with isConst := true }, hash := hashMix t.hash 1 }
    have hp : u.containsParent = false := by
      have hm := h.marked ht
      rw [hc] at hm
      exact hm
    have hs : (ts.pushed u).Sane := h.pushed hc hp fun s c hn => h.next_lt ht hn
    -- the copies do not matter
    have hs' (closedConst : Std.HashMap TypeId TypeId) : Sane { ts.pushed u with closedConst } :=
      ⟨hs.found, hs.listed, hs.below, hs.marked⟩
    have hg := ts.pushed_grows u
    exact ⟨hs' _, hg, h.laid (hs' _) hg rfl⟩

end

end TypeTable

section
variable {ts : TypeTable} {op : TypeOp}

theorem TypeOp.run_keeps (h : ts.Sane) (hm : op.Mentions (· < ts.size)) : ts.Keeps (op.run ts).2 := by
  obtain ⟨t, hr, hrun⟩ | ⟨id, rfl, hc, hrun⟩ | ⟨lookup, id, rfl⟩ | ⟨r, hrun, -⟩ := op.run_cases ts
  · rw [hrun]
    exact (run_answers h hm hr).adds.keeps
  · rw [hrun]
    exact constClosed_keeps h ⟨_, lookup_of_lt hm, hc⟩
  · exact resolve_keeps h hm.1 hm.2
  · rw [hrun]
    exact .refl h

/-- What becomes of a table by requests for types that it has the parts of. -/
inductive Later (ts : TypeTable) : TypeTable → Prop where
  | refl : Later ts ts
  | step {ts' : TypeTable} {op : TypeOp} : Later ts ts' → op.Mentions (· < ts'.size) → Later ts (op.run ts').2

theorem Later.keeps {ts' : TypeTable} (h : ts.Sane) (hl : Later ts ts') : ts.Keeps ts' := by
  induction hl with
  | refl => exact .refl h
  | step _ hm ih => exact ih.trans (TypeOp.run_keeps ih.sane hm)

/-- A machine asks for the constant type of types before it resolves one. -/
theorem Later.constantType {ts' : TypeTable} (hl : Later ts ts') (hg : initial.Grows ts') :
    Later ts (ts'.constant type).2 := by
  have htype : type < initial.size := by
    rw [TypeTable.size, ← Array.length_toList, initial_types.2]
    decide
  have h : Later ts ((TypeOp.constant type).run ts').2 := hl.step (hg.lt htype)
  exact h

end

/-! ## Tables of known types -/

namespace TypeTable

def ofTypes (types : List TypeInfo) : TypeTable := ⟨types.toArray, ∅, ∅, ∅⟩

/-- The table has come about by requests, and these are its types. -/
structure Comprises (ts : TypeTable) (types : List TypeInfo) : Prop where
  later : Later .initial ts
  types : ts.types = types.toArray

section
variable {ts ts' : TypeTable} {types : List TypeInfo} {t : TypeInfo}

theorem comprises_initial : initial.Comprises (primitiveKinds.map (plainInfo · {})) :=
  ⟨.refl, by rw [← initial_types.2]⟩

theorem Comprises.size (h : ts.Comprises types) : ts.size = types.length := congrArg Array.size h.types

theorem Comprises.get (h : ts.Comprises types) (id : TypeId) : ts.get id = (ofTypes types).get id := by
  rw [TypeTable.get, h.types]
  rfl

theorem Comprises.nameless (h : ts.Comprises types)
    (hn : ∀ t ∈ types, t.flags.closed = false ∧ ∀ name, t.shape ≠ .deferred name) : ts.Nameless := by
  intro id hid
  have ht := lookup_of_lt hid
  rw [h.types, List.getElem?_toArray] at ht
  exact hn _ (List.mem_of_getElem? ht)

theorem checkFields_congr (h : ∀ id, ts.get id = ts'.get id) : ∀ (fields : List Field) (seen : List NameId),
    ts.checkFields seen fields = ts'.checkFields seen fields
  | [], _ => rfl
  | f :: fs, seen => by
    rw [checkFields, checkFields, h]
    cases f.name with
    | none => exact checkFields_congr h fs seen
    | some name => simp only [checkFields_congr h fs]

theorem request_congr (h : ∀ id, ts.get id = ts'.get id) (op : TypeOp) : op.request ts = op.request ts' := by
  cases op with
  | unsign id | constant id | mutableOf id => simp only [TypeOp.request, h]
  | struct fields base => simp only [TypeOp.request, checkFields_congr h, withLayout_congr fun _ c _ => h c]
  | _ => rfl

theorem Comprises.ask (h : ts.Comprises types) (op : TypeOp) (hr : op.request (ofTypes types) = some t)
    (hm : op.Mentions (· < types.length)) (hn : ∀ u ∈ types, u.computeHash ≠ t.computeHash) :
    ∃ ts', op.run ts = (.ok types.length, ts') ∧ ts'.Comprises (types ++ [(ofTypes types).joined t]) := by
  have hreq : op.request ts = some t := (request_congr h.get op).trans hr
  have hnew : ts.interned[t.computeHash]? = none := by
    cases hi : ts.interned[t.computeHash]? with
    | none => rfl
    | some id =>
      obtain ⟨u, hu, hh, -⟩ := (h.later.keeps sane_initial).sane.found hi
      rw [h.types, List.getElem?_toArray] at hu
      exact absurd hh (hn u (List.mem_of_getElem? hu))
  have hj : ts.joined t = (ofTypes types).joined t := by
    rw [joined, joined, shapeContainsParent_congr fun _ c _ => congrArg TypeInfo.containsParent (h.get c)]
  have hrun := TypeOp.run_request hreq
  rw [register_joins hnew, h.size, hj] at hrun
  refine ⟨_, hrun, ?_, ?_⟩
  · have hl : Later .initial (op.run ts).2 := h.later.step (h.size ▸ hm)
    rwa [hrun] at hl
  · show ts.types.push _ = _
    rw [h.types, List.push_toArray]

end

end TypeTable

end LevelScript
