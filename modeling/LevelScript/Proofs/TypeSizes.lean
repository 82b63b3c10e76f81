import LevelScript.Proofs.TypeHistory

/-!
# Types by themselves

What holds of a type by itself, whatever it is made of, holds of all types of a table that has come about by
requests if each way in which a type joins keeps it. So a type has the kind that its structure asks for, and
the size that its kind asks for unless it is a struct or stands for an enclosing type; and no deferred name is
closed.
-/

namespace LevelScript

/-- The kind that a structure asks for. -/
def TypeShape.kind? : TypeShape → Option Kind
  | plain => none
  | pointer _ => some .pointer
  | struct _ => some .struct
  | function _ _ => some .function
  | deferred _ => some .deferred
  | parent _ => some .parent

structure TypeInfo.Regular (t : TypeInfo) : Prop where
  kind {k : Kind} : t.shape.kind? = some k → t.kind = k
  size : t.kind ≠ .struct → t.kind ≠ .parent → t.size = (TypeTable.plainType t.kind).size

theorem TypeInfo.Regular.of_same {t u : TypeInfo} (h : t.Regular) (hk : u.kind = t.kind)
    (hs : u.shape.kind? = t.shape.kind?)
    (hz : u.size = t.size) : u.Regular :=
  ⟨fun he => hk.trans (h.kind (hs ▸ he)), by rw [hk, hz]; exact h.size⟩

namespace TypeTable

def Regular (ts : TypeTable) : Prop := ∀ id, (ts.get id).Regular

def All (ts : TypeTable) (P : TypeInfo → Prop) : Prop := ∀ id, P (ts.get id)

end TypeTable

open TypeTable

/-- A property of single types that every type has with which a table begins or that joins one. -/
structure EntryLaw (P : TypeInfo → Prop) : Prop where
  plain (kind : Kind) : P (plainType kind)
  marker (depth : Nat) : P (marker depth)
  joined (ts : TypeTable) {t : TypeInfo} : P t → P (ts.joined t)
  shaped (ts : TypeTable) {t : TypeInfo} {shape : TypeShape} : P t → shape.kind? = t.shape.kind? →
      P (ts.withLayout { t with shape })
  copied {t : TypeInfo} : P t → t.containsParent = true → P (closedCopy t)
  flagged {t : TypeInfo} {flags : TypeFlags} (hash : UInt64) : P t → flags.closed = t.flags.closed →
      P { t with flags, hash }
  fresh {kind : Kind} {shape : TypeShape} (assignable : Bool) : shape.kind? = some kind →
      P { kind, shape, flags := { assignable } }

namespace TypeTable

section
variable {ts : TypeTable} {t : TypeInfo} {id : TypeId}

theorem withLayout_kind? (t : TypeInfo) : (ts.withLayout t).shape.kind? = t.shape.kind? := by
  unfold withLayout
  split
  case h_1 fields hs => rw [hs]; rfl
  case h_2 => rfl

end

/-- A step of the walk leaves all types as they have to be, and what it gives has the property. -/
structure Tidies {α : Type} (P : TypeInfo → Prop) (r : Walked α) (Q : α → Prop) : Prop where
  all : r.2.All P
  result {a : α} : r.1 = .ok a → Q a

section
variable {α β : Type} {P : TypeInfo → Prop} {Q : α → Prop} {Q' : β → Prop} {ts : TypeTable}

theorem Tidies.ok {a : α} (h : ts.All P) (ha : Q a) : Tidies P (.ok a, ts) Q := ⟨h, fun he => Except.ok.inj he ▸ ha⟩

theorem Tidies.andThen {r : Walked α} {f : α → TypeTable → Walked β} (hr : Tidies P r Q)
    (hf : ∀ a ts, Q a → ts.All P → Tidies P (f a ts) Q') : Tidies P (andThen r f) Q' := by
  obtain ⟨_ | a, ts⟩ := r
  · exact ⟨hr.all, nofun⟩
  · exact hf a ts (hr.result rfl) hr.all

end

end TypeTable

namespace EntryLaw

variable {P : TypeInfo → Prop} (hP : EntryLaw P) {ts : TypeTable} {t : TypeInfo}
include hP

omit hP in
theorem pushed (h : ts.All P) (ht : P t) : (ts.pushed t).All P := by
  intro id
  rw [TypeTable.get, TypeTable.pushed, Array.getElem?_push]
  split
  · exact ht
  · exact h id

theorem replaced (h : ts.All P) (ht : P t) (id : TypeId) : (ts.replaced id t).All P := by
  intro c
  rw [TypeTable.get, TypeTable.replaced, Array.getElem?_setIfInBounds]
  split
  · split
    · exact ht
    · exact hP.plain .void
  · exact h c

theorem register_all (h : ts.All P) (ht : P t) : (ts.register t).2.All P := by
  cases hi : ts.interned[t.computeHash]? with
  | some id =>
    rw [register_found hi]
    exact h
  | none =>
    rw [register_joins hi]
    exact pushed h (hP.joined ts ht)

theorem parentRef_all (h : ts.All P) (depth : Nat) : (ts.parentRef depth).2.All P :=
  hP.register_all h (hP.marker depth)

/-! ## Resolving -/

section
variable {α : Type} {resolve : TypeId → Resolver TypeId}
  (hr : ∀ c ts, ts.All P → Tidies P (resolve c ts) fun _ => True)
include hr

omit hP in
theorem walkAll {get : α → TypeId} {set : α → TypeId → α} : ∀ (as : List α) (ts : TypeTable), ts.All P →
      Tidies P (resolveAll resolve get set as ts) fun _ => True
  | [], _, h => .ok h trivial
  | a :: as, ts, h => by
    rw [resolveAll_cons]
    exact (hr _ ts h).andThen fun _ ts₁ _ h₁ => (walkAll as ts₁ h₁).andThen fun _ _ _ h₂ => .ok h₂ trivial

omit hP in
theorem walkBelow (h : ts.All P) (shape : TypeShape) :
    Tidies P (resolveBelow resolve shape ts) fun s => s.kind? = shape.kind? := by
  cases shape with
  | plain | deferred | parent => exact .ok h rfl
  | pointer base => exact (hr base ts h).andThen fun _ _ _ h₁ => .ok h₁ rfl
  | function result params =>
    exact (hr result ts h).andThen fun _ ts₁ _ h₁ => (walkAll hr params ts₁ h₁).andThen fun _ _ _ h₂ => .ok h₂ rfl
  | struct fields => exact (walkAll hr fields ts h).andThen fun _ _ _ h₁ => .ok h₁ rfl

end

theorem orMarker_tidies (ancestors : List TypeId) (id : TypeId) (h : ts.All P) :
    Tidies P (orMarker ancestors id ts) fun _ => True := by
  unfold orMarker
  split
  · exact .ok h trivial
  · exact .ok (hP.parentRef_all h _) trivial

theorem walk (lookup : Lookup) : ∀ (n : Nat) (ancestors : List TypeId) (id : TypeId) (ts : TypeTable),
    ts.All P → Tidies P (resolveInner lookup n ancestors id ts) fun _ => True
  | 0, _, _, _, h => .ok h trivial
  | n + 1, ancestors, id, ts, h => by
    refine resolveInner_cases (C := (Tidies P · fun _ => True)) (fun k _ => .ok (hP.parentRef_all h _) trivial)
      (fun _ _ => .ok h trivial) (fun _ _ _ _ => .ok h trivial) (fun name _ _ _ => ?named) fun _ _ _ => ?composed
    case named =>
      refine .andThen (Q := fun _ => True) ⟨h, fun _ => trivial⟩ fun target ts₁ _ h₁ => ?_
      exact (walk lookup n ancestors target ts₁ h₁).andThen fun found _ _ h₂ =>
        hP.orMarker_tidies ancestors found h₂
    case composed =>
      exact (walkBelow (fun c ts => walk lookup n (id :: ancestors) c ts) h _).andThen
        fun shape ts₁ hs h₁ => .ok (hP.register_all h₁ (hP.shaped ts₁ (h id) hs)) trivial

/-! ## Closing -/

section
variable {α : Type} {close : TypeId → TypeTable → TypeId × TypeTable} (hr : ∀ c ts, ts.All P → (close c ts).2.All P)
include hr

omit hP in
theorem tieAll {get : α → TypeId} {set : α → TypeId → α} : ∀ (as : List α) (ts : TypeTable), ts.All P →
      (closeAll close get set as ts).2.All P
  | [], _, h => h
  | a :: as, ts, h => tieAll as _ (hr (get a) ts h)

omit hP in
theorem tieBelow (h : ts.All P) (shape : TypeShape) :
    (closeBelow close shape ts).2.All P ∧ (closeBelow close shape ts).1.kind? = shape.kind? := by
  cases shape with
  | plain | deferred | parent => exact ⟨h, rfl⟩
  | pointer base => exact ⟨hr base ts h, rfl⟩
  | function result params => exact ⟨tieAll hr params _ (hr result ts h), rfl⟩
  | struct fields => exact ⟨tieAll hr fields ts h, rfl⟩

end

theorem tie : ∀ (n : Nat) (stack : List TypeId) (id : TypeId) (ts : TypeTable), ts.All P →
    (close n stack id ts).2.All P
  | 0, _, _, _, h => h
  | n + 1, stack, id, ts, h => by
    refine close_cases (C := (·.2.All P)) (fun _ => h) (fun _ _ _ => h) fun hp _ => ?_
    have hcopy := hP.copied (h id) hp
    obtain ⟨hb, hs⟩ := tieBelow (fun c T => tie n (ts.size :: stack) c T) (pushed h hcopy) (ts.get id).shape
    exact hP.replaced hb (hP.shaped _ hcopy hs) _

theorem tieRoot (h : ts.All P) (id : TypeId) : (ts.closeRoot id).2.All P := by
  cases hc : ts.closed[id]? with
  | some new =>
    rw [closeRoot_found hc]
    exact h
  | none =>
    rw [closeRoot_new hc]
    exact hP.tie _ _ id ts h

theorem resolve_all (h : ts.All P) (lookup : Lookup) (id : TypeId) : (ts.resolve lookup id).2.All P := by
  rw [(resolve_tied ts lookup id).1]
  refine Tidies.all (Q := fun _ => True) ((hP.walk lookup _ [] id ts h).andThen fun found ts₁ _ h₁ => ?_)
  split
  · exact .ok (hP.tieRoot h₁ found) trivial
  · exact .ok h₁ trivial

/-! ## Histories -/

theorem constClosed_all (h : ts.All P) (id : TypeId) : (ts.constClosed id).2.All P := by
  unfold constClosed
  split
  · exact h
  · exact pushed h (hP.flagged _ (h id) rfl)

theorem request_all (h : ts.All P) {op : TypeOp} (hr : op.request ts = some t) : P t := by
  cases op with
  | primitive kind =>
    simp only [TypeOp.request] at hr
    split at hr
    · cases hr
    · cases hr
      exact hP.plain kind
  | unsign id | constant id | mutableOf id =>
    simp only [TypeOp.request] at hr
    split at hr
    · cases hr
    · cases hr
      exact hP.flagged _ (h id) rfl
  | struct fields base =>
    simp only [TypeOp.request] at hr
    split at hr
    · cases hr
      exact hP.shaped ts (hP.fresh false rfl) rfl
    · cases hr
  | parentRef depth =>
    cases hr
    exact hP.marker depth
  | pointer | function | deferred =>
    cases hr
    exact hP.fresh _ rfl
  | resolve => cases hr

theorem run (h : ts.All P) (op : TypeOp) : (op.run ts).2.All P := by
  obtain ⟨t, hr, hrun⟩ | ⟨id, rfl, -, hrun⟩ | ⟨lookup, id, rfl⟩ | ⟨r, hrun, -⟩ := op.run_cases ts
  · rw [hrun]
    exact hP.register_all h (hP.request_all h hr)
  · rw [hrun]
    exact hP.constClosed_all h id
  · exact hP.resolve_all h lookup id
  · rw [hrun]
    exact h

theorem initial : TypeTable.initial.All P := by
  intro id
  have hl : TypeTable.initial.types.toList = primitiveKinds.map (plainInfo · {}) := initial_types.2
  rw [TypeTable.get, ← Array.getElem?_toList, hl, List.getElem?_map]
  cases primitiveKinds[id]? with
  | none => exact hP.plain .void
  | some kind => exact hP.joined TypeTable.initial (hP.plain kind)

theorem later (h : Later .initial ts) : ts.All P := by
  induction h with
  | refl => exact hP.initial
  | step _ _ ih => exact hP.run ih _

end EntryLaw

/-! ## Kinds and sizes -/

theorem TypeInfo.regular_plain (kind : Kind) : (plainType kind).Regular := ⟨nofun, fun _ _ => rfl⟩

namespace TypeTable

section
variable {ts : TypeTable} {t : TypeInfo}

theorem withLayout_regular (h : t.Regular) : (ts.withLayout t).Regular := by
  refine ⟨fun he => ?_, fun hs hp => ?_⟩
  · rw [withLayout_kind? t] at he
    rw [withLayout_kind, h.kind he]
  · rw [withLayout_kind] at hs hp ⊢
    rw [← h.size hs hp]
    unfold withLayout
    split
    case h_1 fields hf => exact absurd (h.kind (by rw [hf]; rfl)) hs
    case h_2 => rfl

end

theorem regular_law : EntryLaw TypeInfo.Regular where
  plain := TypeInfo.regular_plain
  marker _ := ⟨fun he => Option.some.inj he, fun _ hp => absurd rfl hp⟩
  joined _ _ h := h.of_same rfl rfl rfl
  shaped _ _ _ h hs := withLayout_regular (h.of_same rfl hs rfl)
  copied h _ := h.of_same rfl rfl rfl
  flagged _ h _ := h.of_same rfl rfl rfl
  fresh {kind shape} _ hs :=
    ⟨fun he => Option.some.inj (hs.symm.trans he), fun _ _ => by cases shape <;> cases hs <;> rfl⟩

/-- A value takes as much as its type, but for structs, `void` and references to enclosing types. -/
theorem Regular.valueSize {ts : TypeTable} (h : ts.Regular) {id : TypeId} (hv : ts.kind id ≠ .void)
    (hs : ts.kind id ≠ .struct)
    (hp : ts.kind id ≠ .parent) : (ts.get id).valueSize.toUInt64 = (ts.get id).size ∧ 1 ≤ (ts.get id).size := by
  rw [(h id).size hs hp, TypeInfo.valueSize]
  revert hv
  rw [TypeTable.kind]
  cases (ts.get id).kind <;> first | exact fun _ => by decide | exact fun hv => absurd rfl hv

end TypeTable

theorem Later.regular {ts : TypeTable} (h : Later initial ts) : ts.Regular := regular_law.later h

/-! ## Names -/

def TypeInfo.OpenName (t : TypeInfo) : Prop := t.shape.kind? = some .deferred → t.flags.closed = false ∧
    t.containsParent = false

theorem openName_law : EntryLaw TypeInfo.OpenName where
  plain _ := nofun
  marker _ := nofun
  joined ts t h hs := by
    refine ⟨(h hs).1, ?_⟩
    cases hshape : t.shape with
    | deferred => simp [joined, hshape, shapeContainsParent]
    | _ =>
      rw [show (ts.joined t).shape = t.shape from rfl, hshape] at hs
      cases hs
  shaped ts t shape h hs := by
    intro hd
    rw [withLayout_kind?] at hd
    simpa using h (hs.symm.trans hd)
  copied h hp hs := by
    rw [(h hs).2] at hp
    cases hp
  flagged _ h hc hs := ⟨hc.trans (h hs).1, (h hs).2⟩
  fresh _ _ _ := ⟨rfl, rfl⟩

/-- No name is closed: copies are made of what refers to an enclosing type. -/
theorem Later.open_of_deferred {ts : TypeTable} (h : Later initial ts) {id : TypeId} {name : NameId}
    (hs : (ts.get id).shape = .deferred name) : (ts.get id).flags.closed = false :=
  (openName_law.later h id (by rw [hs]; rfl)).1

end LevelScript
