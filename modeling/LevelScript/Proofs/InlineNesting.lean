import LevelScript.Machine.Struct
import LevelScript.Proofs.TypeWalks
import Mathlib.Data.Fintype.Card

/-!
# Inline fields of resolved types

Inline fields of a type that can be resolved form a finite tree, so whatever goes down them ends. Only the
type itself is looked at, however: a struct behind a pointer or in a function is not.
-/

namespace LevelScript

namespace TypeTable

def Inside (ts : TypeTable) (c id : TypeId) : Prop :=
  ts.kind id = .struct ∧ ∃ f ∈ (ts.get id).fields, f.inlined.isSome = true ∧ f.type = c

/-- A struct in which inline fields are pointers with a name, or such structs again, fewer than `n` deep. -/
def Nested (ts : TypeTable) : Nat → TypeId → Prop
  | 0, _ => False
  | n + 1, id => ts.kind id = .struct ∧ ∀ f ∈ (ts.get id).fields, f.inlined.isSome = true →
      ts.Nested n f.type ∨ ts.kind f.type = .pointer ∧ f.name.isSome = true

section
variable {ts : TypeTable} {id c : TypeId}

theorem Nested.struct : ∀ {n : Nat}, ts.Nested n id → ts.kind id = .struct
  | _ + 1, h => h.1

theorem Nested.field_struct {n : Nat} {f : Field} (h : ts.Nested (n + 1) id) (hf : f ∈ (ts.get id).fields)
    (hi : f.inlined.isSome = true) (hk : ts.kind f.type = .struct) : ts.Nested n f.type := by
  obtain hn | ⟨hp, -⟩ := h.2 f hf hi
  · exact hn
  · rw [hk] at hp
    cases hp

theorem Nested.field_unnamed {n : Nat} {f : Field} (h : ts.Nested (n + 1) id) (hf : f ∈ (ts.get id).fields)
    (hi : f.inlined.isSome = true) (hname : f.name = none) : ts.Nested n f.type := by
  obtain hn | ⟨-, hs⟩ := h.2 f hf hi
  · exact hn
  · rw [hname] at hs
    cases hs

theorem Nested.acc : ∀ {n : Nat} {id : TypeId}, ts.Nested n id → Acc ts.Inside id
  | n + 1, id, h => ⟨id, fun c ⟨_, f, hf, hi, hc⟩ => by
    subst hc
    obtain hn | ⟨hp, -⟩ := h.2 f hf hi
    · exact hn.acc
    · refine ⟨_, fun d hd => ?_⟩
      rw [Inside, hp] at hd
      cases hd.1⟩

theorem not_inside_itself (h : Acc ts.Inside id) : ¬Relation.TransGen ts.Inside id id := by
  replace h := h.transGen
  induction h with
  | intro id _ ih => exact fun hc => ih id hc hc

/-! ## Validation -/

theorem validateFields_ok {path : List TypeId} {check : TypeId → Except TypeError Unit} :
    ∀ {fields : List Field}, ts.validateFields path check fields = .ok () ↔
      ∀ f ∈ fields, f.inlined.isSome = true → f.type ∉ path ∧
        (ts.kind f.type = .struct ∧ check f.type = .ok () ∨ ts.kind f.type = .pointer ∧ f.name.isSome = true)
  | [] => ⟨fun _ => nofun, fun _ => rfl⟩
  | f :: fs => by
    rw [List.forall_mem_cons, ← validateFields_ok, validateFields]
    by_cases hi : f.inlined.isSome = true
    · by_cases hp : f.type ∈ path
      · simp [hi, hp, bind, Except.bind, throw, throwThe, MonadExceptOf.throw]
      · cases hk : ts.kind f.type
        case struct =>
          cases check f.type <;> simp [hi, hp, bind, Except.bind]
        case pointer =>
          cases f.name <;> simp [hi, hp, bind, Except.bind, throw, throwThe, MonadExceptOf.throw]
        all_goals simp [hi, hp, bind, Except.bind, throw, throwThe, MonadExceptOf.throw]
    · simp [hi]

theorem validate_ok {n : Nat} {path : List TypeId} : ts.validate (n + 1) path id = .ok () ↔
    (ts.kind id = .struct → ∀ f ∈ (ts.get id).fields, f.inlined.isSome = true → f.type ∉ id :: path ∧
      (ts.kind f.type = .struct ∧ ts.validate n (id :: path) f.type = .ok () ∨
        ts.kind f.type = .pointer ∧ f.name.isSome = true)) := by
  rw [validate, ← validateFields_ok]
  by_cases h : ts.kind id = .struct
  · have hk : ((ts.get id).kind != .struct) = false := by rw [← kind, h]; rfl
    simp [hk, h]
  · have hk : ((ts.get id).kind != .struct) = true := bne_iff_ne.mpr h
    simp [hk, h]

theorem lt_of_struct (h : ts.kind id = .struct) : id < ts.size := by
  refine Nat.lt_of_not_le fun hs => ?_
  have hn : ts.types[id]? = none := Array.getElem?_eq_none hs
  rw [kind, get, hn] at h
  cases h

/-- What has been validated is nested: the structs around a struct differ, so that there are not more of
them than types. -/
theorem nested_of_validate : ∀ {n : Nat} {path : List TypeId} {id : TypeId}, path.Nodup →
    (∀ p ∈ path, p < ts.size) → id ∉ path → n + path.length = ts.size + 1 → ts.kind id = .struct →
    ts.validate n path id = .ok () → ts.Nested n id
  | 0, path, _, hd, hp, _, hn, _, _ => by
    have hs : path ⊆ List.range ts.size := fun p hm => List.mem_range.mpr (hp p hm)
    have hle := (hd.subperm hs).length_le
    rw [List.length_range] at hle
    omega
  | n + 1, path, id, hd, hp, hid, hn, hk, h => by
    refine ⟨hk, fun f hf hi => ?_⟩
    obtain ⟨hout, ⟨hs, hv⟩ | hptr⟩ := validate_ok.mp h hk f hf hi
    · have hpath : ∀ p ∈ id :: path, p < ts.size := List.forall_mem_cons.mpr ⟨lt_of_struct hk, hp⟩
      have hlen : n + (id :: path).length = ts.size + 1 := by rw [List.length_cons]; omega
      exact .inl (nested_of_validate (List.nodup_cons.mpr ⟨hid, hd⟩) hpath hout hlen hs hv)
    · exact .inr hptr

theorem validate_of_nested : ∀ {n k : Nat} {path : List TypeId} {id : TypeId}, ts.Nested k id →
    (∀ c, Relation.ReflTransGen ts.Inside c id → c ∉ path) → ts.validate n path id = .ok ()
  | 0, _, _, _, _, _ => rfl
  | n + 1, k + 1, path, id, h, hp => by
    refine validate_ok.mpr fun hk f hf hi => ?_
    have hin : ts.Inside f.type id := ⟨hk, f, hf, hi, rfl⟩
    -- nothing below an inline field is a struct around it
    have hout (c : TypeId) (hc : Relation.ReflTransGen ts.Inside c f.type) : c ∉ id :: path := by
      refine fun hm => (List.mem_cons.mp hm).elim (fun he => ?_) (hp c (hc.tail hin))
      subst he
      exact not_inside_itself h.acc (Relation.TransGen.tail' hc hin)
    refine ⟨hout _ .refl, (h.2 f hf hi).imp_left fun hn => ⟨hn.struct, validate_of_nested hn hout⟩⟩

/-- Inline fields, if there are any, form a finite tree of structs and pointers with names. -/
def Accepts (ts : TypeTable) (id : TypeId) : Prop := ts.kind id = .struct → ts.Nested (ts.size + 1) id

theorem validate_iff : ts.validate (ts.size + 1) [] id = .ok () ↔ ts.Accepts id := by
  refine ⟨fun h hk => nested_of_validate .nil nofun nofun rfl hk h, fun h => ?_⟩
  by_cases hk : ts.kind id = .struct
  · exact validate_of_nested (h hk) nofun
  · exact validate_ok.mpr fun hs => absurd hs hk

theorem Accepts.acc (h : ts.Accepts id) : Acc ts.Inside id := by
  by_cases hk : ts.kind id = .struct
  · exact (h hk).acc
  · exact ⟨id, fun c hc => absurd hc.1 hk⟩

theorem Nested.mono : ∀ {n m : Nat} {id : TypeId}, ts.Nested n id → n ≤ m → ts.Nested m id
  | _ + 1, _ + 1, _, h, hm => ⟨h.1, fun f hf hi => (h.2 f hf hi).imp_left fun hn =>
    hn.mono (Nat.le_of_succ_le_succ hm)⟩

/-- A struct inside a nested one is nested. -/
theorem Nested.inside {n : Nat} (h : ts.Nested n id) (hc : Relation.ReflTransGen ts.Inside c id)
    (hk : ts.kind c = .struct) :
    ts.Nested n c := by
  induction hc using Relation.ReflTransGen.head_induction_on with
  | refl => exact h
  | head hin _ ih =>
    obtain ⟨hs, f, hf, hi, rfl⟩ := hin
    obtain _ | n := n
    · exact h.elim
    · exact ((ih hs).field_struct hf hi hk).mono (Nat.le_succ n)

/-! ## What goes down inline fields -/

theorem locateIn_congr {owner : TypeId} {name : NameId} {g g' : TypeId → Option FieldSite} :
    ∀ {fields : List Field}, (∀ f ∈ fields, f.inlined.isSome = true → f.name = none → g f.type = g' f.type) →
      locateIn owner name g fields = locateIn owner name g' fields
  | [], _ => rfl
  | f :: fs, h => by
    rw [List.forall_mem_cons] at h
    rw [locateIn, locateIn, locateIn_congr h.2]
    by_cases hc : (f.inlined.isSome && f.name.isNone) = true
    · obtain ⟨hi, hn⟩ := Bool.and_eq_true_iff.mp hc
      rw [h.1 hi (Option.isNone_iff_eq_none.mp hn)]
    · simp only [if_neg hc]

theorem locate_nested {name : NameId} : ∀ {n m : Nat} {id : TypeId}, ts.Nested n id → n ≤ m →
    ts.locate name m id = ts.locate name n id
  | _ + 1, _ + 1, _, h, hm => locateIn_congr fun _ hf hi hname =>
    locate_nested (h.field_unnamed hf hi hname) (Nat.le_of_succ_le_succ hm)

theorem walkIn_congr {owner : TypeId} {addr : UInt64} {name : NameId}
    {g g' : TypeId → UInt64 → Option PlacedField} :
    ∀ {fields : List Field}, (∀ f ∈ fields, f.inlined.isSome = true → ts.kind f.type = .struct →
      g f.type = g' f.type) →
      ts.walkIn owner addr name g fields = ts.walkIn owner addr name g' fields
  | [], _ => rfl
  | f :: fs, h => by
    rw [List.forall_mem_cons] at h
    rw [walkIn, walkIn, walkIn_congr h.2]
    by_cases hc : (f.inlined.isSome && f.name.isNone) = true
    · by_cases hk : ts.kind f.type = .struct
      · simp only [if_pos hc, if_pos hk, h.1 (Bool.and_eq_true_iff.mp hc).1 hk]
      · simp only [if_pos hc, if_neg hk]
    · simp only [if_neg hc]

theorem walk_nested {name : NameId} : ∀ {n m : Nat} {id : TypeId}, ts.Nested n id → n ≤ m →
    ts.walk name m id = ts.walk name n id
  | n + 1, m + 1, id, h, hm => by
    funext addr
    exact walkIn_congr fun f hf hi hk => walk_nested (h.field_struct hf hi hk) (Nat.le_of_succ_le_succ hm)

theorem fieldWrites_congr {addr : UInt64} {g g' : TypeId → UInt64 → List Write} {f : Field}
    (h : f.inlined.isSome = true → ts.kind f.type = .struct → g f.type = g' f.type) :
    ts.fieldWrites addr g f = ts.fieldWrites addr g' f := by
  unfold fieldWrites
  cases hi : f.inlined with
  | none => rfl
  | some count =>
    by_cases hk : (ts.get f.type).kind = .struct
    · simp only [hk, if_true, h (by rw [hi]; rfl) hk]
    · simp only [hk, if_false]

theorem initialWrites_nested : ∀ {n m : Nat} {id : TypeId}, ts.Nested n id → n ≤ m →
    ts.initialWrites m id = ts.initialWrites n id
  | n + 1, m + 1, id, h, hm => by
    funext addr
    rw [initialWrites, initialWrites, List.flatMap_def, List.flatMap_def]
    refine congrArg List.flatten (List.map_congr_left fun f hf => fieldWrites_congr fun hi hk => ?_)
    exact initialWrites_nested (h.field_struct hf hi hk) (Nat.le_of_succ_le_succ hm)

/-- Searching for a field and starting values go down inline fields as far as there are any. -/
structure Descends (ts : TypeTable) (id : TypeId) : Prop where
  locate (name : NameId) :
    ts.locateField id name = locateIn id name (ts.locateField · name) (ts.get id).fields
  walk (addr : UInt64) (name : NameId) :
    ts.walkField id addr name = ts.walkIn id addr name (ts.walkField · · name) (ts.get id).fields
  writes (addr : UInt64) : ts.initialWrites (ts.size + 1) id addr =
    (ts.get id).fields.flatMap (ts.fieldWrites addr (ts.initialWrites (ts.size + 1)))

theorem Nested.descends (h : ts.Nested (ts.size + 1) id) : ts.Descends id where
  locate name :=
    locateIn_congr fun f hf hi hname => (locate_nested (h.field_unnamed hf hi hname) (Nat.le_succ _)).symm
  walk addr name := walkIn_congr fun f hf hi hk => (walk_nested (h.field_struct hf hi hk) (Nat.le_succ _)).symm
  writes addr := by
    rw [initialWrites, List.flatMap_def, List.flatMap_def]
    refine congrArg List.flatten (List.map_congr_left fun f hf => fieldWrites_congr fun hi hk => ?_)
    exact (initialWrites_nested (h.field_struct hf hi hk) (Nat.le_succ _)).symm

end

/-! ## Resolving -/

/-- A type is accepted just if its own inline fields form a finite tree. Of any type that would be accepted,
inline fields end, and so do the searches that go down them, from it and from every struct inside. -/
theorem resolve_ok_iff (ts ts' : TypeTable) (lookup : Lookup) (id r : TypeId) :
    (ts.resolve lookup id = (.ok r, ts') ↔ ts.tied lookup id = (.ok r, ts') ∧ ts'.Accepts r) ∧
      ∀ v, ts'.Accepts v → Acc ts'.Inside v ∧
        ∀ c, Relation.ReflTransGen ts'.Inside c v → ts'.kind c = .struct → ts'.Descends c := by
  refine ⟨?_, fun v h => ⟨h.acc, fun c hc hk => Nested.descends ?_⟩⟩
  · rw [resolve_eq]
    rcases ts.tied lookup id with ⟨_ | found, ts₁⟩
    · exact ⟨by rintro ⟨⟩, by rintro ⟨⟨⟩, -⟩⟩
    · cases hv : ts₁.validate (ts₁.size + 1) [] found with
      | error e =>
        simp only [andThen, hv]
        refine ⟨by rintro ⟨⟩, ?_⟩
        rintro ⟨he, ha⟩
        cases he
        rw [validate_iff.mpr ha] at hv
        cases hv
      | ok =>
        simp only [andThen, hv]
        refine ⟨fun he => ?_, fun h => h.1⟩
        cases he
        exact ⟨rfl, validate_iff.mp hv⟩
  · -- an inline field of a type that is no struct has nothing below it
    have hv : ts'.kind v = .struct := by
      obtain rfl | ⟨d, -, hin⟩ := Relation.ReflTransGen.cases_tail hc
      · exact hk
      · exact hin.1
    exact (h hv).inside hc hk

end TypeTable

end LevelScript
