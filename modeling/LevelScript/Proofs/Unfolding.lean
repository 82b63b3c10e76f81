import LevelScript.Proofs.TypeHistory
import Mathlib.Data.List.Perm.Subperm

/-!
# What a type unfolds to

From a type one comes, step by step, to the types that it is made of, a deferred name standing for what it
refers to. The walk over a type that may refer to itself gives an open type in which references to enclosing
types stand for the ancestors of the walk: read so, it unfolds to the same.
-/

namespace LevelScript

/-! ## What a node shows -/

def Field.form (f : Field) : Field := { f with offset := 0, place := .auto }

def Field.label (f : Field) : Field := TypeTable.setFieldType f.form 0

namespace TypeShape

def form : TypeShape → TypeShape
  | struct fields => struct (fields.map Field.form)
  | shape => shape

/-- A shape without the types that it is made of. -/
def label : TypeShape → TypeShape
  | pointer _ => pointer 0
  | function _ params => function 0 (params.map (TypeTable.setParamType · 0))
  | struct fields => struct (fields.map Field.label)
  | shape => shape

/-- Two shapes that differ only in what they are made of, which is related by `P`. -/
structure Alike (P : TypeId → TypeId → Prop) (a b : TypeShape) : Prop where
  label : b.label = a.label
  next {s : TypeStep} {c d : TypeId} : a.next? s = some c → b.next? s = some d → P c d

theorem next?_of_label {a b : TypeShape} (h : a.label = b.label) {s : TypeStep} {c : TypeId}
    (hs : a.next? s = some c) :
    ∃ d, b.next? s = some d := by
  cases a with
  | plain | deferred | parent => cases s <;> cases hs
  | pointer base =>
    cases s <;> cases hs
    cases b <;> cases h
    exact ⟨_, rfl⟩
  | function result params =>
    cases b with
    | function result' params' =>
      simp only [label, function.injEq, true_and] at h
      have hl := congrArg List.length h
      simp only [List.length_map] at hl
      cases s with
      | result => exact ⟨result', rfl⟩
      | param i =>
        obtain ⟨p, hp, -⟩ := Option.map_eq_some_iff.mp hs
        have hi := (List.getElem?_eq_some_iff.mp hp).1
        exact ⟨_, congrArg (Option.map Param.type) (List.getElem?_eq_getElem (hl ▸ hi))⟩
      | _ => cases hs
    | _ => cases h
  | struct fields =>
    cases b with
    | struct fields' =>
      simp only [label, struct.injEq] at h
      have hl := congrArg List.length h
      simp only [List.length_map] at hl
      cases s with
      | field i =>
        obtain ⟨f, hf, -⟩ := Option.map_eq_some_iff.mp hs
        have hi := (List.getElem?_eq_some_iff.mp hf).1
        exact ⟨_, congrArg (Option.map Field.type) (List.getElem?_eq_getElem (hl ▸ hi))⟩
      | _ => cases hs
    | _ => cases h

theorem label_of_form {a b : TypeShape} (h : a.form = b.form) : a.label = b.label := by
  cases a <;> cases b <;> first | cases h; rfl | cases h | skip
  case struct.struct fields fields' =>
    have hm := congrArg (List.map (TypeTable.setFieldType · 0)) (struct.inj h)
    rw [List.map_map, List.map_map] at hm
    exact congrArg struct hm

theorem next?_of_form {a b : TypeShape} (h : a.form = b.form) (s : TypeStep) : a.next? s = b.next? s := by
  cases a <;> cases b <;> first | cases h; rfl | cases h | skip
  case struct.struct fields fields' =>
    have hm := congrArg (List.map Field.type) (struct.inj h)
    rw [List.map_map, List.map_map] at hm
    have hm : fields.map Field.type = fields'.map Field.type := hm
    cases s with
    | field i =>
      show fields[i]?.map Field.type = fields'[i]?.map Field.type
      rw [← List.getElem?_map, hm, List.getElem?_map]
    | _ => rfl

theorem Alike.pointer {P : TypeId → TypeId → Prop} {base base' : TypeId} (h : P base base') :
    Alike P (.pointer base) (.pointer base') where
  label := rfl
  next {s c d} hc hd := by
    cases s <;> cases hc
    cases hd
    exact h

theorem forall₂_getElem? {α β : Type} {R : α → β → Prop} {as : List α} {bs : List β}
    (h : List.Forall₂ R as bs) {i : Nat} {a : α} {b : β}
    (ha : as[i]? = some a) (hb : bs[i]? = some b) : R a b := by
  induction h generalizing i with
  | nil => cases ha
  | cons hr _ ih =>
    cases i with
    | zero =>
      cases ha
      cases hb
      exact hr
    | succ i => exact ih ha hb

theorem Alike.function {P : TypeId → TypeId → Prop} {result result' : TypeId} {params params' : List Param}
    (h : P result result')
    (hp : List.Forall₂ (fun p p' => ∃ d, p' = TypeTable.setParamType p d ∧ P p.type d) params params') :
    Alike P (.function result params) (.function result' params') where
  label := by
    refine congrArg (TypeShape.function 0) ?_
    clear h
    induction hp with
    | nil => rfl
    | cons hr _ ih =>
      obtain ⟨d, rfl, -⟩ := hr
      exact congrArg₂ List.cons rfl ih
  next {s c d} hc hd := by
    cases s with
    | result =>
      cases hc
      cases hd
      exact h
    | param i =>
      obtain ⟨p, hi, rfl⟩ := Option.map_eq_some_iff.mp hc
      obtain ⟨p', hi', rfl⟩ := Option.map_eq_some_iff.mp hd
      obtain ⟨d, rfl, hr⟩ := forall₂_getElem? hp hi hi'
      exact hr
    | _ => cases hc

theorem Alike.struct {P : TypeId → TypeId → Prop} {fields fields' : List Field}
    (hf : List.Forall₂ (fun f f' => ∃ d, f' = TypeTable.setFieldType f d ∧ P f.type d) fields fields') :
    Alike P (.struct fields) (.struct fields') where
  label := by
    refine congrArg TypeShape.struct ?_
    induction hf with
    | nil => rfl
    | cons hr _ ih =>
      obtain ⟨d, rfl, -⟩ := hr
      exact congrArg₂ List.cons rfl ih
  next {s c d} hc hd := by
    cases s with
    | field i =>
      obtain ⟨f, hi, rfl⟩ := Option.map_eq_some_iff.mp hc
      obtain ⟨f', hi', rfl⟩ := Option.map_eq_some_iff.mp hd
      obtain ⟨d, rfl, hr⟩ := forall₂_getElem? hf hi hi'
      exact hr
    | _ => cases hc

end TypeShape

/-- What a type is but for where its fields lie. -/
def TypeInfo.form (t : TypeInfo) : Kind × TypeFlags × TypeShape := (t.kind, t.flags, t.shape.form)

/-- What a type shows: kind, flags, names, multiplicities and starting values. -/
def TypeInfo.label (t : TypeInfo) : Kind × TypeFlags × TypeShape :=
  (t.kind, { t.flags with closed := false }, t.shape.label)

theorem TypeInfo.label_of_form {t u : TypeInfo} (h : t.form = u.form) : t.label = u.label := by
  have hs : t.shape.form = u.shape.form := congrArg (·.2.2) h
  have hf : t.flags = u.flags := congrArg (·.2.1) h
  have hk : t.kind = u.kind := congrArg (·.1) h
  rw [label, label, hk, hf, TypeShape.label_of_form hs]

theorem TypeInfo.next?_of_label {t u : TypeInfo} (h : t.label = u.label) {s : TypeStep} {c : TypeId}
    (hs : t.shape.next? s = some c) : ∃ d, u.shape.next? s = some d :=
  TypeShape.next?_of_label (congrArg (·.2.2) h) hs

theorem TypeInfo.deferred_of_label {t u : TypeInfo} (h : t.label = u.label) {name : NameId}
    (hs : t.shape = .deferred name) :
    u.shape = .deferred name := by
  have hl : t.shape.label = u.shape.label := congrArg (·.2.2) h
  rw [hs] at hl
  cases hu : u.shape <;> rw [hu] at hl <;> cases hl
  rfl

theorem TypeInfo.parent_of_label {t u : TypeInfo} (h : t.label = u.label) {depth : Nat}
    (hs : t.shape = .parent depth) :
    u.shape = .parent depth := by
  have hl : t.shape.label = u.shape.label := congrArg (·.2.2) h
  rw [hs] at hl
  cases hu : u.shape <;> rw [hu] at hl <;> cases hl
  rfl

theorem TypeTable.withLayout_form (ts : TypeTable) (t : TypeInfo) : (ts.withLayout t).form = t.form := by
  obtain ⟨kind, shape, flags, hash, size, alignment, marked⟩ := t
  cases shape with
  | struct fields =>
    exact congrArg (fun fields => (kind, flags, TypeShape.struct fields))
      (ts.placeFields_map Field.form (fun _ _ => rfl) fields {})
  | _ => rfl

namespace TypeTable

/-! ## Ways through the table -/

def follow (ts : TypeTable) : TypeId → List TypeStep → Option TypeId
  | id, [] => some id
  | id, s :: path => (ts.types[id]?).bind fun t => (t.shape.next? s).bind (ts.follow · path)

/-- What a type is, or what the names that it stands for lead to. -/
inductive Named (ts : TypeTable) (lookup : Lookup) : TypeId → TypeId → Prop where
  | here {id : TypeId} {t : TypeInfo} : ts.types[id]? = some t → (∀ name, t.shape ≠ .deferred name) →
      Named ts lookup id id
  | through {id target v : TypeId} {t : TypeInfo} {name : NameId} : ts.types[id]? = some t →
      t.shape = .deferred name →
      lookup name = .type target → Named ts lookup target v → Named ts lookup id v

inductive Reaches (ts : TypeTable) (lookup : Lookup) : TypeId → List TypeStep → TypeId → Prop where
  | nil {id v : TypeId} : Named ts lookup id v → Reaches ts lookup id [] v
  | cons {id u c v : TypeId} {t : TypeInfo} {s : TypeStep} {path : List TypeStep} : Named ts lookup id u →
      ts.types[u]? = some t → t.shape.next? s = some c → Reaches ts lookup c path v →
      Reaches ts lookup id (s :: path) v

section
variable {ts ts' : TypeTable} {lookup : Lookup} {id u v c : TypeId} {t : TypeInfo} {s : TypeStep}
  {path : List TypeStep}

theorem follow_nil : ts.follow id [] = some id := rfl

theorem follow_cons (h : ts.types[id]? = some t) (hs : t.shape.next? s = some c) :
    ts.follow id (s :: path) = ts.follow c path := by
  rw [follow, h, Option.bind_some, hs, Option.bind_some]

theorem follow_one (h : ts.types[id]? = some t) (hs : t.shape.next? s = some c) : ts.follow id [s] = some c :=
  follow_cons h hs

theorem follow_cons_some (h : ts.follow id (s :: path) = some v) :
    ∃ t c, ts.types[id]? = some t ∧ t.shape.next? s = some c ∧ ts.follow c path = some v := by
  rw [follow] at h
  obtain ⟨t, ht, h⟩ := Option.bind_eq_some_iff.mp h
  obtain ⟨c, hc, h⟩ := Option.bind_eq_some_iff.mp h
  exact ⟨t, c, ht, hc, h⟩

theorem follow_append {path' : List TypeStep} : ∀ {path : List TypeStep} {id : TypeId},
    ts.follow id (path ++ path') = (ts.follow id path).bind (ts.follow · path')
  | [], _ => rfl
  | s :: path, id => by
    simp only [List.cons_append, follow, Option.bind_assoc]
    congr 1
    funext t
    congr 1
    funext c
    exact follow_append

theorem Grows.follow (hg : ts.Grows ts') : ∀ {path : List TypeStep} {id : TypeId}, ts.follow id path = some v →
    ts'.follow id path = some v
  | [], _, h => h
  | s :: path, id, h => by
    obtain ⟨t, c, ht, hc, h⟩ := follow_cons_some h
    rw [follow_cons (hg _ _ ht) hc]
    exact hg.follow h

theorem Named.exists (h : Named ts lookup id v) : ∃ t, ts.types[v]? = some t ∧
    ∀ name, t.shape ≠ .deferred name := by
  induction h with
  | here ht hd => exact ⟨_, ht, hd⟩
  | through _ _ _ _ ih => exact ih

theorem Named.trans (h : Named ts lookup id u) (h' : Named ts lookup u v) : Named ts lookup id v := by
  induction h with
  | here _ _ => exact h'
  | through ht hd hl _ ih => exact .through ht hd hl (ih h')

theorem Named.unique (h : Named ts lookup id u) (h' : Named ts lookup id v) : u = v := by
  induction h with
  | here ht hd =>
    cases h' with
    | here => rfl
    | through ht' hd' => exact absurd hd' (Option.some.inj (ht.symm.trans ht') ▸ hd _)
  | through ht hd hl _ ih =>
    cases h' with
    | here ht' hd' => exact absurd hd (Option.some.inj (ht.symm.trans ht') ▸ hd' _)
    | through ht' hd' hl' h' =>
      cases Option.some.inj (ht.symm.trans ht')
      cases hd.symm.trans hd'
      cases hl.symm.trans hl'
      exact ih h'

theorem Reaches.exists (h : Reaches ts lookup id path v) : ∃ t, ts.types[v]? = some t ∧
    ∀ name, t.shape ≠ .deferred name := by
  induction h with
  | nil hn => exact hn.exists
  | cons _ _ _ _ ih => exact ih

/-- A type that no name stands for is what it is. -/
theorem Named.eq_of_shape (h : Named ts lookup id v) (ht : ts.types[id]? = some t)
    (hd : ∀ name, t.shape ≠ .deferred name) :
    v = id := h.unique (.here ht hd)

end

/-! ## Requests without mistakes -/

/-- No two of the types are mistaken for one another: those of one hash differ at most in where their
fields lie. -/
def Distinct (types : List TypeInfo) : Prop :=
  ∀ a ∈ types, ∀ b ∈ types, a.computeHash = b.computeHash → a.form = b.form

def registered (ts : TypeTable) : List TypeInfo := ts.types.toList.filter (!·.flags.closed)

/-- Every open type of the table is one of those. -/
def Covered (types : List TypeInfo) (ts : TypeTable) : Prop :=
  ∀ (id : TypeId) (t : TypeInfo), ts.types[id]? = some t → t.flags.closed = false →
    ∃ a ∈ types, a.computeHash = t.computeHash ∧ a.form = t.form

theorem covered_registered (ts : TypeTable) (more : List TypeInfo) : Covered (ts.registered ++ more) ts := by
  intro id t ht ho
  refine ⟨t, List.mem_append_left _ (List.mem_filter.mpr ⟨?_, by rw [ho]; rfl⟩), rfl, rfl⟩
  exact List.mem_of_getElem? (by rw [Array.getElem?_toList]; exact ht)

section
variable {ts : TypeTable} {types : List TypeInfo} {t : TypeInfo} {r : TypeId × TypeTable}

theorem Answers.covered (h : ts.Answers t r) (hc : Covered types ts) (ht : t ∈ types) : Covered types r.2 := by
  intro id u hu ho
  obtain hu | rfl := h.joins hu
  · exact hc id u hu ho
  · exact ⟨t, ht, rfl, rfl⟩

/-- Without mistakes, the answer is what was asked for. -/
theorem Answers.form (h : ts.Answers t r) (hd : Distinct types) (hc : Covered types ts) (ht : t ∈ types) :
    ∃ u, r.2.types[r.1]? = some u ∧ u.form = t.form ∧ u.flags.closed = false := by
  obtain ⟨u, hu, hh, ho⟩ := h.entry
  obtain ⟨a, ha, hah, haf⟩ := h.covered hc ht _ u hu ho
  exact ⟨u, hu, haf.symm.trans (hd a ha t ht (hah.trans hh)), ho⟩

end

end TypeTable

end LevelScript
