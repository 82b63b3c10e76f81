import LevelScript.Proofs.PlainTypes

/-!
# The table as a graph

A type leads to the types it is made of. In a table that has come about by requests, open types are found
by their hashes and are made of earlier types only; just closed types form cycles, and only among
themselves. `Sane` says so, and each way in which the table changes keeps it.
-/

namespace LevelScript

inductive TypeStep where
  | pointee
  | result
  | param (i : Nat)
  | field (i : Nat)
  deriving Repr, DecidableEq

namespace TypeShape

def next? : TypeShape → TypeStep → Option TypeId
  | pointer base, .pointee => some base
  | function result _, .result => some result
  | function _ params, .param i => params[i]?.map Param.type
  | struct fields, .field i => fields[i]?.map Field.type
  | _, _ => none

theorem next?_param (result : TypeId) {params : List Param} {p : Param} (h : p ∈ params) :
    ∃ s, (function result params).next? s = some p.type := by
  obtain ⟨i, hi⟩ := List.getElem?_of_mem h
  exact ⟨.param i, congrArg (Option.map Param.type) hi⟩

theorem next?_field {fields : List Field} {f : Field} (h : f ∈ fields) :
    ∃ s, (struct fields).next? s = some f.type := by
  obtain ⟨i, hi⟩ := List.getElem?_of_mem h
  exact ⟨.field i, congrArg (Option.map Field.type) hi⟩

end TypeShape

namespace TypeInfo

section
variable {t : TypeInfo}

theorem fields_plain (h : ∀ fields, t.shape ≠ .struct fields) : t.fields = [] := by
  unfold fields
  split
  case h_1 fields hs => exact absurd hs (h fields)
  case h_2 => rfl

theorem struct_or_plain (t : TypeInfo) : t.shape = .struct t.fields ∨ ∀ fields, t.shape ≠ .struct fields := by
  cases hs : t.shape with
  | struct fields => exact .inl (by rw [TypeInfo.fields, hs])
  | _ => exact .inr fun fields he => by cases he

theorem shape_of_field {f : Field} (hf : f ∈ t.fields) : t.shape = .struct t.fields :=
  t.struct_or_plain.resolve_right fun h => by
    rw [fields_plain h] at hf
    cases hf

theorem next?_of_field {f : Field} (hf : f ∈ t.fields) : ∃ s, t.shape.next? s = some f.type :=
  shape_of_field hf ▸ TypeShape.next?_field hf

end

end TypeInfo

namespace TypeTable

section
variable {ts ts' : TypeTable} {t : TypeInfo} {id : TypeId}

theorem lookup_of_lt (h : id < ts.size) : ts.types[id]? = some (ts.get id) := by
  rw [get, Array.getElem?_eq_getElem h]
  rfl

theorem lt_of_lookup (h : ts.types[id]? = some t) : id < ts.size := (Array.getElem?_eq_some_iff.mp h).1

theorem Grows.lt (h : ts.Grows ts') (hid : id < ts.size) : id < ts'.size := lt_of_lookup (h id _ (lookup_of_lt hid))

theorem Grows.size_le (h : ts.Grows ts') : ts.size ≤ ts'.size := by
  refine Nat.le_of_not_lt fun hs => ?_
  exact Nat.lt_irrefl _ (h.lt hs)

theorem Grows.get (h : ts.Grows ts') (hid : id < ts.size) : ts'.get id = ts.get id :=
  get_eq (h id _ (lookup_of_lt hid))

/-! ## References to enclosing types -/

theorem shapeContainsParent_iff {shape : TypeShape} : ts.shapeContainsParent shape = true ↔
    (∃ depth, shape = .parent depth) ∨ ∃ s c, shape.next? s = some c ∧ (ts.get c).containsParent = true := by
  constructor
  · intro h
    cases shape with
    | plain | deferred => cases h
    | parent depth => exact .inl ⟨depth, rfl⟩
    | pointer base => exact .inr ⟨.pointee, base, rfl, h⟩
    | struct fields =>
      obtain ⟨f, hf, hc⟩ := List.any_eq_true.mp h
      obtain ⟨s, hs⟩ := TypeShape.next?_field hf
      exact .inr ⟨s, _, hs, hc⟩
    | function result params =>
      obtain hc | hc := Bool.or_eq_true_iff.mp h
      · exact .inr ⟨.result, result, rfl, hc⟩
      · obtain ⟨p, hp, hc⟩ := List.any_eq_true.mp hc
        obtain ⟨s, hs⟩ := TypeShape.next?_param result hp
        exact .inr ⟨s, _, hs, hc⟩
  · rintro (⟨depth, rfl⟩ | ⟨s, c, hs, hc⟩)
    · rfl
    · cases shape with
      | plain | deferred | parent => cases s <;> cases hs
      | pointer base => cases s <;> cases hs; exact hc
      | struct fields =>
        cases s with
        | field i =>
          obtain ⟨f, hf, rfl⟩ := Option.map_eq_some_iff.mp hs
          exact List.any_eq_true.mpr ⟨f, List.mem_of_getElem? hf, hc⟩
        | _ => cases hs
      | function result params =>
        cases s with
        | result => cases hs; exact Bool.or_eq_true_iff.mpr (.inl hc)
        | param i =>
          obtain ⟨p, hp, rfl⟩ := Option.map_eq_some_iff.mp hs
          exact Bool.or_eq_true_iff.mpr (.inr (List.any_eq_true.mpr ⟨p, List.mem_of_getElem? hp, hc⟩))
        | _ => cases hs

theorem shapeContainsParent_congr {shape : TypeShape}
    (h : ∀ s c, shape.next? s = some c → (ts.get c).containsParent = (ts'.get c).containsParent) :
    ts.shapeContainsParent shape = ts'.shapeContainsParent shape := by
  rw [Bool.eq_iff_iff, shapeContainsParent_iff, shapeContainsParent_iff]
  refine or_congr_right ⟨fun ⟨s, c, hs, hc⟩ => ⟨s, c, hs, h s c hs ▸ hc⟩,
    fun ⟨s, c, hs, hc⟩ => ⟨s, c, hs, (h s c hs).trans hc⟩⟩

end

/-! ## Layout -/

section
variable {ts : TypeTable}

/-- Only the offset of a field is a matter of its place. -/
theorem placeFields_map {α : Type} (g : Field → α) (hg : ∀ (f : Field) offset, g { f with offset } = g f)
    (fs : List Field) :
    ∀ s, (ts.placeFields s fs).1.map g = fs.map g := by
  induction fs with
  | nil => exact fun _ => rfl
  | cons f fs ih => exact fun s => congrArg₂ List.cons (hg f _) (ih _)

theorem withLayout_next? (t : TypeInfo) (s : TypeStep) : (ts.withLayout t).shape.next? s = t.shape.next? s := by
  unfold withLayout
  split
  case h_1 fields hs =>
    have hm := ts.placeFields_map Field.type (fun _ _ => rfl) fields {}
    rw [hs]
    cases s with
    | field i =>
      show Option.map Field.type (ts.placeFields {} fields).1[i]? = Option.map Field.type fields[i]?
      rw [← List.getElem?_map, hm, List.getElem?_map]
    | _ => rfl
  case h_2 => rfl

theorem withLayout_of_same {t u : TypeInfo} (h : ts.withLayout t = t) (hs : u.shape = t.shape)
    (hz : u.size = t.size) (ha : u.alignment = t.alignment) : ts.withLayout u = u := by
  obtain ⟨kind, shape, flags, hash, size, alignment, marked⟩ := t
  obtain ⟨kind', shape', flags', hash', size', alignment', marked'⟩ := u
  cases hs
  cases hz
  cases ha
  cases shape with
  | struct fields =>
    simp only [withLayout, TypeInfo.mk.injEq] at h ⊢
    exact ⟨trivial, h.2.1, trivial, trivial, h.2.2.2.2.1, h.2.2.2.2.2.1, trivial⟩
  | _ => rfl

theorem placeFields_placeFields (fs : List Field) :
    ∀ s, ts.placeFields s (ts.placeFields s fs).1 = ts.placeFields s fs := by
  induction fs with
  | nil => exact fun _ => rfl
  | cons f fs ih => exact fun s => congrArg (fun r : List Field × LayoutState => (_ :: r.1, r.2)) (ih _)

theorem withLayout_withLayout (t : TypeInfo) : ts.withLayout (ts.withLayout t) = ts.withLayout t := by
  obtain ⟨kind, shape, flags, hash, size, alignment, marked⟩ := t
  cases shape with
  | struct fields =>
    have h := ts.placeFields_placeFields fields {}
    simp only [withLayout, h]
  | _ => rfl

theorem placeFields_congr {ts' : TypeTable} (fs : List Field) (h : ∀ f ∈ fs, ts.get f.type = ts'.get f.type) :
    ∀ s, ts.placeFields s fs = ts'.placeFields s fs := by
  induction fs with
  | nil => exact fun _ => rfl
  | cons f fs ih =>
    intro s
    have hf : ts.placeField s f = ts'.placeField s f := by
      unfold placeField fieldAlignment fieldExtent
      simp only [h f (List.mem_cons_self ..)]
    simp only [placeFields, hf, ih fun g hg => h g (List.mem_cons_of_mem _ hg)]

theorem withLayout_congr {ts' : TypeTable} {t : TypeInfo}
    (h : ∀ s c, t.shape.next? s = some c → ts.get c = ts'.get c) : ts.withLayout t = ts'.withLayout t := by
  unfold withLayout
  split
  case h_1 fields hs =>
    rw [ts.placeFields_congr fields fun f hf => by
      obtain ⟨s, hn⟩ := TypeShape.next?_field hf
      exact h s _ (hs ▸ hn)]
  case h_2 => rfl

@[simp] theorem withLayout_flags (t : TypeInfo) : (ts.withLayout t).flags = t.flags := by
  unfold withLayout
  split <;> rfl

@[simp] theorem withLayout_kind (t : TypeInfo) : (ts.withLayout t).kind = t.kind := by
  unfold withLayout
  split <;> rfl

@[simp] theorem withLayout_containsParent (t : TypeInfo) : (ts.withLayout t).containsParent = t.containsParent := by
  unfold withLayout
  split <;> rfl

end

def IsClosed (ts : TypeTable) (id : TypeId) : Prop := ∃ t, ts.types[id]? = some t ∧ t.flags.closed = true

theorem IsClosed.grows {ts ts' : TypeTable} {id : TypeId} (h : ts.IsClosed id) (hg : ts.Grows ts') :
    ts'.IsClosed id := by
  obtain ⟨t, ht, hc⟩ := h
  exact ⟨t, hg id t ht, hc⟩

/-- What holds of every table that has come about by requests. -/
structure Sane (ts : TypeTable) : Prop where
  found {hash : UInt64} {id : TypeId} : ts.interned[hash]? = some id →
    ∃ t, ts.types[id]? = some t ∧ t.computeHash = hash ∧ t.flags.closed = false
  listed {id : TypeId} {t : TypeInfo} : ts.types[id]? = some t → t.flags.closed = false →
    ts.interned[t.computeHash]? = some id
  /-- A type is made of earlier types; closed ones also of any closed ones. -/
  below {id : TypeId} {t : TypeInfo} {s : TypeStep} {c : TypeId} : ts.types[id]? = some t →
      t.shape.next? s = some c →
    ∃ u, ts.types[c]? = some u ∧ (c < id ∨ t.flags.closed = true ∧ u.flags.closed = true)
  /-- An open type knows of references to enclosing types below it; closed types have none. -/
  marked {id : TypeId} {t : TypeInfo} : ts.types[id]? = some t →
    t.containsParent = (!t.flags.closed && ts.shapeContainsParent t.shape)

/-- Open structs have the layout that their own fields ask for. -/
def Laid (ts : TypeTable) : Prop :=
  ∀ (id : TypeId) (t : TypeInfo), ts.types[id]? = some t → t.flags.closed = false → ts.withLayout t = t

structure Adds (ts ts' : TypeTable) : Prop where
  sane : ts'.Sane
  grows : ts.Grows ts'
  closed : ts'.closed = ts.closed
  closedConst : ts'.closedConst = ts.closedConst
  laid : ts.Laid → ts'.Laid

theorem Adds.refl {ts : TypeTable} (h : ts.Sane) : ts.Adds ts := ⟨h, .refl ts, rfl, rfl, id⟩

theorem Adds.trans {ts ts' ts'' : TypeTable} (h : ts.Adds ts') (h' : ts'.Adds ts'') : ts.Adds ts'' :=
  ⟨h'.sane, h.grows.trans h'.grows, h'.closed.trans h.closed, h'.closedConst.trans h.closedConst, h'.laid ∘ h.laid⟩

/-- All that was in the table is still there, and the table is as well kept as before. -/
structure Keeps (ts ts' : TypeTable) : Prop where
  sane : ts'.Sane
  grows : ts.Grows ts'
  laid : ts.Laid → ts'.Laid

theorem Adds.keeps {ts ts' : TypeTable} (h : ts.Adds ts') : ts.Keeps ts' := ⟨h.sane, h.grows, h.laid⟩

theorem Keeps.refl {ts : TypeTable} (h : ts.Sane) : ts.Keeps ts := ⟨h, .refl ts, fun hl => hl⟩

theorem Keeps.trans {ts ts' ts'' : TypeTable} (h : ts.Keeps ts') (h' : ts'.Keeps ts'') : ts.Keeps ts'' :=
  ⟨h'.sane, h.grows.trans h'.grows, h'.laid ∘ h.laid⟩

section
variable {ts ts' : TypeTable} {t u : TypeInfo} {id c : TypeId} {s : TypeStep}

theorem Sane.next_lt (h : ts.Sane) (ht : ts.types[id]? = some t) (hs : t.shape.next? s = some c) : c < ts.size := by
  obtain ⟨u, hu, -⟩ := h.below ht hs
  exact lt_of_lookup hu

theorem Sane.field_lt (h : ts.Sane) {f : Field} (hf : f ∈ (ts.get id).fields) : f.type < ts.size := by
  have hid : id < ts.size := by
    refine Nat.lt_of_not_le fun hs => ?_
    rw [get, Array.getElem?_eq_none hs] at hf
    cases hf
  obtain ⟨s, hn⟩ := TypeInfo.next?_of_field hf
  exact h.next_lt (lookup_of_lt hid) hn

theorem Sane.next_open (h : ts.Sane) (ht : ts.types[id]? = some t) (ho : t.flags.closed = false)
    (hs : t.shape.next? s = some c) : c < id := by
  obtain ⟨u, -, hc | hc⟩ := h.below ht hs
  · exact hc
  · rw [ho] at hc
    cases hc.1

/-- Only open types refer to enclosing ones. -/
theorem Sane.open_of_marked (h : ts.Sane) (ht : ts.types[id]? = some t) (hp : t.containsParent = true) :
    t.flags.closed = false := by
  have hm := h.marked ht
  rw [hp] at hm
  cases hc : t.flags.closed with
  | false => rfl
  | true => rw [hc] at hm; cases hm

theorem Grows.withLayout (hg : ts.Grows ts') (h : ∀ s c, t.shape.next? s = some c → c < ts.size) :
    ts'.withLayout t = ts.withLayout t :=
  withLayout_congr fun s c hs => hg.get (h s c hs)

/-- No open type joins without its hash. -/
theorem Sane.laid (h : ts.Sane) (h' : ts'.Sane) (hg : ts.Grows ts') (hi : ts'.interned = ts.interned)
    (hl : ts.Laid) :
    ts'.Laid := by
  intro id u hu ho
  have hf := h'.listed hu ho
  rw [hi] at hf
  obtain ⟨v, hv, -⟩ := h.found hf
  cases Option.some.inj (hu.symm.trans (hg _ _ hv))
  rw [hg.withLayout fun s c => h.next_lt hv]
  exact hl id u hv ho

/-! ## Requests -/

def joined (ts : TypeTable) (t : TypeInfo) : TypeInfo :=
  { t with hash := t.computeHash, containsParent := ts.shapeContainsParent t.shape }

theorem register_found (h : ts.interned[t.computeHash]? = some id) : ts.register t = (id, ts) := by
  unfold register
  simp only [h]

theorem register_joins (h : ts.interned[t.computeHash]? = none) :
    ts.register t = (ts.size, ts.added (ts.joined t)) := by
  unfold register
  simp only [h]
  rfl

/-- The table after a request, in which the answer is an open type of the hash asked for. -/
structure Answers (ts : TypeTable) (t : TypeInfo) (r : TypeId × TypeTable) : Prop where
  adds : ts.Adds r.2
  joins {id : TypeId} {u : TypeInfo} : r.2.types[id]? = some u → ts.types[id]? = some u ∨ u = ts.joined t
  entry : ∃ u, r.2.types[r.1]? = some u ∧ u.computeHash = t.computeHash ∧ u.flags.closed = false

theorem Sane.added (h : ts.Sane) (hn : ts.interned[t.computeHash]? = none) (ho : t.flags.closed = false)
    (hc : ∀ s c, t.shape.next? s = some c → c < ts.size) : (ts.added (ts.joined t)).Sane := by
  have hg := ts.added_grows (ts.joined t)
  have hl := ts.added_last (ts.joined t)
  have old {id : TypeId} {u : TypeInfo} (hu : (ts.added (ts.joined t)).types[id]? = some u) :
      ts.types[id]? = some u ∨ id = ts.size ∧ u = ts.joined t := by
    rw [TypeTable.added, Array.getElem?_push] at hu
    split at hu
    case isTrue he => exact .inr ⟨he, (Option.some.inj hu).symm⟩
    case isFalse => exact .inl hu
  -- The mark of an old type depends on types below the old end of the table only.
  have marks (shape : TypeShape) (hs : ∀ s c, shape.next? s = some c → c < ts.size) :
      ts.shapeContainsParent shape = (ts.added (ts.joined t)).shapeContainsParent shape :=
    shapeContainsParent_congr fun s c hn => congrArg _ (hg.get (hs s c hn)).symm
  constructor
  case found =>
    intro hash id hi
    rw [TypeTable.added, Std.HashMap.getElem?_insert] at hi
    split at hi
    case isTrue he =>
      cases hi
      exact ⟨_, hl, eq_of_beq he, ho⟩
    case isFalse =>
      obtain ⟨u, hu, hh⟩ := h.found hi
      exact ⟨u, hg _ _ hu, hh⟩
  case listed =>
    intro id u hu huo
    rw [TypeTable.added, Std.HashMap.getElem?_insert]
    obtain hu | ⟨rfl, rfl⟩ := old hu
    · have hi := h.listed hu huo
      rw [if_neg fun he => ?_, hi]
      rw [← eq_of_beq he] at hi
      exact (Option.some_ne_none _ (hi.symm.trans hn)).elim
    · exact if_pos (beq_self_eq_true _)
  case below =>
    intro id u s c hu hs
    obtain hu | ⟨rfl, rfl⟩ := old hu
    · obtain ⟨v, hv, hlt⟩ := h.below hu hs
      exact ⟨v, hg _ _ hv, hlt⟩
    · have hlt := hc s c hs
      exact ⟨_, hg _ _ (lookup_of_lt hlt), .inl hlt⟩
  case marked =>
    intro id u hu
    obtain hu | ⟨rfl, rfl⟩ := old hu
    · rw [h.marked hu, marks _ fun s c => h.next_lt hu]
    · show ts.shapeContainsParent t.shape =
        (!t.flags.closed && (ts.added (ts.joined t)).shapeContainsParent t.shape)
      rw [ho]
      exact marks _ hc

theorem Sane.register (h : ts.Sane) (ho : t.flags.closed = false)
    (hc : ∀ s c, t.shape.next? s = some c → c < ts.size)
    (hl : ts.Laid → ts.withLayout t = t) : ts.Answers t (ts.register t) := by
  cases hi : ts.interned[t.computeHash]? with
  | some id =>
    rw [register_found hi]
    exact ⟨.refl h, .inl, h.found hi⟩
  | none =>
    rw [register_joins hi]
    have hg := added_grows ts (ts.joined t)
    have joins {id : TypeId} {u : TypeInfo} (hu : (ts.added (ts.joined t)).types[id]? = some u) :
        ts.types[id]? = some u ∨ u = ts.joined t := by
      rw [TypeTable.added, Array.getElem?_push] at hu
      split at hu
      · exact .inr (Option.some.inj hu).symm
      · exact .inl hu
    refine ⟨⟨h.added hi ho hc, hg, rfl, rfl, fun hls id u hu huo => ?_⟩, joins, _, added_last ts _, rfl, ho⟩
    obtain hu | rfl := joins hu
    · rw [hg.withLayout fun s c => h.next_lt hu]
      exact hls id u hu huo
    · refine withLayout_of_same (t := t) ?_ rfl rfl rfl
      exact (hg.withLayout hc).trans (hl hls)

/-! ## Closed types -/

/-- The table with one more type, which no hash leads to. -/
def pushed (ts : TypeTable) (t : TypeInfo) : TypeTable := { ts with types := ts.types.push t }

theorem pushed_grows (ts : TypeTable) (t : TypeInfo) : ts.Grows (ts.pushed t) := ts.added_grows t

theorem pushed_last (ts : TypeTable) (t : TypeInfo) : (ts.pushed t).types[ts.size]? = some t := ts.added_last t

theorem Sane.pushed (h : ts.Sane) (ho : t.flags.closed = true) (hp : t.containsParent = false)
    (hc : ∀ s c, t.shape.next? s = some c → c < ts.size) : (ts.pushed t).Sane := by
  have hg := ts.pushed_grows t
  have old {id : TypeId} {u : TypeInfo} (hu : (ts.pushed t).types[id]? = some u) :
      ts.types[id]? = some u ∨ id = ts.size ∧ u = t := by
    rw [TypeTable.pushed, Array.getElem?_push] at hu
    split at hu
    case isTrue he => exact .inr ⟨he, (Option.some.inj hu).symm⟩
    case isFalse => exact .inl hu
  constructor
  case found =>
    intro hash id hi
    obtain ⟨u, hu, hh⟩ := h.found hi
    exact ⟨u, hg _ _ hu, hh⟩
  case listed =>
    intro id u hu huo
    obtain hu | ⟨rfl, rfl⟩ := old hu
    · exact h.listed hu huo
    · rw [ho] at huo
      cases huo
  case below =>
    intro id u s c hu hs
    obtain hu | ⟨rfl, rfl⟩ := old hu
    · obtain ⟨v, hv, hlt⟩ := h.below hu hs
      exact ⟨v, hg _ _ hv, hlt⟩
    · have hlt := hc s c hs
      exact ⟨_, hg _ _ (lookup_of_lt hlt), .inl hlt⟩
  case marked =>
    intro id u hu
    obtain hu | ⟨rfl, rfl⟩ := old hu
    · rw [h.marked hu, shapeContainsParent_congr fun s c hs => congrArg _ (hg.get (h.next_lt hu hs)).symm]
    · rw [hp, ho]
      rfl

def replaced (ts : TypeTable) (id : TypeId) (t : TypeInfo) : TypeTable :=
  { ts with types := ts.types.setIfInBounds id t }

theorem replaced_same (t : TypeInfo) (h : id < ts.size) : (ts.replaced id t).types[id]? = some t := by
  rw [replaced, Array.getElem?_setIfInBounds, if_pos rfl]
  exact if_pos h

theorem replaced_other (t : TypeInfo) (h : id ≠ c) : (ts.replaced id t).types[c]? = ts.types[c]? := by
  rw [replaced, Array.getElem?_setIfInBounds, if_neg h]

theorem Sane.replaced (h : ts.Sane) (hu : ts.IsClosed id) (ho : t.flags.closed = true)
    (hp : t.containsParent = false)
    (hc : ∀ s c, t.shape.next? s = some c → ∃ v, ts.types[c]? = some v ∧ (c < id ∨ v.flags.closed = true)) :
    (ts.replaced id t).Sane := by
  obtain ⟨u, hu, huc⟩ := hu
  have same := ts.replaced_same t (lt_of_lookup hu)
  have old {c : TypeId} {v : TypeInfo} (hv : (ts.replaced id t).types[c]? = some v) :
      c = id ∧ v = t ∨ c ≠ id ∧ ts.types[c]? = some v := by
    by_cases he : id = c
    · subst he
      exact .inl ⟨rfl, Option.some.inj (hv.symm.trans same)⟩
    · rw [replaced_other t he] at hv
      exact .inr ⟨Ne.symm he, hv⟩
  -- all that was there is there and as closed as before
  have still {c : TypeId} {v : TypeInfo} (hv : ts.types[c]? = some v) :
      ∃ w, (ts.replaced id t).types[c]? = some w ∧ w.flags.closed = v.flags.closed := by
    by_cases he : id = c
    · subst he
      cases Option.some.inj (hu.symm.trans hv)
      exact ⟨t, same, ho.trans huc.symm⟩
    · exact ⟨v, (replaced_other t he).trans hv, rfl⟩
  have marks {c : TypeId} (hlt : c < ts.size) :
      (ts.get c).containsParent = ((ts.replaced id t).get c).containsParent := by
    by_cases he : id = c
    · subst he
      rw [get_eq same, get_eq hu, hp, h.marked hu, huc]
      rfl
    · rw [get_eq ((replaced_other t he).trans (lookup_of_lt hlt))]
  constructor
  case found =>
    intro hash c hi
    obtain ⟨v, hv, hh, hvo⟩ := h.found hi
    have hne : c ≠ id := fun he => by
      subst he
      cases Option.some.inj (hu.symm.trans hv)
      exact absurd (huc.symm.trans hvo) nofun
    exact ⟨v, (replaced_other t hne.symm).trans hv, hh, hvo⟩
  case listed =>
    intro c v hv hvo
    obtain ⟨rfl, rfl⟩ | ⟨-, hv⟩ := old hv
    · exact absurd (ho.symm.trans hvo) nofun
    · exact h.listed hv hvo
  case below =>
    intro c v s d hv hs
    obtain ⟨rfl, rfl⟩ | ⟨-, hv⟩ := old hv
    · obtain ⟨w, hw, hlt⟩ := hc s d hs
      obtain ⟨w', hw', hcl⟩ := still hw
      exact ⟨w', hw', hlt.imp_right fun hw => ⟨ho, hcl.trans hw⟩⟩
    · obtain ⟨w, hw, hlt⟩ := h.below hv hs
      obtain ⟨w', hw', hcl⟩ := still hw
      exact ⟨w', hw', hlt.imp_right fun hw => ⟨hw.1, hcl.trans hw.2⟩⟩
  case marked =>
    intro c v hv
    obtain ⟨rfl, rfl⟩ | ⟨-, hv⟩ := old hv
    · rw [hp, ho]
      rfl
    · rw [h.marked hv, shapeContainsParent_congr fun s d hs => marks (h.next_lt hv hs)]

end

/-! ## The first table -/

theorem sane_empty : Sane ⟨#[], ∅, ∅, ∅⟩ := by
  constructor <;> intros <;> simp_all

theorem adds_initial : Adds ⟨#[], ∅, ∅, ∅⟩ initial := by
  suffices h : ∀ (kinds : List Kind) (ts : TypeTable), ts.Sane →
      ts.Adds (kinds.foldl (fun ts kind => (ts.register (plainType kind)).2) ts) from h primitiveKinds _ sane_empty
  intro kinds
  induction kinds with
  | nil => exact fun _ => .refl
  | cons kind kinds ih =>
    intro ts h
    have ha := (h.register (t := plainType kind) rfl (fun s c hs => by cases s <;> cases hs) fun _ => rfl).adds
    exact ha.trans (ih _ ha.sane)

theorem sane_initial : initial.Sane := adds_initial.sane

theorem laid_initial : initial.Laid := adds_initial.laid fun id t ht => by simp at ht

end TypeTable

end LevelScript
