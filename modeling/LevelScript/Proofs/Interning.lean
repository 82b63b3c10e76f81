import LevelScript.Proofs.TypeHistory

/-!
# Requests and what they give

A type that is asked for is found by its hash alone. It is the type asked for unless one with the same hash
came first and differs from it, and once given it stays what it is.
-/

namespace LevelScript

/-- A field without its placement; the offset that came of it counts. -/
def Field.unplaced (f : Field) : Field := { f with place := .auto }

def TypeShape.unplaced : TypeShape → TypeShape
  | .struct fields => .struct (fields.map Field.unplaced)
  | shape => shape

/-- What a type is: kind, flags, names, types, offsets, multiplicities and starting values. -/
def TypeInfo.content (t : TypeInfo) : Kind × TypeFlags × TypeShape := (t.kind, t.flags, t.shape.unplaced)

/-- All that a type can be asked for with: its content and the placements that its offsets came of. -/
def TypeInfo.asked (t : TypeInfo) : Kind × TypeFlags × TypeShape := (t.kind, t.flags, t.shape)

theorem TypeInfo.content_of_asked {t u : TypeInfo} (h : u.asked = t.asked) : u.content = t.content :=
  congrArg (fun p => (p.1, p.2.1, p.2.2.unplaced)) h

namespace TypeTable

section
variable {ts : TypeTable}

def bounds (ts : TypeTable) (fields : List Field) (s : UInt64 × UInt64) : UInt64 × UInt64 :=
  fields.foldl (fun s f => (max s.1 (f.offset + ts.fieldExtent f), max s.2 (ts.fieldAlignment f))) s

theorem bounds_placeFields (fields : List Field) : ∀ s : LayoutState,
    ts.bounds (ts.placeFields s fields).1 (s.size, s.alignment) =
      ((ts.placeFields s fields).2.size, (ts.placeFields s fields).2.alignment) := by
  induction fields with
  | nil => exact fun _ => rfl
  | cons f fs ih => exact fun s => ih (ts.placeField s f).2

theorem bounds_unplaced (fields : List Field) (s : UInt64 × UInt64) :
    ts.bounds (fields.map Field.unplaced) s = ts.bounds fields s := List.foldl_map

theorem bounds_of_laid {t : TypeInfo} {fields : List Field} (h : ts.withLayout t = t)
    (hs : t.shape = .struct fields) :
    t.size = alignUp (ts.bounds fields (0, 1)).1 (ts.bounds fields (0, 1)).2 ∧
    t.alignment = (ts.bounds fields (0, 1)).2 := by
  have hb := ts.bounds_placeFields fields {}
  obtain ⟨kind, shape, flags, hash, size, alignment, marked⟩ := t
  cases hs
  simp only [withLayout, TypeInfo.mk.injEq, TypeShape.struct.injEq] at h
  obtain ⟨-, hf, -, -, hz, ha, -⟩ := h
  rw [hf] at hb
  rw [hb]
  exact ⟨hz.symm, ha.symm⟩

/-- Structs of one content have one layout. -/
theorem layout_of_content {t u : TypeInfo} {fields : List Field} (ht : ts.withLayout t = t)
    (hu : ts.withLayout u = u) (hs : t.shape = .struct fields)
    (hc : u.content = t.content) : u.size = t.size ∧ u.alignment = t.alignment := by
  have hshape : u.shape.unplaced = t.shape.unplaced := congrArg (·.2.2) hc
  rw [hs] at hshape
  cases hus : u.shape with
  | struct fields' =>
    rw [hus] at hshape
    have hb : ts.bounds fields' (0, 1) = ts.bounds fields (0, 1) := by
      rw [← bounds_unplaced fields', ← bounds_unplaced fields, TypeShape.struct.inj hshape]
    obtain ⟨hz, ha⟩ := bounds_of_laid ht hs
    obtain ⟨hz', ha'⟩ := bounds_of_laid hu hus
    rw [hz, ha, hz', ha', hb]
    exact ⟨rfl, rfl⟩
  | _ => rw [hus] at hshape; cases hshape

/-- Every open type in the table with the hash of `t` looks like `t`. -/
def Agrees {α : Type} (ts : TypeTable) (look : TypeInfo → α) (t : TypeInfo) : Prop :=
  ∀ (id : TypeId) (v : TypeInfo), ts.types[id]? = some v → v.flags.closed = false → v.computeHash = t.computeHash →
    look v = look t

/-- What is asked for is what is found just if no type with its hash is another one, whatever of a type is
looked at, if that is not what a type gets when it joins. -/
theorem register_look_iff {α : Type} {look : TypeInfo → α} (h : ts.Sane) {t u : TypeInfo}
    (hj : look (ts.joined t) = look t) (hu : (ts.register t).2.types[(ts.register t).1]? = some u) :
    look u = look t ↔ ts.Agrees look t := by
  cases hi : ts.interned[t.computeHash]? with
  | some id =>
    rw [register_found hi] at hu
    constructor
    · intro hc id' v hv ho hh
      rw [← hh, h.listed hv ho] at hi
      cases hi
      cases Option.some.inj (hu.symm.trans hv)
      exact hc
    · intro hall
      obtain ⟨v, hv, hh, ho⟩ := h.found hi
      cases Option.some.inj (hu.symm.trans hv)
      exact hall id u hv ho hh
  | none =>
    rw [register_joins hi] at hu
    cases Option.some.inj (hu.symm.trans (ts.added_last _))
    refine ⟨fun _ id v hv ho hh => ?_, fun _ => hj⟩
    rw [← hh, h.listed hv ho] at hi
    cases hi

end

/-- In every history, a request gives a type that stays as it is and is the only open one of its hash. It is
the type asked for, with its placements, just if no earlier type of that hash differs from it in any of this,
and it has the content and the layout asked for if none differs in content. Every open struct always has the
layout that its own fields ask for. -/
theorem request_gives {ts : TypeTable} {op : TypeOp} {t : TypeInfo} (h : Later initial ts)
    (hm : op.Mentions (· < ts.size)) (hr : op.request ts = some t) :
    ∃ id u, (op.run ts).1 = .ok id ∧
      (∀ T, Later (op.run ts).2 T → T.types[id]? = some u ∧ T.Laid ∧
        ∀ (id' : TypeId) (v : TypeInfo), T.types[id']? = some v → v.flags.closed = false →
          v.computeHash = t.computeHash → id' = id) ∧
      (u.asked = t.asked ↔ ts.Agrees TypeInfo.asked t) ∧
      (u.content = t.content ↔ ts.Agrees TypeInfo.content t) ∧
      (u.content = t.content → ∀ fields, t.shape = .struct fields → u.size = t.size ∧
        u.alignment = t.alignment) := by
  have hk := h.keeps sane_initial
  have hl := hk.laid laid_initial
  have ha := TypeOp.run_answers hk.sane hm hr
  have hp := TypeOp.request_proper hk.sane hm hr
  obtain ⟨u, hu, hh, ho⟩ := ha.entry
  rw [TypeOp.run_request hr]
  refine ⟨_, u, rfl, fun T hT => ?_, register_look_iff hk.sane rfl hu, register_look_iff hk.sane rfl hu,
    fun hc fields hs => ?_⟩
  · have hkT := hT.keeps ha.adds.sane
    have huT := hkT.grows _ _ hu
    refine ⟨huT, hkT.laid (ha.adds.laid hl), fun id' v hv hvo hvh => ?_⟩
    have hi := hkT.sane.listed hv hvo
    rw [hvh, ← hh, hkT.sane.listed huT ho] at hi
    exact (Option.some.inj hi).symm
  · have ht : (ts.register t).2.withLayout t = t := (ha.adds.grows.withLayout hp.next).trans (hp.laid hl)
    exact layout_of_content ht (ha.adds.laid hl _ u hu ho) hs hc

/-- Nothing in the first table has a hash that none of the stock types has. -/
theorem agrees_initial {α : Type} {look : TypeInfo → α} {t : TypeInfo}
    (h : ∀ v ∈ primitiveKinds.map (plainInfo · {}), v.computeHash ≠ t.computeHash) : initial.Agrees look t := by
  intro id v hv _ hh
  refine absurd hh (h v ?_)
  rw [← initial_types.2]
  exact List.mem_of_getElem? (by rw [Array.getElem?_toList]; exact hv)

/-- An integer that is to be at offset 16 of a struct. -/
def placedField : Field := { name := some 8, type := int64, place := .absolute 16 }

/-- The struct has its field where it was asked for, with the request written down, and has room for it. -/
theorem request_gives_placed : ∃ id u, ((TypeOp.struct [placedField] none).run initial).1 = .ok id ∧
    (∀ T, Later ((TypeOp.struct [placedField] none).run initial).2 T → T.types[id]? = some u) ∧
    u.asked = (.struct, {}, .struct [{ placedField with offset := 16 }]) ∧ u.size = 24 ∧ u.alignment = 8 := by
  have hl : initial.types[int64]? = some (plainInfo .int64 {}) := stocked_initial.primitive rfl
  have hm : (TypeOp.struct [placedField] none).Mentions (· < initial.size) := by
    refine ⟨fun f hf => ?_, nofun⟩
    obtain rfl := List.mem_singleton.mp hf
    exact lt_of_lookup hl
  have hw : initial.withLayout { kind := .struct, shape := .struct [placedField] } =
      { kind := .struct, shape := .struct [{ placedField with offset := 16 }], size := 24 } := by
    simp only [withLayout, placeFields, placeField, fieldExtent, fieldAlignment, get_eq hl, placedField]
    rfl
  have hr : (TypeOp.struct [placedField] none).request initial = some _ := congrArg some hw
  obtain ⟨id, u, hid, hT, hasked, -, hlayout⟩ := request_gives .refl hm hr
  have hu := hasked.mpr (agrees_initial (by decide +kernel))
  exact ⟨id, u, hid, fun T h => (hT T h).1, hu, hlayout (TypeInfo.content_of_asked hu) _ rfl⟩

/-- A field at an offset that makes the hash of a struct that of `s32`. -/
def misleading : Field := { name := some 8, type := int64, place := .absolute 8923216444766304929 }

/-- A struct is asked for, and an integer type is given. -/
theorem misleading_struct : ∃ t, (TypeOp.struct [misleading] none).Mentions (· < initial.size) ∧
    (TypeOp.struct [misleading] none).request initial = some t ∧ t.kind = .struct ∧
    ((TypeOp.struct [misleading] none).run initial).1 = .ok int32 ∧
    ((TypeOp.struct [misleading] none).run initial).2.kind int32 = .int32 := by
  have hi : initial.types[int32]? = some (plainInfo .int32 {}) := stocked_initial.primitive rfl
  have hl : initial.types[int64]? = some (plainInfo .int64 {}) := stocked_initial.primitive rfl
  let t := initial.withLayout { kind := .struct, shape := .struct [misleading] }
  have hr : (TypeOp.struct [misleading] none).request initial = some t := rfl
  have hh : (plainInfo .int32 {}).computeHash = t.computeHash := by decide +kernel
  have hf := sane_initial.listed hi rfl
  rw [hh] at hf
  refine ⟨t, ⟨fun f hm => ?_, nofun⟩, hr, rfl, ?_⟩
  · obtain rfl := List.mem_singleton.mp hm
    exact lt_of_lookup hl
  · rw [TypeOp.run_request hr, register_found hf]
    exact ⟨rfl, congrArg TypeInfo.kind (get_eq hi)⟩

end TypeTable

end LevelScript
