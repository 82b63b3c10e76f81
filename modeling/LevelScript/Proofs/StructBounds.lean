import LevelScript.Proofs.FieldAccess
import LevelScript.Proofs.SettledLayout

/-!
# Structs lie within their bounds

If a struct is settled and its exact size, with that of all structs inside, fits in a word, then it has that size.
All that is written when it is made, and all of its fields, then lie within it. If some exact size does not fit,
a product or a sum wraps while a layout is computed.
-/

namespace LevelScript

namespace TypeTable

open Relation

/-- The size of a type in exact numbers, and so that of the structs inside. -/
def trueSize (ts : TypeTable) : Nat → TypeId → Nat
  | 0, id => ts.recorded id
  | n + 1, id =>
    match (ts.get id).shape with
    | .struct fields => ts.exactSize (trueSize ts n) fields
    | _ => ts.recorded id

section
variable {ts : TypeTable} {id c d r : TypeId} {n : Nat} {fields : List Field}

/-! ## Exact sizes -/

theorem exactEnds_congr {sizeOf sizeOf' : TypeId → Nat} : ∀ {fields : List Field} (size lastEnd : Nat),
    (∀ f ∈ fields, ts.exactExtent sizeOf f = ts.exactExtent sizeOf' f) →
      ts.exactEnds sizeOf size lastEnd fields = ts.exactEnds sizeOf' size lastEnd fields
  | [], _, _, _ => rfl
  | f :: fs, size, lastEnd, h => by
    rw [List.forall_mem_cons] at h
    simp only [exactEnds, h.1, exactEnds_congr _ _ h.2]

theorem exactSize_congr {sizeOf sizeOf' : TypeId → Nat}
    (h : ∀ f ∈ fields, ts.exactExtent sizeOf f = ts.exactExtent sizeOf' f) :
    ts.exactSize sizeOf fields = ts.exactSize sizeOf' fields := by
  rw [exactSize, exactSize, exactEnds_congr 0 0 h]

theorem exactExtent_congr {sizeOf sizeOf' : TypeId → Nat} {f : Field}
    (h : ∀ count, f.inlined = some count → 0 < count.toNat → sizeOf f.type = sizeOf' f.type) :
    ts.exactExtent sizeOf f = ts.exactExtent sizeOf' f := by
  unfold exactExtent
  cases hi : f.inlined with
  | none => rfl
  | some count =>
    obtain h0 | h0 := Nat.eq_zero_or_pos count.toNat
    · simp only [h0, Nat.mul_zero]
    · exact congrArg (· * count.toNat) (h count hi h0)

theorem exactExtent_le_end (ts : TypeTable) (sizeOf : TypeId → Nat) {f : Field} :
    ∀ {fields : List Field} (size lastEnd : Nat), f ∈ fields →
    ∃ e ∈ ts.exactEnds sizeOf size lastEnd fields, ts.exactExtent sizeOf f ≤ e
  | g :: fs, size, lastEnd, h => by
    rw [exactEnds]
    obtain rfl | h := List.mem_cons.mp h
    · exact ⟨_, List.mem_cons_self .., Nat.le_add_left ..⟩
    · obtain ⟨e, he, hle⟩ := ts.exactExtent_le_end sizeOf _ _ h
      exact ⟨e, List.mem_cons_of_mem _ he, hle⟩

theorem exactExtent_le_exactSize {sizeOf : TypeId → Nat} {f : Field} (h : f ∈ fields) :
    ts.exactExtent sizeOf f ≤ ts.exactSize sizeOf fields := by
  obtain ⟨e, he, hle⟩ := ts.exactExtent_le_end sizeOf 0 0 h
  exact hle.trans (((foldl_max_le.mp (Nat.le_refl _)).2 e he).trans (le_roundUp (le_foldl_max _ 1)))

theorem trueSize_struct (h : (ts.get id).shape = .struct fields) :
    ts.trueSize (n + 1) id = ts.exactSize (ts.trueSize n) fields := by
  rw [trueSize, h]

theorem trueSize_plain (h : ∀ fields, (ts.get id).shape ≠ .struct fields) : ∀ n, ts.trueSize n id = ts.recorded id
  | 0 => rfl
  | n + 1 => by
    rw [trueSize]
    split
    case h_1 fields hs => exact absurd hs (h fields)
    case h_2 => rfl

/-- Inline fields are structs, one level further down, or take up what is recorded. -/
theorem extents_eq {sizeOf sizeOf' : TypeId → Nat} (hr : ts.Regular) (h : ts.Nested (n + 1) id)
    (hp : ∀ c, (∀ fields, (ts.get c).shape ≠ .struct fields) → sizeOf c = sizeOf' c)
    (hs : ∀ f ∈ (ts.get id).fields, ∀ count, f.inlined = some count → 0 < count.toNat → ts.Nested n f.type →
      sizeOf f.type = sizeOf' f.type) :
    ∀ f ∈ (ts.get id).fields, ts.exactExtent sizeOf f = ts.exactExtent sizeOf' f := by
  intro f hf
  refine exactExtent_congr fun count hi h0 => ?_
  obtain hn | ⟨hk, -⟩ := h.2 f hf (by rw [hi]; rfl)
  · exact hs f hf count hi h0 hn
  · refine hp _ fun fields hshape => ?_
    have hkind : ts.kind f.type = .struct := (hr f.type).kind (by rw [hshape]; rfl)
    rw [hk] at hkind
    cases hkind

theorem trueSize_nested (hr : ts.Regular) : ∀ {n m : Nat} {id : TypeId}, ts.Nested n id → n ≤ m →
    ts.trueSize m id = ts.trueSize n id
  | n + 1, m + 1, id, h, hm => by
    obtain hs | hs := (ts.get id).struct_or_plain
    · rw [trueSize_struct hs, trueSize_struct hs]
      refine exactSize_congr (extents_eq hr h (fun c hc => ?_) fun f _ _ _ _ hn =>
        trueSize_nested hr hn (Nat.le_of_succ_le_succ hm))
      rw [trueSize_plain hc, trueSize_plain hc]
    · rw [trueSize_plain hs, trueSize_plain hs]

theorem trueSize_field_le {f : Field} {count : UInt64} (hf : f ∈ (ts.get id).fields) (hi : f.inlined = some count)
    (h0 : 0 < count.toNat) : ts.trueSize n f.type ≤ ts.trueSize (n + 1) id := by
  have hle : ts.trueSize n f.type ≤ ts.exactExtent (ts.trueSize n) f := by
    rw [exactExtent, hi]
    exact Nat.le_mul_of_pos_right _ h0
  rw [trueSize_struct (TypeInfo.shape_of_field hf)]
  exact hle.trans (exactExtent_le_exactSize hf)

/-! ## Sizes that fit -/

theorem Settled.inside (h : ts.Settled id) (hc : ReflTransGen ts.Inside c id) : ts.Settled c :=
  fun d hd => h d (hd.trans hc)

theorem Nested.inside_field (h : ts.Nested n id) {f : Field} {count : UInt64} (hf : f ∈ (ts.get id).fields)
    (hi : f.inlined = some count) : ReflTransGen ts.Inside f.type id :=
    .single ⟨h.struct, f, hf, by rw [hi]; rfl, rfl⟩

/-- If the structs inside have their exact sizes, a settled struct has its exact size as far as that fits in a word,
and is laid out then. -/
theorem Settled.step (hset : ts.Settled id) (hr : ts.Regular) (h : ts.Nested (n + 1) id)
    (hs : (ts.get id).shape = .struct (ts.get id).fields)
    (hin : ∀ f ∈ (ts.get id).fields, ∀ count, f.inlined = some count → 0 < count.toNat → ts.Nested n f.type →
      ts.recorded f.type = ts.trueSize n f.type) :
    ts.exactSize ts.recorded (ts.get id).fields = ts.trueSize (n + 1) id ∧ (ts.trueSize (n + 1) id < UInt64.size →
      ts.recorded id = ts.trueSize (n + 1) id ∧ ts.LaidOut (ts.get id).fields (ts.get id)) := by
  have hext : ∀ f ∈ (ts.get id).fields, ts.exactExtent (ts.trueSize n) f = ts.exactExtent ts.recorded f :=
    extents_eq hr h (fun c hc => trueSize_plain hc n) fun f hf count hi h0 hn => (hin f hf count hi h0 hn).symm
  rw [trueSize_struct hs, exactSize_congr hext]
  refine ⟨rfl, fun hfits => ?_⟩
  have hl := laidOut_of_fits hs hfits
  rw [(hset id .refl).laid] at hl
  exact hl.symm

/-- If its exact size fits in a word, a struct has that size. -/
theorem recorded_eq (hr : ts.Regular) : ∀ {n : Nat} {id : TypeId}, ts.Nested n id → ts.Settled id →
    ts.trueSize n id < UInt64.size →
    ts.recorded id = ts.trueSize n id
  | n + 1, id, h, hset, hlt => by
    -- down the inline fields; a struct that lies inside zero times has no part in the size
    obtain hs | hs := (ts.get id).struct_or_plain
    · refine ((hset.step hr h hs fun f hf count hi h0 hn => ?_).2 hlt).1
      exact recorded_eq hr hn (hset.inside (h.inside_field hf hi))
        (Nat.lt_of_le_of_lt (trueSize_field_le hf hi h0) hlt)
    · exact (trueSize_plain hs _).symm

theorem recorded_of_fits (hr : ts.Regular) : ∀ {n : Nat} {id : TypeId}, ts.Nested n id → ts.Settled id →
    (∀ c, ReflTransGen ts.Inside c id → ts.Fits {} (ts.get c).fields) → ts.recorded id = ts.trueSize n id
  | n + 1, id, h, hset, hfits => by
    obtain hs | hs := (ts.get id).struct_or_plain
    · obtain ⟨he, hx⟩ := hset.step hr h hs fun f hf count hi h0 hn => by
        have hin := h.inside_field hf hi
        exact recorded_of_fits hr hn (hset.inside hin) fun c hc => hfits c (hc.trans hin)
      exact (hx (he ▸ fits_iff.mp (hfits id .refl))).1
    · exact (trueSize_plain hs _).symm

/-- A struct that is settled, with an exact size that fits in a word. -/
structure Exact (ts : TypeTable) (id : TypeId) : Prop where
  nested : ts.Nested (ts.size + 1) id
  settled : ts.Settled id
  fits : ts.trueSize (ts.size + 1) id < UInt64.size

theorem Exact.size (h : ts.Exact id) (hr : ts.Regular) : ts.recorded id = ts.trueSize (ts.size + 1) id :=
  recorded_eq hr h.nested h.settled h.fits

theorem Exact.inside (h : ts.Exact id) (hr : ts.Regular) {f : Field} {count : UInt64} (hf : f ∈ (ts.get id).fields)
    (hi : f.inlined = some count) (h0 : 0 < count.toNat) (hn : ts.Nested ts.size f.type) : ts.Exact f.type := by
  refine ⟨hn.mono (Nat.le_succ _), h.settled.inside (h.nested.inside_field hf hi), ?_⟩
  rw [trueSize_nested hr hn (Nat.le_succ _)]
  exact Nat.lt_of_le_of_lt (trueSize_field_le hf hi h0) h.fits

theorem Exact.laidOut (h : ts.Exact id) (hr : ts.Regular) (hs : (ts.get id).shape = .struct (ts.get id).fields) :
    ts.exactSize ts.recorded (ts.get id).fields = ts.trueSize (ts.size + 1) id ∧ ts.LaidOut
    (ts.get id).fields (ts.get id) := by
  have hx := h.settled.step hr h.nested hs fun f hf count hi h0 hn => by
    rw [(h.inside hr hf hi h0 hn).size hr, trueSize_nested hr hn (Nat.le_succ _)]
  exact hx.imp_right fun hl => (hl h.fits).2

theorem Exact.holds (h : ts.Exact id) (hr : ts.Regular) {f : Field} (hf : f ∈ (ts.get id).fields) :
    ts.fieldEnd f ≤ ts.recorded id := (h.laidOut hr (TypeInfo.shape_of_field hf)).2.holds hf

/-- Some layout wraps just if the exact size of some struct does not fit in a word. -/
theorem Settled.fits_iff (hset : ts.Settled id) (hr : ts.Regular) (h : ts.Nested (ts.size + 1) id) :
    (∀ c, ReflTransGen ts.Inside c id → ts.Fits {} (ts.get c).fields) ↔
      ∀ c, ReflTransGen ts.Inside c id → ts.trueSize (ts.size + 1) c < UInt64.size := by
  have hnested {c : TypeId} (hc : ReflTransGen ts.Inside c id) (hs : (ts.get c).shape = .struct (ts.get c).fields) :
      ts.Nested (ts.size + 1) c := h.inside hc ((hr c).kind (by rw [hs]; rfl))
  constructor
  · intro hfits c hc
    have hrecorded : ts.recorded c = ts.trueSize (ts.size + 1) c := by
      obtain hs | hs := (ts.get c).struct_or_plain
      · exact recorded_of_fits hr (hnested hc hs) (hset.inside hc) fun d hd => hfits d (hd.trans hc)
      · exact (trueSize_plain hs _).symm
    exact hrecorded ▸ (ts.get c).size.toNat_lt
  · intro hsizes c hc
    obtain hs | hs := (ts.get c).struct_or_plain
    · have hx : ts.Exact c := ⟨hnested hc hs, hset.inside hc, hsizes c hc⟩
      exact TypeTable.fits_iff.mpr ((hx.laidOut hr hs).1 ▸ hx.fits)
    · rw [TypeInfo.fields_plain hs]
      exact (by decide : roundUp 0 1 < UInt64.size)

end

/-! ## Where structs lie -/

def InBounds (a : UInt64) (size : Nat) (at_ : UInt64) (n : Nat) : Prop := (at_ - a).toNat + n ≤ size

/-- The structs that a struct at an address consists of, and where they lie. -/
inductive Lies (ts : TypeTable) (root : TypeId) (a : UInt64) : TypeId → UInt64 → Prop
  | whole : Lies ts root a root a
  | element {c : TypeId} {b count : UInt64} {f : Field} {i : Nat} : Lies ts root a c b → f ∈ (ts.get c).fields →
      f.inlined = some count → ts.kind f.type = .struct → i < count.toNat →
      Lies ts root a f.type (b + f.offset + i.toUInt64 * (ts.get f.type).size)

section
variable {ts : TypeTable} {id c root : TypeId} {n k size : Nat} {a b at_ x : UInt64} {f : Field}

theorem toNat_sub_trans (a b c : UInt64) : (c - a).toNat ≤ (c - b).toNat + (b - a).toNat := by
  have hsum : c - a = (c - b) + (b - a) := by grind
  rw [hsum, UInt64.toNat_add]
  exact Nat.mod_le ..

theorem InBounds.trans (h : InBounds a size b n) (hc : InBounds b n at_ k) : InBounds a size at_ k := by
  have hle := toNat_sub_trans a b at_
  unfold InBounds at *
  omega

theorem InBounds.byte (h : InBounds a size at_ n) (hx : (x - at_).toNat < n) : (x - a).toNat < size :=
  h.trans (k := 1) hx

theorem inBounds_offset {d : UInt64} (h : d.toNat + n ≤ size) : InBounds a size (a + d) n := by
  rw [InBounds, UInt64.add_comm, UInt64.add_sub_cancel]
  exact h

theorem toNat_element (ts : TypeTable) (f : Field) (i : Nat) :
    (f.offset + i.toUInt64 * (ts.get f.type).size).toNat ≤
    f.offset.toNat + i * ts.recorded f.type := by
  rw [UInt64.toNat_add]
  refine (Nat.mod_le ..).trans (Nat.add_le_add_left ?_ _)
  rw [UInt64.toNat_mul]
  refine (Nat.mod_le ..).trans (Nat.mul_le_mul_right _ ?_)
  exact (UInt64.toNat_ofNat' ..).trans_le (Nat.mod_le ..)

theorem element_le (ts : TypeTable) {count : UInt64} {i : Nat} (hi : f.inlined = some count)
    (hlt : i < count.toNat) :
    f.offset.toNat + i * ts.recorded f.type + ts.recorded f.type ≤ ts.fieldEnd f := by
  have hle : (i + 1) * ts.recorded f.type ≤ count.toNat * ts.recorded f.type := Nat.mul_le_mul_right _ hlt
  have hext : ts.exactExtent ts.recorded f =
    count.toNat * ts.recorded f.type := by rw [exactExtent, hi, Nat.mul_comm]
  rw [Nat.succ_mul] at hle
  rw [fieldEnd, hext]
  omega

theorem Exact.element (h : ts.Exact id) (hr : ts.Regular) {count : UInt64} {i : Nat} (hf : f ∈ (ts.get id).fields)
    (hi : f.inlined = some count) (hlt : i < count.toNat) (b : UInt64) :
    InBounds b (ts.recorded id) (b + f.offset + i.toUInt64 * (ts.get f.type).size) (ts.recorded f.type) := by
  rw [UInt64.add_assoc]
  have hend := h.holds hr hf
  have hel := ts.element_le hi hlt
  have hle := ts.toNat_element f i
  exact inBounds_offset (by omega)

theorem Exact.field (h : ts.Exact id) (hr : ts.Regular) (hf : f ∈ (ts.get id).fields)
    (hi : f.inlined = none) (b : UInt64) :
    InBounds b (ts.recorded id) (b + f.offset) (ts.get f.type).valueSize := by
  have hend := h.holds hr hf
  rw [fieldEnd, exactExtent, hi] at hend
  exact inBounds_offset hend

/-- All structs that a struct consists of lie within it. -/
theorem Lies.inBounds (h : ts.Lies root a c b) (hx : ts.Exact root) (hr : ts.Regular) :
    ts.Exact c ∧ InBounds a (ts.recorded root) b (ts.recorded c) := by
  induction h with
  | whole => exact ⟨hx, by rw [InBounds, UInt64.sub_self]; exact (Nat.zero_add _).le⟩
  | element _ hf hi hk hlt ih =>
    exact ⟨ih.1.inside hr hf hi (Nat.zero_lt_of_lt hlt) (ih.1.nested.field_struct hf (by rw [hi]; rfl) hk),
      ih.2.trans (ih.1.element hr hf hi hlt _)⟩

theorem mem_initialWrites {w : Write} : ∀ {n : Nat} {c : TypeId} {b : UInt64}, ts.Lies root a c b →
    w ∈ ts.initialWrites n c b →
    ∃ (d : TypeId) (b' : UInt64) (f : Field), ts.Lies root a d b' ∧ f ∈ (ts.get d).fields ∧ f.inlined = none ∧
      w = (b' + f.offset, (ts.get f.type).valueSize, f.value)
  | n + 1, c, b, h, hw => by
    obtain ⟨f, hf, hw⟩ := List.mem_flatMap.mp hw
    unfold fieldWrites at hw
    cases hi : f.inlined with
    | none =>
      simp only [hi] at hw
      split at hw
      · cases hw
      · exact ⟨c, b, f, h, hf, hi, List.mem_singleton.mp hw⟩
    | some count =>
      simp only [hi] at hw
      split at hw
      case isTrue hk =>
        obtain ⟨i, hlt, hw⟩ := List.mem_flatMap.mp hw
        exact mem_initialWrites (h.element hf hi hk (List.mem_range.mp hlt)) hw
      case isFalse => cases hw

/-- The fields that can be meant by a name are in these structs. -/
theorem sites_lie {s : FieldSite} : ∀ {n : Nat} {c : TypeId} {b : UInt64}, ts.Nested n c → ts.Settled c →
    ts.Lies root a c b →
    s ∈ ts.sites n c → ts.Lies root a s.owner (b + s.ownerOffset)
  | n + 1, c, b, hn, hset, h, hs => by
    obtain ⟨f, hf, hs⟩ := List.mem_flatMap.mp hs
    split at hs
    case isTrue hc =>
      obtain ⟨hi, hname⟩ := Bool.and_eq_true_iff.mp hc
      obtain ⟨s', hs', rfl⟩ := List.mem_map.mp hs
      -- a struct without a name lies here once, so that its only element is the one that is searched
      have honce : f.inlined = some 1 := (hset c .refl).once hf hi (Option.isNone_iff_eq_none.mp hname)
      have hnf := hn.field_unnamed hf hi (Option.isNone_iff_eq_none.mp hname)
      have hf' := h.element hf honce hnf.struct (i := 0) (by decide)
      rw [show (0 : Nat).toUInt64 = 0 from rfl, UInt64.zero_mul, UInt64.add_zero] at hf'
      show ts.Lies root a s'.owner (b + (f.offset + s'.ownerOffset))
      rw [← UInt64.add_assoc]
      exact sites_lie hnf (hset.inside (hn.inside_field hf honce)) hf' hs'
    case isFalse =>
      rw [List.mem_singleton.mp hs]
      show ts.Lies root a c (b + 0)
      rwa [UInt64.add_zero]

end

end TypeTable

open TypeTable

/-! ## Memory -/

namespace Exec

section
variable {m : Machine} {a at_ : UInt64} {n size : Nat}

theorem poke_inBounds (m : Machine) (hn : n ≤ 8) (h : InBounds a size at_ n) (bits : UInt64) :
    ∃ m', poke at_ n bits m = .ok () m' ∧
    ∀ x, ¬(x - a).toNat < size → m'.memory.byte x = m.memory.byte x := by
  have hp : poke at_ n bits m = .ok () (if n = 0 then m else if Memory.isValid at_ then
    { m with memory := m.memory.write at_ n bits } else m.noteFault at_) := rfl
  refine ⟨_, hp, fun x hx => ?_⟩
  split
  · rfl
  · split
    · exact Memory.byte_write_of_outside m.memory hn (fun hb => hx (h.byte hb)) bits
    · rfl

theorem pokes_inBounds :
    ∀ {writes : List Write} (m : Machine), (∀ w ∈ writes, w.2.1 ≤ 8 ∧ InBounds a size w.1 w.2.1) →
    ∃ m', (forIn writes PUnit.unit fun w _ => do
        poke w.1 w.2.1 w.2.2
        pure (ForInStep.yield PUnit.unit) : Exec PUnit) m = .ok PUnit.unit m' ∧
      ∀ x, ¬(x - a).toNat < size → m'.memory.byte x = m.memory.byte x
  | [], m, _ => ⟨m, rfl, fun _ _ => rfl⟩
  | w :: ws, m, h => by
    rw [List.forall_mem_cons] at h
    obtain ⟨m₁, hw, hrest⟩ := poke_inBounds m h.1.1 h.1.2 w.2.2
    obtain ⟨m', hws, hrest'⟩ := pokes_inBounds m₁ h.2
    refine ⟨m', ?_, fun x hx => (hrest' x hx).trans (hrest x hx)⟩
    have hstep : (do
        poke w.1 w.2.1 w.2.2
        pure (ForInStep.yield PUnit.unit) : Exec (ForInStep PUnit)) m = .ok (.yield PUnit.unit) m₁ :=
          (bind_ok hw).trans rfl
    rw [List.forIn_cons]
    exact (bind_ok hstep).trans hws

end

end Exec

namespace TypeTable

variable {ts : TypeTable} {root : TypeId}

/-- All that is written when the struct at an address is made, and all of its fields, lie within it. -/
structure Bounded (ts : TypeTable) (root : TypeId) (a : UInt64) : Prop where
  writes {w : Write} : w ∈ ts.initialWrites (ts.size + 1) root a → InBounds a (ts.recorded root) w.1 w.2.1
  made (m : Machine) : m.types = ts → ∃ m', Exec.initStruct root a m = .ok () m' ∧
    ∀ x, ¬(x - a).toNat < ts.recorded root → m'.memory.byte x = m.memory.byte x
  walked {name : NameId} {p : PlacedField} : ts.walkField root a name = some p → p.field.inlined = none →
    InBounds a (ts.recorded root) p.addr (ts.get p.field.type).valueSize
  located {name : NameId} {s : FieldSite} : ts.locateField root name = some s → s.field.inlined = none →
    InBounds a (ts.recorded root) (a + s.offset) (ts.get s.field.type).valueSize

theorem Exact.bounded (h : ts.Exact root) (hr : ts.Regular) (a : UInt64) : ts.Bounded root a := by
  have hfield {c : TypeId} {b : UInt64} {f : Field} (hl : ts.Lies root a c b) (hf : f ∈ (ts.get c).fields)
    (hi : f.inlined = none) :
      InBounds a (ts.recorded root) (b + f.offset) (ts.get f.type).valueSize :=
    have ⟨hx, hw⟩ := hl.inBounds h hr
    hw.trans (hx.field hr hf hi b)
  have hwrites (w : Write) (hw : w ∈ ts.initialWrites (ts.size + 1) root a) :
      w.2.1 ≤ 8 ∧ InBounds a (ts.recorded root) w.1 w.2.1 := by
    obtain ⟨c, b, f, hl, hf, hi, rfl⟩ := mem_initialWrites .whole hw
    exact ⟨Kind.valueSize_le _, hfield hl hf hi⟩
  have hlocated {name : NameId} {s : FieldSite} (hs : ts.locateField root name = some s)
    (hi : s.field.inlined = none) :
      InBounds a (ts.recorded root) (a + s.offset) (ts.get s.field.type).valueSize := by
    rw [locateField, locate_find] at hs
    have hm := List.mem_of_find?_eq_some hs
    have hin := hfield (sites_lie h.nested h.settled .whole hm) (mem_sites hm) hi
    rwa [UInt64.add_assoc] at hin
  refine ⟨fun {w} hw => (hwrites w hw).2, fun m hm => ?_, fun {name p} hp hi => ?_, hlocated⟩
  · subst hm
    obtain ⟨m', hp, hrest⟩ := Exec.pokes_inBounds m hwrites
    exact ⟨m', (Exec.bind_ok hp).trans rfl, hrest⟩
  · rw [walkField_locateField h.nested] at hp
    obtain ⟨s, hs, rfl⟩ := Option.map_eq_some_iff.mp hp
    rw [s.placed_addr]
    exact hlocated hs hi

/-- The addresses of a field of the struct at `b`, and of what lies in the field, are computed without wrapping. -/
structure StepsExact (ts : TypeTable) (b : UInt64) (f : Field) : Prop where
  addr : (b + f.offset).toNat = b.toNat + f.offset.toNat
  element {count : UInt64} {i : Nat} : f.inlined = some count → i < count.toNat →
    (i.toUInt64 * (ts.get f.type).size).toNat = i * ts.recorded f.type ∧
      (b + f.offset + i.toUInt64 * (ts.get f.type).size).toNat = b.toNat + f.offset.toNat + i * ts.recorded f.type

theorem stepsExact_of_end {b : UInt64} {f : Field} (h : b.toNat + ts.fieldEnd f < UInt64.size) :
    ts.StepsExact b f := by
  have haddr : (b + f.offset).toNat = b.toNat + f.offset.toNat := by
    rw [fieldEnd] at h
    rw [UInt64.toNat_add, Nat.mod_eq_of_lt (Nat.lt_of_le_of_lt (by omega) h)]
  refine ⟨haddr, fun {count i} hi hlt => ?_⟩
  have hle := ts.element_le hi hlt
  have hword : i.toUInt64.toNat = i := Nat.mod_eq_of_lt (Nat.lt_trans hlt count.toNat_lt)
  have hmul : (i.toUInt64 * (ts.get f.type).size).toNat = i * ts.recorded f.type := by
    rw [UInt64.toNat_mul, hword]
    exact Nat.mod_eq_of_lt (Nat.lt_of_le_of_lt (show i * ts.recorded f.type ≤ _ by omega) h)
  refine ⟨hmul, ?_⟩
  rw [UInt64.toNat_add, haddr, hmul]
  exact Nat.mod_eq_of_lt (Nat.lt_of_le_of_lt (by omega) h)

theorem Lies.stepsExact {a b : UInt64} {c : TypeId} {f : Field} (h : ts.Lies root a c b)
    (hx : ts.Exact root) (hr : ts.Regular)
    (ha : a.toNat + ts.recorded root < UInt64.size) (hf : f ∈ (ts.get c).fields) : ts.StepsExact b f := by
  obtain ⟨hc, hw⟩ := h.inBounds hx hr
  have hend := hc.holds hr hf
  have hb : b.toNat ≤ a.toNat + (b - a).toNat := by
    have hsum : b = a + (b - a) := by grind
    conv_lhs => rw [hsum, UInt64.toNat_add]
    exact Nat.mod_le ..
  rw [InBounds] at hw
  exact stepsExact_of_end (Nat.lt_of_le_of_lt (by omega) ha)

/-- A struct has its exact size and holds its fields. It is made at an address, from which on it does not exceed the
memory, without wrapping: all writes are to fields of the structs that it consists of. -/
structure Fitted (ts : TypeTable) (root : TypeId) : Prop where
  size : ts.recorded root = ts.trueSize (ts.size + 1) root
  holds {f : Field} : f ∈ (ts.get root).fields → ts.fieldEnd f ≤ ts.recorded root
  writes {a : UInt64} {w : Write} : w ∈ ts.initialWrites (ts.size + 1) root a →
    ∃ (c : TypeId) (b : UInt64) (f : Field), ts.Lies root a c b ∧ f ∈ (ts.get c).fields ∧ f.inlined = none ∧
      w = (b + f.offset, (ts.get f.type).valueSize, f.value)
  inside {a b : UInt64} {c : TypeId} : ts.Lies root a c b → InBounds a (ts.recorded root) b (ts.recorded c)
  steps {a b : UInt64} {c : TypeId} {f : Field} : a.toNat + ts.recorded root < UInt64.size → ts.Lies root a c b →
    f ∈ (ts.get c).fields → ts.StepsExact b f

theorem Exact.fitted (h : ts.Exact root) (hr : ts.Regular) : ts.Fitted root where
  size := h.size hr
  holds := h.holds hr
  writes := mem_initialWrites .whole
  inside hl := (hl.inBounds h hr).2
  steps ha hl := hl.stepsExact h hr ha

end TypeTable

section
variable {ts ts' : TypeTable} {lookup : Lookup} {id r : TypeId}

theorem Composed.result (h : Composed ts) (hm : (TypeOp.resolve lookup id).Mentions (· < ts.size))
    (he : (TypeOp.resolve lookup id).Embeds ts) (hw : ts.Whole id) (hr : ts.resolve lookup id = (.ok r, ts'))
    (hk : ts'.kind r = .struct) : ts'.Regular ∧ ts'.Settled r ∧ ts'.Nested (ts'.size + 1) r := by
  obtain ⟨hsettled, haccepts⟩ := h.settled hm he hw hr
  have horderly := h.orderly.run hm he
  rw [show (TypeOp.resolve lookup id).run ts = ts.resolve lookup id from rfl, hr] at horderly
  exact ⟨horderly.regular, hsettled, haccepts hk⟩

/-- A struct with an exact size that fits in a word is bounded by its size, which is the one that `new`
allocates. -/
theorem Composed.resolved_bounded (h : Composed ts) (hm : (TypeOp.resolve lookup id).Mentions (· < ts.size))
    (he : (TypeOp.resolve lookup id).Embeds ts) (hw : ts.Whole id) (hr : ts.resolve lookup id = (.ok r, ts'))
    (hk : ts'.kind r = .struct) (hfits : ts'.trueSize (ts'.size + 1) r < UInt64.size) (a : UInt64) :
    ts'.Bounded r a := by
  obtain ⟨hregular, hsettled, hnested⟩ := h.result hm he hw hr hk
  exact Exact.bounded ⟨hnested, hsettled, hfits⟩ hregular a

/-! ### A struct around others -/

theorem Composed.ask {types : List TypeInfo} {t : TypeInfo} (h : Composed ts) (hc : ts.Comprises types)
    (op : TypeOp) (hr : op.request (ofTypes types) = some t) (hm : op.Mentions (· < types.length))
    (he : op.Embeds ts) (hn : ∀ u ∈ types, u.computeHash ≠ t.computeHash) :
    ∃ ts', Composed ts' ∧ ts'.Comprises (types ++ [(ofTypes types).joined t]) := by
  obtain ⟨ts', hrun, hc'⟩ := hc.ask op hr hm hn
  have h' : Composed (op.run ts).2 := h.step (hc.size ▸ hm) he
  rw [hrun] at h'
  exact ⟨ts', h', hc'⟩

theorem TypeTable.Nameless.whole (h : ts.Nameless) (c : TypeId) : ts.Whole c := by
  rintro ⟨t, ht, hc⟩
  rw [← get_eq ht, (h c (lt_of_lookup ht)).1] at hc
  cases hc

theorem TypeTable.Nameless.embeds (h : ts.Nameless) {fields : List Field} {base : Option TypeId}
    (ho : ∀ f ∈ withBase fields base, f.Once) : (TypeOp.struct fields base).Embeds ts :=
  fun f hf => ⟨ho f hf, fun _ => h.whole _⟩

def shelf : TypeInfo where
  kind := .struct
  shape := .struct [{ name := some 61, type := int8 }, { name := none, type := 9, offset := 4, inlined := some 1 },
    { name := some 62, type := 9, offset := 8, inlined := some 3 },
      { name := some 63, type := int64, offset := 24, value := 9 }]
  size := 32

def shelfTypes : List TypeInfo := Exec.singleTypes ++ [(ofTypes Exec.singleTypes).joined shelf]

theorem shelfTypes_nameless : ∀ t ∈ shelfTypes, t.flags.closed = false ∧ ∀ name, t.shape ≠ .deferred name :=
  List.forall_mem_append.mpr ⟨Exec.singleTypes_nameless, List.forall_mem_singleton.mpr ⟨rfl, nofun⟩⟩

theorem shelfTypes_composed : ∃ ts : TypeTable, Composed ts ∧ ts.Comprises shelfTypes := by
  have hnone : initial.Nameless := comprises_initial.nameless (List.forall_mem_map.mpr fun _ _ => ⟨rfl, nofun⟩)
  obtain ⟨ts₁, h₁, hc₁⟩ :=
    Composed.initial.ask comprises_initial (.struct [{ name := some 60, type := int32, value := 7 }] none)
    (t := Exec.single) (by decide +kernel) ⟨by decide, nofun⟩ (hnone.embeds (by decide)) (by decide +kernel)
  obtain ⟨ts₂, h₂, hc₂⟩ := h₁.ask (show ts₁.Comprises Exec.singleTypes from hc₁) (t := shelf)
    (.struct [{ name := some 61, type := int8 }, { name := none, type := 9, inlined := some 1 },
      { name := some 62, type := 9, inlined := some 3 }, { name := some 63, type := int64, value := 9 }] none)
    (by decide +kernel) ⟨by decide, nofun⟩
      ((Comprises.nameless hc₁ Exec.singleTypes_nameless).embeds (by decide)) (by decide +kernel)
  exact ⟨ts₂, h₂, hc₂⟩

def noNames : Lookup := fun _ => .missing

theorem shelf_resolves {ts : TypeTable} (h : ts.Comprises shelfTypes) :
    (TypeOp.resolve noNames 10).Mentions (· < ts.size) ∧ (TypeOp.resolve noNames 10).Embeds ts ∧ ts.Whole 10 ∧
      ts.resolve noNames 10 = (.ok 10, ts) ∧ ts.kind 10 = .struct ∧ ts.recorded 10 = 32 ∧
      ts.trueSize (ts.size + 1) 10 = 32 := by
  have hn : ts.Nameless := h.nameless shelfTypes_nameless
  have hk := h.later.keeps sane_initial
  have hl : ts.Laid := hk.laid laid_initial
  have hdepth : ts.size + 1 = 12 := congrArg (· + 1) h.size
  have hlt : 10 < ts.size := h.size ▸ (by decide)
  rw [hdepth]
  obtain ⟨types, interned, closed, closedConst⟩ := ts
  obtain rfl : types = shelfTypes.toArray := h.types
  have hsize : (TypeTable.mk shelfTypes.toArray interned closed closedConst).trueSize 12 10 = 32 := by cbv
  have hnone {name : NameId} {target : TypeId} : noNames name ≠ .type target := fun hname => by cases hname
  exact ⟨⟨hlt, fun _ _ h => absurd h hnone⟩, fun _ _ _ h => absurd h hnone, hn.whole 10,
    (hn.free hk.sane).resolve hk.sane hl hlt rfl rfl, rfl, rfl, hsize⟩

theorem shelf_writes {ts : TypeTable} (h : ts.Comprises shelfTypes) :
    ts.initialWrites (ts.size + 1) 10 0x200000000000 =
    [(0x200000000004, 4, 7), (0x200000000008, 4, 7), (0x20000000000C, 4, 7), (0x200000000010, 4, 7),
      (0x200000000018, 8, 9)] := by
  have hdepth : ts.size + 1 = 12 := congrArg (· + 1) h.size
  rw [hdepth]
  obtain ⟨types, interned, closed, closedConst⟩ := ts
  obtain rfl : types = shelfTypes.toArray := h.types
  cbv

theorem Composed.resolved_bounded_shelf : ∃ ts : TypeTable, Composed ts ∧ ts.resolve noNames 10 = (.ok 10, ts) ∧
    ts.kind 10 = .struct ∧ ts.recorded 10 = 32 ∧ ts.trueSize (ts.size + 1) 10 = 32 ∧
    ts.initialWrites (ts.size + 1) 10 0x200000000000 =
      [(0x200000000004, 4, 7), (0x200000000008, 4, 7), (0x20000000000C, 4, 7), (0x200000000010, 4, 7),
        (0x200000000018, 8, 9)] ∧
    ts.Bounded 10 0x200000000000 := by
  obtain ⟨ts, h, hc⟩ := shelfTypes_composed
  obtain ⟨hm, he, hw, hr, hk, hrecorded, hsize⟩ := shelf_resolves hc
  exact ⟨ts, h, hr, hk, hrecorded, hsize, shelf_writes hc,
    h.resolved_bounded hm he hw hr hk (hsize ▸ (by decide)) _⟩

/-- Layouts wrap just if an exact size does not fit in a word, be it of new fields or of structs inside one that has
been resolved. If that of the struct itself fits, so does all that it consists of. -/
theorem Composed.layouts_fit (h : Composed ts) (hm : (TypeOp.resolve lookup id).Mentions (· < ts.size))
    (he : (TypeOp.resolve lookup id).Embeds ts) (hw : ts.Whole id) (hr : ts.resolve lookup id = (.ok r, ts'))
    (hk : ts'.kind r = .struct) :
    (∀ fields, ts.Fits {} fields ↔ ts.exactSize ts.recorded fields < UInt64.size) ∧
      ((∀ c, Relation.ReflTransGen ts'.Inside c r → ts'.Fits {} (ts'.get c).fields) ↔
        ∀ c, Relation.ReflTransGen ts'.Inside c r → ts'.trueSize (ts'.size + 1) c < UInt64.size) ∧
      (ts'.trueSize (ts'.size + 1) r < UInt64.size → ts'.Fitted r) := by
  obtain ⟨hregular, hsettled, hnested⟩ := h.result hm he hw hr hk
  exact ⟨fun _ => TypeTable.fits_iff, hsettled.fits_iff hregular hnested,
    fun hfits => Exact.fitted ⟨hnested, hsettled, hfits⟩ hregular⟩

theorem Composed.layouts_fit_shelf : ∃ ts : TypeTable, Composed ts ∧
    ts.resolve noNames 10 = (.ok 10, ts) ∧ ts.kind 10 = .struct ∧
    ts.recorded 10 = 32 ∧ ts.trueSize (ts.size + 1) 10 = 32 ∧ ts.Fitted 10 := by
  obtain ⟨ts, h, hc⟩ := shelfTypes_composed
  obtain ⟨hm, he, hw, hr, hk, hrecorded, hsize⟩ := shelf_resolves hc
  exact ⟨ts, h, hr, hk, hrecorded, hsize, (h.layouts_fit hm he hw hr hk).2.2 (hsize ▸ (by decide))⟩

/-- So many structs in place that their size wraps to that of one. -/
example : (pairTypes.withLayout
    { kind := .struct
      shape := .struct [{ name := some 57, type := 9, inlined := some 2305843009213693953 }] }).size = 8 := by
  decide +kernel

end

end LevelScript
