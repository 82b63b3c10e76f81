import LevelScript.Proofs.TypeHistory
import Mathlib.Order.Bounds.Basic

/-!
# Layout in exact numbers

A layout is computed with words, which wrap. If the size of a struct in exact numbers fits in a word, nothing
wraps on the way: the fields lie where they ask to lie, and the struct holds them all. In every other case a sum
or a product wraps.
-/

namespace LevelScript

/-- The least multiple of `a` that is not below `n`. -/
def roundUp (n a : Nat) : Nat := (n + a - 1) / a * a

section
variable {n a k : Nat}

theorem le_roundUp (ha : 0 < a) : n ≤ roundUp n a := by
  have h := Nat.div_add_mod (n + a - 1) a
  have hlt := Nat.mod_lt (n + a - 1) ha
  rw [Nat.mul_comm] at h
  rw [roundUp]
  omega

theorem roundUp_lt (ha : 0 < a) : roundUp n a < n + a := by
  have h := Nat.div_mul_le_self (n + a - 1) a
  rw [roundUp]
  omega

theorem dvd_roundUp : a ∣ roundUp n a := Nat.dvd_mul_left ..

theorem roundUp_eq (hk : a ∣ k) (hn : n ≤ k) (h : k < n + a) : k = roundUp n a := by
  obtain ⟨q, rfl⟩ := hk
  have ha : 0 < a := by omega
  have hq : (n + a - 1) / a = q := by
    rw [Nat.mul_comm] at hn h
    exact Nat.div_eq_of_lt_le (by omega) (by rw [Nat.succ_mul]; omega)
  rw [roundUp, hq, Nat.mul_comm]

theorem roundUp_le (ha : 0 < a) (hk : a ∣ k) (hn : n ≤ k) : roundUp n a ≤ k := by
  obtain ⟨q, rfl⟩ := hk
  obtain ⟨p, hp⟩ := dvd_roundUp (n := n) (a := a)
  have hlt := roundUp_lt (n := n) ha
  rw [hp] at hlt ⊢
  have hpq : a * p < a * (q + 1) := by rw [Nat.mul_succ]; omega
  exact Nat.mul_le_mul_left a (Nat.le_of_lt_succ (Nat.lt_of_mul_lt_mul_left hpq))

theorem toNat_alignUp {n a : UInt64} (ha : 0 < a.toNat) (h : roundUp n.toNat a.toNat < UInt64.size) :
    (alignUp n a).toNat = roundUp n.toNat a.toNat := by
  have hr : (n % a).toNat = n.toNat % a.toNat := UInt64.toNat_mod ..
  have hlt := Nat.mod_lt n.toNat ha
  have hdiv := Nat.div_add_mod n.toNat a.toNat
  rw [alignUp]
  split
  case isTrue hz =>
    rw [hz] at hr
    exact roundUp_eq (Nat.dvd_of_mod_eq_zero hr.symm) (Nat.le_refl _) (by omega)
  case isFalse hz =>
    have hz : n.toNat % a.toNat ≠ 0 := fun h0 => hz (UInt64.toNat_inj.mp (hr.trans h0))
    have hsub : (a - n % a).toNat = a.toNat - n.toNat % a.toNat := by
      rw [UInt64.toNat_sub_of_le _ _ (UInt64.le_iff_toNat_le.mpr (hr ▸ hlt.le)), hr]
    have hk : n.toNat + (a.toNat - n.toNat % a.toNat) = roundUp n.toNat a.toNat := by
      refine roundUp_eq ⟨n.toNat / a.toNat + 1, ?_⟩ (by omega) (by omega)
      rw [Nat.mul_succ]
      omega
    rw [UInt64.toNat_add, hsub, hk, Nat.mod_eq_of_lt h]

end

namespace TypeTable

def recorded (ts : TypeTable) (id : TypeId) : Nat := (ts.get id).size.toNat

/-- The bytes that a field takes if the types inside have these sizes. -/
def exactExtent (ts : TypeTable) (sizeOf : TypeId → Nat) (f : Field) : Nat :=
  match f.inlined with
  | some count => sizeOf f.type * count.toNat
  | none => (ts.get f.type).valueSize

def alignmentOf (ts : TypeTable) (f : Field) : Nat :=
  let t := ts.get f.type
  max (if f.inlined.isSome then t.alignment.toNat else t.valueSize) 1

/-- Where a field asks to lie behind fields that take up `size` bytes, the last of which ends at `lastEnd`. -/
def exactOffset (ts : TypeTable) (size lastEnd : Nat) (f : Field) : Nat :=
  match f.place with
  | .auto => roundUp size (ts.alignmentOf f)
  | .absolute offset => offset.toNat
  | .relative delta => lastEnd + delta.toNat

def exactEnds (ts : TypeTable) (sizeOf : TypeId → Nat) : Nat → Nat → List Field → List Nat
  | _, _, [] => []
  | size, lastEnd, f :: fs =>
    let end_ := ts.exactOffset size lastEnd f + ts.exactExtent sizeOf f
    end_ :: exactEnds ts sizeOf (max size end_) end_ fs

def exactSize (ts : TypeTable) (sizeOf : TypeId → Nat) (fields : List Field) : Nat :=
  roundUp ((ts.exactEnds sizeOf 0 0 fields).foldl max 0) ((fields.map ts.alignmentOf).foldl max 1)

section
variable {ts : TypeTable} {f : Field} {fs : List Field} {s : LayoutState}

/-! ## One field -/

theorem toNat_valueSize (t : TypeInfo) : t.valueSize.toUInt64.toNat = t.valueSize := by
  rw [TypeInfo.valueSize]
  cases t.kind <;> rfl

theorem toNat_fieldAlignment (ts : TypeTable) (f : Field) : (ts.fieldAlignment f).toNat = ts.alignmentOf f := by
  rw [fieldAlignment, alignmentOf, UInt64.toNat_max]
  cases f.inlined with
  | none => exact congrArg (max · 1) (toNat_valueSize _)
  | some => rfl

theorem toNat_alignment_placeField (ts : TypeTable) (s : LayoutState) (f : Field) :
    (ts.placeField s f).2.alignment.toNat = max s.alignment.toNat (ts.alignmentOf f) :=
  toNat_fieldAlignment ts f ▸ UInt64.toNat_max ..

theorem alignmentOf_pos (ts : TypeTable) (f : Field) : 0 < ts.alignmentOf f := Nat.le_max_right ..

structure StepExact (ts : TypeTable) (s : LayoutState) (f : Field) : Prop where
  offset : (ts.placeField s f).1.offset.toNat = ts.exactOffset s.size.toNat s.lastEnd.toNat f
  extent : (ts.fieldExtent f).toNat = ts.exactExtent ts.recorded f
  lastEnd : (ts.placeField s f).2.lastEnd.toNat =
    ts.exactOffset s.size.toNat s.lastEnd.toNat f + ts.exactExtent ts.recorded f

theorem StepExact.size (h : ts.StepExact s f) : (ts.placeField s f).2.size.toNat =
    max s.size.toNat (ts.exactOffset s.size.toNat s.lastEnd.toNat f + ts.exactExtent ts.recorded f) :=
  h.lastEnd ▸ UInt64.toNat_max ..

theorem toNat_fieldExtent (h : ts.exactExtent ts.recorded f < UInt64.size) :
    (ts.fieldExtent f).toNat = ts.exactExtent ts.recorded f := by
  unfold fieldExtent exactExtent at *
  cases hi : f.inlined with
  | none => exact toNat_valueSize _
  | some count =>
    simp only [hi] at h
    exact (UInt64.toNat_mul ..).trans (Nat.mod_eq_of_lt h)

theorem toNat_offset_placeField (h : ts.exactOffset s.size.toNat s.lastEnd.toNat f < UInt64.size) :
    (ts.placeField s f).1.offset.toNat = ts.exactOffset s.size.toNat s.lastEnd.toNat f := by
  unfold placeField exactOffset at *
  dsimp only
  cases hp : f.place with
  | auto =>
    simp only [hp, ← toNat_fieldAlignment] at h ⊢
    exact toNat_alignUp (toNat_fieldAlignment ts f ▸ ts.alignmentOf_pos f) h
  | absolute offset => rfl
  | relative delta =>
    simp only [hp] at h
    exact (UInt64.toNat_add ..).trans (Nat.mod_eq_of_lt h)

theorem step_exact
    (h : ts.exactOffset s.size.toNat s.lastEnd.toNat f + ts.exactExtent ts.recorded f < UInt64.size) :
    ts.StepExact s f := by
  have ho := toNat_offset_placeField (Nat.lt_of_le_of_lt (Nat.le_add_right ..) h)
  have he := toNat_fieldExtent (Nat.lt_of_le_of_lt (Nat.le_add_left ..) h)
  refine ⟨ho, he, ?_⟩
  show ((ts.placeField s f).1.offset + ts.fieldExtent f).toNat = _
  rw [UInt64.toNat_add, ho, he, Nat.mod_eq_of_lt h]

/-! ## Steps that wrap -/

/-- No product or sum that is needed to place a field exceeds a word. -/
structure StepFits (ts : TypeTable) (s : LayoutState) (f : Field) : Prop where
  product {count : UInt64} : f.inlined = some count → (ts.get f.type).size.toNat * count.toNat < UInt64.size
  rounded : f.place = .auto → roundUp s.size.toNat (ts.fieldAlignment f).toNat < UInt64.size
  relative {delta : UInt64} : f.place = .relative delta → s.lastEnd.toNat + delta.toNat < UInt64.size
  sum : (ts.placeField s f).1.offset.toNat + (ts.fieldExtent f).toNat < UInt64.size

/-- None does while these fields are placed and the size of the struct is computed. -/
def Fits (ts : TypeTable) (s : LayoutState) : List Field → Prop
  | [] => roundUp s.size.toNat s.alignment.toNat < UInt64.size
  | f :: fs => ts.StepFits s f ∧ ts.Fits (ts.placeField s f).2 fs

theorem stepFits_iff : ts.StepFits s f ↔
    ts.exactOffset s.size.toNat s.lastEnd.toNat f + ts.exactExtent ts.recorded f < UInt64.size := by
  constructor
  · intro h
    have he : ts.exactExtent ts.recorded f < UInt64.size := by
      unfold exactExtent
      cases hi : f.inlined with
      | none => exact Nat.lt_of_le_of_lt (toNat_valueSize _).ge (UInt64.toNat_lt _)
      | some count => exact h.product hi
    have ho : ts.exactOffset s.size.toNat s.lastEnd.toNat f < UInt64.size := by
      unfold exactOffset
      cases hp : f.place with
      | auto => exact toNat_fieldAlignment ts f ▸ h.rounded hp
      | absolute offset => exact offset.toNat_lt
      | relative delta => exact h.relative hp
    rw [← toNat_offset_placeField ho, ← toNat_fieldExtent he]
    exact h.sum
  · intro h
    have hx := step_exact h
    refine ⟨fun {count} hi => ?_, fun hp => ?_, fun {delta} hp => ?_, by rw [hx.offset, hx.extent]; exact h⟩
    · have he : ts.exactExtent ts.recorded f =
        (ts.get f.type).size.toNat * count.toNat := by rw [exactExtent, hi]; rfl
      omega
    · have ho : ts.exactOffset s.size.toNat s.lastEnd.toNat f =
        roundUp s.size.toNat (ts.alignmentOf f) := by rw [exactOffset, hp]
      rw [toNat_fieldAlignment]
      omega
    · have ho : ts.exactOffset s.size.toNat s.lastEnd.toNat f =
        s.lastEnd.toNat + delta.toNat := by rw [exactOffset, hp]
      omega

/-! ## All fields -/

theorem le_foldl_max (l : List Nat) : ∀ b, b ≤ l.foldl max b := by
  induction l with
  | nil => exact Nat.le_refl
  | cons x l ih => exact fun b => Nat.le_trans (Nat.le_max_left b x) (ih _)

theorem foldl_max_le {l : List Nat} {u : Nat} : ∀ {b}, l.foldl max b ≤ u ↔ b ≤ u ∧ ∀ x ∈ l, x ≤ u := by
  induction l with
  | nil => exact ⟨fun h => ⟨h, nofun⟩, And.left⟩
  | cons x l ih =>
    intro b
    rw [List.foldl_cons, ih, Nat.max_le, List.forall_mem_cons, and_assoc]

theorem roundUp_foldl_fits {l : List Nat} {b a : Nat} (ha : 0 < a) (h : roundUp (l.foldl max b) a < UInt64.size) :
    b < UInt64.size :=
  Nat.lt_of_le_of_lt ((le_foldl_max l b).trans (le_roundUp ha)) h

theorem fits_iff_from (fs : List Field) : ∀ s : LayoutState, 0 < s.alignment.toNat → (ts.Fits s fs ↔
    roundUp ((ts.exactEnds ts.recorded s.size.toNat s.lastEnd.toNat fs).foldl max s.size.toNat)
      ((fs.map ts.alignmentOf).foldl max s.alignment.toNat) < UInt64.size) := by
  induction fs with
  | nil => exact fun _ _ => Iff.rfl
  | cons f fs ih =>
    intro s hs
    have ha := ts.toNat_alignment_placeField s f
    have ha' : 0 < (ts.placeField s f).2.alignment.toNat := ha ▸ Nat.lt_of_lt_of_le hs (Nat.le_max_left ..)
    rw [Fits, ih _ ha', exactEnds, List.map_cons, List.foldl_cons, List.foldl_cons, ha]
    have hpos := Nat.lt_of_lt_of_le (ha ▸ ha') (le_foldl_max (fs.map ts.alignmentOf) _)
    -- either way the first field fits, and what the layout goes on with is exact
    constructor
    · rintro ⟨hf, h⟩
      have hx := step_exact (stepFits_iff.mp hf)
      rwa [hx.size, hx.lastEnd] at h
    · intro h
      have he := Nat.lt_of_le_of_lt (Nat.le_max_right ..) (roundUp_foldl_fits hpos h)
      have hx := step_exact he
      rw [hx.size, hx.lastEnd]
      exact ⟨stepFits_iff.mpr he, h⟩

/-- A layout goes without wrapping just if the exact size of the struct fits in a word. -/
theorem fits_iff : ts.Fits {} fs ↔ ts.exactSize ts.recorded fs < UInt64.size := fits_iff_from fs {} Nat.one_pos

/-! ## Where the fields lie -/

def fieldEnd (ts : TypeTable) (f : Field) : Nat := f.offset.toNat + ts.exactExtent ts.recorded f

/-- The field lies where it asks to lie behind those before it. -/
def PlacedBehind (ts : TypeTable) (before : List Field) (f : Field) : Prop :=
  match f.place with
  | .auto => IsLeast { n | ts.alignmentOf f ∣ n ∧ ∀ g ∈ before, ts.fieldEnd g ≤ n } f.offset.toNat
  | .absolute offset => f.offset = offset
  | .relative delta => f.offset.toNat = (before.getLast?.map ts.fieldEnd).getD 0 + delta.toNat

def asked (f : Field) : Field := { f with offset := 0 }

structure LaidOut (ts : TypeTable) (fields : List Field) (t : TypeInfo) : Prop where
  fields : t.fields.map asked = fields.map asked
  placed {before after : List Field} {f : Field} : t.fields = before ++ f :: after → ts.PlacedBehind before f
  alignment : t.alignment.toNat = (t.fields.map ts.alignmentOf).foldl max 1
  divides : t.alignment.toNat ∣ t.size.toNat
  holds {f : Field} : f ∈ t.fields → ts.fieldEnd f ≤ t.size.toNat
  tight : t.size.toNat < (t.fields.map ts.fieldEnd).foldl max 0 + t.alignment.toNat

/-- A layout in progress knows of the fields behind it. -/
structure Reached (ts : TypeTable) (before : List Field) (s : LayoutState) : Prop where
  size : s.size.toNat = (before.map ts.fieldEnd).foldl max 0
  lastEnd : s.lastEnd.toNat = (before.getLast?.map ts.fieldEnd).getD 0

theorem fieldEnd_placeField (h : ts.StepExact s f) :
    ts.fieldEnd
    (ts.placeField s f).1 = ts.exactOffset s.size.toNat s.lastEnd.toNat f + ts.exactExtent ts.recorded f :=
  congrArg (· + _) h.offset

theorem Reached.next {before : List Field} (h : ts.Reached before s) (hx : ts.StepExact s f) :
    ts.Reached (before ++ [(ts.placeField s f).1]) (ts.placeField s f).2 where
  size := by
    rw [hx.size, List.map_append, List.foldl_append, ← h.size, ← fieldEnd_placeField hx]
    rfl
  lastEnd := by
    rw [hx.lastEnd, ← fieldEnd_placeField hx, List.getLast?_append]
    rfl

theorem Reached.placed {before : List Field} (h : ts.Reached before s) (hx : ts.StepExact s f) :
    ts.PlacedBehind before (ts.placeField s f).1 := by
  have ho := hx.offset
  unfold PlacedBehind exactOffset at *
  cases hp : f.place with
  | auto =>
    simp only [hp] at ho
    -- the size so far is the largest of the ends
    have hends {n : Nat} : (∀ g ∈ before, ts.fieldEnd g ≤ n) ↔ s.size.toNat ≤ n := by
      rw [h.size, foldl_max_le, List.forall_mem_map]
      exact ⟨fun h => ⟨n.zero_le, h⟩, And.right⟩
    have hpos := ts.alignmentOf_pos f
    simp only [show (ts.placeField s f).1.place = .auto from hp, hends, ho]
    exact ⟨⟨dvd_roundUp, le_roundUp hpos⟩, fun n hn => roundUp_le hpos hn.1 hn.2⟩
  | absolute offset => simp only [placeField, hp]
  | relative delta =>
    simp only [hp] at ho
    simp only [show (ts.placeField s f).1.place = .relative delta from hp, ho, h.lastEnd]

theorem placeFields_cons (ts : TypeTable) (s : LayoutState) (f : Field) (fs : List Field) :
    ts.placeFields s (f :: fs) =
    ((ts.placeField s f).1 :: (ts.placeFields (ts.placeField s f).2 fs).1,
      (ts.placeFields (ts.placeField s f).2 fs).2) := rfl

theorem placeFields_placed (fs : List Field) :
    ∀ {before : List Field} {s : LayoutState}, ts.Reached before s → ts.Fits s fs →
    ts.Reached (before ++ (ts.placeFields s fs).1) (ts.placeFields s fs).2 ∧
    ∀ {b a : List Field} {g : Field}, (ts.placeFields s fs).1 = b ++ g :: a → ts.PlacedBehind (before ++ b) g := by
  induction fs with
  | nil =>
    intro before s h _
    refine ⟨(List.append_nil before).symm ▸ h, fun {b a g} he => ?_⟩
    cases b <;> cases he
  | cons f fs ih =>
    intro before s h hf
    have hx := step_exact (stepFits_iff.mp hf.1)
    obtain ⟨hr, hp⟩ := ih (h.next hx) hf.2
    rw [List.append_assoc] at hr
    rw [placeFields_cons]
    refine ⟨hr, fun {b a g} he => ?_⟩
    cases b with
    | nil =>
      rw [← (List.cons.inj he).1, List.append_nil]
      exact h.placed hx
    | cons b₀ b =>
      rw [← (List.cons.inj he).1]
      have hg := hp (List.cons.inj he).2
      rwa [List.append_assoc] at hg

theorem fits_last {fs : List Field} : ∀ {s : LayoutState}, ts.Fits s fs →
    roundUp (ts.placeFields s fs).2.size.toNat (ts.placeFields s fs).2.alignment.toNat < UInt64.size := by
  induction fs with
  | nil => exact id
  | cons f fs ih => exact fun h => ih h.2

theorem alignment_placeFields (fs : List Field) : ∀ s : LayoutState, (ts.placeFields s fs).2.alignment.toNat =
    ((ts.placeFields s fs).1.map ts.alignmentOf).foldl max s.alignment.toNat := by
  induction fs with
  | nil => exact fun _ => rfl
  | cons f fs ih =>
    intro s
    rw [placeFields_cons, List.map_cons, List.foldl_cons, ih, toNat_alignment_placeField]
    rfl

theorem map_fieldEnd_placeFields (fs : List Field) : ∀ {s : LayoutState}, ts.Fits s fs →
    (ts.placeFields s fs).1.map ts.fieldEnd = ts.exactEnds ts.recorded s.size.toNat s.lastEnd.toNat fs := by
  induction fs with
  | nil => exact fun _ => rfl
  | cons f fs ih =>
    intro s h
    have hx := step_exact (stepFits_iff.mp h.1)
    rw [placeFields_cons, List.map_cons, ih h.2, hx.size, hx.lastEnd, fieldEnd_placeField hx]
    rfl

theorem laidOut_of_fits {t : TypeInfo} (hs : t.shape = .struct fs) (h : ts.exactSize ts.recorded fs < UInt64.size) :
    ts.LaidOut fs (ts.withLayout t) ∧ (ts.withLayout t).size.toNat = ts.exactSize ts.recorded fs := by
  have hf : ts.Fits {} fs := fits_iff.mpr h
  obtain ⟨hr, hp⟩ := placeFields_placed fs (show ts.Reached [] {} from ⟨rfl, rfl⟩) hf
  rw [List.nil_append] at hr
  generalize hl : ts.placeFields {} fs = l at hr hp
  have hends := map_fieldEnd_placeFields fs hf
  have halign : l.2.alignment.toNat = (l.1.map ts.alignmentOf).foldl max 1 := hl ▸ alignment_placeFields fs {}
  have hpos : 0 < l.2.alignment.toNat := halign ▸ le_foldl_max _ 1
  have hsize : (alignUp l.2.size l.2.alignment).toNat = roundUp l.2.size.toNat l.2.alignment.toNat :=
    toNat_alignUp hpos (hl ▸ fits_last hf)
  have hw : ts.withLayout t =
      { t with shape := .struct l.1, size := alignUp l.2.size l.2.alignment, alignment := l.2.alignment } := by
    simp only [withLayout, hs, hl]
  rw [hl] at hends
  rw [hw]
  refine ⟨⟨?_, ?_, halign, ?_, ?_, ?_⟩, ?_⟩
  · exact hl ▸ ts.placeFields_map asked (fun _ _ => rfl) fs {}
  · exact fun he => hp he
  · exact hsize ▸ dvd_roundUp
  · intro f hf
    have hle : ts.fieldEnd f ≤ l.2.size.toNat :=
      hr.size ▸ (foldl_max_le.mp (Nat.le_refl _)).2 _ (List.mem_map_of_mem hf)
    exact hle.trans (hsize ▸ le_roundUp hpos)
  · exact hsize ▸ hr.size ▸ roundUp_lt hpos
  · have ha : (l.1.map ts.alignmentOf) = fs.map ts.alignmentOf :=
      hl ▸ ts.placeFields_map ts.alignmentOf (fun _ _ => rfl) fs {}
    show (alignUp _ _).toNat = _
    rw [hsize, hr.size, halign, hends, ha]
    rfl

/-! ## Structs -/

/-- A struct, with or without a base, is laid out correctly whenever its exact size fits in a word. -/
theorem struct_laidOut (ts : TypeTable) {fields : List Field} {base : Option TypeId} {t : TypeInfo}
    (hs : t.shape = .struct (withBase fields base))
    (h : ts.exactSize ts.recorded (withBase fields base) < UInt64.size) :
    ts.LaidOut (withBase fields base) (ts.withLayout t) ∧
      (ts.withLayout t).size.toNat = ts.exactSize ts.recorded (withBase fields base) ∧
      ∀ b ∈ base, (ts.withLayout t).fields.head? =
        some { name := some NameId.super, type := b, offset := 0, place := .absolute 0, inlined := some 1 } := by
  obtain ⟨hl, hz⟩ := laidOut_of_fits hs h
  refine ⟨hl, hz, fun b hb => ?_⟩
  obtain rfl : base = some b := hb
  simp only [withLayout, hs]
  rfl

def pairTypes : TypeTable where
  types := (primitiveKinds.map plainType).toArray.push
    { kind := .struct, shape := .struct [{ name := some 50, type := int32 },
      { name := some 51, type := int32, offset := 4 }],
      alignment := 4 }
  interned := ∅
  closed := ∅
  closedConst := ∅

def spreadFields : List Field :=
  [{ name := some 52, type := int8 },
    { name := some 53, type := 9, inlined := some 3 },
    { name := some 54, type := int64, place := .relative 5 },
    { name := some 55, type := int8, place := .absolute 1 },
    { name := some 56, type := int64 }]

theorem struct_laidOut_spread :
    pairTypes.exactSize pairTypes.recorded (withBase spreadFields (some 9)) < UInt64.size ∧
      (pairTypes.withLayout
        { kind := .struct, shape := .struct (withBase spreadFields (some 9)) }).fields.map Field.offset =
          [0, 8, 12, 41, 1, 56] ∧
      pairTypes.LaidOut (withBase spreadFields (some 9))
        (pairTypes.withLayout { kind := .struct, shape := .struct (withBase spreadFields (some 9)) }) :=
  have hfits : pairTypes.exactSize pairTypes.recorded (withBase spreadFields (some 9)) <
    UInt64.size := by decide +kernel
  ⟨hfits, by decide +kernel, (pairTypes.struct_laidOut rfl hfits).1⟩

end

end TypeTable

end LevelScript
