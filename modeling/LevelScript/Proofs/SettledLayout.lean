import LevelScript.Proofs.ExactLayout
import LevelScript.Proofs.InlineNesting
import LevelScript.Proofs.TypeSizes

/-!
# Layouts that are settled

The layout of a struct is computed from the sizes of the structs inside it as they are then. While a cycle of
types is being closed, these can be the sizes of copies that are still being made. The copy that was asked for is
settled at the end nevertheless: what lies inside it has been finished before it, since it does not lie inside
itself. Of a copy that was made on the way this need not hold.
-/

namespace LevelScript

def Field.Once (f : Field) : Prop := f.inlined.isSome = true → f.name = none → f.inlined = some 1

instance (f : Field) : Decidable f.Once :=
  inferInstanceAs (Decidable (f.inlined.isSome = true → f.name = none → f.inlined = some 1))

namespace TypeTable

open Relation

/-- A type has the layout that its fields ask for. -/
structure Firm (ts : TypeTable) (id : TypeId) : Prop where
  laid : ts.withLayout (ts.get id) = ts.get id
  once {f : Field} : f ∈ (ts.get id).fields → f.Once

/-- So has every struct inside. -/
def Settled (ts : TypeTable) (id : TypeId) : Prop := ∀ c, ReflTransGen ts.Inside c id → ts.Firm c

/-- The type is settled if what lies inside it ends. -/
def Solid (ts : TypeTable) (id : TypeId) : Prop := Acc ts.Inside id → ts.Settled id

section
variable {ts ts' : TypeTable} {id c : TypeId} {t : TypeInfo}

/-! ## What a layout depends on -/

theorem placeFields_measures {fs : List Field}
    (h : ∀ f ∈ fs, ts.fieldExtent f = ts'.fieldExtent f ∧ ts.fieldAlignment f = ts'.fieldAlignment f) :
    ∀ s, ts.placeFields s fs = ts'.placeFields s fs := by
  induction fs with
  | nil => exact fun _ => rfl
  | cons f fs ih =>
    intro s
    rw [List.forall_mem_cons] at h
    have hf : ts.placeField s f = ts'.placeField s f := by
      have hext (offset : UInt64) : ts.fieldExtent { f with offset } = ts'.fieldExtent { f with offset } := h.1.1
      simp only [placeField, h.1.2, hext]
    simp only [placeFields, hf, ih h.2]

theorem withLayout_measures
    (h : ∀ f ∈ t.fields, ts.fieldExtent f = ts'.fieldExtent f ∧ ts.fieldAlignment f = ts'.fieldAlignment f) :
    ts.withLayout t = ts'.withLayout t := by
  unfold withLayout
  split
  case h_1 fields hs =>
    have hf : t.fields = fields := by rw [TypeInfo.fields, hs]
    rw [placeFields_measures (hf ▸ h)]
  case h_2 => rfl

theorem withLayout_plain (h : ∀ fields, t.shape ≠ .struct fields) : ts.withLayout t = t := by
  unfold withLayout
  split
  case h_1 fields hs => exact absurd hs (h fields)
  case h_2 => rfl

theorem withLayout_deferred {name : NameId} (h : (ts.withLayout t).shape = .deferred name) :
    t.shape = .deferred name := by
  obtain hs | hs := t.struct_or_plain
  · rw [withLayout, hs] at h
    cases h
  · rwa [withLayout_plain hs] at h

theorem mem_withLayout {f : Field} (h : f ∈ (ts.withLayout t).fields) :
    ∃ g ∈ t.fields, f = { g with offset := f.offset } := by
  unfold withLayout at h
  split at h
  case h_1 fields hs =>
    have hf : t.fields = fields := by rw [TypeInfo.fields, hs]
    have hm := ts.placeFields_map asked (fun _ _ => rfl) fields {}
    obtain ⟨g, hg, he⟩ := List.mem_map.mp (hm ▸ List.mem_map_of_mem (f := asked) h)
    refine ⟨g, hf ▸ hg, ?_⟩
    exact (congrArg (fun g : Field => { g with offset := f.offset }) he).symm
  case h_2 => exact ⟨f, h, rfl⟩

/-! ## Inside -/

theorem solid_of_inline (hf : Acc ts.Inside id → ts.Firm id)
    (hi : ∀ f ∈ (ts.get id).fields, f.inlined.isSome = true → ts.Solid f.type) : ts.Solid id := by
  intro hacc c hc
  obtain rfl | ⟨d, hc, hin⟩ := ReflTransGen.cases_tail hc
  · exact hf hacc
  · have hd := hacc.inv hin
    obtain ⟨-, f, hf, hfi, rfl⟩ := hin
    exact hi f hf hfi hd c hc

theorem solid_plain (h : ∀ fields, (ts.get id).shape ≠ .struct fields) : ts.Solid id := by
  have hf := TypeInfo.fields_plain h
  refine solid_of_inline (fun _ => ⟨withLayout_plain h, fun hm => ?_⟩) fun f hm => ?_
  all_goals
    rw [hf] at hm
    cases hm

theorem Inside.lt (h : ts.Sane) (hi : ts.Inside c id) : c < ts.size := by
  obtain ⟨-, f, hf, -, rfl⟩ := hi
  exact h.field_lt hf

def Extends (ts' ts : TypeTable) : Prop := ∀ id < ts.size, ts'.get id = ts.get id

theorem Grows.extends (h : ts.Grows ts') : ts'.Extends ts := fun _ => h.get

theorem Extends.inside (h : ts'.Extends ts) (hid : id < ts.size) : ts'.Inside c id ↔ ts.Inside c id := by
  rw [Inside, Inside, kind, kind, h id hid]

theorem Extends.within (he : ts'.Extends ts) (h : ts.Sane) (hid : id < ts.size)
    (hc : ReflTransGen ts'.Inside c id) :
    ReflTransGen ts.Inside c id ∧ c < ts.size := by
  induction hc using ReflTransGen.head_induction_on with
  | refl => exact ⟨.refl, hid⟩
  | head hin _ ih =>
    have hin := (he.inside ih.2).mp hin
    exact ⟨ih.1.head hin, hin.lt h⟩

theorem Extends.acc (he : ts'.Extends ts) (h : ts.Sane) (hacc : Acc ts'.Inside id) (hid : id < ts.size) :
    Acc ts.Inside id := by
  induction hacc with
  | intro id _ ih => exact ⟨id, fun c hc => ih c ((he.inside hid).mpr hc) (hc.lt h)⟩

theorem Extends.firm (he : ts'.Extends ts) (h : ts.Sane) (hid : id < ts.size) (hf : ts.Firm id) : ts'.Firm id := by
  refine ⟨?_, fun hm => hf.once (he id hid ▸ hm)⟩
  rw [he id hid, ← withLayout_congr fun s c hs => (he c (h.next_lt (lookup_of_lt hid) hs)).symm]
  exact hf.laid

theorem Solid.extends (hs : ts.Solid id) (h : ts.Sane) (he : ts'.Extends ts) (hid : id < ts.size) :
    ts'.Solid id := by
  intro hacc c hc
  obtain ⟨hc, hlt⟩ := he.within h hid hc
  exact he.firm h hlt (hs (he.acc h hacc hid) c hc)

/-! ## Open types -/

def Rests (ts : TypeTable) (shape : TypeShape) : Prop :=
  ∀ fields, shape = .struct fields → ∀ f ∈ fields, f.Once ∧ (f.inlined.isSome = true → ts.Solid f.type)

/-- All open types rest on solid types. -/
def Founded (ts : TypeTable) : Prop := ∀ (id : TypeId) (t : TypeInfo), ts.types[id]? = some t →
    t.flags.closed = false → ts.Rests t.shape

theorem rests_plain {shape : TypeShape} (h : ∀ fields, shape ≠ .struct fields) : ts.Rests shape :=
  fun fields hs => absurd hs (h fields)

theorem Rests.field {f : Field} (h : ts.Rests t.shape) (hf : f ∈ t.fields) :
    f.Once ∧ (f.inlined.isSome = true → ts.Solid f.type) := h _ (TypeInfo.shape_of_field hf) f hf

theorem Rests.withLayout (h : ts.Rests t.shape) : ts.Rests (ts'.withLayout t).shape := by
  intro fields hs f hf
  have hm : f ∈ (ts'.withLayout t).fields := by
    rw [TypeInfo.fields, hs]
    exact hf
  obtain ⟨g, hg, he⟩ := mem_withLayout hm
  have hg := h.field hg
  rw [he]
  exact hg

theorem Rests.extends {shape : TypeShape} (hr : ts.Rests shape) (h : ts.Sane) (he : ts'.Extends ts)
    (hn : ∀ s c, shape.next? s = some c → c < ts.size) : ts'.Rests shape := by
  rintro fields rfl f hf
  obtain ⟨s, hs⟩ := TypeShape.next?_field hf
  exact (hr fields rfl f hf).imp_right fun hi hin => (hi hin).extends h he (hn s _ hs)

theorem solid_of_open (hl : ts.Laid) (hf : ts.Founded) (ho : (ts.get id).flags.closed = false) : ts.Solid id := by
  cases ht : ts.types[id]? with
  | none =>
    have hget : ts.get id = default := by rw [get, ht]; rfl
    refine solid_plain fun fields hs => ?_
    rw [hget] at hs
    cases hs
  | some t =>
    have hr : ts.Rests (ts.get id).shape := by
      rw [get_eq ht] at ho ⊢
      exact hf id t ht ho
    refine solid_of_inline (fun _ => ⟨?_, fun hm => (hr.field hm).1⟩) fun f hm => (hr.field hm).2
    rw [get_eq ht] at ho ⊢
    exact hl id t ht ho

theorem Founded.adds (hf : ts.Founded) (h : ts.Sane) (h' : ts'.Sane) (hg : ts.Grows ts')
    (hi : ts'.interned = ts.interned) :
    ts'.Founded := by
  intro id u hu ho
  -- an open type is found by its hash, which has led to it before
  have hl := h'.listed hu ho
  rw [hi] at hl
  obtain ⟨v, hv, -, hvo⟩ := h.found hl
  cases Option.some.inj (hu.symm.trans (hg _ _ hv))
  exact (hf id u hv hvo).extends h hg.extends fun s c => h.next_lt hv

theorem Founded.register (hf : ts.Founded) (h : ts.Sane) (hn : ∀ s c, t.shape.next? s = some c → c < ts.size)
    (hr : ts.Rests t.shape) (ha : ts.Answers t (ts.register t)) : (ts.register t).2.Founded := by
  intro id u hu ho
  have he := ha.adds.grows.extends
  obtain hu | rfl := ha.joins hu
  · exact (hf id u hu ho).extends h he fun s c => h.next_lt hu
  · exact hr.extends h he hn

end

/-! ## Resolving -/

section
variable {α β : Type} {lookup : Lookup} {ts ts' : TypeTable} {P : α → TypeTable → Prop}
  {Q : β → TypeTable → Prop} {r : Walked α}
  {id c : TypeId}

def Refers (ts : TypeTable) (name : NameId) : Prop := ∃ id, (ts.get id).shape = .deferred name

theorem Refers.grows {name : NameId} (h : ts.Refers name) (hg : ts.Grows ts') : ts'.Refers name := by
  obtain ⟨id, hs⟩ := h
  have hid : id < ts.size := by
    refine Nat.lt_of_not_le fun hle => ?_
    rw [get, Array.getElem?_eq_none hle] at hs
    cases hs
  exact ⟨id, hg.get hid ▸ hs⟩

/-- Open types of the table rest on solid types, and the names in it lead to such types. -/
structure Grounded (lookup : Lookup) (ts : TypeTable) : Prop where
  sane : ts.Sane
  laid : ts.Laid
  founded : ts.Founded
  names {name : NameId} {target : TypeId} : ts.Refers name → lookup name = .type target →
      target < ts.size ∧ ts.Solid target

structure Founds (ts : TypeTable) (r : Walked α) (P : α → TypeTable → Prop) : Prop where
  adds : ts.Adds r.2
  founded : r.2.Founded
  refers {name : NameId} : r.2.Refers name → ts.Refers name
  result {a : α} : r.1 = .ok a → P a r.2

theorem Grounded.next (h : Grounded lookup ts) (hr : Founds ts r P) : Grounded lookup r.2 where
  sane := hr.adds.sane
  laid := hr.adds.laid h.laid
  founded := hr.founded
  names hn ht := by
    obtain ⟨hlt, hs⟩ := h.names (hr.refers hn) ht
    exact ⟨hr.adds.grows.lt hlt, hs.extends h.sane hr.adds.grows.extends hlt⟩

theorem Founds.ok {a : α} (h : Grounded lookup ts) (ha : P a ts) : Founds ts (.ok a, ts) P :=
  ⟨.refl h.sane, h.founded, fun hn => hn, fun he => Except.ok.inj he ▸ ha⟩

theorem Founds.mono {P' : α → TypeTable → Prop} (h : Founds ts r P) (hp : ∀ a ts', P a ts' → P' a ts') :
    Founds ts r P' :=
  ⟨h.adds, h.founded, h.refers, fun he => hp _ _ (h.result he)⟩

theorem Founds.andThen {f : α → TypeTable → Walked β} (h : Grounded lookup ts) (hr : Founds ts r P)
    (hf : ∀ a ts₁, ts.Grows ts₁ → Grounded lookup ts₁ → P a ts₁ → Founds ts₁ (f a ts₁) Q) :
    Founds ts (andThen r f) Q := by
  have hn := h.next hr
  obtain ⟨_ | a, ts₁⟩ := r
  · exact ⟨hr.adds, hr.founded, hr.refers, nofun⟩
  · obtain ⟨ha, hfound, hrefers, hq⟩ := hf a ts₁ hr.adds.grows hn (hr.result rfl)
    exact ⟨hr.adds.trans ha, hfound, fun hn => hr.refers (hrefers hn), hq⟩

def Settling (c : TypeId) (ts : TypeTable) : Prop := c < ts.size ∧ ts.Solid c

/-- What a type becomes is solid if the type is. -/
def Passes (ts : TypeTable) (c c' : TypeId) (ts' : TypeTable) : Prop := c' < ts'.size ∧ (ts.Solid c → ts'.Solid c')

theorem Passes.after (h : ts'.Passes c id ts'') (hs : ts.Sane) (hg : ts.Grows ts') (hc : c < ts.size) :
    ts.Passes c id ts'' :=
  h.imp_right fun hi hsc => hi (hsc.extends hs hg.extends hc)

theorem Passes.before (h : ts.Passes c id ts') (hs : ts'.Sane) (hg : ts'.Grows ts'') : ts.Passes c id ts'' :=
  ⟨hg.lt h.1, fun hsc => (h.2 hsc).extends hs hg.extends h.1⟩

theorem register_founds {t : TypeInfo} (h : Grounded lookup ts) (ho : t.flags.closed = false)
    (hn : ∀ s c, t.shape.next? s = some c → c < ts.size) (hl : ts.Laid → ts.withLayout t = t)
    (hr : ts.Rests t.shape)
    (hd : ∀ name, t.shape = .deferred name → ts.Refers name) : Founds ts (answered (ts.register t)) Settling := by
  have ha := h.sane.register ho hn hl
  have hf := h.founded.register h.sane hn hr ha
  refine ⟨ha.adds, hf, fun {name} ⟨id, hs⟩ => ?_, fun he => ?_⟩
  · cases hu : (ts.register t).2.types[id]? with
    | none =>
      rw [answered, get, hu] at hs
      cases hs
    | some u =>
      rw [show (answered (ts.register t)).2.get id = u from get_eq hu] at hs
      obtain hu | rfl := ha.joins hu
      · exact ⟨id, get_eq hu ▸ hs⟩
      · exact hd name hs
  · cases he
    obtain ⟨u, hu, -, huo⟩ := ha.entry
    rw [← get_eq hu] at huo
    exact ⟨lt_of_lookup hu, solid_of_open (ha.adds.laid h.laid) hf huo⟩

theorem parentRef_founds (h : Grounded lookup ts) (depth : Nat) :
    Founds ts (answered (ts.parentRef depth)) Settling :=
  register_founds h rfl (fun s c hs => by cases s <;> cases hs) (fun _ => rfl) (rests_plain nofun) nofun

theorem orMarker_founds (h : Grounded lookup ts) (ancestors : List TypeId) (hs : Settling id ts) :
    Founds ts (orMarker ancestors id ts) Settling := by
  unfold orMarker
  split
  · exact .ok h hs
  · exact parentRef_founds h _

theorem followDefers_settling (h : Grounded lookup ts) :
    ∀ (n : Nat) (visited : List TypeId) {id target : TypeId}, Settling id ts →
    ts.followDefers lookup n visited id = .ok target → Settling target ts
  | 0, _, _, _, hid, he => Except.ok.inj he ▸ hid
  | n + 1, visited, id, target, hid, he => by
    unfold followDefers at he
    split at he
    case h_1 name hname =>
      split at he
      · cases he
      · split at he
        · cases he
        · cases he
        case h_3 next ht => exact followDefers_settling h n _ (h.names ⟨id, hname⟩ ht) he
    · exact Except.ok.inj he ▸ hid

theorem resolveAll_founds {resolve : TypeId → Resolver TypeId} {get : α → TypeId} {set : α → TypeId → α}
    (hr : ∀ c ts, Grounded lookup ts → c < ts.size → Founds ts (resolve c ts) (ts.Passes c))
    (hg : ∀ a c, get (set a c) = c) :
    ∀ (as : List α) (ts : TypeTable), Grounded lookup ts → (∀ a ∈ as, get a < ts.size) →
      Founds ts (resolveAll resolve get set as ts) fun as' ts' =>
        ∀ a' ∈ as', ∃ a ∈ as, a' = set a (get a') ∧ ts.Passes (get a) (get a') ts'
  | [], ts, h, _ => .ok h nofun
  | a :: as, ts, h, ha => by
    rw [List.forall_mem_cons] at ha
    rw [resolveAll_cons]
    refine .andThen h (hr _ ts h ha.1) fun id ts₁ hg₁ h₁ hid => ?_
    refine .andThen h₁ (resolveAll_founds hr hg as ts₁ h₁ fun b hb => hg₁.lt (ha.2 b hb))
      fun as' ts₂ hg₂ h₂ has => .ok h₂ ?_
    rw [List.forall_mem_cons]
    refine ⟨⟨a, List.mem_cons_self .., by rw [hg], ?_⟩, fun b hb => ?_⟩
    · rw [hg]
      exact hid.before h₁.sane hg₂
    · obtain ⟨b', hb', he, hp⟩ := has b hb
      exact ⟨b', List.mem_cons_of_mem _ hb', he, hp.after h.sane hg₁ (ha.2 b' hb')⟩

theorem resolveBelow_founds {resolve : TypeId → Resolver TypeId}
    (hr : ∀ c ts, Grounded lookup ts → c < ts.size → Founds ts (resolve c ts) (ts.Passes c))
    (h : Grounded lookup ts) {shape : TypeShape}
    (hc : ∀ s c, shape.next? s = some c → c < ts.size) (hrest : ts.Rests shape) :
    Founds ts (resolveBelow resolve shape ts) fun shape' ts' =>
      (∀ s c, shape'.next? s = some c → c < ts'.size) ∧ ts'.Rests shape' ∧
      ∀ name, shape' = .deferred name → shape = .deferred name := by
  cases shape with
  | plain | deferred | parent => exact .ok h ⟨hc, hrest, fun _ he => he⟩
  | pointer base =>
    refine .andThen h (hr base ts h (hc .pointee base rfl)) fun base ts₁ _ h₁ hb =>
      .ok h₁ ⟨fun s c hn => ?_, rests_plain nofun, nofun⟩
    cases s <;> cases hn
    exact hb.1
  | function result params =>
    have hp (p : Param) (hp : p ∈ params) : p.type < ts.size := by
      obtain ⟨s, hn⟩ := TypeShape.next?_param result hp
      exact hc s _ hn
    refine .andThen h (hr result ts h (hc .result result rfl)) fun result ts₁ hg₁ h₁ hres => ?_
    refine .andThen h₁ (resolveAll_founds hr (fun _ _ => rfl) params ts₁ h₁ fun p hm => hg₁.lt (hp p hm))
      fun params ts₂ hg₂ h₂ hps => .ok h₂ ⟨fun s c hn => ?_, rests_plain nofun, nofun⟩
    obtain rfl | ⟨p, hp, rfl⟩ := TypeShape.next?_function hn
    · exact hg₂.lt hres.1
    · obtain ⟨_, _, _, hpass⟩ := hps p hp
      exact hpass.1
  | struct fields =>
    have hf (f : Field) (hf : f ∈ fields) : f.type < ts.size := by
      obtain ⟨s, hn⟩ := TypeShape.next?_field hf
      exact hc s _ hn
    refine .andThen h (resolveAll_founds hr (fun _ _ => rfl) fields ts h hf) fun fields' ts₁ _ h₁ hfs =>
      .ok h₁ ⟨fun s c hn => ?_, ?_, nofun⟩
    · obtain ⟨f, hf, rfl⟩ := TypeShape.next?_struct hn
      obtain ⟨_, _, _, hpass⟩ := hfs f hf
      exact hpass.1
    · rintro _ ⟨⟩ f' hf'
      obtain ⟨f, hf, he, -, hp⟩ := hfs f' hf'
      obtain ⟨honce, hi⟩ := hrest fields rfl f hf
      rw [he]
      exact ⟨honce, fun hin => hp (hi hin)⟩

theorem resolveInner_founds :
    ∀ (n : Nat) (ancestors : List TypeId) (id : TypeId) (ts : TypeTable), Grounded lookup ts → id < ts.size →
    Founds ts (resolveInner lookup n ancestors id ts) (ts.Passes id)
  | 0, _, _, _, h, hid => .ok h ⟨hid, fun hs => hs⟩
  | n + 1, ancestors, id, ts, h, hid => by
    have hpass : ∀ c ts', Settling c ts' → ts.Passes id c ts' := fun _ _ hs => ⟨hs.1, fun _ => hs.2⟩
    refine resolveInner_cases (C := (Founds ts · (ts.Passes id))) (fun k _ => (parentRef_founds h _).mono hpass)
      (fun _ _ => .ok h ⟨hid, fun hs => hs⟩) (fun _ _ _ _ => .ok h ⟨hid, fun hs => hs⟩)
      (fun name _ ho _ => ?named) fun _ ho _ => ?composed
    case named =>
      have hsettling : Settling id ts := ⟨hid, solid_of_open h.laid h.founded ho⟩
      refine .andThen (P := Settling) h
        ⟨.refl h.sane, h.founded, fun hn => hn, followDefers_settling h _ _ hsettling⟩ fun target ts₁ _ h₁ ht => ?_
      refine .andThen h₁ (resolveInner_founds n ancestors target ts₁ h₁ ht.1) fun found ts₂ _ h₂ hf => ?_
      exact (orMarker_founds h₂ ancestors ⟨hf.1, hf.2 ht.2⟩).mono hpass
    case composed =>
      have ht := lookup_of_lt hid
      have hbelow := resolveBelow_founds (fun c ts h hc => resolveInner_founds n (id :: ancestors) c ts h hc) h
        (fun s c => h.sane.next_lt ht) (h.founded id _ ht ho)
      refine .andThen h hbelow fun shape ts₁ hg₁ h₁ ⟨hnext, hrests, hsame⟩ => ?_
      refine (register_founds h₁ ?_ (fun s c hn => ?_) (fun _ => withLayout_withLayout _) hrests.withLayout
        fun name hd => ?_).mono hpass
      · rw [withLayout_flags]
        exact ho
      · rw [withLayout_next?] at hn
        exact hnext s c hn
      · exact Refers.grows ⟨id, hsame name (withLayout_deferred hd)⟩ hg₁

end

/-! ## Closing -/

section
variable {α : Type} {base ts ts' T : TypeTable} {stack : List TypeId} {id c : TypeId} {t : TypeInfo}

/-- Copies of open types of the table `base` are being made; those that have not been finished, which are structs,
are on the stack. -/
structure Under (base : TypeTable) (stack : List TypeId) (ts : TypeTable) : Prop where
  sane : ts.Sane
  grows : base.Grows ts
  stack {e : TypeId} : e ∈ stack → base.size ≤ e ∧ ts.IsClosed e ∧ ts.kind e = .struct

theorem replaced_size (ts : TypeTable) (id : TypeId) (t : TypeInfo) : (ts.replaced id t).size = ts.size :=
  Array.size_setIfInBounds

/-- At the end, all that is in the table is in `T`, but for the copies on the stack; they are structs. -/
structure Finishes (stack : List TypeId) (ts T : TypeTable) : Prop where
  same {c : TypeId} : c < ts.size → c ∉ stack → T.get c = ts.get c
  structs {e : TypeId} : e ∈ stack → T.kind e = .struct

theorem Under.grown (h : base.Under stack ts) (hs : ts'.Sane) (hg : ts.Grows ts') : base.Under stack ts' := by
  refine ⟨hs, h.grows.trans hg, fun he => ?_⟩
  obtain ⟨hle, ⟨u, hu, hc⟩, hk⟩ := h.stack he
  refine ⟨hle, ⟨u, hg _ _ hu, hc⟩, ?_⟩
  rw [kind, hg.get (lt_of_lookup hu)]
  exact hk

theorem Under.push (h : base.Under stack ts) (hn : ∀ s c, t.shape.next? s = some c → c < ts.size)
    (hk : t.kind = .struct) :
    base.Under (ts.size :: stack) (ts.pushed (closedCopy t)) := by
  have hlast := ts.pushed_last (closedCopy t)
  have hg := h.grown (h.sane.pushed (t := closedCopy t) rfl rfl hn) (ts.pushed_grows (closedCopy t))
  refine ⟨hg.sane, hg.grows, fun he => ?_⟩
  obtain rfl | he := List.mem_cons.mp he
  · exact ⟨h.grows.size_le, ⟨_, hlast, rfl⟩, by rw [kind, get_eq hlast]; exact hk⟩
  · exact hg.stack he

theorem Finishes.mono (h : Finishes stack ts' T) (hg : ts.Grows ts') : Finishes stack ts T :=
  ⟨fun hc hout => (h.same (hg.lt hc) hout).trans (hg.get hc), h.structs⟩

theorem Finishes.extends (h : Finishes stack ts T) (hu : base.Under stack ts) : T.Extends base := fun id hid => by
  have hout : id ∉ stack := fun hm => Nat.not_le_of_lt hid (hu.stack hm).1
  exact (h.same (hu.grows.lt hid) hout).trans (hu.grows.get hid)

theorem close_under (n : Nat) (h : base.Under stack ts) (hc : c < ts.size) :
    base.Under stack (close n stack c ts).2 ∧ ts.Grows (close n stack c ts).2 ∧
    (close n stack c ts).1 < (close n stack c ts).2.size := by
  have hcopy := close_adds n stack c ts h.sane hc fun _ he => (h.stack he).2.1
  have hg := hcopy.adds.grows
  refine ⟨h.grown hcopy.adds.sane hg, hg, ?_⟩
  obtain he | ⟨u, hu, -⟩ := hcopy.result
  · rw [he]
    exact hg.lt hc
  · exact lt_of_lookup hu

theorem closeAll_fields (n : Nat) : ∀ (fields : List Field) (ts : TypeTable), base.Under stack ts →
    (∀ f ∈ fields, f.type < ts.size) →
    let p := closeAll (close n stack) Field.type setFieldType fields ts
    base.Under stack p.2 ∧ ∀ f' ∈ p.1, f'.type < p.2.size ∧ ∃ f ∈ fields, ∃ ts₁, base.Under stack ts₁ ∧
      f' = setFieldType f (close n stack f.type ts₁).1 ∧ (close n stack f.type ts₁).2.Grows p.2
  | [], ts, h, _ => ⟨h, nofun⟩
  | f :: fs, ts, h, hf => by
    rw [List.forall_mem_cons] at hf
    obtain ⟨h₁, hg, hlt⟩ := close_under n h hf.1
    obtain ⟨h₂, hm⟩ := closeAll_fields n fs _ h₁ fun g hg' => hg.lt (hf.2 g hg')
    have hg₂ : (close n stack f.type ts).2.Grows
        (closeAll (close n stack) Field.type setFieldType fs (close n stack f.type ts).2).2 :=
      closeAll_grows (close_grows n stack) _ _ _ _
    refine ⟨h₂, ?_⟩
    show ∀ f' ∈ setFieldType f (close n stack f.type ts).1 :: _, _
    rw [List.forall_mem_cons]
    refine ⟨⟨hg₂.lt hlt, f, List.mem_cons_self .., ts, h, rfl, hg₂⟩, fun g hg' => ?_⟩
    obtain ⟨hlt', f', hf', rest⟩ := hm g hg'
    exact ⟨hlt', f', List.mem_cons_of_mem _ hf', rest⟩

theorem measures_of_kind {f : Field} (hi : f.inlined = none) (hk : ts.kind f.type = ts'.kind f.type) :
    ts.fieldExtent f = ts'.fieldExtent f ∧ ts.fieldAlignment f = ts'.fieldAlignment f := by
  have hv : (ts.get f.type).valueSize = (ts'.get f.type).valueSize := congrArg Kind.valueSize hk
  simp only [fieldExtent, fieldAlignment, hi, hv, and_self]

theorem measures_of_get {f : Field} (h : ts.get f.type = ts'.get f.type) :
    ts.fieldExtent f = ts'.fieldExtent f ∧ ts.fieldAlignment f = ts'.fieldAlignment f := by
  simp only [fieldExtent, fieldAlignment, h, and_self]

/-- A struct that has been finished is settled if none of those around it lies inside. -/
theorem finished_solid {fields : List Field} {new : TypeId} (hu : base.Under (new :: stack) ts)
    (hnew : new ∉ stack) (hshape : t.shape = .struct fields) (hk : t.kind = .struct)
    (hlt : ∀ f ∈ fields, f.type < ts.size)
    (hf : Finishes stack (ts.replaced new (ts.withLayout t)) T) (hout : ∀ e ∈ stack, ¬ReflTransGen T.Inside e new)
    (honce : ∀ f ∈ fields, f.Once)
    (hin : ∀ f ∈ fields, f.inlined.isSome = true → Finishes (new :: stack) ts T →
      (∀ e ∈ new :: stack, ¬ReflTransGen T.Inside e f.type) → T.Solid f.type) : T.Solid new := by
  intro hacc
  obtain ⟨-, ⟨v, hv, -⟩, -⟩ := hu.stack (List.mem_cons_self ..)
  have hget : T.get new = ts.withLayout t := by
    refine (hf.same ?_ hnew).trans (get_eq (replaced_same _ (lt_of_lookup hv)))
    exact lt_of_lookup (replaced_same _ (lt_of_lookup hv))
  have hkind : T.kind new = .struct := by rw [kind, hget, withLayout_kind, hk]
  have hfinish : Finishes (new :: stack) ts T := by
    refine ⟨fun {c} hc hn => ?_, fun {e} he => ?_⟩
    · rw [List.mem_cons, not_or] at hn
      have hold : (ts.replaced new (ts.withLayout t)).types[c]? = ts.types[c]? := replaced_other _ (Ne.symm hn.1)
      have hsame := (hold.trans (lookup_of_lt hc))
      exact (hf.same (lt_of_lookup hsame) hn.2).trans (get_eq hsame)
    · obtain rfl | he := List.mem_cons.mp he
      · exact hkind
      · exact hf.structs he
  have hfields : (T.get new).fields = (ts.withLayout t).fields := congrArg TypeInfo.fields hget
  have hof {f : Field} (hm : f ∈ (T.get new).fields) : ∃ g ∈ fields, f = { g with offset := f.offset } := by
    obtain ⟨g, hg, he⟩ := mem_withLayout (hfields ▸ hm)
    rw [TypeInfo.fields, hshape] at hg
    exact ⟨g, hg, he⟩
  -- neither the struct itself nor one around it lies inside a field
  have hapart {f : Field} (hm : f ∈ (T.get new).fields) (hi : f.inlined.isSome = true) :
      ∀ e ∈ new :: stack, ¬ReflTransGen T.Inside e f.type := by
    have hinside : T.Inside f.type new := ⟨hkind, f, hm, hi, rfl⟩
    intro e he hc
    obtain rfl | he := List.mem_cons.mp he
    · exact not_inside_itself hacc (.tail' hc hinside)
    · exact hout e he (hc.tail hinside)
  refine solid_of_inline (fun _ => ⟨?_, fun {f} hm => ?_⟩) (fun f hm hi => ?_) hacc
  -- the layout is that of the table `ts`: what lies inside has been finished there, and of the rest only the
  -- kind counts
  · rw [hget]
    conv_rhs => rw [← withLayout_withLayout]
    refine (withLayout_measures fun f hm => ?_).symm
    rw [← hfields] at hm
    obtain ⟨g, hg, he⟩ := hof hm
    have hc : f.type < ts.size := he ▸ hlt g hg
    by_cases hstack : f.type ∈ new :: stack
    · cases hi : f.inlined with
      | none => exact measures_of_kind hi ((hu.stack hstack).2.2.trans (hfinish.structs hstack).symm)
      | some count => exact absurd .refl (hapart hm (by rw [hi]; rfl) _ hstack)
    · exact measures_of_get (hfinish.same hc hstack).symm
  · obtain ⟨g, hg, he⟩ := hof hm
    exact he ▸ honce g hg
  · have ha := hapart hm hi
    obtain ⟨g, hg, he⟩ := hof hm
    rw [he] at hi ha ⊢
    exact hin g hg hi hfinish ha

/-- A reference to a struct that is being copied is not closed to that struct if it does not lie inside. -/
theorem close_marker_solid {n depth : Nat} (hp : (ts.get id).containsParent = true)
    (hm : (ts.get id).shape = .parent depth)
    (hsolid : T.Solid id) (hout : ∀ e ∈ stack, ¬ReflTransGen T.Inside e (close (n + 1) stack id ts).1) :
    T.Solid (close (n + 1) stack id ts).1 := by
  rw [close_marker hp hm] at hout ⊢
  dsimp only at hout ⊢
  split
  case isTrue => exact hsolid
  case isFalse h0 =>
    rw [if_neg h0] at hout
    cases hk : stack[depth - 1]? with
    | none => exact hsolid
    | some e =>
      rw [hk] at hout
      exact absurd .refl (hout e (List.mem_of_getElem? hk))

theorem Under.fresh (h : base.Under stack ts) : ts.size ∉ stack := fun hm => by
  obtain ⟨-, ⟨u, hu, -⟩, -⟩ := h.stack hm
  exact Nat.lt_irrefl _ (lt_of_lookup hu)

theorem close_plain_solid {n : Nat} (hu : base.Under stack ts) (hid : id < ts.size)
    (hp : (ts.get id).containsParent = true)
    (hm : ∀ depth, (ts.get id).shape ≠ .parent depth) (hshape : ∀ fields, (ts.get id).shape ≠ .struct fields)
    (hfin : Finishes stack (close (n + 1) stack id ts).2 T) : T.Solid (close (n + 1) stack id ts).1 := by
  have hlast := (close_under (n + 1) hu hid).2.2
  rw [close_copy hp hm] at hfin hlast ⊢
  dsimp only at hfin hlast ⊢
  have hplain : ∀ fields,
      (closeBelow (close n (ts.size :: stack)) (ts.get id).shape (ts.pushed (closedCopy (ts.get id)))).1 ≠
          .struct fields := by
    cases hsh : (ts.get id).shape with
    | struct fields => exact absurd hsh (hshape fields)
    | _ => nofun
  generalize closeBelow (close n (ts.size :: stack)) (ts.get id).shape
    (ts.pushed (closedCopy (ts.get id))) = p at hfin hlast hplain
  have hlt : ts.size < p.2.size := by rwa [replaced_size] at hlast
  have hentry := (hfin.same hlast hu.fresh).trans (get_eq (replaced_same _ hlt))
  rw [withLayout_plain hplain] at hentry
  exact solid_plain (hentry ▸ hplain)

theorem close_struct_solid {n : Nat} (hu : base.Under stack ts) (hp : (ts.get id).containsParent = true)
    (hk : (ts.get id).kind = .struct) {fields : List Field} (hshape : (ts.get id).shape = .struct fields)
    (hlt : ∀ s c, (ts.get id).shape.next? s = some c → c < ts.size) (honce : ∀ f ∈ fields, f.Once)
    (hin : ∀ f ∈ fields, f.inlined.isSome = true → ∀ ts₁, base.Under (ts.size :: stack) ts₁ →
      Finishes (ts.size :: stack) (close n (ts.size :: stack) f.type ts₁).2 T →
      (∀ e ∈ ts.size :: stack, ¬ReflTransGen T.Inside e (close n (ts.size :: stack) f.type ts₁).1) →
      T.Solid (close n (ts.size :: stack) f.type ts₁).1)
    (hfin : Finishes stack (close (n + 1) stack id ts).2 T)
    (hout : ∀ e ∈ stack, ¬ReflTransGen T.Inside e (close (n + 1) stack id ts).1) :
    T.Solid (close (n + 1) stack id ts).1 := by
  rw [close_copy hp fun depth hd => by rw [hshape] at hd; cases hd] at hfin hout ⊢
  dsimp only at hfin hout ⊢
  have hpush := hu.push hlt hk
  obtain ⟨hall, hmade⟩ := closeAll_fields n fields _ hpush fun f hm => by
    obtain ⟨s, hs⟩ := TypeShape.next?_field hm
    exact (ts.pushed_grows _).lt (hlt s _ (hshape ▸ hs))
  simp only [hshape, closeBelow] at hfin
  generalize closeAll (close n (ts.size :: stack)) Field.type setFieldType fields
    (ts.pushed (closedCopy (ts.get id))) = p
    at hall hmade hfin
  refine finished_solid (t := { closedCopy (ts.get id) with shape := .struct p.1 }) hall hu.fresh rfl hk
    (fun f' hf' => (hmade f' hf').1) hfin hout (fun f' hf' => ?_) fun f' hf' hi hfin' hout' => ?_
  all_goals obtain ⟨-, f, hm, ts₁, h₁, rfl, hg₁⟩ := hmade f' hf'
  · exact honce f hm
  · exact hin f hm hi ts₁ h₁ (hfin'.mono hg₁) hout'

variable (hs : base.Sane) (hf : base.Founded) (hr : base.Regular)
include hs hf hr

/-- What closing gives is settled at the end if none of the structs around it lies inside. -/
theorem close_solid :
    ∀ (n : Nat) (stack : List TypeId) (id : TypeId) (ts : TypeTable), base.Under stack ts → id < base.size →
    base.Solid id → ((base.get id).containsParent = true → id < n) → ∀ T, Finishes stack (close n stack id ts).2 T →
    (∀ e ∈ stack, ¬ReflTransGen T.Inside e (close n stack id ts).1) → T.Solid (close n stack id ts).1
  | 0, stack, id, ts, hu, hid, hsid, hn, T, hfin, _ => hsid.extends hs (hfin.extends hu) hid
  | n + 1, stack, id, ts, hu, hid, hsid, hn, T, hfin, hout => by
    have hget : ts.get id = base.get id := hu.grows.get hid
    have hid' : id < ts.size := hu.grows.lt hid
    cases hp : (ts.get id).containsParent with
    | false =>
      rw [close_whole hp] at hfin ⊢
      exact hsid.extends hs (hfin.extends hu) hid
    | true =>
      by_cases hm : ∃ depth, (ts.get id).shape = .parent depth
      · obtain ⟨depth, hm⟩ := hm
        refine close_marker_solid hp hm ?_ hout
        rw [close_marker hp hm] at hfin
        exact hsid.extends hs (hfin.extends hu) hid
      obtain hshape | hplain := (ts.get id).struct_or_plain
      · have hopen := hs.open_of_marked (lookup_of_lt hid) (hget ▸ hp)
        have hk : (ts.get id).kind = .struct := hget ▸ (hr id).kind (by rw [← hget, hshape]; rfl)
        have hrest : base.Rests (ts.get id).shape := hget ▸ hf id _ (lookup_of_lt hid) hopen
        have hnext : ∀ s c, (ts.get id).shape.next? s = some c → c < id ∧ c < base.size := by
          rw [hget]
          exact fun s c hc => ⟨hs.next_open (lookup_of_lt hid) hopen hc, hs.next_lt (lookup_of_lt hid) hc⟩
        refine close_struct_solid hu hp hk hshape (fun s c hc => hu.grows.lt (hnext s c hc).2)
          (fun f hm => (hrest.field hm).1)
          (fun f hm hi ts₁ h₁ => ?_) hfin hout
        obtain ⟨s, hc⟩ := TypeShape.next?_field hm
        obtain ⟨hlt, hlt'⟩ := hnext s _ (hshape ▸ hc)
        have hle : id ≤ n := Nat.le_of_lt_succ (hn (hget ▸ hp))
        exact close_solid n _ f.type ts₁ h₁ hlt' ((hrest.field hm).2 hi) (fun _ => Nat.lt_of_lt_of_le hlt hle) T
      · exact close_plain_solid hu hid' hp (fun depth hd => hm ⟨depth, hd⟩) hplain hfin

end

/-! ## Closed types that were asked for -/

/-- A copy that was asked for, not one that was made on the way, or a constant version of it. -/
inductive Root (ts : TypeTable) : TypeId → Prop
  | copy {o c : TypeId} : ts.closed[o]? = some c → Root ts c
  | constant {b c : TypeId} : Root ts b → ts.closedConst[b]? = some c → Root ts c

/-- If it is a closed struct, it was asked for, or its layout happens to be settled nevertheless. -/
def Whole (ts : TypeTable) (c : TypeId) : Prop := ts.IsClosed c → ts.kind c = .struct → ts.Root c ∨ ts.Settled c

structure Twin (t u : TypeInfo) : Prop where
  kind : u.kind = t.kind
  shape : u.shape = t.shape
  size : u.size = t.size
  alignment : u.alignment = t.alignment

/-- What is known of closed types. -/
structure Orderly (ts : TypeTable) : Prop where
  sane : ts.Sane
  laid : ts.Laid
  founded : ts.Founded
  regular : ts.Regular
  copies {o c : TypeId} : ts.closed[o]? = some c → Settling c ts
  twins {b c : TypeId} : ts.closedConst[b]? = some c → b < ts.size ∧ c < ts.size ∧ Twin (ts.get b) (ts.get c)

section
variable {ts ts' : TypeTable} {lookup : Lookup} {id b c : TypeId} {t : TypeInfo}

theorem Settling.extends (h : Settling c ts) (hs : ts.Sane) (hg : ts.Grows ts') : Settling c ts' :=
  ⟨hg.lt h.1, h.2.extends hs hg.extends h.1⟩

theorem Solid.twin (h : ts.Solid b) (ht : Twin (ts.get b) (ts.get c)) : ts.Solid c := by
  have hfields : (ts.get c).fields = (ts.get b).fields := by rw [TypeInfo.fields, ht.shape]; rfl
  have hin {d : TypeId} : ts.Inside d c ↔ ts.Inside d b := by rw [Inside, Inside, kind, kind, ht.kind, hfields]
  intro hacc d hd
  have hb : Acc ts.Inside b := ⟨b, fun d hd => hacc.inv (hin.mpr hd)⟩
  obtain rfl | ⟨e, hde, he⟩ := ReflTransGen.cases_tail hd
  · obtain ⟨hlaid, honce⟩ := h hb b .refl
    exact ⟨withLayout_of_same hlaid ht.shape ht.size ht.alignment, fun hm => honce (hfields ▸ hm)⟩
  · exact h hb d (hde.tail (hin.mp he))

namespace Orderly

variable (h : ts.Orderly)
include h

theorem root (hc : ts.Root c) : Settling c ts := by
  induction hc with
  | copy hc => exact h.copies hc
  | constant _ hc ih =>
    obtain ⟨-, hlt, ht⟩ := h.twins hc
    exact ⟨hlt, ih.2.twin ht⟩

theorem whole (hc : c < ts.size) (hw : ts.Whole c) : ts.Solid c := by
  cases ho : (ts.get c).flags.closed with
  | false => exact solid_of_open h.laid h.founded ho
  | true =>
    by_cases hk : ts.kind c = .struct
    · obtain hroot | hsettled := hw ⟨_, lookup_of_lt hc, ho⟩ hk
      · exact (h.root hroot).2
      · exact fun _ => hsettled
    · exact solid_plain fun fields hs => hk ((h.regular c).kind (by rw [hs]; rfl))

theorem adds (ha : ts.Adds ts') (hf : ts'.Founded) (hr : ts'.Regular) : ts'.Orderly where
  sane := ha.sane
  laid := ha.laid h.laid
  founded := hf
  regular := hr
  copies hc := (h.copies (ha.closed ▸ hc)).extends h.sane ha.grows
  twins hc := by
    obtain ⟨hb, hc, ht⟩ := h.twins (ha.closedConst ▸ hc)
    exact ⟨ha.grows.lt hb, ha.grows.lt hc, by rwa [ha.grows.get hb, ha.grows.get hc]⟩

theorem constClosed (hid : ts.IsClosed id) : (ts.constClosed id).2.Orderly := by
  have hk := constClosed_keeps h.sane hid
  have hr := regular_law.constClosed_all h.regular id
  obtain ⟨t, ht, -⟩ := hid
  unfold TypeTable.constClosed at *
  split
  case h_1 => exact h
  case h_2 hnone =>
    simp only [hnone] at hk hr
    refine ⟨hk.sane, hk.laid h.laid, h.founded.adds h.sane hk.sane hk.grows rfl, hr,
      fun hc => (h.copies hc).extends h.sane hk.grows, fun {b c} hc => ?_⟩
    rw [Std.HashMap.getElem?_insert] at hc
    split at hc
    case isTrue he =>
      cases hc
      cases eq_of_beq he
      have hid := lt_of_lookup ht
      have hlast := ts.pushed_last { ts.get id with
        flags := { (ts.get id).flags with isConst := true }, hash := hashMix (ts.get id).hash 1 }
      refine ⟨hk.grows.lt hid, lt_of_lookup hlast, ?_⟩
      rw [hk.grows.get hid]
      exact (get_eq hlast).symm ▸ ⟨rfl, rfl, rfl, rfl⟩
    case isFalse =>
      obtain ⟨hb, hc, ht⟩ := h.twins hc
      exact ⟨hk.grows.lt hb, hk.grows.lt hc, by rwa [hk.grows.get hb, hk.grows.get hc]⟩

theorem closeRoot (hid : Settling id ts) : (ts.closeRoot id).2.Orderly ∧
    Settling (ts.closeRoot id).1 (ts.closeRoot id).2 := by
  obtain ⟨hid, hsid⟩ := hid
  cases hc : ts.closed[id]? with
  | some new =>
    rw [closeRoot_found hc]
    exact ⟨h, h.copies hc⟩
  | none =>
    obtain ⟨hk, hconst⟩ := closeRoot_keeps h.sane hid
    have hr := regular_law.tieRoot h.regular id
    have hcopy := close_adds (ts.size + 1) [] id ts h.sane hid nofun
    have hunder : ts.Under [] ts := ⟨h.sane, .refl ts, nofun⟩
    have hlt := (close_under (ts.size + 1) hunder hid).2.2
    have hs := close_solid h.sane h.founded h.regular (ts.size + 1) [] id ts hunder hid hsid fun _ =>
      Nat.lt_succ_of_lt hid
    rw [closeRoot_new hc] at hk hconst hr ⊢
    generalize close (ts.size + 1) [] id ts = r at hk hconst hr hcopy hs hlt
    have hnew : Settling r.1 (r.2.remembered id r.1) := ⟨hlt, hs _ ⟨fun _ _ => rfl, nofun⟩ nofun⟩
    refine ⟨⟨hk.sane, hk.laid h.laid, h.founded.adds h.sane hk.sane hk.grows hcopy.interned, hr,
      fun {o c} hc => ?_, fun {b c} hc => ?_⟩, hnew⟩
    · rw [remembered, Std.HashMap.getElem?_insert] at hc
      split at hc
      · cases hc
        exact hnew
      · exact (h.copies (hcopy.adds.closed ▸ hc)).extends h.sane hk.grows
    · obtain ⟨hb, hc, ht⟩ := h.twins (hconst ▸ hc)
      exact ⟨hk.grows.lt hb, hk.grows.lt hc, by rwa [hk.grows.get hb, hk.grows.get hc]⟩

theorem tied (hid : id < ts.size)
    (hn : ∀ {name target}, ts.Refers name → lookup name = .type target → Settling target ts) :
    (ts.tied lookup id).2.Orderly ∧
      ∀ r, (ts.tied lookup id).1 = .ok r → ts.Solid id → Settling r (ts.tied lookup id).2 := by
  have hready : Grounded lookup ts := ⟨h.sane, h.laid, h.founded, hn⟩
  have hf := resolveInner_founds (2 * ts.size + 2) [] id ts hready hid
  have hr := (regular_law.walk lookup (2 * ts.size + 2) [] id ts h.regular).all
  rw [TypeTable.tied]
  generalize resolveInner lookup (2 * ts.size + 2) [] id ts = walked at hf hr
  obtain ⟨_ | found, ts₁⟩ := walked
  · exact ⟨h.adds hf.adds hf.founded hr, fun r he => by cases he⟩
  · have h₁ := h.adds hf.adds hf.founded hr
    obtain ⟨hlt, hfound⟩ := hf.result rfl
    simp only [andThen, answered]
    cases hp : (ts₁.get found).containsParent with
    | false => exact ⟨h₁, fun r he hs => by cases he; exact ⟨hlt, hfound hs⟩⟩
    | true =>
      have hopen := h₁.sane.open_of_marked (lookup_of_lt hlt) hp
      obtain ⟨h₂, hroot⟩ := h₁.closeRoot ⟨hlt, solid_of_open h₁.laid h₁.founded hopen⟩
      exact ⟨h₂, fun r he _ => by cases he; exact hroot⟩

end Orderly

end

end TypeTable

open TypeTable

/-! ## Histories -/

/-- No copy that was left with a stale layout lies inside a new struct, and no name in the table leads to such
a copy. Inside without a name, a struct lies once. -/
def TypeOp.Embeds (ts : TypeTable) : TypeOp → Prop
  | struct fields base => ∀ f ∈ withBase fields base, f.Once ∧ (f.inlined.isSome = true → ts.Whole f.type)
  | resolve lookup _ => ∀ name target, ts.Refers name → lookup name = .type target → ts.Whole target
  | _ => True

/-- A table that has come about by requests for types that it has the parts of, in which no copy has been used
inside a struct that was only made on the way to another one and left with a stale layout. -/
inductive Composed : TypeTable → Prop
  | initial : Composed .initial
  | step {ts : TypeTable} {op : TypeOp} : Composed ts → op.Mentions (· < ts.size) → op.Embeds ts →
      Composed (op.run ts).2

namespace TypeTable

section
variable {ts ts' : TypeTable} {op : TypeOp} {t : TypeInfo} {lookup : Lookup} {id r : TypeId}

theorem orderly_initial : initial.Orderly where
  sane := sane_initial
  laid := laid_initial
  founded id t ht _ := by
    have hm : t ∈ primitiveKinds.map (plainInfo · {}) := by
      rw [← initial_types.2]
      exact List.mem_of_getElem? (by rw [Array.getElem?_toList]; exact ht)
    obtain ⟨kind, -, rfl⟩ := List.mem_map.mp hm
    exact rests_plain nofun
  regular := regular_law.initial
  copies hc := by
    rw [adds_initial.closed] at hc
    simp at hc
  twins hc := by
    rw [adds_initial.closedConst] at hc
    simp at hc

theorem Founded.rests (hf : ts.Founded) (ho : (ts.get id).flags.closed = false) : ts.Rests (ts.get id).shape := by
  cases ht : ts.types[id]? with
  | none =>
    have hget : ts.get id = default := by rw [get, ht]; rfl
    exact rests_plain fun fields hs => by rw [hget] at hs; cases hs
  | some t =>
    rw [get_eq ht] at ho ⊢
    exact hf id t ht ho

theorem request_rests (h : ts.Orderly) (hm : op.Mentions (· < ts.size)) (he : op.Embeds ts)
    (hr : op.request ts = some t) :
    ts.Rests t.shape := by
  cases op with
  | primitive kind =>
    simp only [TypeOp.request] at hr
    split at hr
    · cases hr
    · cases hr
      exact rests_plain fun _ hs => by cases hs
  | unsign id | constant id =>
    simp only [TypeOp.request] at hr
    split at hr
    · cases hr
    case isFalse hk =>
      cases hr
      exact h.founded.rests (Bool.not_eq_true _ ▸ hk)
  | mutableOf id =>
    simp only [TypeOp.request] at hr
    split at hr
    · cases hr
    case isFalse hk =>
      cases hr
      rw [Bool.not_eq_true, Bool.or_eq_false_iff] at hk
      exact h.founded.rests hk.2
  | struct fields base =>
    simp only [TypeOp.request] at hr
    split at hr
    · cases hr
      refine Rests.withLayout ?_
      rintro _ ⟨⟩ f hf
      refine (he f hf).imp_right fun hi hin => h.whole ?_ (hi hin)
      exact (TypeOp.mem_withBase hf).elim (hm.2 _) (hm.1 f)
    · cases hr
  | pointer | function | deferred | parentRef =>
    cases hr
    exact rests_plain fun _ hs => by cases hs
  | resolve => cases hr

theorem Orderly.names (h : ts.Orderly) (hm : (TypeOp.resolve lookup id).Mentions (· < ts.size))
    (he : (TypeOp.resolve lookup id).Embeds ts) {name : NameId} {target : TypeId} (hn : ts.Refers name)
    (ht : lookup name = .type target) :
    Settling target ts := by
  have hlt := hm.2 name target ht
  exact ⟨hlt, h.whole hlt (he name target hn ht)⟩

theorem Orderly.run (h : ts.Orderly) (hm : op.Mentions (· < ts.size)) (he : op.Embeds ts) :
    (op.run ts).2.Orderly := by
  have hregular := regular_law.run h.regular op
  obtain ⟨t, hr, hrun⟩ | ⟨id, rfl, hc, hrun⟩ | ⟨lookup, id, rfl⟩ | ⟨r, hrun, -⟩ := op.run_cases ts
  · rw [hrun] at hregular ⊢
    have ha := TypeOp.run_answers h.sane hm hr
    have hp := TypeOp.request_proper h.sane hm hr
    exact h.adds ha.adds (h.founded.register h.sane hp.next (request_rests h hm he hr) ha) hregular
  · rw [hrun]
    exact h.constClosed ⟨_, lookup_of_lt hm, hc⟩
  · show (ts.resolve lookup id).2.Orderly
    rw [(resolve_tied ts lookup id).1]
    exact (h.tied hm.1 (h.names hm he)).1
  · rw [hrun]
    exact h

end

end TypeTable

theorem Composed.orderly {ts : TypeTable} (h : Composed ts) : ts.Orderly := by
  induction h with
  | initial => exact orderly_initial
  | step _ hm he ih => exact ih.run hm he

/-- What resolving gives is settled, unless it is asked for a copy that was left with a stale layout. -/
theorem Composed.settled {ts ts' : TypeTable} {lookup : Lookup} {id r : TypeId} (h : Composed ts)
    (hm : (TypeOp.resolve lookup id).Mentions (· < ts.size)) (he : (TypeOp.resolve lookup id).Embeds ts)
    (hw : ts.Whole id)
    (hr : ts.resolve lookup id = (.ok r, ts')) : ts'.Settled r ∧ ts'.Accepts r := by
  obtain ⟨htied, haccepts⟩ := (resolve_ok_iff ts ts' lookup id r).1.mp hr
  obtain ⟨-, hs⟩ := h.orderly.tied hm.1 (h.orderly.names hm he)
  rw [htied] at hs
  exact ⟨(hs r rfl (h.orderly.whole hm.1 hw)).2 haccepts.acc, haccepts⟩

end LevelScript
