import LevelScript.Proofs.Binding
import LevelScript.Proofs.Quiescence

/-!
# The addresses of functions

A script function is known under a number and under the address of a piece of code that enters it. Numbers
and addresses are given out together and used again for functions of the same type only, since the type is
a part of the code. The place of a function without captures leads to the one function that is alive there.
-/

namespace LevelScript

open FunctionTable

/-- The table itself is the same when a number has been found. -/
theorem Exec.newStub_table {m m₁ : Machine} {type : TypeId} {found : Nat × UInt64}
    (h : newStub type m = .ok found m₁) :
    m₁.functions.slots = m.functions.slots ∧ m₁.functions.cached? = m.functions.cached? := by
  obtain ⟨functions, hr, rfl⟩ | ⟨-, rfl⟩ := newStub_cases h
  · obtain ⟨more, -, -, rfl⟩ := reuse_some hr
    exact ⟨rfl, rfl⟩
  · exact ⟨rfl, rfl⟩

namespace Machine

/-- A function has been released, and its address enters functions of its type. -/
structure Spare (m : Machine) (type : TypeId) (id : Nat) : Prop where
  lt : id < m.functions.slots.size
  dead : m.functions.get? id = none
  code : m.code[stubAddress id]? = some (.stub type id)

/-- A live function is entered at its address, with its type. -/
structure Entered (m : Machine) (id : Nat) (f : ScriptFunction) : Prop where
  stub : f.stub = stubAddress id
  code : m.code[f.stub]? = some (.stub f.type id)
  classify : m.functions.classify f.stub = .script id

structure Fitting (m : Machine) : Prop where
  sizes : m.functions.stubs.size = m.functions.slots.size
  stub {id} : id < m.functions.slots.size → m.functions.stubs[id]? = some (stubAddress id)
  entered {id f} : m.functions.get? id = some f → m.Entered id f
  keyed {id f} : m.functions.get? id = some f → f.Keyed
  /-- A place leads to a live function, and each live function of a place is found there. -/
  cached {key id} : m.functions.cache[key]? = some id ↔ ∃ f, m.functions.get? id = some f ∧ f.key = some key
  once (type) : (m.functions.spare type).Nodup
  spare {type id} : id ∈ m.functions.spare type → m.Spare type id

structure Stubbed (m : Machine) : Prop extends m.Fitting where
  next : m.addresses.stub = stubAddress m.functions.slots.size

structure Reserves (m : Machine) (type : TypeId) (id : Nat) : Prop extends m.Fitting where
  le : id ≤ m.functions.slots.size
  next : m.addresses.stub = stubAddress (max m.functions.slots.size (id + 1))
  dead : m.functions.get? id = none
  code : m.code[stubAddress id]? = some (.stub type id)
  apart (other) : id ∉ m.functions.spare other

section
variable {m m' m₁ m₂ : Machine} {id : Nat} {type : TypeId} {f g : ScriptFunction} {found : Nat × UInt64}

theorem Fitting.congr (h : m.Fitting) (hf : m'.functions = m.functions) (hc : m'.code = m.code) : m'.Fitting where
  sizes := hf ▸ h.sizes
  stub := hf ▸ h.stub
  entered {id f} hg := by
    obtain ⟨stub, code, classify⟩ := h.entered (hf ▸ hg)
    exact ⟨stub, hc ▸ code, hf ▸ classify⟩
  keyed hg := h.keyed (hf ▸ hg)
  cached := hf ▸ h.cached
  once type := hf ▸ h.once type
  spare {type id} hm := by
    obtain ⟨lt, dead, code⟩ := h.spare (hf ▸ hm)
    exact ⟨hf ▸ lt, hf ▸ dead, hc ▸ code⟩

theorem Stubbed.congr (h : m.Stubbed) (hf : m'.functions = m.functions) (hc : m'.code = m.code)
    (ha : m'.addresses.stub = m.addresses.stub) : m'.Stubbed :=
  ⟨h.toFitting.congr hf hc, by rw [ha, hf, h.next]⟩

/-! ## Releasing -/

theorem Fitting.stub_ne (h : m.Fitting) (hn : m.functions.slots.size ≤ limit) {k : Nat}
    (hf : m.functions.get? id = some f)
    (hg : m.functions.get? k = some g) (hk : k ≠ id) : f.stub ≠ g.stub := by
  rw [(h.entered hf).stub, (h.entered hg).stub]
  have := get?_lt hf
  have := get?_lt hg
  exact fun he => hk (stubAddress_inj (by omega) (by omega) he).symm

theorem Fitting.exact (h : m.Fitting) : m.functions.CacheExact := fun _ _ => h.cached

theorem Stubbed.released (h : m.Stubbed) (hn : m.functions.slots.size ≤ limit) (hf : m.functions.get? id = some f) :
    (m.withFunctions (m.functions.remove id f)).Stubbed := by
  have hsize : (m.functions.remove id f).slots.size = m.functions.slots.size := Array.size_setIfInBounds
  have hspare {t : TypeId} {k : Nat} (hk : m.Spare t k) :
      (m.withFunctions (m.functions.remove id f)).Spare t k := by
    refine ⟨hsize.symm ▸ hk.lt, ?_, hk.code⟩
    show (m.functions.remove id f).get? k = none
    rw [get?_remove, hk.dead, ite_self]
  have hid : (m.withFunctions (m.functions.remove id f)).Spare f.type id := by
    refine ⟨hsize.symm ▸ get?_lt hf, ?_, (h.entered hf).stub ▸ (h.entered hf).code⟩
    show (m.functions.remove id f).get? id = none
    rw [get?_remove, if_pos rfl]
  refine ⟨⟨h.sizes.trans hsize.symm, fun hk => h.stub (hsize ▸ hk), fun {k g} hg => ?_,
    fun hg => h.keyed (get?_of_remove hg).2, h.exact.remove hf _ _, fun t => ?_, fun {t k} hk => ?_⟩, ?_⟩
  · obtain ⟨hk, hg⟩ := get?_of_remove hg
    refine ⟨(h.entered hg).stub, (h.entered hg).code, ?_⟩
    show (m.functions.remove id f).classify g.stub = _
    rw [classify_remove_of_ne _ _ (h.stub_ne hn hf hg hk), (h.entered hg).classify]
  · show ((m.functions.remove id f).spare t).Nodup
    rw [spare_remove]
    split
    · refine List.nodup_cons.mpr ⟨fun hm => ?_, h.once t⟩
      cases hf.symm.trans (h.spare hm).dead
    · exact h.once t
  · replace hk : k ∈ (m.functions.remove id f).spare t := hk
    rw [spare_remove] at hk
    split at hk
    case isTrue ht =>
      subst ht
      obtain rfl | hk := List.mem_cons.mp hk
      · exact hid
      · exact hspare (h.spare hk)
    case isFalse => exact hspare (h.spare hk)
  · show m.addresses.stub = _
    rw [h.next]
    exact congrArg stubAddress hsize.symm

/-! ## Making -/

theorem Stubbed.reuses (h : m.Stubbed) {functions : FunctionTable}
    (hr : m.functions.reuse type = some (found, functions)) :
    (m.withFunctions functions).Reserves type found.1 ∧ found.2 = stubAddress found.1 := by
  obtain ⟨more, hspare, hstub, rfl⟩ := reuse_some hr
  have hid : m.Spare type found.1 := h.spare (hspare ▸ List.mem_cons_self)
  have hnodup := h.once type
  rw [hspare, List.nodup_cons] at hnodup
  have hrest := spare_free m.functions type more
  have hsub {t : TypeId} {k : Nat} (hk : k ∈ if type = t then more else m.functions.spare t) :
      k ∈ m.functions.spare t := by
    split at hk
    case isTrue ht => exact ht ▸ hspare ▸ List.mem_cons_of_mem _ hk
    case isFalse => exact hk
  refine ⟨⟨⟨h.sizes, h.stub, fun hg => ?_, h.keyed, h.cached, fun t => ?_, fun {t k} hk => ?_⟩,
    Nat.le_of_lt hid.lt, ?_, hid.dead, hid.code, fun t hm => ?_⟩, ?_⟩
  · exact ⟨(h.entered hg).stub, (h.entered hg).code, (h.entered hg).classify⟩
  · refine hrest t ▸ ?_
    split
    · exact hnodup.2
    · exact h.once t
  · have hk := h.spare (hsub (hrest t ▸ hk))
    exact ⟨hk.lt, hk.dead, hk.code⟩
  · show m.addresses.stub = stubAddress (max m.functions.slots.size (found.1 + 1))
    rw [h.next, Nat.max_eq_left hid.lt]
  · -- the code tells of which type the function was
    replace hm := hrest t ▸ hm
    split at hm
    · exact hnodup.1 hm
    case isFalse ht =>
      have hcode := (h.spare hm).code
      rw [hid.code, Option.some.injEq, Code.stub.injEq] at hcode
      exact ht hcode.1
  · rw [hstub, h.stub hid.lt]
    rfl

theorem Stubbed.extends (h : m.Stubbed) (hn : m.functions.slots.size < limit) (type : TypeId) :
    { m with
      code := m.code.insert m.addresses.stub (.stub type m.functions.nextId)
      addresses := { m.addresses with stub := m.addresses.stub + 16 } }.Reserves type m.functions.nextId := by
  have hnext : m.addresses.stub = stubAddress m.functions.slots.size := h.next
  have hcode {k : Nat} (hk : k < m.functions.slots.size) (code : Code) :
      (m.code.insert m.addresses.stub code)[stubAddress k]? = m.code[stubAddress k]? := by
    rw [Std.HashMap.getElem?_insert, if_neg]
    rw [beq_iff_eq, hnext]
    exact fun he => Nat.ne_of_gt hk (stubAddress_inj hn (by omega) he)
  refine ⟨⟨h.sizes, h.stub, fun hg => ?_, h.keyed, h.cached, h.once, fun hk => ?_⟩, Nat.le_refl _, ?_, ?_,
    ?_, fun t hm => ?_⟩
  · obtain ⟨hstub, hc, hclass⟩ := h.entered hg
    refine ⟨hstub, ?_, hclass⟩
    rw [hstub] at hc ⊢
    rw [← hc]
    exact hcode (get?_lt hg) _
  · obtain ⟨hlt, hdead, hc⟩ := h.spare hk
    exact ⟨hlt, hdead, (hcode hlt _).trans hc⟩
  · show m.addresses.stub + 16 = stubAddress (max m.functions.slots.size (m.functions.slots.size + 1))
    rw [hnext, ← stubAddress_succ, Nat.max_eq_right (Nat.le_succ _)]
  · rw [get?, nextId, Array.getElem?_eq_none (Nat.le_refl _)]
    rfl
  · show (m.code.insert m.addresses.stub
      (.stub type m.functions.slots.size))[stubAddress m.functions.slots.size]? = _
    rw [← hnext, Std.HashMap.getElem?_insert_self]
    rfl
  · exact Nat.lt_irrefl _ (h.spare hm).lt

theorem Stubbed.newStub_le (h : m.Stubbed) (hs : Exec.newStub type m = .ok found m₁) :
    found.1 ≤ m.functions.slots.size := by
  obtain ⟨functions, hr, -⟩ | ⟨rfl, -⟩ := Exec.newStub_cases hs
  · obtain ⟨more, hspare, -⟩ := reuse_some hr
    exact Nat.le_of_lt (h.spare (hspare ▸ List.mem_cons_self)).lt
  · exact Nat.le_refl _

/-- A number and an address for a function of a type are found. -/
theorem Stubbed.reserves (h : m.Stubbed) (hn : max m.functions.slots.size (found.1 + 1) ≤ limit)
    (hs : Exec.newStub type m = .ok found m₁) : m₁.Reserves type found.1 ∧ found.2 = stubAddress found.1 := by
  obtain ⟨functions, hr, rfl⟩ | ⟨rfl, rfl⟩ := Exec.newStub_cases hs
  · exact h.reuses hr
  · have hn : max m.functions.slots.size (m.functions.slots.size + 1) ≤ limit := hn
    exact ⟨h.extends (by omega) type, h.next⟩

theorem Reserves.calm (h : m₁.Reserves type id) (hc : m₁.Calm m₂) : m₂.Reserves type id where
  toFitting := h.toFitting.congr hc.functions hc.code
  le := hc.functions ▸ h.le
  next := by rw [hc.stub, hc.functions, h.next]
  dead := hc.functions ▸ h.dead
  code := hc.code ▸ h.code
  apart := hc.functions ▸ h.apart

theorem Reserves.insert (h : m.Reserves f.type id) (hn : max m.functions.slots.size (id + 1) ≤ limit)
    (hstub : f.stub = stubAddress id) (hkey : f.Keyed)
    (hnew : ∀ key, f.key = some key → m.functions.cached? key = none) :
    (m.withFunctions (m.functions.insert id f)).Stubbed := by
  have hle := h.le
  refine ⟨⟨?_, fun {k} hk => ?_, fun {k g} hg => ?_, fun {k g} hg => ?_, h.exact.insert h.dead hnew _ _,
    h.once, fun {t k} hk => ?_⟩, ?_⟩
  · show (m.functions.insert id f).stubs.size = (m.functions.insert id f).slots.size
    rw [size_stubs_insert, size_insert, h.sizes]
  · replace hk : k < (m.functions.insert id f).slots.size := hk
    rw [size_insert] at hk
    show (m.functions.insert id f).stubs[k]? = _
    rw [stubs_insert _ _ _ _ (by rw [h.sizes]; omega)]
    split
    case isTrue hk => rw [hstub, hk]
    case isFalse => exact h.stub (by omega)
  · replace hg : (m.functions.insert id f).get? k = some g := hg
    rw [get?_insert] at hg
    split at hg
    case isTrue hk =>
      cases hg
      subst hk
      exact ⟨hstub, hstub ▸ h.code, classify_insert ..⟩
    case isFalse hk =>
      obtain ⟨hs, hc, hclass⟩ := h.entered hg
      refine ⟨hs, hc, ?_⟩
      show (m.functions.insert id f).classify g.stub = _
      have := get?_lt hg
      rw [classify_insert_of_ne, hclass]
      -- Stub addresses are injective in the number, so the other functions keep their classification.
      rw [hstub, hs]
      exact fun he => hk (stubAddress_inj (by omega) (by omega) he).symm
  · obtain rfl | hg := get?_insert_or hg
    · exact hkey
    · exact h.keyed hg
  · have hs := h.spare hk
    refine ⟨?_, ?_, hs.code⟩
    · show k < (m.functions.insert id f).slots.size
      have := hs.lt
      rw [size_insert]
      omega
    · show (m.functions.insert id f).get? k = none
      rw [get?_insert, if_neg (fun he : k = id => h.apart t (he ▸ hk)), hs.dead]
  · show m.addresses.stub = _
    rw [h.next]
    exact congrArg stubAddress (size_insert ..).symm

end

/-- The functions fit together as long as there are not too many for their addresses. -/
def InOrder (m : Machine) : Prop := m.functions.slots.size ≤ limit → m.Stubbed

structure SameFunctions (m m' : Machine) : Prop where
  functions : m'.functions = m.functions
  code : m'.code = m.code
  stub : m'.addresses.stub = m.addresses.stub

theorem Calm.sameFunctions {m m' : Machine} (h : m.Calm m') : m.SameFunctions m' := ⟨h.functions, h.code, h.stub⟩

end Machine

/-! ## The law -/

/-- `d` levels or more are open, and the functions fit together if they did. -/
structure Tables (d : Nat) (m m' : Machine) : Prop where
  depth : d ≤ m'.scopes.depth
  size : m.functions.slots.size ≤ m'.functions.slots.size
  order : m.InOrder → m'.InOrder

namespace Tables

variable {d e : Nat} {a b c m m' : Machine}

theorem same (hd : d ≤ m'.scopes.depth) (h : m.SameFunctions m') : Tables d m m' where
  depth := hd
  size := h.functions ▸ Nat.le_refl _
  order ho hn := (ho (h.functions ▸ hn)).congr h.functions h.code h.stub

theorem at_depth (hd : m'.scopes.depth = m.scopes.depth) (h : m.SameFunctions m') : Tables m.scopes.depth m m' :=
  .same (Nat.le_of_eq hd.symm) h

theorem trans (h : Tables e a b) (h' : Tables d b c) : Tables d a c :=
  ⟨h'.depth, Nat.le_trans h.size h'.size, fun ho => h'.order (h.order ho)⟩

theorem step (h : Tables d a b) (h' : Tables b.scopes.depth b c) : Tables d a c :=
  ⟨Nat.le_trans h.depth h'.depth, Nat.le_trans h.size h'.size, fun ho => h'.order (h.order ho)⟩

theorem mono (h : Tables e m m') (hd : d ≤ e) : Tables d m m' := ⟨Nat.le_trans hd h.depth, h.size, h.order⟩

theorem closed (h : Tables e a b) (hd : d < b.scopes.depth) (h' : Tables (b.scopes.depth - 1) b c) : Tables d a c :=
  (h.trans h').mono (by omega)

theorem between (h : Tables d a b) (ha : m.SameFunctions a) (hb : b.SameFunctions m')
    (hd : m'.scopes.depth = b.scopes.depth) :
    Tables d m m' :=
  ((Tables.same (Nat.le_refl _) ha).trans h).step (at_depth hd hb)

theorem created {m m₁ m₂ : Machine} {found : Nat × UInt64} {f : ScriptFunction} {level : Nat}
    (hs : Exec.newStub f.type m = .ok found m₁) (h : m₁.Calm m₂) (hstub : f.stub = found.2) (hkey : f.Keyed)
    (hnew : ∀ key, f.key = some key → m.functions.cached? key = none) :
    Tables m.scopes.depth m ((m₂.withFunctions (m₂.functions.insert found.1 f)).allocated level
      (m₂.heap.track f.stub f.type level (.function found.1))) := by
  have hsteady := (Exec.newStub_steady hs h).1
  have hget := Exec.newStub_table hs
  have hsize : ((m₂.withFunctions (m₂.functions.insert found.1 f)).functions).slots.size =
      max m.functions.slots.size (found.1 + 1) := by
    show (m₂.functions.insert found.1 f).slots.size = _
    rw [size_insert, h.functions, hget.1]
  refine ⟨Nat.le_of_eq ?_, ?_, fun ho hn => ?_⟩
  · exact hsteady.depth.symm.trans (Scopes.depth_modifyLevel ..).symm
  · show _ ≤ ((m₂.withFunctions (m₂.functions.insert found.1 f)).functions).slots.size
    omega
  · replace hn : ((m₂.withFunctions (m₂.functions.insert found.1 f)).functions).slots.size ≤ limit := hn
    rw [hsize] at hn
    obtain ⟨hr, hf⟩ := (ho (by omega)).reserves hn hs
    have hr := hr.calm h
    refine (hr.insert ?_ (hstub.trans hf) hkey fun key hk => ?_).congr rfl rfl rfl
    · rw [h.functions, hget.1]
      exact hn
    · rw [h.functions, hget.2]
      exact hnew key hk

end Tables

def stubbing : Law where
  kept m := Tables m.scopes.depth m
  during d _ := Tables d
  above d _ := Tables d
  failed m := Tables m.scopes.depth m
  wild m := Tables m.scopes.depth m
  kept_trans := .step
  during_kept h := h
  during_step := .step
  failed_during h := h
  failed_trans := .step
  failed_depth h hm := Nat.lt_of_lt_of_le hm h.depth
  wild_failed h := h
  wild_trans := .step
  wild_parked m e := .at_depth rfl ⟨rfl, rfl, rfl⟩
  calmly h := .at_depth h.depth h.sameFunctions
  control m c := .at_depth rfl ⟨rfl, rfl, rfl⟩
  place m row col := .at_depth rfl ⟨rfl, rfl, rfl⟩
  place_back h := h.between ⟨rfl, rfl, rfl⟩ ⟨rfl, rfl, rfl⟩ rfl
  opened h := h.between ⟨rfl, rfl, rfl⟩ ⟨rfl, rfl, rfl⟩ rfl
  opened_failed {m m'} h := (h.between (m := m) ⟨rfl, rfl, rfl⟩ ⟨rfl, rfl, rfl⟩ rfl).mono m.depth_le_deeper
  closing {m l} _ := .same (Nat.le_of_eq (Scopes.depth_outer _).symm) ⟨rfl, rfl, rfl⟩
  dead h _ := h
  handedOver h _ := h.step (.at_depth rfl ⟨rfl, rfl, rfl⟩)
  closed h h' := h.closed h.depth h'
  closed_failed {m m₁ m₂} h h' := by
    have hd := h.depth
    rw [m.depth_deeper] at hd
    exact (h.between (m := m) ⟨rfl, rfl, rfl⟩ ⟨rfl, rfl, rfl⟩ rfl).closed hd h'
  recovering h h' := (h.step h').step (.at_depth rfl ⟨rfl, rfl, rfl⟩)
  leaving h := h.mono (Nat.le_succ _)
  above_closed h hd h' := h.closed hd h'
  above_done h _ := h
  called _ h := h.between ⟨rfl, rfl, rfl⟩ ⟨rfl, rfl, rfl⟩ rfl
  called_failed {m m' f} _ h := (h.between (m := m) ⟨rfl, rfl, rfl⟩ ⟨rfl, rfl, rfl⟩ rfl).mono m.depth_le_deeper
  calledNative h _ := h.between ⟨rfl, rfl, rfl⟩ ⟨rfl, rfl, rfl⟩ rfl
  filed h := h.between ⟨rfl, rfl, rfl⟩ ⟨rfl, rfl, rfl⟩ rfl
  filed_failed h := h.between ⟨rfl, rfl, rfl⟩ ⟨rfl, rfl, rfl⟩ rfl
  added size type inner cleanup _ := .at_depth (Scopes.depth_modifyLevel ..) ⟨rfl, rfl, rfl⟩
  created f inner hs h hstub hkey hnew _ := .created hs h hstub hkey hnew
  released {m id f} hf := by
    have hsize : (m.functions.remove id f).slots.size = m.functions.slots.size := Array.size_setIfInBounds
    exact ⟨Nat.le_refl _, Nat.le_of_eq hsize.symm, fun ho hn => (ho (hsize ▸ hn)).released (hsize ▸ hn) hf⟩
  moved {m addr id level} _ _ := .at_depth (m.depth_moved id level) ⟨rfl, rfl, rfl⟩
  freed _ := .at_depth (Scopes.depth_modifyLevel ..) ⟨rfl, rfl, rfl⟩

/-! ## Where functions are made -/

namespace Machine

open Exec Interp

/-- The machines in which a function can be made, and all others that arise in between: parts of the
interpreter have come to an end, with a value or an error, functions were made and released, and whatever
else has changed, it was not the table of functions. -/
inductive Arises : Machine → Prop
  | start {m : Machine} : m.functions = {} → m.addresses.stub = stubAddress 0 → m.Arises
  | alike {m m' : Machine} : m.Arises → m.SameFunctions m' → m'.Arises
  | eval {m m' : Machine} (n : Nat) (r : Reader) : m.Arises → 0 < m.scopes.depth →
      ((ofFuel n).eval r).Leads m m' → m'.Arises
  | command {m m' : Machine} (n : Nat) (r : Reader) : m.Arises → 0 < m.scopes.depth →
      ((ofFuel n).command r).Leads m m' → m'.Arises
  | source {m m' : Machine} (n : Nat) (text file : String) : m.Arises → 0 < m.scopes.depth →
    ((ofFuel n).source text file).Leads m m' → m'.Arises
  | call {m m' : Machine} (n : Nat) (f : Variable) (args : List Variable) : m.Arises →
    ((ofFuel n).call f args).Leads m m' → m'.Arises
  | made {m m' : Machine} (chunk : Chunk) (entry len : Nat) (capture : Capture) (type : TypeId)
      (title : NameId) (inner : Bool) :
    m.Arises → 0 < m.scopes.depth → (createFunction chunk entry len capture type title inner).Leads m m' → m'.Arises
  | released {m : Machine} {id : Nat} {f : ScriptFunction} : m.Arises → m.functions.get? id = some f →
    (m.withFunctions (m.functions.remove id f)).Arises

theorem inOrder_start {m : Machine} (hf : m.functions = {}) (hs : m.addresses.stub = stubAddress 0) :
    m.InOrder := by
  intro _
  have hget (id : Nat) : m.functions.get? id = none := by rw [hf]; rfl
  have hspare (type : TypeId) : m.functions.spare type = [] := by
    rw [hf, spare]
    exact congrArg (Option.getD · []) Std.HashMap.getElem?_empty
  refine ⟨⟨by rw [hf]; rfl, fun h => ?_, fun h => ?_, fun h => ?_, fun {key id} => ?_, fun type => ?_,
    fun h => ?_⟩, ?_⟩
  · rw [hf] at h
    cases h
  · cases (hget _).symm.trans h
  · cases (hget _).symm.trans h
  · rw [hget, hf]
    constructor
    · intro h
      cases (Std.HashMap.getElem?_empty).symm.trans h
    · rintro ⟨_, h, _⟩
      cases h
  · rw [hspare]
    exact List.nodup_nil
  · rw [hspare] at h
    cases h
  · rw [hs, hf]
    rfl

theorem Arises.inOrder {m : Machine} (h : m.Arises) : m.InOrder := by
  have keeps {α : Type} {x : Exec α} {m m' : Machine} (hm : m.InOrder) (hx : stubbing.Obeys x)
    (hd : 0 < m.scopes.depth)
      (hl : x.Leads m m') : m'.InOrder :=
    ((hx m hd).mono (fun _ _ h => h.order hm) (fun _ _ h => h.order hm)).leads hl
  induction h with
  | start hf hs => exact inOrder_start hf hs
  | alike _ hs ih => exact fun hn => (ih (hs.functions ▸ hn)).congr hs.functions hs.code hs.stub
  | eval n r _ hd hl ih => exact keeps ih ((Law.sound_ofFuel stubbing n).eval r).obeys hd hl
  | command n r _ hd hl ih => exact keeps ih ((Law.sound_ofFuel stubbing n).command r).obeys hd hl
  | source n text file _ hd hl ih => exact keeps ih ((Law.sound_ofFuel stubbing n).source text file) hd hl
  | call n f args _ hl ih =>
    have hcall := (Law.sound_ofFuel stubbing n).call f args
    exact ((hcall _).mono (fun _ _ h => h.order ih) (fun _ _ h => h.order ih)).leads hl
  | made chunk entry len capture type title inner _ hd hl ih =>
    exact keeps ih (Law.createFunction_obeys chunk entry len capture type title inner) hd hl
  | released _ hf ih => exact (stubbing.released hf).order ih

/-! ### What a new function is -/

section
variable {chunk : Chunk} {entry len : Nat} {capture : Capture} {type : TypeId} {title : NameId}
  {inner : Bool} {stub : UInt64}
  {m m' : Machine}

theorem makeFunction_table (h : makeFunction chunk entry len capture type title inner m = .ok stub m') :
    ∃ id f m₁, newStub type m = .ok (id, stub) m₁ ∧ m'.functions = m₁.functions.insert id f ∧
    f.stub = stub ∧ f.type = type ∧
      f.chunk = chunk ∧ f.entry = entry ∧ f.len = len ∧ f.capture = capture := by
  obtain ⟨⟨id, stub'⟩, m₁, hstub, -, -⟩ := newStub_eq type m
  rw [makeFunction, bind_ok hstub] at h
  dsimp only at h
  rw [get_bind] at h
  obtain ⟨m₂, htake, pending, rfl⟩ := takeCaptured_eq capture m₁
  rw [bind_ok htake, get_bind] at h
  generalize hf : ScriptFunction.mk title _ chunk entry len capture _ type stub' _ = f at h
  obtain ⟨m₃, hown, hfunctions, -⟩ :=
    ownFunction_eq id f inner ((m₁.copied (m₁.copiedBy capture)).withFault pending)
  cases h.symm.trans hown
  refine ⟨id, f, m₁, ?_, hfunctions, rfl, ?_⟩
  · cases hf
    exact hstub
  · cases hf
    exact ⟨rfl, rfl, rfl, rfl, rfl⟩

/-- The evaluation of a body gives the address of a live function. Whoever calls this address enters that
function with its type, and the body of it is the one that is evaluated. The type is the one that was asked
for exactly if no live function of the same place has another one: such a function is taken as it is. -/
theorem made_function_enters (h : m.Arises) (hd : 0 < m.scopes.depth)
    (hn : m.functions.slots.size < limit)
    (hmade : createFunction chunk entry len capture type title inner m = .ok stub m') :
    ∃ id f type' m₁, resolveType type m = .ok type' m₁ ∧ m'.functions.get? id = some f ∧ f.stub = stub ∧
    m'.Entered id f ∧
      f.chunk.serial = chunk.serial ∧ f.entry = entry ∧ f.capture = capture ∧
      (f.type = type' ↔ capture = .nothing → ∀ k g, m.functions.get? k = some g →
        g.key = some (chunk.serial, entry) → g.type = type') ∧
      (capture = .nothing → ∀ k g, m.functions.get? k = some g → g.key = some (chunk.serial, entry) →
        k = id ∧ g = f) ∧
      ((capture = .nothing → ∀ k g, m.functions.get? k = some g → g.key ≠ some (chunk.serial, entry)) →
        m.functions.get? id = none ∧ f.chunk = chunk ∧ f.len = len) := by
  have ho := h.inOrder
  have hm : m.Stubbed := ho (Nat.le_of_lt hn)
  have hlaw : Tables m.scopes.depth m m' :=
    (Law.createFunction_obeys (L := stubbing) chunk entry len capture type title inner m hd).ok hmade
  rw [createFunction_eq] at hmade
  obtain ⟨type', m₁, hresolve, hmade⟩ := bind_eq_ok hmade
  have hq : m.Quiet (fun _ => True) m₁ := ((resolveType_quiet type) m).ok hresolve |>.1
  have hm₁ : m₁.Stubbed := by
    rw [hq.same]
    exact hm.congr rfl rfl rfl
  rw [get_bind] at hmade
  split at hmade
  case isTrue => cases hmade
  case isFalse =>
    dsimp only at hmade
    rw [get_bind, hq.functions] at hmade
    cases hknown : if capture = .nothing then m.functions.cached? (chunk.serial, entry) else none with
    | some stub' =>
      rw [hknown] at hmade
      cases hmade
      rw [Option.ite_none_right_eq_some] at hknown
      obtain ⟨rfl, hcached⟩ := hknown
      obtain ⟨id, f, hcache, hf, rfl⟩ := cached?_some hcached
      have only {k : Nat} {g : ScriptFunction} (hg : m.functions.get? k = some g)
        (hk : g.key = some (chunk.serial, entry)) :
          k = id ∧ g = f := by
        obtain rfl := Option.some.inj ((hm.cached.mpr ⟨g, hg, hk⟩).symm.trans hcache)
        exact ⟨rfl, Option.some.inj (hg.symm.trans hf)⟩
      obtain ⟨f', hf', hkey⟩ := hm.cached.mp hcache
      obtain rfl := Option.some.inj (hf.symm.trans hf')
      obtain ⟨hplace, hcapture⟩ := hm.keyed hf _ hkey
      rw [Prod.mk.injEq] at hplace
      have hf₁ : m'.functions.get? id = some f := hq.functions ▸ hf
      refine ⟨id, f, type', m', hresolve, hf₁, rfl, hm₁.entered hf₁, hplace.1.symm, hplace.2.symm, hcapture, ?_,
        fun _ k g => only, fun hno => absurd hkey (hno rfl id f hf)⟩
      exact ⟨fun ht _ k g hg hk => (only hg hk).2 ▸ ht, fun h => h rfl id f hf hkey⟩
    | none =>
      rw [hknown] at hmade
      obtain ⟨id, f, m₂, hstub, hfunctions, rfl, rfl, rfl, rfl, rfl, rfl⟩ := makeFunction_table hmade
      have hget : m'.functions.get? id = some f := hfunctions ▸ get?_insert_self ..
      have hslots := (newStub_table hstub).1
      have hroom : max m₁.functions.slots.size (id + 1) ≤ limit := by
        have := hm₁.newStub_le hstub
        rw [hq.functions] at this ⊢
        omega
      have hm' : m'.Stubbed := hlaw.order ho (by rw [hfunctions, size_insert, hslots]; exact hroom)
      have hdead : m.functions.get? id = none := by
        have hr := (hm₁.reserves hroom hstub).1.dead
        rw [get?, hslots] at hr
        rwa [← hq.functions]
      have fresh (hc : f.capture = .nothing) {k : Nat} {g : ScriptFunction} (hg : m.functions.get? k = some g) :
          g.key ≠ some (f.chunk.serial, f.entry) := by
        rw [if_pos hc] at hknown
        exact hm.exact.not_key hknown hg
      exact ⟨id, f, _, m₁, hresolve, hget, rfl, hm'.entered hget, rfl, rfl, rfl,
        ⟨fun _ hc k g hg hk => absurd hk (fresh hc hg), fun _ => rfl⟩, fun hc k g hg hk => absurd hk (fresh hc hg),
        fun _ => ⟨hdead, rfl, rfl⟩⟩

end

theorem made_function_enters_block : ∃ stub m' id f, makeInBlock block = .ok stub m' ∧
    m'.functions.get? id = some f ∧
    f.stub = stub ∧ m'.Entered id f ∧ f.type = 9 := by
  obtain ⟨stub, m', hmade⟩ := makeInBlock_total
  have harises : block.Arises := .start rfl rfl
  obtain ⟨id, f, type, m₁, hresolve, hget, hstub, hentered, -, -, -, htype, -⟩ :=
    made_function_enters harises (by decide) (by decide) hmade
  have hclosed : resolveType 9 block = .ok 9 _ := resolveType_closed (by decide) rfl rfl (by decide)
  obtain rfl : type = 9 := by
    cases hresolve.symm.trans hclosed
    rfl
  exact ⟨stub, m', id, f, hmade, hget, hstub, hentered, htype.mpr nofun⟩

end Machine

end LevelScript
