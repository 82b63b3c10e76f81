import LevelScript.Heap

/-!
# The slots of the heap

What is in the heap is seen through handles. A new allocation gets a handle that was dead, and what
is taken out is dead from then on; no other handle sees a difference. The table of addresses and the
list of empty slots agree with the slots all the time.
-/

namespace LevelScript

namespace Heap

def live (h : Heap) : List Allocation := h.slots.toList.filterMap HeapSlot.entry

/-- The parts of the heap agree with each other. -/
structure Valid (h : Heap) : Prop where
  nodup : h.free.Nodup
  empty {index : Nat} : index ∈ h.free → ∃ s, h.slots[index]? = some s ∧ s.entry = none
  found {addr : UInt64} {id : AllocId} : h.byAddr[addr]? = some id → ∃ a, h.get? id = some a ∧ a.addr = addr

section
variable {h h' : Heap} {id id' : AllocId} {a b : Allocation}

theorem get?_eq_some : h.get? id = some a ↔ h.slots[id.index]? = some ⟨id.generation, some a⟩ := by
  unfold get?
  cases hs : h.slots[id.index]? with
  | none => simp
  | some s =>
    obtain ⟨generation, entry⟩ := s
    simp only [Option.some.injEq, HeapSlot.mk.injEq]
    split
    case isTrue hg => simp [hg]
    case isFalse hg => simp [hg]

theorem filterMap_entry_cons (s : HeapSlot) (l : List HeapSlot) :
    (s :: l).filterMap HeapSlot.entry = s.entry.toList ++ l.filterMap HeapSlot.entry := by
  rw [List.filterMap_cons]
  cases s.entry <;> rfl

/-- A handle that is the only good one of its slot is given a new entry. -/
theorem get?_put (hn : ∀ id', id' ≠ id → id'.index = id.index → h.get? id' = none)
    (hs : ∀ k, h'.slots[k]? = if k = id.index then some ⟨id.generation, some a⟩ else h.slots[k]?)
    (id' : AllocId) : h'.get? id' = if id' = id then some a else h.get? id' := by
  by_cases he : id' = id
  · rw [if_pos he, he, get?_eq_some, hs, if_pos rfl]
  · rw [if_neg he]
    by_cases hx : id'.index = id.index
    · have hg : id.generation ≠ id'.generation := by
        intro hg
        cases id
        cases id'
        exact he (congr (congrArg AllocId.mk hx) hg.symm)
      rw [hn id' he hx, get?, hs, if_pos hx]
      exact if_neg hg
    · rw [get?, hs, if_neg hx, get?]

theorem mem_live : a ∈ h.live ↔ ∃ id, h.get? id = some a := by
  rw [live, List.mem_filterMap]
  constructor
  · rintro ⟨s, hs, he⟩
    obtain ⟨index, hi⟩ := List.mem_iff_getElem?.mp hs
    rw [Array.getElem?_toList] at hi
    refine ⟨⟨index, s.generation⟩, get?_eq_some.mpr ?_⟩
    rw [hi, ← he]
  · rintro ⟨id, ha⟩
    have hs := get?_eq_some.mp ha
    rw [← Array.getElem?_toList] at hs
    exact ⟨_, List.mem_of_getElem? hs, rfl⟩

/-- Of two allocations with one number there is just one. -/
theorem eq_of_seq (hn : (h.live.map Allocation.seq).Nodup) (ha : h.get? id = some a) (hb : h.get? id' = some b)
    (he : a.seq = b.seq) : id = id' := by
  rw [List.Nodup, List.pairwise_map, live, List.pairwise_filterMap, List.pairwise_iff_getElem] at hn
  have ha := get?_eq_some.mp ha
  have hb := get?_eq_some.mp hb
  obtain ⟨hi, hs⟩ := Array.getElem?_eq_some_iff.mp ha
  obtain ⟨hi', hs'⟩ := Array.getElem?_eq_some_iff.mp hb
  obtain hx | hx | hx := Nat.lt_trichotomy id.index id'.index
  · exact absurd he (hn _ _ hi hi' hx a (by rw [Array.getElem_toList, hs]) b (by rw [Array.getElem_toList, hs']))
  · rw [hx, hb] at ha
    cases id
    cases id'
    cases hx
    cases ha
    rfl
  · exact absurd he.symm (hn _ _ hi' hi hx b (by rw [Array.getElem_toList, hs'])
      a (by rw [Array.getElem_toList, hs]))

theorem Valid.isEmpty (hv : h.Valid) (hl : h.live = []) : h.isEmpty = true := by
  refine Std.HashMap.isEmpty_iff_forall_not_mem.mpr fun addr hm => ?_
  obtain ⟨a, ha, -⟩ := hv.found (Std.HashMap.getElem?_eq_some_getElem hm)
  have hm := mem_live.mpr ⟨_, ha⟩
  rw [hl] at hm
  cases hm

/-! ## Taking out -/

theorem get?_remove (ha : h.get? id = some a) (addr : UInt64) :
    (h.remove id addr).get? id' = some b ↔ h.get? id' = some b ∧ id' ≠ id := by
  rw [get?_eq_some] at ha
  have hi : id.index < h.slots.size := (Array.getElem?_eq_some_iff.mp ha).1
  rw [get?_eq_some, get?_eq_some]
  show (h.slots.setIfInBounds id.index _)[id'.index]? = _ ↔ _
  rw [Array.getElem?_setIfInBounds]
  by_cases hx : id.index = id'.index
  · rw [if_pos hx, if_pos hi, ← hx, ha]
    refine ⟨fun h => ?_, fun ⟨h, hne⟩ => ?_⟩
    · simp at h
    · refine absurd ?_ hne
      obtain ⟨index, generation⟩ := id
      obtain ⟨index', generation'⟩ := id'
      cases hx
      cases h
      rfl
  · rw [if_neg hx]
    refine ⟨fun h => ⟨h, fun he => hx (he ▸ rfl)⟩, fun h => h.1⟩

theorem filterMap_set_perm : ∀ {l : List HeapSlot} {index : Nat} {s : HeapSlot} (t : HeapSlot), l[index]? = some s →
    (s.entry.toList ++ (l.set index t).filterMap HeapSlot.entry).Perm
      (t.entry.toList ++ l.filterMap HeapSlot.entry)
  | x :: l, 0, s, t, hs => by
    cases hs
    rw [List.set_cons_zero, filterMap_entry_cons, filterMap_entry_cons]
    exact List.perm_append_comm_assoc ..
  | x :: l, index + 1, s, t, hs => by
    rw [List.set_cons_succ, filterMap_entry_cons, filterMap_entry_cons]
    refine (List.perm_append_comm_assoc ..).trans (.trans (.append_left _ ?_) (List.perm_append_comm_assoc ..))
    exact filterMap_set_perm t hs

theorem live_set {s : HeapSlot} {index : Nat} (hs : h.slots[index]? = some s) (t : HeapSlot) (h' : Heap)
    (hh : h'.slots = h.slots.setIfInBounds index t) :
    (s.entry.toList ++ h'.live).Perm (t.entry.toList ++ h.live) := by
  rw [live, live, hh, Array.toList_setIfInBounds]
  exact filterMap_set_perm t (by rw [Array.getElem?_toList]; exact hs)

theorem live_remove (ha : h.get? id = some a) (addr : UInt64) :
    (a :: (h.remove id addr).live).Perm h.live :=
  live_set (get?_eq_some.mp ha) ⟨_, none⟩ _ rfl

theorem Valid.remove (hv : h.Valid) (ha : h.get? id = some a) : (h.remove id a.addr).Valid := by
  have hs := get?_eq_some.mp ha
  have hi : id.index < h.slots.size := (Array.getElem?_eq_some_iff.mp hs).1
  refine ⟨List.nodup_cons.mpr ⟨fun hf => ?_, hv.nodup⟩, fun {index} hf => ?_, fun {addr id'} hf => ?_⟩
  · obtain ⟨s, hs', he⟩ := hv.empty hf
    rw [hs] at hs'
    cases hs'
    cases he
  · show ∃ s, (h.slots.setIfInBounds id.index _)[index]? = some s ∧ s.entry = none
    rw [Array.getElem?_setIfInBounds]
    by_cases hx : id.index = index
    · rw [if_pos hx, if_pos hi]
      exact ⟨_, rfl, rfl⟩
    · rw [if_neg hx]
      exact hv.empty (List.mem_of_ne_of_mem (Ne.symm hx) hf)
  · have hf : (h.byAddr.erase a.addr)[addr]? = some id' := hf
    rw [Std.HashMap.getElem?_erase] at hf
    split at hf
    · cases hf
    case isFalse hx =>
      obtain ⟨b, hb, rfl⟩ := hv.found hf
      refine ⟨b, (get?_remove ha _).mpr ⟨hb, fun he => hx ?_⟩, rfl⟩
      rw [he, ha] at hb
      cases hb
      exact beq_self_eq_true _

/-! ## Putting in -/

theorem insert_slots (hv : h.Valid) (a : Allocation) :
    (∀ k, (h.insert a).2.slots[k]? =
      if k = (h.insert a).1.index then some ⟨(h.insert a).1.generation, some a⟩ else h.slots[k]?) ∧
    (h.slots[(h.insert a).1.index]? = some ⟨(h.insert a).1.generation, none⟩ ∨
      h.slots[(h.insert a).1.index]? = none ∧ (h.insert a).1.generation = 0) := by
  unfold insert
  cases hf : h.free with
  | nil =>
    refine ⟨fun k => ?_, .inr ⟨Array.getElem?_eq_none (Nat.le_refl _), rfl⟩⟩
    show (h.slots.push ⟨0, some a⟩)[k]? = if k = h.slots.size then _ else _
    rw [Array.getElem?_push]
  | cons index free =>
    obtain ⟨s, hs, he⟩ := hv.empty (hf ▸ List.mem_cons_self)
    have hi : index < h.slots.size := (Array.getElem?_eq_some_iff.mp hs).1
    obtain ⟨generation, entry⟩ := s
    cases he
    simp only [hs, Option.getD_some]
    refine ⟨fun k => ?_, .inl trivial⟩
    rw [Array.getElem?_setIfInBounds]
    by_cases hx : k = index
    · rw [if_pos hx.symm, if_pos hi, if_pos hx]
    · rw [if_neg (Ne.symm hx), if_neg hx]

theorem get?_new (hv : h.Valid) (a : Allocation) (hx : id.index = (h.insert a).1.index) : h.get? id = none := by
  rw [get?, hx]
  obtain hs | ⟨hs, -⟩ := (insert_slots hv a).2
  · rw [hs]
    exact ite_self none
  · rw [hs]

theorem get?_insert (hv : h.Valid) (a : Allocation) (id : AllocId) :
    (h.insert a).2.get? id = if id = (h.insert a).1 then some a else h.get? id :=
  get?_put (fun _ _ hx => get?_new hv a hx) (insert_slots hv a).1 id

theorem live_insert (hv : h.Valid) (a : Allocation) : (h.insert a).2.live.Perm (a :: h.live) := by
  unfold insert
  cases hf : h.free with
  | nil =>
    show ((h.slots.push ⟨0, some a⟩).toList.filterMap HeapSlot.entry).Perm _
    rw [Array.toList_push, List.filterMap_append]
    exact List.perm_append_comm
  | cons index free =>
    obtain ⟨s, hs, he⟩ := hv.empty (hf ▸ List.mem_cons_self)
    simp only [hs, Option.getD_some]
    have hp := live_set hs ⟨s.generation, some a⟩
    rw [he] at hp
    exact hp _ rfl

theorem insert_tables (h : Heap) (a : Allocation) :
    (h.insert a).2.byAddr = h.byAddr.insert a.addr (h.insert a).1 ∧
      (h.free = (h.insert a).1.index :: (h.insert a).2.free ∨ h.free = [] ∧ (h.insert a).2.free = []) := by
  unfold insert
  cases h.free with
  | nil => exact ⟨rfl, .inr ⟨rfl, rfl⟩⟩
  | cons index free => exact ⟨rfl, .inl rfl⟩

theorem nextSeq_insert (h : Heap) (a : Allocation) : (h.insert a).2.nextSeq = h.nextSeq := by
  unfold insert
  cases h.free <;> rfl

theorem Valid.insert (hv : h.Valid) (a : Allocation) : (h.insert a).2.Valid := by
  obtain ⟨hby, hfree⟩ := insert_tables h a
  have hn := hv.nodup
  refine ⟨?_, fun {index} hf => ?_, fun {addr id} hf => ?_⟩
  · obtain hl | ⟨-, hl⟩ := hfree
    · rw [hl] at hn
      exact hn.of_cons
    · rw [hl]
      exact List.nodup_nil
  · obtain hl | ⟨-, hl⟩ := hfree
    · rw [hl] at hn
      have hne : index ≠ (h.insert a).1.index := fun he => (List.nodup_cons.mp hn).1 (he ▸ hf)
      obtain ⟨s, hs, he⟩ := hv.empty (hl ▸ List.mem_cons_of_mem _ hf)
      exact ⟨s, by rw [(insert_slots hv a).1, if_neg hne, hs], he⟩
    · rw [hl] at hf
      cases hf
  · rw [hby, Std.HashMap.getElem?_insert] at hf
    split at hf
    case isTrue hx =>
      cases hf
      exact ⟨a, by rw [get?_insert hv, if_pos rfl], eq_of_beq hx⟩
    case isFalse hx =>
      obtain ⟨b, hb, he⟩ := hv.found hf
      refine ⟨b, ?_, he⟩
      rw [get?_insert hv, if_neg, hb]
      intro hid
      rw [hid, get?_new hv a rfl] at hb
      cases hb

def numbered (h : Heap) (next : UInt64) : Heap := { h with nextSeq := h.nextSeq + 1, nextAddr := next }

theorem Valid.numbered (hv : h.Valid) (next : UInt64) : (h.numbered next).Valid := ⟨hv.nodup, hv.empty, hv.found⟩

/-! ## Another level -/

theorem setLevel_slots (ha : h.get? id = some a) (level index : Nat) :
    (h.setLevel id level).slots[index]? =
      if index = id.index then some ⟨id.generation, some { a with level }⟩ else h.slots[index]? := by
  have hs := get?_eq_some.mp ha
  have hi : id.index < h.slots.size := (Array.getElem?_eq_some_iff.mp hs).1
  simp only [setLevel, ha]
  rw [Array.getElem?_setIfInBounds]
  by_cases hx : index = id.index
  · rw [if_pos hx.symm, if_pos hi, if_pos hx]
  · rw [if_neg (Ne.symm hx), if_neg hx]

theorem get?_setLevel (ha : h.get? id = some a) (level : Nat) (id' : AllocId) :
    (h.setLevel id level).get? id' = if id' = id then some { a with level } else h.get? id' := by
  refine get?_put (fun id' he hx => ?_) (setLevel_slots ha level) id'
  have hs := get?_eq_some.mp ha
  rw [get?, hx, hs]
  refine if_neg fun hg => he ?_
  cases id
  cases id'
  exact congr (congrArg AllocId.mk hx) hg.symm

theorem live_setLevel (ha : h.get? id = some a) (level : Nat) :
    ((h.setLevel id level).live.map Allocation.seq).Perm (h.live.map Allocation.seq) := by
  have hs := get?_eq_some.mp ha
  have hp : (a :: (h.setLevel id level).live).Perm ({ a with level } :: h.live) :=
    live_set hs ⟨id.generation, some { a with level }⟩ _ (by simp only [setLevel, ha])
  exact (hp.map Allocation.seq).cons_inv

theorem Valid.setLevel (hv : h.Valid) (ha : h.get? id = some a) (level : Nat) : (h.setLevel id level).Valid := by
  have hs := get?_eq_some.mp ha
  have hfree : (h.setLevel id level).free = h.free := by simp only [Heap.setLevel, ha]
  have hby : (h.setLevel id level).byAddr = h.byAddr := by simp only [Heap.setLevel, ha]
  refine ⟨hfree ▸ hv.nodup, fun {index} hf => ?_, fun {addr id'} hf => ?_⟩
  · obtain ⟨s, hs', he⟩ := hv.empty (hfree ▸ hf)
    refine ⟨s, ?_, he⟩
    rw [setLevel_slots ha, if_neg, hs']
    intro hx
    rw [hx, hs] at hs'
    cases hs'
    cases he
  · obtain ⟨b, hb, he⟩ := hv.found (hby ▸ hf)
    rw [get?_setLevel ha]
    split
    case isTrue hid =>
      rw [hid, ha] at hb
      cases hb
      exact ⟨_, rfl, he⟩
    case isFalse => exact ⟨b, hb, he⟩

/-! ## How often a slot was used -/

def uses (h : Heap) (index : Nat) : Nat :=
  match h.slots[index]? with
  | some s => s.generation + s.entry.toList.length
  | none => 0

theorem uses_live (ha : h.get? id = some a) : h.uses id.index = id.generation + 1 := by
  rw [uses, get?_eq_some.mp ha]
  rfl

theorem uses_new (hv : h.Valid) (a : Allocation) : h.uses (h.insert a).1.index = (h.insert a).1.generation := by
  rw [uses]
  obtain hs | ⟨hs, hg⟩ := (insert_slots hv a).2
  · rw [hs]
    rfl
  · rw [hs, hg]

theorem uses_insert (hv : h.Valid) (a : Allocation) (index : Nat) :
    (h.insert a).2.uses index = h.uses index + if index = (h.insert a).1.index then 1 else 0 := by
  rw [uses, (insert_slots hv a).1]
  by_cases hx : index = (h.insert a).1.index
  · rw [if_pos hx, if_pos hx, hx, uses_new hv]
    rfl
  · rw [if_neg hx, if_neg hx]
    rfl

theorem uses_setLevel (ha : h.get? id = some a) (level index : Nat) :
    (h.setLevel id level).uses index = h.uses index := by
  rw [uses, setLevel_slots ha]
  by_cases hx : index = id.index
  · rw [if_pos hx, hx, uses_live ha]
    rfl
  · rw [if_neg hx]
    rfl

theorem uses_remove (ha : h.get? id = some a) (hg : id.generation + 1 < UInt32.size) (addr : UInt64) (index : Nat) :
    (h.remove id addr).uses index = h.uses index := by
  have hi : id.index < h.slots.size := (Array.getElem?_eq_some_iff.mp (get?_eq_some.mp ha)).1
  rw [uses]
  show (match (h.slots.setIfInBounds id.index _)[index]? with | some s => _ | none => _) = _
  rw [Array.getElem?_setIfInBounds]
  by_cases hx : id.index = index
  · rw [if_pos hx, if_pos hi, ← hx, uses_live ha]
    exact Nat.mod_eq_of_lt hg
  · rw [if_neg hx]
    rfl

end

end Heap

end LevelScript
