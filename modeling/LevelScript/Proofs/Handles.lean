import LevelScript.Proofs.Slots

/-!
# Handles of the heap

Allocating, tracking, moving to another level and taking out, in any order. A handle that was taken out is
dead for ever, also when its slot is used again, as long as no slot is used so often that its count starts
anew. The table of addresses, the list of empty slots and the numbers of the allocations show just what is
alive, and in which order it was created.
-/

namespace LevelScript

namespace Heap

def Untracked (h : Heap) (addr : UInt64) : Prop := ∀ id a, h.get? id = some a → a.addr ≠ addr

/-- A heap after any operations, with the handles that were given out, in order, and with all that was taken
out. A block can start anywhere, but no address is used twice at a time. -/
inductive Arises : Heap → List AllocId → List (AllocId × Allocation) → Prop where
  | start : Arises {} [] []
  | allocated {h h' given taken addr place size type level cleanup id} : Arises h given taken → h.Untracked addr →
      { h with nextAddr := addr }.allocate size type level cleanup = some (id, place, h') →
      Arises h' (given ++ [id]) taken
  | tracked {h h' given taken addr type level cleanup id} : Arises h given taken → h.Untracked addr →
      h.track addr type level cleanup = (id, h') → Arises h' (given ++ [id]) taken
  | moved {h given taken} (id level) : Arises h given taken → Arises (h.setLevel id level) given taken
  | taken {h h' given taken id a} : Arises h given taken → h.take id = some (a, h') →
      Arises h' given (taken ++ [(id, a)])

def fills (given : List AllocId) (index : Nat) : Nat := (given.map AllocId.index).count index

theorem fills_append (given : List AllocId) (id : AllocId) (index : Nat) :
    fills (given ++ [id]) index = fills given index + if index = id.index then 1 else 0 := by
  rw [fills, List.map_append, List.count_append, List.map_singleton, List.count_singleton, fills]
  simp only [beq_iff_eq, @eq_comm _ id.index]

/-! ## The tables -/

/-- What is alive is found by its address, and what is empty is free. -/
structure Indexed (h : Heap) : Prop extends h.Valid where
  spare {index s} : h.slots[index]? = some s → s.entry = none → index ∈ h.free
  known {id a} : h.get? id = some a → h.byAddr[a.addr]? = some id
  size : h.byAddr.size = h.live.length

section
variable {h h' : Heap} {given : List AllocId} {taken : List (AllocId × Allocation)} {id : AllocId}
  {a b : Allocation}

theorem Indexed.numbered (hi : h.Indexed) (next : UInt64) : (h.numbered next).Indexed :=
  ⟨hi.toValid.numbered next, hi.spare, hi.known, hi.size⟩

theorem Indexed.insert (hi : h.Indexed) (hu : h.Untracked a.addr) : (h.insert a).2.Indexed := by
  have hv := hi.toValid
  obtain ⟨hby, hfree⟩ := insert_tables h a
  refine ⟨hv.insert a, fun {index s} hs he => ?_, fun {id b} hb => ?_, ?_⟩
  · rw [(insert_slots hv a).1] at hs
    split at hs
    · cases hs
      cases he
    case isFalse hne =>
      have hm := hi.spare hs he
      obtain hf | ⟨hf, -⟩ := hfree
      · exact (List.mem_cons.mp (hf ▸ hm)).resolve_left hne
      · rw [hf] at hm
        cases hm
  · rw [get?_insert hv] at hb
    rw [hby, Std.HashMap.getElem?_insert]
    split at hb
    case isTrue hid =>
      cases hb
      rw [if_pos (beq_self_eq_true _), hid]
    case isFalse =>
      rw [if_neg (fun he => hu id b hb (eq_of_beq he).symm), hi.known hb]
  · have hm : a.addr ∉ h.byAddr := by
      intro hm
      obtain ⟨b, hb, he⟩ := hv.found (Std.HashMap.getElem?_eq_some_getElem hm)
      exact hu _ b hb he
    rw [hby, Std.HashMap.size_insert, if_neg hm, hi.size, (live_insert hv a).length_eq]
    rfl

theorem Indexed.remove (hi : h.Indexed) (ha : h.get? id = some a) : (h.remove id a.addr).Indexed := by
  refine ⟨hi.toValid.remove ha, fun {index s} hs he => ?_, fun {id' b} hb => ?_, ?_⟩
  · have hs : (h.slots.setIfInBounds id.index _)[index]? = some s := hs
    rw [Array.getElem?_setIfInBounds] at hs
    split at hs
    case isTrue hx => exact hx ▸ List.mem_cons_self
    case isFalse => exact List.mem_cons_of_mem _ (hi.spare hs he)
  · obtain ⟨hb, hne⟩ := (get?_remove ha _).mp hb
    show (h.byAddr.erase a.addr)[b.addr]? = some id'
    rw [Std.HashMap.getElem?_erase, if_neg, hi.known hb]
    intro he
    have hk := hi.known hb
    rw [← eq_of_beq he, hi.known ha] at hk
    exact hne (Option.some.inj hk).symm
  · show (h.byAddr.erase a.addr).size = _
    have hm : a.addr ∈ h.byAddr := Std.HashMap.mem_iff_isSome_getElem?.mpr (hi.known ha ▸ rfl)
    rw [Std.HashMap.size_erase, if_pos hm, hi.size, ← (live_remove ha a.addr).length_eq]
    rfl

theorem Indexed.setLevel (hi : h.Indexed) (ha : h.get? id = some a) (level : Nat) :
    (h.setLevel id level).Indexed := by
  have hfree : (h.setLevel id level).free = h.free := by simp only [Heap.setLevel, ha]
  have hby : (h.setLevel id level).byAddr = h.byAddr := by simp only [Heap.setLevel, ha]
  refine ⟨hi.toValid.setLevel ha level, fun {index s} hs he => ?_, fun {id' b} hb => ?_, ?_⟩
  · rw [setLevel_slots ha] at hs
    split at hs
    · cases hs
      cases he
    · exact hfree ▸ hi.spare hs he
  · rw [get?_setLevel ha] at hb
    split at hb
    case isTrue hid =>
      cases hb
      rw [hby, hid]
      show h.byAddr[a.addr]? = some id
      exact hi.known ha
    case isFalse => rw [hby, hi.known hb]
  · have hl := (live_setLevel ha level).length_eq
    rw [List.length_map, List.length_map] at hl
    rw [hby, hl, hi.size]

/-! ## The books -/

/-- The handles tell all that has ever been in the heap apart. -/
structure Booked (h : Heap) (given : List AllocId)
    (taken : List (AllocId × Allocation)) : Prop extends h.Indexed where
  next : h.nextSeq = given.length
  counted {id : AllocId} {a : Allocation} : h.get? id = some a ∨ (id, a) ∈ taken → given[a.seq]? = some id
  /-- The count of a slot says how often it has been filled, until it starts anew. -/
  used (index : Nat) : h.uses index = fills given index ∨ fills given index = UInt32.size
  earlier {id : AllocId} : id ∈ given → id.generation < fills given id.index
  once : given.Nodup
  alive {id : AllocId} : (∃ a, h.get? id = some a) ↔ id ∈ given ∧ ∀ a, (id, a) ∉ taken

theorem Booked.start : Booked {} [] [] where
  nodup := List.nodup_nil
  empty := nofun
  found hf := by simp at hf
  spare hs := by simp at hs
  known hg := by simp [get?] at hg
  size := rfl
  next := rfl
  counted hn := by simp [get?] at hn
  used _ := .inl rfl
  earlier := nofun
  once := List.nodup_nil
  alive := by simp [get?]

theorem Booked.given_of_taken (hb : h.Booked given taken) (ht : (id, a) ∈ taken) : id ∈ given :=
  List.mem_of_getElem? (hb.counted (.inr ht))

/-- A new allocation is entered under a handle that no other has had. -/
theorem Booked.placed (hb : h.Booked given taken) (hs : a.seq = h.nextSeq) (hu : h.Untracked a.addr) (next : UInt64)
    (hr : fills (given ++ [((h.numbered next).insert a).1]) ((h.numbered next).insert a).1.index ≤ UInt32.size) :
    ((h.numbered next).insert a).2.Booked (given ++ [((h.numbered next).insert a).1]) taken := by
  have hv : (h.numbered next).Valid := hb.toValid.numbered next
  have hget := get?_insert hv a
  have huses := uses_insert hv a
  have hnew := uses_new hv a
  have hindexed := (hb.toIndexed.numbered next).insert hu
  have hnext := nextSeq_insert (h.numbered next) a
  generalize (h.numbered next).insert a = p at *
  obtain ⟨new, h'⟩ := p
  dsimp only at *
  rw [fills_append, if_pos rfl] at hr
  -- The slot has been filled as often as its generation says, so no earlier handle of the slot has it.
  have hgen : new.generation = fills given new.index := hnew ▸ (hb.used new.index).resolve_right (by omega)
  have hfresh : new ∉ given := fun hm => Nat.ne_of_lt (hb.earlier hm) hgen
  have keeps {n : Nat} {id : AllocId} (hn : given[n]? = some id) : (given ++ [new])[n]? = some id := by
    rw [List.getElem?_append_left (List.getElem?_eq_some_iff.mp hn).1, hn]
  refine { toIndexed := hindexed, next := ?_, counted := fun {id b} hid => ?_, used := fun index => ?_
           earlier := fun {id} hm => ?_, once := ?_, alive := fun {id} => ?_ }
  · rw [hnext, List.length_append, ← hb.next]
    rfl
  · obtain hid | hid := hid
    · rw [hget] at hid
      split at hid
      case isTrue he =>
        cases hid
        rw [hs, hb.next, he, List.getElem?_concat_length]
      case isFalse => exact keeps (hb.counted (.inl hid))
    · exact keeps (hb.counted (.inr hid))
  · rw [huses, fills_append]
    obtain hused | hfull := hb.used index
    · exact .inl (by rw [← hused]; rfl)
    · refine .inr ?_
      rw [if_neg, hfull]
      rintro rfl
      omega
  · rw [fills_append]
    obtain hm | hm := List.mem_append.mp hm
    · exact Nat.lt_of_lt_of_le (hb.earlier hm) (Nat.le_add_right _ _)
    · cases List.mem_singleton.mp hm
      rw [if_pos rfl, hgen]
      exact Nat.lt_succ_self _
  · refine List.nodup_append.mpr ⟨hb.once, List.nodup_cons.mpr ⟨nofun, List.nodup_nil⟩, fun x hx y hy he => ?_⟩
    exact hfresh (List.mem_singleton.mp hy ▸ he ▸ hx)
  · rw [List.mem_append, List.mem_singleton]
    by_cases he : id = new
    · subst he
      refine ⟨fun _ => ⟨.inr rfl, fun b hm => hfresh (hb.given_of_taken hm)⟩, fun _ => ⟨a, ?_⟩⟩
      rw [hget, if_pos rfl]
    · rw [or_iff_left he, ← hb.alive]
      refine exists_congr fun b => ?_
      rw [hget, if_neg he]
      rfl

theorem Booked.moved (hb : h.Booked given taken) (id : AllocId) (level : Nat) :
    (h.setLevel id level).Booked given taken := by
  cases ha : h.get? id with
  | none => rwa [setLevel, ha]
  | some a =>
    have hget := get?_setLevel ha level
    refine { toIndexed := hb.toIndexed.setLevel ha level, next := ?_, counted := fun {id' b} hid => ?_
             used := fun index => ?_, earlier := hb.earlier, once := hb.once, alive := fun {id'} => ?_ }
    · rw [← hb.next, setLevel, ha]
    · obtain hid | hid := hid
      · rw [hget] at hid
        split at hid
        case isTrue he =>
          cases hid
          rw [he]
          show given[a.seq]? = some id
          exact hb.counted (.inl ha)
        case isFalse => exact hb.counted (.inl hid)
      · exact hb.counted (.inr hid)
    · rw [uses_setLevel ha]
      exact hb.used index
    · rw [← hb.alive, hget]
      split
      case isTrue he => exact ⟨fun _ => ⟨a, he ▸ ha⟩, fun _ => ⟨_, rfl⟩⟩
      case isFalse => rfl

theorem uses_remove_ne {index : Nat} (hx : index ≠ id.index) (addr : UInt64) :
    (h.remove id addr).uses index = h.uses index := by
  have hslots : (h.remove id addr).slots[index]? = h.slots[index]? := by
    show (h.slots.setIfInBounds id.index _)[index]? = _
    rw [Array.getElem?_setIfInBounds, if_neg (Ne.symm hx)]
  rw [uses, uses, hslots]

theorem Booked.removed (hb : h.Booked given taken) (hr : fills given id.index ≤ UInt32.size)
    (ha : h.get? id = some a) :
    (h.remove id a.addr).Booked given (taken ++ [(id, a)]) where
  toIndexed := hb.toIndexed.remove ha
  next := hb.next
  counted {id' b} hid := by
    obtain hid | hid := hid
    · exact hb.counted (.inl ((get?_remove ha _).mp hid).1)
    · obtain hid | hid := List.mem_append.mp hid
      · exact hb.counted (.inr hid)
      · cases List.mem_singleton.mp hid
        exact hb.counted (.inl ha)
  used index := by
    -- the count starts anew only when the slot cannot be filled again
    by_cases hx : index = id.index
    · subst hx
      have hlive := uses_live ha
      by_cases hg : id.generation + 1 < UInt32.size
      · rw [uses_remove ha hg]
        exact hb.used _
      · exact .inr ((hb.used id.index).elim (fun hused => by omega) fun hfull => hfull)
    · rw [uses_remove_ne hx]
      exact hb.used index
  earlier := hb.earlier
  once := hb.once
  alive {id'} := by
    constructor
    · rintro ⟨b, hid⟩
      obtain ⟨hid, hne⟩ := (get?_remove ha _).mp hid
      obtain ⟨hm, ht⟩ := hb.alive.mp ⟨b, hid⟩
      refine ⟨hm, fun c hc => (List.mem_append.mp hc).elim (ht c) fun hc => hne ?_⟩
      exact congrArg Prod.fst (List.mem_singleton.mp hc)
    · rintro ⟨hm, ht⟩
      obtain ⟨b, hid⟩ := hb.alive.mpr ⟨hm, fun c hc => ht c (List.mem_append_left _ hc)⟩
      refine ⟨b, (get?_remove ha _).mpr ⟨hid, fun he => ht a ?_⟩⟩
      exact List.mem_append_right _ (List.mem_singleton.mpr (he ▸ rfl))

theorem allocate_placed {addr place : UInt64} {size : UInt64} {type : TypeId} {level : Nat} {cleanup : Cleanup}
    (ha : { h with nextAddr := addr }.allocate size type level cleanup = some (id, place, h')) :
    ∃ a next, a.addr = addr ∧ a.seq = h.nextSeq ∧ (h.numbered next).insert a = (id, h') := by
  rw [allocate] at ha
  split at ha
  · cases ha
  · refine ⟨⟨addr, size, type, level, cleanup, h.nextSeq⟩, addr + blockStep size, rfl, rfl, ?_⟩
    have hp := Option.some.inj ha
    exact Prod.ext (congrArg (·.1) hp) (congrArg (·.2.2) hp)

theorem take_eq_some (ht : h.take id = some (a, h')) : h.get? id = some a ∧ h' = h.remove id a.addr := by
  obtain ⟨b, hb, he⟩ := Option.map_eq_some_iff.mp ht
  cases he
  exact ⟨hb, rfl⟩

theorem Arises.booked (h₀ : Arises h given taken) (hr : ∀ index, fills given index ≤ UInt32.size) :
    h.Booked given taken := by
  -- what is given out later only adds to the count of a slot
  have before {given : List AllocId} {id : AllocId}
    (hr : ∀ index, fills (given ++ [id]) index ≤ UInt32.size) (index : Nat) :
      fills given index ≤ UInt32.size := by
    have := hr index
    rw [fills_append] at this
    omega
  induction h₀ with
  | start => exact .start
  | @allocated _ _ _ _ _ _ _ _ _ _ id _ hu ha ih =>
    obtain ⟨a, next, rfl, hs, hp⟩ := allocate_placed ha
    have hb := (ih (before hr)).placed hs hu next (by rw [hp]; exact hr id.index)
    rwa [hp] at hb
  | @tracked h _ _ _ addr type level cleanup id _ hu hp ih =>
    have hp : (h.numbered h.nextAddr).insert ⟨addr, 0, type, level, cleanup, h.nextSeq⟩ = _ := hp
    have hb := (ih (before hr)).placed (a := ⟨addr, 0, type, level, cleanup, h.nextSeq⟩) rfl hu h.nextAddr
      (by rw [hp]; exact hr id.index)
    rwa [hp] at hb
  | moved id level _ ih => exact (ih hr).moved id level
  | taken _ ht ih =>
    obtain ⟨ha, rfl⟩ := take_eq_some ht
    exact (ih hr).removed (hr _) ha

end

/-- What a heap and the handles that it has given out can be relied on for. -/
structure Dependable (h : Heap) (given : List AllocId) (taken : List (AllocId × Allocation)) : Prop where
  found (addr : UInt64) (id : AllocId) : h.find? addr = some id ↔ ∃ a, h.get? id = some a ∧ a.addr = addr
  size : h.size = h.live.length
  freeOnce : h.free.Nodup
  free (index : Nat) : index ∈ h.free ↔ ∃ s, h.slots[index]? = some s ∧ s.entry = none
  distinct : given.Nodup
  alive (id : AllocId) : (∃ a, h.get? id = some a) ↔ id ∈ given ∧ ∀ a, (id, a) ∉ taken
  dead {id : AllocId} {a : Allocation} : (id, a) ∈ taken →
    h.get? id = none ∧ h.take id = none ∧ ∀ level, h.setLevel id level = h
  numbered {id : AllocId} {a : Allocation} : h.get? id = some a ∨ (id, a) ∈ taken → given[a.seq]? = some id

/-- Whatever is done with a heap: an address leads to the live allocation there and to nothing else, the size is the
number of live allocations, and the free list has each empty slot once. The handles are all different; alive are
those that have not been taken out, and through one that has been, nothing is ever found, taken or changed again.
The number of an allocation is its place in the order of creation. -/
theorem handles_stay_dead {h : Heap} {given : List AllocId} {taken : List (AllocId × Allocation)}
    (ha : Arises h given taken) (hr : ∀ index, fills given index ≤ UInt32.size) : h.Dependable given taken := by
  have hb := ha.booked hr
  refine { found := fun addr id => ⟨hb.found, ?_⟩, size := hb.size, freeOnce := hb.nodup, free := fun index => ?_
           distinct := hb.once, alive := fun id => hb.alive, dead := fun {id a} ht => ?_, numbered := hb.counted }
  · rintro ⟨a, hg, rfl⟩
    exact hb.known hg
  · exact ⟨hb.empty, fun ⟨s, hs, he⟩ => hb.spare hs he⟩
  · have hdead : h.get? id = none := by
      refine Option.eq_none_iff_forall_ne_some.mpr fun b hg => ?_
      exact (hb.alive.mp ⟨b, hg⟩).2 a ht
    refine ⟨hdead, ?_, fun level => ?_⟩
    · rw [take, hdead]
      rfl
    · rw [setLevel, hdead]

/-- A slot that is used again: its first handle stays dead. -/
theorem handles_stay_dead_reused :
    ∃ h a, Arises h [⟨0, 0⟩, ⟨0, 1⟩] [(⟨0, 0⟩, a)] ∧ (∀ index, fills [⟨0, 0⟩, ⟨0, 1⟩] index ≤ UInt32.size) ∧
      h.find? 16 = some ⟨0, 1⟩ ∧ h.size = 1 ∧ h.take ⟨0, 0⟩ = none := by
  let first : Allocation := ⟨16, 0, 0, 0, .nothing, 0⟩
  have tracked : Arises (track {} 16 0 0 .nothing).2 [⟨0, 0⟩] [] :=
    .tracked .start (fun id a hg => by simp [get?] at hg) rfl
  have taken : Arises ((track {} 16 0 0 .nothing).2.remove ⟨0, 0⟩ 16) [⟨0, 0⟩] [(⟨0, 0⟩, first)] :=
    .taken tracked rfl
  have empty : ((track {} 16 0 0 .nothing).2.remove ⟨0, 0⟩ 16).Untracked 16 := by
    intro id a hg
    have hs : #[(⟨1, none⟩ : HeapSlot)][id.index]? = some ⟨id.generation, some a⟩ := get?_eq_some.mp hg
    obtain ⟨_ | n, generation⟩ := id
    · cases hs
    · cases hs
  have again : Arises (((track {} 16 0 0 .nothing).2.remove ⟨0, 0⟩ 16).track 16 0 0 .nothing).2 [⟨0, 0⟩, ⟨0, 1⟩]
      [(⟨0, 0⟩, first)] := .tracked taken empty rfl
  have hr (index : Nat) : fills [⟨0, 0⟩, ⟨0, 1⟩] index ≤ UInt32.size :=
    Nat.le_trans List.count_le_length (show 2 ≤ UInt32.size by decide)
  have h := handles_stay_dead again hr
  exact ⟨_, first, again, hr, (h.found 16 ⟨0, 1⟩).mpr ⟨_, rfl, rfl⟩, h.size, (h.dead List.mem_cons_self).2.1⟩

end Heap

end LevelScript
