import LevelScript.Proofs.Custody
import LevelScript.Proofs.Stepping

/-!
# Who owns an allocation

An allocation knows its level, and the level lists the allocation. The two are changed in different
places, and a method `delete` can create, move and release allocations while a level is being closed.
Still every allocation is listed where it says, unless it is about to be released, and each one is
released once: nothing is left when all levels have been closed.
-/

namespace LevelScript

/-! ## Lists of allocations -/

namespace Scopes

def listings (s : Scopes) (index : Nat) (id : AllocId) : Nat :=
  match s.owned[index]? with
  | some ids => ids.count id
  | none => 0

theorem listings_lt {s : Scopes} {index : Nat} {id : AllocId} (h : 0 < s.listings index id) : index < s.depth := by
  rw [listings] at h
  split at h
  case h_1 ids hi => exact s.size_owned ▸ (Array.getElem?_eq_some_iff.mp hi).1
  case h_2 => cases h

theorem listings_push (s : Scopes) (index : Nat) (id : AllocId) :
    s.push.listings index id = s.listings index id := by
  have hp : s.push.owned = s.owned.push #[] := by simp [owned, push]
  rw [listings, listings, hp, Array.getElem?_push]
  by_cases hi : index = s.owned.size
  · rw [if_pos hi, hi, Array.getElem?_eq_none (Nat.le_refl _)]
    exact Array.count_empty
  · rw [if_neg hi]

theorem listings_outer (s : Scopes) (index : Nat) (id : AllocId) :
    s.outer.listings index id = if index < s.depth - 1 then s.listings index id else 0 := by
  have hp : s.outer.owned = s.owned.pop := by simp [owned, outer]
  rw [listings, hp, Array.getElem?_pop, size_owned]
  by_cases hi : index < s.depth - 1
  · rw [if_pos hi, if_pos hi]
    rfl
  · rw [if_neg hi, if_neg hi]

theorem listings_innermost {s : Scopes} {l : Level} (hl : s.innermost? = some l) (id : AllocId) :
    s.listings (s.depth - 1) id = l.allocs.count id := by
  rw [innermost?, Array.back?_eq_getElem?] at hl
  rw [listings, owned, Array.getElem?_map, depth, hl]
  rfl

theorem owned_modifyLevel (s : Scopes) (level index : Nat) (f : Level → Level) :
    (s.modifyLevel level f).owned[index]? =
      if level = index then s.levels[index]?.map fun l => (f l).allocs else s.owned[index]? := by
  rw [owned, modifyLevel, Array.getElem?_map, Array.getElem?_modify]
  by_cases hi : level = index
  · rw [if_pos hi, if_pos hi, Option.map_map]
    rfl
  · rw [if_neg hi, if_neg hi, owned, Array.getElem?_map]

theorem listings_addAlloc {s : Scopes} {level : Nat} (hl : level < s.depth) (index : Nat) (id id' : AllocId) :
    (s.addAlloc level id).listings index id' =
      s.listings index id' + if level = index ∧ id = id' then 1 else 0 := by
  rw [listings, addAlloc, owned_modifyLevel]
  by_cases hi : level = index
  · subst hi
    rw [if_pos rfl, listings, owned, Array.getElem?_map, Array.getElem?_eq_getElem hl]
    simp [Array.count_push]
  · rw [if_neg hi, if_neg fun h => hi h.1]
    rfl

theorem listings_removeAlloc (s : Scopes) (level index : Nat) (id id' : AllocId) :
    (s.removeAlloc level id).listings index id' =
      if level = index ∧ id = id' then 0 else s.listings index id' := by
  rw [listings, removeAlloc, owned_modifyLevel]
  by_cases hi : level = index
  · subst hi
    rw [if_pos rfl, listings, owned, Array.getElem?_map]
    cases s.levels[level]? with
    | none => simp
    | some l =>
      by_cases he : id = id'
      · subst he
        simp [Array.count_eq_zero]
      · simp [he, Array.count_filter, Ne.symm he]
  · rw [if_neg hi, if_neg fun h => hi h.1]
    rfl

end Scopes

/-! ## The invariant -/

def Event.finalized? : Event → Option Nat
  | finalized seq => some seq
  | _ => none

namespace Machine

def finalized (m : Machine) : List Nat := m.journal.filterMap Event.finalized?

/-- Handles are not used again, so lists can hold dead ones, but no live one twice. -/
structure Tidy (m : Machine) : Prop where
  young (index : Nat) : m.heap.uses index ≤ m.heap.nextSeq
  known {index : Nat} {id : AllocId} : 0 < m.scopes.listings index id → id.generation < m.heap.uses id.index
  once {id : AllocId} {a : Allocation} : m.heap.get? id = some a → m.scopes.listings a.level id ≤ 1
  only {id : AllocId} {a : Allocation} {index : Nat} : m.heap.get? id = some a → a.level ≠ index →
    m.scopes.listings index id = 0

/-- Every allocation is listed by its level, but for those in `orphans`, whose level has been closed;
and each one that was ever created is either there or has been released, once. Generations have 32
bits: they can tell handles apart for so many allocations. -/
structure Owned (orphans : List AllocId) (m : Machine) : Prop where
  valid : m.heap.Valid
  listed {id : AllocId} {a : Allocation} : m.heap.get? id = some a → id ∉ orphans →
    0 < m.scopes.listings a.level id
  account : (m.heap.live.map Allocation.seq ++ m.finalized).Perm (List.range m.heap.nextSeq)
  tidy : m.heap.nextSeq < UInt32.size → m.Tidy

section
variable {m m' : Machine} {orphans : List AllocId} {id : AllocId} {a : Allocation} {level : Nat}

theorem Tidy.fewer (h : m.Tidy) (hh : m'.heap = m.heap)
    (hs : ∀ index id, m'.scopes.listings index id ≤ m.scopes.listings index id) : m'.Tidy := by
  refine ⟨fun index => ?_, fun hl => ?_, fun ha => ?_, fun ha hn => ?_⟩
  · rw [hh]
    exact h.young index
  · rw [hh]
    exact h.known (Nat.lt_of_lt_of_le hl (hs _ _))
  · exact Nat.le_trans (hs _ _) (h.once (hh ▸ ha))
  · exact Nat.le_zero.mp (h.only (hh ▸ ha) hn ▸ hs _ _)

theorem Owned.congr (h : Owned orphans m) (hh : m'.heap = m.heap)
    (hs : ∀ index id, m'.scopes.listings index id = m.scopes.listings index id)
    (hj : m'.finalized = m.finalized) : Owned orphans m' := by
  refine ⟨hh ▸ h.valid, fun {id a} ha ho => ?_, ?_, fun hn => ?_⟩
  · rw [hs]
    exact h.listed (hh ▸ ha) ho
  · rw [hh, hj]
    exact h.account
  · exact (h.tidy (hh ▸ hn)).fewer hh fun index id => Nat.le_of_eq (hs index id)

theorem finalized_eq (m : Machine) : m.finalized = m.history.filterMap Event.finalized? := by
  rw [finalized, history, List.filterMap_filter]
  refine congrArg (m.journal.filterMap ·) (funext fun e => ?_)
  cases e <;> rfl

theorem Owned.alike (h : Owned orphans m) (hs : m.Alike m') : Owned orphans m' := by
  refine h.congr hs.heap (fun index id => ?_) (by rw [finalized_eq, finalized_eq, hs.history])
  rw [Scopes.listings, hs.owned]
  rfl

theorem Owned.deeper (h : Owned orphans m) : Owned orphans m.deeper :=
  h.congr rfl (Scopes.listings_push _) rfl

/-! ## Closing a level -/

/-- What the closed level owned has no owner. -/
theorem Owned.shallower (h : Owned orphans m) {l : Level} (hl : m.scopes.innermost? = some l) :
    Owned (orphans ++ m.heap.releaseOrder l.allocs.toList) m.shallower := by
  refine ⟨h.valid, fun {id a} ha ho => ?_, h.account, fun hn => (h.tidy hn).fewer rfl fun index id => ?_⟩
  · rw [List.mem_append, not_or, Heap.mem_releaseOrder] at ho
    have hc := h.listed ha ho.1
    have hd := Scopes.listings_lt hc
    show 0 < m.scopes.outer.listings a.level id
    rw [Scopes.listings_outer]
    by_cases hi : a.level < m.scopes.depth - 1
    · rw [if_pos hi]
      exact hc
    · -- what the closed level listed is in the order of release
      refine absurd ⟨?_, a, ha⟩ ho.2
      have he : a.level = m.scopes.depth - 1 := by omega
      rw [he, Scopes.listings_innermost hl] at hc
      exact Array.mem_toList_iff.mpr (Array.count_pos_iff.mp hc)
  · show m.scopes.outer.listings index id ≤ _
    rw [Scopes.listings_outer]
    split
    · exact Nat.le_refl _
    · exact Nat.zero_le _

theorem Owned.dead {ids : List AllocId} (h : Owned (orphans ++ id :: ids) m) (hd : m.heap.get? id = none) :
    Owned (orphans ++ ids) m := by
  refine ⟨h.valid, fun {id' a} ha ho => h.listed ha fun hm => ?_, h.account, h.tidy⟩
  have hne : id' ≠ id := fun he => by rw [he, hd] at ha; cases ha
  simp only [List.mem_append, List.mem_cons, hne, false_or] at hm ho
  exact ho hm

/-! ## Releasing -/

/-- The generation does not start anew. -/
theorem Tidy.generation_lt (h : m.Tidy) (hn : m.heap.nextSeq < UInt32.size) (ha : m.heap.get? id = some a) :
    id.generation + 1 < UInt32.size := by
  have hy := h.young id.index
  rw [Heap.uses_live ha] at hy
  omega

theorem Tidy.taken (h : m.Tidy) (hn : m.heap.nextSeq < UInt32.size) (ha : m.heap.get? id = some a) :
    (m.taken id a).Tidy := by
  have hg := h.generation_lt hn ha
  refine ⟨fun index => ?_, fun {index id'} hl => ?_, fun ha' => ?_, fun ha' => ?_⟩
  · show (m.heap.remove id a.addr).uses index ≤ _
    rw [Heap.uses_remove ha hg]
    exact h.young index
  · show _ < (m.heap.remove id a.addr).uses id'.index
    rw [Heap.uses_remove ha hg]
    exact h.known hl
  · exact h.once ((Heap.get?_remove ha _).mp ha').1
  · exact h.only ((Heap.get?_remove ha _).mp ha').1

theorem Owned.handedOver (h : Owned orphans m) (ha : m.heap.get? id = some a) {rest : List AllocId}
    (hr : ∀ id', id' ≠ id → id' ∈ orphans → id' ∈ rest) : Owned rest (m.handedOver id a) := by
  refine ⟨h.valid.remove ha, fun {id' a'} ha' ho => ?_, ?_, fun hn => ?_⟩
  · obtain ⟨ha', hne⟩ := (Heap.get?_remove ha _).mp ha'
    exact h.listed ha' fun hm => ho (hr id' hne hm)
  · have hp := (Heap.live_remove ha a.addr).map Allocation.seq
    exact (List.perm_middle.trans (hp.append_right m.finalized)).trans h.account
  · exact ((h.tidy hn).taken hn ha).fewer rfl fun _ _ => Nat.le_refl _

theorem Owned.disowned (h : Owned orphans m) (id : AllocId) (a : Allocation) :
    Owned (id :: orphans) (m.disowned id a) := by
  refine ⟨h.valid, fun {id' b} hb ho => ?_, h.account, fun hn => (h.tidy hn).fewer rfl fun index id' => ?_⟩
  · rw [List.mem_cons, not_or] at ho
    show 0 < (m.scopes.removeAlloc a.level id).listings b.level id'
    rw [Scopes.listings_removeAlloc, if_neg fun he => ho.1 he.2.symm]
    exact h.listed hb ho.2
  · show (m.scopes.removeAlloc a.level id).listings index id' ≤ _
    rw [Scopes.listings_removeAlloc]
    split
    · exact Nat.zero_le _
    · exact Nat.le_refl _

/-! ## Creating and moving -/

theorem Tidy.allocated (h : m.Tidy) (hv : m.heap.Valid) (hd : a.level < m.scopes.depth) (next : UInt64) :
    (m.allocated a.level ((m.heap.numbered next).insert a)).Tidy := by
  have hv := hv.numbered next
  generalize hh : m.heap.numbered next = heap at hv
  have hn : heap.nextSeq = m.heap.nextSeq + 1 := hh ▸ rfl
  have hu (index) : heap.uses index = m.heap.uses index := hh ▸ rfl
  have hg (id) : heap.get? id = m.heap.get? id := hh ▸ rfl
  have hl := Scopes.listings_addAlloc hd
  -- the handle is not in any list, for all that are listed have been used
  have new (index : Nat) : m.scopes.listings index (heap.insert a).1 = 0 := by
    refine Nat.eq_zero_of_not_pos fun hp => ?_
    have hk := h.known hp
    rw [← hu, Heap.uses_new hv] at hk
    omega
  refine ⟨fun index => ?_, fun {index id} hp => ?_, fun {id b} hb => ?_, fun {id b index} hb hne => ?_⟩
  · show (heap.insert a).2.uses index ≤ (heap.insert a).2.nextSeq
    have hy := h.young index
    rw [Heap.uses_insert hv, Heap.nextSeq_insert, hn, hu]
    split <;> omega
  · show _ < (heap.insert a).2.uses id.index
    rw [Heap.uses_insert hv, hu]
    have hp : 0 < (m.scopes.addAlloc a.level (heap.insert a).1).listings index id := hp
    rw [hl] at hp
    by_cases he : (heap.insert a).1 = id
    · rw [← he, if_pos rfl, ← hu, Heap.uses_new hv]
      omega
    · rw [if_neg fun h => he h.2] at hp
      have hk := h.known hp
      omega
  · show (m.scopes.addAlloc a.level (heap.insert a).1).listings b.level id ≤ 1
    have hb : (heap.insert a).2.get? id = some b := hb
    rw [Heap.get?_insert hv, hg] at hb
    rw [hl]
    by_cases he : id = (heap.insert a).1
    · rw [he, new]
      split <;> omega
    · rw [if_neg he] at hb
      rw [if_neg fun h => he h.2.symm]
      exact h.once hb
  · show (m.scopes.addAlloc a.level (heap.insert a).1).listings index id = 0
    have hb : (heap.insert a).2.get? id = some b := hb
    rw [Heap.get?_insert hv, hg] at hb
    rw [hl]
    by_cases he : id = (heap.insert a).1
    · rw [if_pos he] at hb
      cases hb
      rw [he, new, if_neg fun h => hne h.1]
    · rw [if_neg he] at hb
      rw [if_neg fun h => he h.2.symm]
      exact h.only hb hne

theorem Owned.allocated (h : Owned orphans m) (hs : a.seq = m.heap.nextSeq) (hd : a.level < m.scopes.depth)
    (next : UInt64) : Owned orphans (m.allocated a.level ((m.heap.numbered next).insert a)) := by
  have hv := h.valid.numbered next
  have hn := Heap.nextSeq_insert (m.heap.numbered next) a
  refine ⟨hv.insert a, fun {id b} hb ho => ?_, ?_, fun hlt => ?_⟩
  · show 0 < (m.scopes.addAlloc a.level ((m.heap.numbered next).insert a).1).listings b.level id
    have hb : ((m.heap.numbered next).insert a).2.get? id = some b := hb
    rw [Heap.get?_insert hv] at hb
    rw [Scopes.listings_addAlloc hd]
    split at hb
    case isTrue he =>
      cases hb
      rw [if_pos ⟨rfl, he.symm⟩]
      omega
    case isFalse => exact Nat.add_pos_left (h.listed hb ho) _
  · show (((m.heap.numbered next).insert a).2.live.map Allocation.seq ++ m.finalized).Perm
      (List.range ((m.heap.numbered next).insert a).2.nextSeq)
    rw [hn]
    show List.Perm _ (List.range (m.heap.nextSeq + 1))
    rw [List.range_succ, ← hs]
    refine (((Heap.live_insert hv a).map Allocation.seq).append_right _).trans ?_
    exact (h.account.cons a.seq).trans (hs ▸ (List.perm_append_singleton _ _).symm)
  · have hlt : ((m.heap.numbered next).insert a).2.nextSeq < UInt32.size := hlt
    rw [hn] at hlt
    exact (h.tidy (Nat.lt_of_succ_lt hlt)).allocated h.valid hd next

theorem heap_moved (m : Machine) (id : AllocId) (level : Nat) :
    (m.moved id level).heap = m.heap.setLevel id level := rfl

theorem listings_moved (ha : m.heap.get? id = some a) (hd : level < m.scopes.depth) (index : Nat) (id' : AllocId) :
    (m.moved id level).scopes.listings index id' =
      (if a.level = index ∧ id = id' then 0 else m.scopes.listings index id') +
        if level = index ∧ id = id' then 1 else 0 := by
  have hs : (m.moved id level).scopes = (m.scopes.removeAlloc a.level id).addAlloc level id := by rw [moved, ha]
  have hd : level < (m.scopes.removeAlloc a.level id).depth := by
    rw [Scopes.removeAlloc, Scopes.depth_modifyLevel]
    exact hd
  rw [hs, Scopes.listings_addAlloc hd, Scopes.listings_removeAlloc]

theorem Tidy.moved (h : m.Tidy) (ha : m.heap.get? id = some a) (hd : level < m.scopes.depth) :
    (m.moved id level).Tidy := by
  have hn : (m.heap.setLevel id level).nextSeq = m.heap.nextSeq := by simp only [Heap.setLevel, ha]
  have hl := listings_moved ha hd
  -- it was in no list but that of its old level
  have one (index : Nat) : (m.moved id level).scopes.listings index id = if level = index then 1 else 0 := by
    rw [hl]
    by_cases hi : a.level = index
    · simp [hi]
    · simp [hi, h.only ha hi]
  refine ⟨fun index => ?_, fun {index id'} hp => ?_, fun {id' b} hb => ?_, fun {id' b index} hb hne => ?_⟩
  · rw [heap_moved, Heap.uses_setLevel ha, hn]
    exact h.young index
  · rw [heap_moved, Heap.uses_setLevel ha]
    rw [hl] at hp
    by_cases he : id = id'
    · rw [← he, Heap.uses_live ha]
      omega
    · rw [if_neg fun h => he h.2, if_neg fun h => he h.2] at hp
      exact h.known hp
  · rw [heap_moved, Heap.get?_setLevel ha] at hb
    by_cases he : id' = id
    · rw [he, one]
      split <;> omega
    · rw [if_neg he] at hb
      rw [hl, if_neg fun h => he h.2.symm, if_neg fun h => he h.2.symm]
      exact h.once hb
  · rw [heap_moved, Heap.get?_setLevel ha] at hb
    by_cases he : id' = id
    · rw [if_pos he] at hb
      cases hb
      rw [he, one, if_neg hne]
    · rw [if_neg he] at hb
      rw [hl, if_neg fun h => he h.2.symm, if_neg fun h => he h.2.symm]
      exact h.only hb hne

theorem Owned.moved (h : Owned orphans m) (ha : m.heap.get? id = some a) (hd : level < m.scopes.depth) :
    Owned orphans (m.moved id level) := by
  have hn : (m.heap.setLevel id level).nextSeq = m.heap.nextSeq := by simp only [Heap.setLevel, ha]
  refine ⟨h.valid.setLevel ha level, fun {id' b} hb ho => ?_, ?_, fun hlt => ?_⟩
  · rw [heap_moved, Heap.get?_setLevel ha] at hb
    rw [listings_moved ha hd]
    by_cases he : id' = id
    · rw [if_pos he] at hb
      cases hb
      rw [if_pos (⟨rfl, he.symm⟩ : level = level ∧ id = id')]
      omega
    · rw [if_neg he] at hb
      rw [if_neg fun h => he h.2.symm]
      exact Nat.add_pos_left (h.listed hb ho) _
  · have hf : (m.moved id level).finalized = m.finalized := by
      rw [finalized, Machine.moved, ha]
      rfl
    rw [heap_moved, hn, hf]
    exact ((Heap.live_setLevel ha level).append_right _).trans h.account
  · rw [heap_moved, hn] at hlt
    exact (h.tidy hlt).moved ha hd

end

end Machine

/-! ## Sessions -/

namespace Machine

open Exec Interp

theorem Unused.listings_start {m : Machine} (h : m.Unused) (index : Nat) (id : AllocId) :
    m.start.scopes.listings index id = 0 := by
  have hs : m.start.scopes = ({} : Scopes).push.add NameId.result (.atAddress TypeTable.void m.addresses.slot) := by
    rw [start, h.scopes]
    rfl
  have ho : m.start.scopes.owned = #[#[]] := by
    simp [hs, Scopes.add, Scopes.owned, Scopes.modifyLevel, Scopes.push, Scopes.depth]
  rw [Scopes.listings, ho]
  cases index <;> rfl

theorem Unused.owned {m : Machine} (h : m.Unused) : m.start.Owned [] := by
  have hh : m.start.heap = {} := h.heap
  have hj : m.start.finalized = [] := congrArg (List.filterMap _) h.journal
  have dead {id : AllocId} {a : Allocation} (ha : m.start.heap.get? id = some a) : False := by
    rw [hh] at ha
    cases ha
  refine ⟨hh ▸ ⟨List.nodup_nil, nofun, fun hf => ?_⟩, fun ha => (dead ha).elim, ?_, fun _ => ?_⟩
  · rw [Std.HashMap.getElem?_empty] at hf
    cases hf
  · rw [hh, hj]
    exact .nil
  · refine ⟨fun index => ?_, fun hp => ?_, fun ha => (dead ha).elim, fun ha => (dead ha).elim⟩
    · rw [hh]
      exact Nat.le_refl 0
    · rw [h.listings_start] at hp
      cases hp

def ownership : Custody where
  holds := Owned
  alike := .alike
  deeper := .deeper
  shallower h hl := h.shallower hl
  dead := .dead
  handedOver h ha := h.handedOver ha fun id' hne hm => by simpa [hne] using hm
  allocated := .allocated
  moved h hf hd := by
    obtain ⟨a, ha, -⟩ := h.valid.found hf
    exact h.moved ha hd
  freed {orphans m id a} h ha :=
    (h.disowned id a).handedOver ha fun id' hne hm => (List.mem_cons.mp hm).resolve_left hne
  start h := h.owned

theorem Reached.owned {m : Machine} (h : m.Reached) : m.Owned [] := ownership.of_reached h

theorem Owned.live_eq_nil {m : Machine} (h : m.Owned []) (hd : m.scopes.depth = 0) : m.heap.live = [] := by
  refine List.eq_nil_iff_forall_not_mem.mpr fun a ha => ?_
  obtain ⟨id, ha⟩ := Heap.mem_live.mp ha
  have hl := Scopes.listings_lt (h.listed ha List.not_mem_nil)
  omega

theorem Owned.closeAll {m : Machine} (n k : Nat) (ho : m.Owned []) :
    (closeTo (ofFuel n).closeLevel 0 k).Ends m
      (fun _ m' => m'.heap.live = [] ∧ m'.heap.isEmpty = true ∧ m'.finalized.Perm (List.range m'.heap.nextSeq))
      (fun _ _ => False) := by
  have hc := ownership.closeTo_holds n 0 k (Nat.zero_le _) ho
  refine ends_iff.mpr ⟨fun _ m' h' => ?_, fun _ _ h' => hc.raised h'⟩
  have h0 := (closeTo_depth _ 0 k m).ok h'
  have ho' := hc.ok h'
  have hl := ho'.live_eq_nil (Nat.le_zero.mp h0)
  have hp := ho'.account
  rw [hl] at hp
  exact ⟨hl, ho'.valid.isEmpty hl, hp⟩

/-- After every run and the way back, each allocation belongs to the outermost level, the only one,
and is listed there; the list has it once, as long as generations can tell handles apart. Each
allocation that was ever created is either there or has been released, once, and closing all levels
in the end releases those that are left. -/
theorem reached_owned {m : Machine} (hm : m.Reached) :
    (∀ id a, m.heap.get? id = some a → a.level = 0 ∧ 0 < m.scopes.listings 0 id ∧
      (∀ index, index ≠ 0 → m.scopes.listings index id = 0) ∧
      (m.heap.nextSeq < UInt32.size → m.scopes.listings 0 id = 1)) ∧
    (m.heap.live.map Allocation.seq ++ m.finalized).Perm (List.range m.heap.nextSeq) ∧
    ∀ n, (ofFuel n).shutdown.Ends m
      (fun _ m' => m'.heap.live = [] ∧ m'.heap.isEmpty = true ∧ m'.finalized.Perm (List.range m'.heap.nextSeq))
      (fun _ _ => False) := by
  have ho := hm.owned
  have hd := hm.settled.depth
  refine ⟨fun id a ha => ?_, ho.account, fun n => ?_⟩
  · have hl := ho.listed ha List.not_mem_nil
    have hlt := Scopes.listings_lt hl
    have h0 : a.level = 0 := by omega
    rw [h0] at hl
    refine ⟨h0, hl, fun index hi => ?_, fun hn => ?_⟩
    · refine Nat.eq_zero_of_not_pos fun hp => hi ?_
      have hlt := Scopes.listings_lt hp
      omega
    · have honce := (ho.tidy hn).once ha
      rw [h0] at honce
      omega
  · exact ends_modify.mpr (Owned.closeAll n _ (ho.alike ⟨rfl, rfl, rfl⟩))

/-- After a run that moves two numbers to the outermost level and deletes one of them there. -/
theorem reached_owned_moved : ∃ m,
    Session.finish (ofFuel 10) ((Script.text movingText "").body (ofFuel 10)) (start {}) = .ok () m ∧
      m.heap.get? ⟨0, 0⟩ = some keptNumber ∧ m.scopes.listings 0 ⟨0, 0⟩ = 1 ∧ m.finalized = [1] ∧
      (m.heap.live.map Allocation.seq).Perm [0] ∧
      (ofFuel 10).shutdown.Ends m
        (fun _ m' => m'.heap.live = [] ∧ m'.heap.isEmpty = true ∧ m'.finalized.Perm (List.range m'.heap.nextSeq))
        (fun _ _ => False) := by
  obtain ⟨m, h, hr⟩ := moving_runs
  have hm : Reached m := .run 10 (.text movingText "") (.start ⟨rfl, rfl, rfl, rfl, rfl, rfl⟩) (.inl ⟨(), hr⟩)
  obtain ⟨hlisted, haccount, hshutdown⟩ := reached_owned hm
  have hfinalized : m.finalized = [1] := by
    rw [finalized, h.journal]
    rfl
  have hn : m.heap.nextSeq < UInt32.size := h.next ▸ (by decide : 2 < UInt32.size)
  obtain ⟨-, -, -, honce⟩ := hlisted _ _ h.kept
  rw [hfinalized, h.next] at haccount
  exact ⟨m, hr, h.kept, honce hn, hfinalized, (List.perm_append_right_iff [1]).mp haccount, hshutdown 10⟩

end Machine

end LevelScript
