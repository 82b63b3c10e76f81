import LevelScript.Proofs.Destructors
import LevelScript.Proofs.Fates
import LevelScript.Proofs.NativeEntry
import LevelScript.Proofs.OpenCalls

/-!
# Closing a level

What a level owned when it is closed is released in a fixed order, structs first and the newest of each sort
before the others. A method `delete` that fails is reported, and the levels and calls that it left open are
closed; the turn of the next allocation comes all the same. Only what a script deletes meanwhile has no turn
of its own.
-/

namespace LevelScript

/-! ## The order of release -/

/-- Structs come first, and of two structs or two others the one that was made later. -/
def Allocation.Before (a b : Allocation) : Prop :=
  a.cleanup = .struct ∧ b.cleanup ≠ .struct ∨ (a.cleanup = .struct ↔ b.cleanup = .struct) ∧ b.seq < a.seq

namespace Heap

def queue (h : Heap) (ids : List AllocId) : List (AllocId × Allocation) :=
  (ids.filterMap fun id => (h.get? id).map fun a => (id, a)).mergeSort fun x y => releasedBefore x.2 y.2

section
variable {h : Heap} {ids : List AllocId} {id : AllocId} {a b c : Allocation}

theorem map_queue (h : Heap) (ids : List AllocId) : (h.queue ids).map Prod.fst = h.releaseOrder ids := rfl

theorem mem_queue : (id, a) ∈ h.queue ids ↔ id ∈ ids ∧ h.get? id = some a := by
  simp [queue, Prod.ext_iff, and_left_comm]

theorem queue_nodup (hc : ∀ id a, h.get? id = some a → ids.count id ≤ 1) : ((h.queue ids).map Prod.fst).Nodup := by
  refine (((List.mergeSort_perm ..).map Prod.fst).nodup_iff).mpr ?_
  have hf : (ids.filterMap fun id => (h.get? id).map fun a => (id, a)).map Prod.fst =
      ids.filter fun id => (h.get? id).isSome := by
    rw [List.map_filterMap, ← List.filterMap_eq_filter]
    refine congrArg (ids.filterMap ·) (funext fun id => ?_)
    cases hl : h.get? id <;> simp [Option.guard, hl]
  rw [hf, List.nodup_iff_count]
  intro id
  cases ha : h.get? id with
  | some a =>
    rw [List.count_filter (p := fun id => (h.get? id).isSome) (by rw [ha]; rfl)]
    exact hc id a ha
  | none =>
    rw [List.count_eq_zero.mpr fun hm => by simp [ha] at hm]
    exact Nat.zero_le 1

theorem releasedBefore_iff : releasedBefore a b = true ↔
    a.cleanup = .struct ∧ b.cleanup ≠ .struct ∨ (a.cleanup = .struct ↔ b.cleanup = .struct) ∧ b.seq ≤ a.seq := by
  have hp (x : Allocation) : (x.cleanup != .struct) = !decide (x.cleanup = .struct) := rfl
  simp only [releasedBefore, hp]
  by_cases ha : a.cleanup = .struct <;> by_cases hb : b.cleanup = .struct <;> simp [ha, hb]

theorem releasedBefore_trans (h : releasedBefore a b = true) (h' : releasedBefore b c = true) :
    releasedBefore a c = true := by
  rw [releasedBefore_iff] at *
  by_cases ha : a.cleanup = .struct <;> by_cases hb : b.cleanup = .struct <;> by_cases hc : c.cleanup = .struct <;>
    simp_all <;> omega

theorem releasedBefore_total (a b : Allocation) : (releasedBefore a b || releasedBefore b a) = true := by
  rw [Bool.or_eq_true, releasedBefore_iff, releasedBefore_iff]
  by_cases ha : a.cleanup = .struct <;> by_cases hb : b.cleanup = .struct <;> simp [ha, hb] <;> omega

theorem queue_ordered (hn : ((h.queue ids).map Prod.fst).Nodup)
    (hs : ∀ id id' a b, h.get? id = some a → h.get? id' = some b → a.seq = b.seq → id = id') :
    ((h.queue ids).map Prod.snd).Pairwise Allocation.Before := by
  have trans (x y z : AllocId × Allocation) (h : releasedBefore x.2 y.2 = true)
    (h' : releasedBefore y.2 z.2 = true) :
      releasedBefore x.2 z.2 = true := releasedBefore_trans h h'
  have hp : (h.queue ids).Pairwise fun x y => releasedBefore x.2 y.2 = true :=
    List.pairwise_mergeSort trans (fun x y => releasedBefore_total x.2 y.2) _
  rw [List.pairwise_map]
  refine (hp.and (List.pairwise_map.mp hn)).imp_of_mem fun {x y} hx hy hxy => ?_
  -- of one sort they have different numbers
  have hne : x.2.seq ≠ y.2.seq := fun he => hxy.2 (hs _ _ _ _ (mem_queue.mp hx).2 (mem_queue.mp hy).2 he)
  refine (releasedBefore_iff.mp hxy.1).imp_right fun h => ⟨h.1, ?_⟩
  have := h.2
  omega

end

end Heap

namespace Machine

def releases (m : Machine) : List Allocation := (m.heap.queue m.innermost).map Prod.snd

/-- What the innermost level owns and no script deletes up to a later machine. -/
def spared (m m' : Machine) : List Allocation := m.releases.filter fun a => .deleted a.seq ∉ m.since m'

section
variable {m : Machine} {orphans : List AllocId} {a : Allocation}

theorem count_innermost (m : Machine) (id : AllocId) :
    m.innermost.count id = m.scopes.listings (m.scopes.depth - 1) id := by
  rw [innermost]
  cases hl : m.scopes.innermost? with
  | some l => rw [Scopes.listings_innermost hl, Array.count_toList]
  | none =>
    rw [Scopes.innermost?, Array.back?_eq_none_iff] at hl
    simp [Scopes.listings, Scopes.owned, hl]

theorem mem_innermost {id : AllocId} : id ∈ m.innermost ↔ 0 < m.scopes.listings (m.scopes.depth - 1) id := by
  rw [← count_innermost, List.count_pos_iff]

theorem mem_releases : a ∈ m.releases ↔
    ∃ id, m.heap.get? id = some a ∧ 0 < m.scopes.listings (m.scopes.depth - 1) id := by
  rw [releases, List.mem_map]
  constructor
  · rintro ⟨⟨id, b⟩, hm, rfl⟩
    obtain ⟨hid, ha⟩ := Heap.mem_queue.mp hm
    exact ⟨id, ha, mem_innermost.mp hid⟩
  · rintro ⟨id, ha, hl⟩
    exact ⟨(id, a), Heap.mem_queue.mpr ⟨mem_innermost.mpr hl, ha⟩, rfl⟩

/-- No handle is twice in the queue of a level. -/
theorem Owned.queue_nodup (h : m.Owned orphans) (hn : m.heap.nextSeq < UInt32.size) :
    ((m.heap.queue m.innermost).map Prod.fst).Nodup := by
  refine Heap.queue_nodup fun id a ha => ?_
  have ht := h.tidy hn
  rw [count_innermost]
  by_cases he : a.level = m.scopes.depth - 1
  · exact he ▸ ht.once ha
  · rw [ht.only ha he]
    exact Nat.zero_le 1

theorem Owned.releases_ordered (h : m.Owned orphans) (hn : m.heap.nextSeq < UInt32.size) :
    m.releases.Pairwise Allocation.Before :=
  Heap.queue_ordered (h.queue_nodup hn) fun _ _ _ _ => h.eq_of_seq

end

end Machine

namespace Interp

open Exec Machine

/-- What is done with an allocation that has been handed over. The function in the field `delete` of a struct is
called, if there is one. If the call fails, the report is written and the levels and calls beyond those that there
were are closed. -/
inductive Turn (i : Interp) (close : Exec Unit) (depth : Nat) (a : Allocation) (m : Machine) : Machine → Prop
  | nothing : a.cleanup = .nothing → Turn i close depth a m m
  | function {id m'} : a.cleanup = .function id → releaseFunction id m = .ok () m' → Turn i close depth a m m'
  | unset {m'} : a.cleanup = .struct → (∀ p f, ¬m.MethodAt a.type a.addr NameId.destructor p f) →
      m.SameButFault m' →
    Turn i close depth a m m'
  | destructed {p f v m'} : a.cleanup = .struct → m.MethodAt a.type a.addr NameId.destructor p f →
    i.call f [] m = .ok v m' → Turn i close depth a m m'
  | failed {p f e m₁ m₂} : a.cleanup = .struct → m.MethodAt a.type a.addr NameId.destructor p f →
    i.call f [] m = .error (.raised e) m₁ →
    closeTo close depth i.fuel ((m₁.reported e).cutTo m.frames.size) = .ok () m₂ →
    Turn i close depth a m { m₂ with control := .running }

inductive Teardown (i : Interp) (close : Exec Unit) (depth : Nat) : List Allocation → Machine → Machine → Prop
  | done {m} : Teardown i close depth [] m m
  | turn {id a as m m₁ m'} : m.heap.get? id = some a → Turn i close depth a (m.handedOver id a) m₁ →
    Teardown i close depth as m₁ m' → Teardown i close depth (a :: as) m m'

section
variable {i : Interp} {close : Exec Unit} {d n : Nat} {m m' m₁ : Machine} {a : Allocation} {id : AllocId}

theorem discard_cases {α : Type} {x : Exec α} {o : Except RunError Unit} (h : attempt (discard x) m = .ok o m₁) :
    (∃ a, o = .ok () ∧ x m = .ok a m₁) ∨ ∃ e, o = .error e ∧ x m = .error (.raised e) m₁ := by
  have he : (attempt (discard x)).Ends m
      (fun o m₁ => (∃ a, o = .ok () ∧ x m = .ok a m₁) ∨ ∃ e, o = .error e ∧ x m = .error (.raised e) m₁)
          (fun _ _ => True) :=
    ends_attempt.mpr (ends_map.mpr (ends_iff.mpr ⟨fun a _ h => .inl ⟨a, rfl, h⟩, fun e _ h => .inr ⟨e, rfl, h⟩⟩))
  exact he.ok h

theorem finalize_turn (h : i.finalize close d a m = .ok () m') :
    Turn i close d a (m.noted (.finalized a.seq)) m' := by
  cases hc : a.cleanup with
  | nothing =>
    rw [finalize, hc] at h
    cases h
    exact .nothing hc
  | function id =>
    rw [finalize, hc] at h
    exact .function hc h
  | struct =>
    rw [finalize_struct i close d m hc] at h
    obtain ⟨o, m₁, ha, h⟩ := bind_eq_ok h
    obtain ⟨p, f, hm, hcall⟩ | ⟨hn, m₂, hs, hcall⟩ :=
      callMethod_cases i (m.noted (.finalized a.seq)) a.type a.addr NameId.destructor
    · have ha : attempt (discard (i.call f [])) (m.noted (.finalized a.seq)) = .ok o m₁ := by
        rw [← ha, attempt, attempt, hcall]
      obtain ⟨v, rfl, hx⟩ | ⟨e, rfl, hx⟩ := discard_cases ha
      · cases h
        exact .destructed hc hm hx
      · -- the report is written, and then the way back begins
        obtain ⟨⟨⟩, m₂, hl, h⟩ := bind_eq_ok h
        cases hl
        obtain ⟨⟨⟩, m₃, hu, h⟩ := bind_eq_ok h
        cases h
        exact .failed hc hm hx hu
    · cases (attempt_ok hcall).symm.trans ha
      cases h
      exact .unset hc hn hs

/-- Whatever a law of allocations says is kept by the turn of an allocation. -/
theorem finalize_holds (C : Upkeep) (hc : C.law.Closes close) (hd : d ≤ m.scopes.depth)
    (h : (ofFuel n).finalize close d a (m.taken id a) = .ok () m₁) :
    d ≤ m₁.scopes.depth ∧ ∀ orphans, C.holds orphans (m.handedOver id a) → C.holds orphans m₁ := by
  have hh : Hands C d [] (m.handedOver id a) (m.handedOver id a) := .of hd fun _ h => h
  have he : Hands C d [] (m.handedOver id a) m₁ := (Law.finalize_ends (Law.sound_ofFuel C.law n) hc a hh).ok h
  exact ⟨he.depth, fun _ => he.none⟩

theorem finalize_precedes (hc : ∀ L : Law, L.Closes close) (hd : d ≤ m.scopes.depth)
    (h : (ofFuel n).finalize close d a (m.taken id a) = .ok () m₁) : (m.handedOver id a).Precedes m₁ :=
  (finalize_holds (progress (m.handedOver id a)) (hc _) hd h).2 [] (.refl _)

theorem finalizeAll_precedes {ids : List AllocId} (hc : ∀ L : Law, L.Closes close) (hd : d ≤ m.scopes.depth)
    (h : (ofFuel n).finalizeAll close d ids m = .ok () m') : m.Precedes m' := by
  have hh : Hands (progress m) d ids m m := ⟨hd, fun h => h⟩
  have he : Hands (progress m) d [] m m' :=
    (Law.finalizeAll_ends (Law.sound_ofFuel (progress m).law n) (hc _) ids m hh).ok h
  exact he.none (show (progress m).holds [] m from .refl m)

/-- What waits while a level is being closed: each allocation is as it was, or has been deleted. -/
structure Queued (m₀ : Machine) (orphans : List AllocId) (d : Nat) (queue : List (AllocId × Allocation))
    (m : Machine) : Prop where
  depth : d ≤ m.scopes.depth
  owned : m.Owned (orphans ++ queue.map Prod.fst)
  since : m₀.Precedes m
  nodup : (queue.map Prod.fst).Nodup
  fate {id : AllocId} {a : Allocation} : (id, a) ∈ queue → m.Adrift id a ∨ m.Spent id ∧ .deleted a.seq ∈ m₀.since m

variable {m₀ : Machine} {orphans : List AllocId} {queue : List (AllocId × Allocation)}

theorem Queued.dead (h : Queued m₀ orphans d ((id, a) :: queue) m) (hd : m.heap.get? id = none) :
    Queued m₀ orphans d queue m :=
  ⟨h.depth, h.owned.dead hd, h.since, h.nodup.of_cons, fun hm => h.fate (List.mem_cons_of_mem _ hm)⟩

/-- The turn of one leaves the others waiting. -/
theorem Queued.turn (hc : ∀ L : Law, L.Closes close) (h : Queued m₀ orphans d ((id, a) :: queue) m) {b : Allocation}
    (hb : m.heap.get? id = some b) (hr : (ofFuel n).finalize close d b (m.taken id b) = .ok () m₁)
    (hn : m₁.heap.nextSeq < UInt32.size) (hm : ∀ p ∈ queue, ∀ level, .placed p.2.seq level ∉ m₀.since m₁) :
    Queued m₀ orphans d queue m₁ := by
  have ho := ownership.handedOver h.owned hb
  have hs := h.since.trans (precedes_handedOver m id b)
  obtain ⟨hd, hown⟩ := finalize_holds ownership.toUpkeep (hc _) h.depth hr
  refine ⟨hd, hown _ ho, hs.trans (finalize_precedes hc h.depth hr), h.nodup.of_cons, fun {id' a'} hmem => ?_⟩
  have hne : id ≠ id' := by
    rintro rfl
    exact (List.nodup_cons.mp h.nodup).1 (List.mem_map.mpr ⟨_, hmem, rfl⟩)
  have hw : Watched m₀ (orphans ++ queue.map Prod.fst) id' a' [] (m.handedOver id b) := by
    refine ⟨(List.append_nil _).symm ▸ ho, hs, fun hn _ => ?_⟩
    have hg := (h.owned.tidy hn).generation_lt hn hb
    have hw : Waits m₀ id' a' [id] m := ⟨by simpa using hne.symm, h.fate (List.mem_cons_of_mem _ hmem)⟩
    exact hw.handedOver h.since hb hg List.mem_cons_self nofun
  have hw := (finalize_holds (watch m₀ (orphans ++ queue.map Prod.fst) id' a') (hc _) h.depth hr).2 [] hw
  exact (hw.waits hn (hm _ hmem)).fate

/-- What waits is released in the order of the queue, but for what is deleted meanwhile. -/
theorem Queued.tornDown (hc : ∀ L : Law, L.Closes close) (hn : m'.heap.nextSeq < UInt32.size)
    (ho : m'.Owned orphans) :
    ∀ {queue : List (AllocId × Allocation)} {m : Machine}, Queued m₀ orphans d queue m →
    (ofFuel n).finalizeAll close d (queue.map Prod.fst) m = .ok () m' →
    (∀ p ∈ queue, ∀ level, .placed p.2.seq level ∉ m₀.since m') →
    Teardown (ofFuel n) close d ((queue.map Prod.snd).filter fun a => .deleted a.seq ∉ m₀.since m') m m' ∧
      ∀ p ∈ queue, p.2.seq ∈ m'.finalized
  | [], m, h, hr, hm => by
    cases hr
    exact ⟨.done, nofun⟩
  | (id, a) :: queue, m, h, hr, hm => by
    rw [List.forall_mem_cons] at hm ⊢
    rw [List.map_cons, finalizeAll] at hr
    cases hb : m.heap.get? id with
    | none =>
      -- Something earlier in the queue has deleted it, so it is not among those that this teardown deletes.
      rw [bind_ok (takeAllocation_dead hb)] at hr
      have hr : (ofFuel n).finalizeAll close d (queue.map Prod.fst) m = .ok () m' := hr
      have hp := finalizeAll_precedes hc h.depth hr
      have hdel : .deleted a.seq ∈ m₀.since m' := by
        obtain ha | ⟨-, hd⟩ := h.fate List.mem_cons_self
        · cases hb.symm.trans ha.found
        · exact (h.since.mem_since hp).mpr (.inr hd)
      obtain ⟨ht, hf⟩ := Queued.tornDown hc hn ho (h.dead hb) hr hm.2
      refine ⟨?_, (h.since.trans hp).finalized_of_deleted hdel, hf⟩
      rw [List.map_cons, List.filter_cons_of_neg (by simpa using hdel)]
      exact ht
    | some b =>
      obtain rfl : b = a := by
        obtain ha | ⟨hs, -⟩ := h.fate List.mem_cons_self
        · exact Option.some.inj (hb.symm.trans ha.found)
        · cases hs.dead.symm.trans hb
      rw [bind_ok (takeAllocation_live hb)] at hr
      obtain ⟨⟨⟩, m₁, hf, hr⟩ := bind_eq_ok hr
      have hp := finalize_precedes hc h.depth hf
      have hp₁ := finalizeAll_precedes hc (finalize_holds ownership.toUpkeep (hc _) h.depth hf).1 hr
      have hs₁ := h.since.trans ((precedes_handedOver m id b).trans hp)
      -- Finalizing it may delete others of the queue, but none is moved, so the rest still waits in order.
      have hq : Queued m₀ orphans d queue m₁ := by
        refine h.turn hc hb hf (Nat.lt_of_le_of_lt hp₁.numbers hn) fun p hmem level hpl => ?_
        exact hm.2 p hmem level ((hs₁.mem_since hp₁).mpr (.inr hpl))
      obtain ⟨ht, hfin⟩ := Queued.tornDown hc hn ho hq hr hm.2
      refine ⟨?_, (hp.trans hp₁).finalized (mem_finalized.mpr List.mem_cons_self), hfin⟩
      rw [List.map_cons, List.filter_cons_of_pos (by simpa using h.owned.not_deleted hb h.since (hp.trans hp₁) ho)]
      exact .turn hb (finalize_turn hf) ht

end

end Interp

/-! ## Closing levels -/

namespace Machine

open Exec Interp

/-- A level has been closed. What it owned and no script deleted meanwhile had its turn, one after the other
and nothing else in between, unless some of it was moved; and all that it owned was released once. Unless
native code was called, there is one level less, and the calls are the same, at the same places. -/
structure TornDown (i : Interp) (m m' : Machine) : Prop where
  owns (a : Allocation) : a ∈ m.releases ↔
    ∃ id, m.heap.get? id = some a ∧ 0 < m.scopes.listings (m.scopes.depth - 1) id
  ordered : m.releases.Pairwise Allocation.Before
  turns : (∀ a ∈ m.releases, ∀ level, .placed a.seq level ∉ m.since m') →
    (∃ k, Teardown i (i.closeLevelWithin k) (m.scopes.depth - 1) (m.spared m') m.shallower m') ∧
      ∀ a ∈ m.releases, m'.finalized.count a.seq = 1
  restored : 0 < m.frames.size → m'.nativeCalls = m.nativeCalls →
    m'.scopes.depth = m.scopes.depth - 1 ∧ m'.frames = m.frames

variable {m m' : Machine} {orphans : List AllocId} {n k d : Nat}

theorem innermost?_eq (hd : 0 < m.scopes.depth) : ∃ l, m.scopes.innermost? = some l ∧
    l.allocs.toList = m.innermost := by
  obtain ⟨l, hl, he⟩ := level_innermost hd
  rw [Scopes.innermost?, Array.back?_eq_getElem?]
  exact ⟨l, hl, he⟩

theorem closeLevelWithin_eq (i : Interp) (k : Nat) (hd : 0 < m.scopes.depth) : i.closeLevelWithin (k + 1) m =
    i.finalizeAll (i.closeLevelWithin k) (m.scopes.depth - 1)
    ((m.heap.queue m.innermost).map Prod.fst) m.shallower := by
  obtain ⟨l, hl, hi⟩ := innermost?_eq hd
  have hpop : popLevel? m = .ok (some l) { m with scopes := m.scopes.outer } := by rw [← hl]; rfl
  rw [closeLevelWithin, bind_ok hpop, ← Scopes.depth_outer, Heap.map_queue, ← hi]
  rfl

/-- What a level owned is in no list when it has been taken away. -/
theorem Owned.queued (ho : m.Owned orphans) (hn : m.heap.nextSeq < UInt32.size) (hd : 0 < m.scopes.depth) :
    Queued m orphans (m.scopes.depth - 1) (m.heap.queue m.innermost) m.shallower := by
  refine ⟨Nat.le_of_eq (Scopes.depth_outer _).symm, ?_, precedes_shallower m, ho.queue_nodup hn,
    fun {id a} hm => ?_⟩
  · obtain ⟨l, hl, hi⟩ := innermost?_eq hd
    rw [Heap.map_queue, ← hi]
    exact ho.shallower hl
  · obtain ⟨hid, ha⟩ := Heap.mem_queue.mp hm
    refine .inl ⟨ha, fun index => ?_⟩
    show m.scopes.outer.listings index id = 0
    rw [Scopes.listings_outer]
    split
    case isTrue hlt =>
      -- a live handle is in one list, and this is the one of the closed level
      have hp := mem_innermost.mp hid
      refine (ho.tidy hn).only ha fun he => ?_
      rw [(ho.tidy hn).only ha (show a.level ≠ m.scopes.depth - 1 by omega)] at hp
      cases hp
    case isFalse => rfl

theorem Owned.closed (ho : m.Owned orphans) (hd : 0 < m.scopes.depth)
    (h : (ofFuel n).closeLevelWithin k m = .ok () m') : m'.Owned orphans ∧ m.Precedes m' := by
  have closes (C : Upkeep) : Hands C (m.scopes.depth - 1) [] m m' :=
    (Law.closeLevelWithin_closes (Law.sound_ofFuel C.law n) k m hd).ok h
  exact ⟨(closes ownership.toUpkeep).none ho,
    (closes (progress m)).none (show (progress m).holds [] m from .refl m)⟩

theorem Owned.tornDown (ho : m.Owned orphans) (hd : 0 < m.scopes.depth)
    (h : (ofFuel n).closeLevelWithin k m = .ok () m')
    (hn : m'.heap.nextSeq < UInt32.size) : m.TornDown (ofFuel n) m' := by
  obtain ⟨ho', hp⟩ := ho.closed hd h
  have hn₀ := Nat.lt_of_le_of_lt hp.numbers hn
  refine ⟨fun _ => mem_releases, ho.releases_ordered hn₀, fun hm => ?_, fun hf hq => ⟨?_, ?_⟩⟩
  · cases k with
    | zero => cases h
    | succ k =>
      have hc (L : Law) := Law.closeLevelWithin_closes (Law.sound_ofFuel L n) k
      have hr := (closeLevelWithin_eq (ofFuel n) k hd).symm.trans h
      obtain ⟨ht, hf⟩ := (ho.queued hn₀ hd).tornDown hc hn ho' hr fun p hmem =>
        hm p.2 (List.mem_map.mpr ⟨p, hmem, rfl⟩)
      refine ⟨⟨k, ht⟩, fun a ha => ?_⟩
      obtain ⟨p, hmem, rfl⟩ := List.mem_map.mp ha
      have hnodup : m'.finalized.Nodup := (List.nodup_append.mp (ho'.account.nodup_iff.mpr List.nodup_range)).2.1
      rw [hnodup.count, if_pos (hf p hmem)]
  · have hb : Balanced (m.scopes.depth - 1) m m' :=
      (Law.closeLevelWithin_closes (Law.sound_ofFuel balance n) k m hd).ok h
    exact (hb.2 ⟨hq, hf⟩).1
  · exact ((closeLevelWithin_keepsCalls n k m).ok h).frames hq hf

end Machine

end LevelScript
