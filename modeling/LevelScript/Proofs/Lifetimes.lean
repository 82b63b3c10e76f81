import LevelScript.Proofs.Ownership

/-!
# How long an allocation lives

An allocation that was given to a level stays until that level is closed, unless a script deletes it or
moves it on. There is one exception. What a level owns is listed when the level is closed, before any
method `delete` runs, and all of the list is released: to move an allocation while it waits there gives it
another level, but does not save it.
-/

namespace LevelScript

/-! ## Histories -/

namespace History

variable {seq level : Nat} {e : Event} {es mid before later : List Event}

def owner? (seq : Nat) : List Event → Option Nat
  | [] => none
  | .placed s level :: es => if s = seq then some level else owner? seq es
  | _ :: es => owner? seq es

/-- The level of an allocation was closed; the allocation may have been moved since. -/
def Orphaned (seq : Nat) : List Event → Prop
  | [] => False
  | .closed level :: es => owner? seq es = some level ∨ Orphaned seq es
  | _ :: es => Orphaned seq es

/-- Just what was deleted and what had lost its level was released. -/
def Orderly : List Event → Prop
  | [] => True
  | .finalized seq :: es => (es.head? = some (.deleted seq) ∨ Orphaned seq es) ∧ Orderly es
  | _ :: es => Orderly es

theorem Orphaned.owned (h : Orphaned seq es) : ∃ level, owner? seq es = some level := by
  induction es with
  | nil => cases h
  | cons e es ih =>
    cases e with
    | closed level =>
      obtain h | h := h
      · exact ⟨level, h⟩
      · exact ih h
    | placed s level =>
      rw [owner?]
      split
      · exact ⟨level, rfl⟩
      · exact ih h
    | _ => exact ih h

theorem Orderly.split (h : Orderly (later ++ es)) : Orderly es := by
  induction later with
  | nil => exact h
  | cons e later ih =>
    cases e with
    | finalized seq => exact ih h.2
    | _ => exact ih h

theorem owner?_append (hp : ∀ k, .placed seq k ∉ mid) :
    owner? seq (mid ++ .placed seq level :: before) = some level := by
  induction mid with
  | nil => exact if_pos rfl
  | cons e mid ih =>
    have ih := ih fun k hk => hp k (List.mem_cons_of_mem e hk)
    cases e with
    | placed s k =>
      have hs : s ≠ seq := by
        rintro rfl
        exact hp k List.mem_cons_self
      rwa [List.cons_append, owner?, if_neg hs]
    | _ => exact ih

/-- As long as nothing happens to an allocation and its level, it does not lose the level. -/
theorem Orphaned.of_append (hp : ∀ k, .placed seq k ∉ mid) (hc : .closed level ∉ mid)
    (h : Orphaned seq (mid ++ .placed seq level :: before)) : Orphaned seq before := by
  induction mid with
  | nil => exact h
  | cons e mid ih =>
    have hp (k) (hk : .placed seq k ∈ mid) : False := hp k (List.mem_cons_of_mem e hk)
    have ih := ih hp fun hm => hc (List.mem_cons_of_mem e hm)
    cases e with
    | closed k =>
      obtain h | h := h
      · cases (owner?_append hp).symm.trans h
        exact absurd List.mem_cons_self hc
      · exact ih h
    | _ => exact ih h

/-- An allocation is released when it was deleted, when its level was closed, or when an earlier level of it was. -/
theorem Orderly.released (h : Orderly (later ++ .finalized seq :: (mid ++ .placed seq level :: before))) :
    Orphaned seq before ∨ .deleted seq ∈ mid ∨ .closed level ∈ mid ∨ ∃ k, .placed seq k ∈ mid := by
  obtain ⟨hd | ho, -⟩ := h.split
  · cases mid with
    | nil => cases hd
    | cons e mid =>
      cases hd
      exact .inr (.inl List.mem_cons_self)
  · by_cases hc : .closed level ∈ mid
    · exact .inr (.inr (.inl hc))
    · by_cases hp : ∃ k, .placed seq k ∈ mid
      · exact .inr (.inr (.inr hp))
      · exact .inl (ho.of_append (not_exists.mp hp) hc)

end History

open History

/-! ## The invariant -/

namespace Machine

/-- The history agrees with the allocations. Each one belongs to the level that it was given to last, and those
in `orphans` are the ones that have lost their level. -/
structure Recorded (orphans : List AllocId) (m : Machine) : Prop where
  owner {id : AllocId} {a : Allocation} : m.heap.get? id = some a → owner? a.seq m.history = some a.level
  numbered {seq level : Nat} : owner? seq m.history = some level → seq < m.heap.nextSeq
  known {id : AllocId} : id ∈ orphans → id.generation < m.heap.uses id.index
  orphaned {id : AllocId} {a : Allocation} : m.heap.get? id = some a → (Orphaned a.seq m.history ↔ id ∈ orphans)
  orderly : Orderly m.history

section
variable {m m' : Machine} {orphans rest ids : List AllocId} {id : AllocId} {a : Allocation} {level : Nat}

theorem Owned.eq_of_seq (h : Owned orphans m) {id' : AllocId} {b : Allocation} (ha : m.heap.get? id = some a)
    (hb : m.heap.get? id' = some b) (he : a.seq = b.seq) : id = id' := by
  have hn : (m.heap.live.map Allocation.seq ++ m.finalized).Nodup := h.account.nodup_iff.mpr List.nodup_range
  exact Heap.eq_of_seq (List.nodup_append.mp hn).1 ha hb he

theorem Recorded.congr (h : Recorded orphans m) (hh : m'.heap = m.heap) (hj : m'.history = m.history) :
    Recorded orphans m' := by
  refine ⟨fun ha => ?_, fun hs => ?_, fun hm => ?_, fun ha => ?_, hj ▸ h.orderly⟩
  · rw [hj]
    exact h.owner (hh ▸ ha)
  · rw [hh]
    exact h.numbered (hj ▸ hs)
  · rw [hh]
    exact h.known hm
  · rw [hj]
    exact h.orphaned (hh ▸ ha)

/-- The closed level takes with it what it owned. -/
theorem Recorded.shallower (h : Recorded orphans m) (ho : Owned orphans m) (ht : m.Tidy) {l : Level}
    (hl : m.scopes.innermost? = some l) :
    Recorded (orphans ++ m.heap.releaseOrder l.allocs.toList) m.shallower := by
  have hd : m.scopes.outer.depth = m.scopes.depth - 1 := Scopes.depth_outer _
  have listed {id : AllocId} : id ∈ l.allocs.toList ↔ 0 < m.scopes.listings (m.scopes.depth - 1) id := by
    rw [Scopes.listings_innermost hl, Array.count_pos_iff, Array.mem_toList_iff]
  refine ⟨h.owner, h.numbered, fun {id} hm => ?_, fun {id a} ha => ?_, h.orderly⟩
  · rw [List.mem_append, Heap.mem_releaseOrder] at hm
    obtain hm | ⟨hm, -⟩ := hm
    · exact h.known hm
    · exact ht.known (listed.mp hm)
  · show (owner? a.seq m.history = some m.scopes.outer.depth ∨ Orphaned a.seq m.history) ↔ _
    have ha : m.heap.get? id = some a := ha
    rw [h.owner ha, h.orphaned ha, hd, Option.some.injEq, List.mem_append, Heap.mem_releaseOrder, listed]
    constructor
    · rintro (he | hm)
      · -- it is in the list of the level, unless it had lost its level before
        by_cases hm : id ∈ orphans
        · exact .inl hm
        · exact .inr ⟨he ▸ ho.listed ha hm, a, ha⟩
      · exact .inl hm
    · rintro (hm | ⟨hp, -⟩)
      · exact .inr hm
      · by_cases he : a.level = m.scopes.depth - 1
        · exact .inl he
        · rw [ht.only ha he] at hp
          cases hp

theorem Recorded.dead (h : Recorded (orphans ++ id :: ids) m) (hd : m.heap.get? id = none) :
    Recorded (orphans ++ ids) m := by
  refine ⟨h.owner, h.numbered, fun {id'} hm => h.known ?_, fun {id' a} ha => ?_, h.orderly⟩
  · rw [List.mem_append, List.mem_cons]
    exact (List.mem_append.mp hm).imp_right .inr
  · have hne : id' ≠ id := fun he => by rw [he, hd] at ha; cases ha
    rw [h.orphaned ha]
    simp [hne]

/-- What is released had lost its level or was deleted just before. -/
theorem Recorded.handedOver (h : Recorded orphans m) (ht : m.Tidy) (hn : m.heap.nextSeq < UInt32.size)
    (ha : m.heap.get? id = some a) (hw : m.history.head? = some (.deleted a.seq) ∨ Orphaned a.seq m.history)
    (hr : ∀ id', id' ∈ rest → id' ∈ orphans) (hk : ∀ id', id' ≠ id → id' ∈ orphans → id' ∈ rest) :
    Recorded rest (m.handedOver id a) := by
  refine ⟨fun {id' b} hb => ?_, h.numbered, fun {id'} hm => ?_, fun {id' b} hb => ?_, hw, h.orderly⟩
  · exact h.owner ((Heap.get?_remove ha _).mp hb).1
  · show id'.generation < (m.heap.remove id a.addr).uses id'.index
    rw [Heap.uses_remove ha (ht.generation_lt hn ha)]
    exact h.known (hr id' hm)
  · obtain ⟨hb, hne⟩ := (Heap.get?_remove ha _).mp hb
    show Orphaned b.seq m.history ↔ id' ∈ rest
    rw [h.orphaned hb]
    exact ⟨hk id' hne, hr id'⟩

theorem Recorded.disowned (h : Recorded orphans m) (id : AllocId) (a : Allocation) :
    Recorded orphans (m.disowned id a) :=
  ⟨h.owner, h.numbered, h.known, h.orphaned, h.orderly⟩

theorem Recorded.allocated (h : Recorded orphans m) (hv : m.heap.Valid) (hs : a.seq = m.heap.nextSeq)
    (next : UInt64) :
    Recorded orphans (m.allocated a.level ((m.heap.numbered next).insert a)) := by
  have hv := hv.numbered next
  have hj : (m.allocated a.level ((m.heap.numbered next).insert a)).history = .placed a.seq a.level ::
    m.history := hs ▸ rfl
  -- Sequence numbers only grow, so no owner in the history has the new one.
  have old {seq level : Nat} (ho : owner? seq m.history = some level) : a.seq ≠ seq := by
    have := h.numbered ho
    omega
  have hnew : ¬Orphaned a.seq m.history := fun ho => by
    obtain ⟨level, ho⟩ := ho.owned
    exact old ho rfl
  have get? (id : AllocId) : (m.allocated a.level ((m.heap.numbered next).insert a)).heap.get? id =
      if id = ((m.heap.numbered next).insert a).1 then some a else m.heap.get? id := Heap.get?_insert hv a id
  refine ⟨fun {id b} hb => ?_, fun {seq level} ho => ?_, fun {id} hm => ?_, fun {id b} hb => ?_, hj ▸ h.orderly⟩
  · rw [hj, owner?]
    rw [get?] at hb
    split at hb
    case isTrue =>
      cases hb
      exact if_pos rfl
    case isFalse => rw [if_neg (old (h.owner hb)), h.owner hb]
  · show seq < ((m.heap.numbered next).insert a).2.nextSeq
    rw [Heap.nextSeq_insert]
    show seq < m.heap.nextSeq + 1
    rw [hj, owner?] at ho
    split at ho
    case isTrue he => omega
    case isFalse => exact Nat.lt_succ_of_lt (h.numbered ho)
  · show id.generation < ((m.heap.numbered next).insert a).2.uses id.index
    rw [Heap.uses_insert hv]
    exact Nat.lt_add_right _ (h.known hm)
  · rw [hj]
    show Orphaned b.seq m.history ↔ id ∈ orphans
    rw [get?] at hb
    split at hb
    case isTrue he =>
      cases hb
      refine iff_of_false hnew fun hm => ?_
      have hk : id.generation < (m.heap.numbered next).uses id.index := h.known hm
      rw [he, Heap.uses_new hv] at hk
      exact Nat.lt_irrefl _ hk
    case isFalse => exact h.orphaned hb

theorem history_moved (ha : m.heap.get? id = some a) (level : Nat) :
    (m.moved id level).history = .placed a.seq level :: m.history := by
  rw [history, Machine.moved, ha]
  rfl

theorem Recorded.moved (h : Recorded orphans m) (ho : Owned orphans m) (ha : m.heap.get? id = some a)
    (level : Nat) :
    Recorded orphans (m.moved id level) := by
  have hj := history_moved ha level
  have hn : (m.heap.setLevel id level).nextSeq = m.heap.nextSeq := by simp only [Heap.setLevel, ha]
  refine ⟨fun {id' b} hb => ?_, fun {seq k} hs => ?_, fun {id'} hm => ?_, fun {id' b} hb => ?_, hj ▸ h.orderly⟩
  · rw [hj, owner?]
    rw [heap_moved, Heap.get?_setLevel ha] at hb
    split at hb
    case isTrue =>
      cases hb
      exact if_pos rfl
    case isFalse hne => rw [if_neg fun he => hne (ho.eq_of_seq ha hb he).symm, h.owner hb]
  · rw [heap_moved, hn]
    rw [hj, owner?] at hs
    split at hs
    case isTrue he => exact he ▸ h.numbered (h.owner ha)
    case isFalse => exact h.numbered hs
  · rw [heap_moved, Heap.uses_setLevel ha]
    exact h.known hm
  · rw [hj]
    show Orphaned b.seq m.history ↔ id' ∈ orphans
    rw [heap_moved, Heap.get?_setLevel ha] at hb
    split at hb
    case isTrue he =>
      cases hb
      exact he ▸ (h.orphaned ha : Orphaned a.seq m.history ↔ id ∈ orphans)
    case isFalse => exact h.orphaned hb

end

/-! ## The law -/

theorem Unused.recorded {m : Machine} (h : m.Unused) : m.start.Recorded [] := by
  have hh : m.start.heap = {} := h.heap
  have hj : m.start.history = [] := congrArg (List.filter _) h.journal
  have dead {id : AllocId} {a : Allocation} (ha : m.start.heap.get? id = some a) : False := by
    rw [hh] at ha
    cases ha
  refine ⟨fun ha => (dead ha).elim, fun hs => ?_, nofun, fun ha => (dead ha).elim, ?_⟩
  · rw [hj] at hs
    cases hs
  · rw [hj]
    trivial

def records : Custody where
  holds orphans m := m.Owned orphans ∧ (m.heap.nextSeq < UInt32.size → m.Recorded orphans)
  alike h hs := ⟨h.1.alike hs, fun hn => (h.2 (hs.heap ▸ hn)).congr hs.heap hs.history⟩
  deeper h := ⟨h.1.deeper, fun hn => (h.2 hn).congr rfl rfl⟩
  shallower h hl := ⟨h.1.shallower hl, fun hn => (h.2 hn).shallower h.1 (h.1.tidy hn) hl⟩
  dead h hd := ⟨h.1.dead hd, fun hn => (h.2 hn).dead hd⟩
  handedOver h ha := by
    refine ⟨ownership.handedOver h.1 ha, fun hn => ?_⟩
    have hr := h.2 hn
    have hw : Orphaned _ _ := (hr.orphaned ha).mpr (List.mem_append_right _ List.mem_cons_self)
    refine hr.handedOver (h.1.tidy hn) hn ha (.inr hw) (fun id' hm => ?_)
      (fun id' hne hm => by simpa [hne] using hm)
    rw [List.mem_append] at hm ⊢
    exact hm.imp_right (List.mem_cons_of_mem _)
  allocated h hs hd next := by
    refine ⟨h.1.allocated hs hd next, fun hn => (h.2 ?_).allocated h.1.valid hs next⟩
    have hn : (Heap.insert _ _).2.nextSeq < UInt32.size := hn
    rw [Heap.nextSeq_insert] at hn
    exact Nat.lt_of_succ_lt hn
  moved h hf hd := by
    obtain ⟨a, ha, -⟩ := h.1.valid.found hf
    refine ⟨h.1.moved ha hd, fun hn => (h.2 ?_).moved h.1 ha _⟩
    rw [heap_moved, Heap.setLevel, ha] at hn
    exact hn
  freed h ha := by
    refine ⟨ownership.freed h.1 ha, fun hn => ?_⟩
    exact ((h.2 hn).disowned _ _).handedOver ((h.1.disowned _ _).tidy hn) hn ha (.inl rfl) (fun _ h => h)
      (fun _ _ h => h)
  start h := ⟨h.owned, fun _ => h.recorded⟩

/-! ## What is promised -/

open Exec Interp

/-- A move puts the new level of an allocation into the history. After every run and the way back, an allocation
that was given to a level, when it was made or moved, was released no earlier than that level was closed, it was
deleted, or it was moved on; but for one that had lost an earlier level before it was given to this one. Such a one
has been released in any case. -/
theorem reached_lifetimes {m : Machine} (hm : m.Reached) (hn : m.heap.nextSeq < UInt32.size) :
    (∀ (m₀ : Machine) addr id a level, m₀.heap.find? addr = some id → m₀.heap.get? id = some a →
      ∃ m₁, moveAllocation addr level m₀ = .ok () m₁ ∧ m₁.heap.get? id = some { a with level } ∧
        m₁.history = .placed a.seq level :: m₀.history) ∧
    (∀ later mid before seq level, m.history = later ++ .finalized seq :: (mid ++ .placed seq level :: before) →
      Orphaned seq before ∨ .deleted seq ∈ mid ∨ .closed level ∈ mid ∨ ∃ k, .placed seq k ∈ mid) ∧
    ∀ seq, Orphaned seq m.history → .finalized seq ∈ m.history := by
  obtain ⟨ho, hr⟩ := records.of_reached hm
  have hr := hr hn
  refine ⟨fun m₀ addr id a level hf ha => ?_, fun later mid before seq level h => ?_, fun seq hs => ?_⟩
  · refine ⟨_, moveAllocation_eq hf level, ?_, history_moved ha level⟩
    rw [heap_moved, Heap.get?_setLevel ha, if_pos rfl]
  · have hj := hr.orderly
    rw [h] at hj
    exact hj.released
  · obtain ⟨level, howner⟩ := hs.owned
    have hseq : seq ∈ m.heap.live.map Allocation.seq ++ m.finalized :=
      ho.account.mem_iff.mpr (List.mem_range.mpr (hr.numbered howner))
    obtain hl | hf := List.mem_append.mp hseq
    · obtain ⟨a, ha, rfl⟩ := List.mem_map.mp hl
      obtain ⟨id, ha⟩ := Heap.mem_live.mp ha
      cases (hr.orphaned ha).mp hs
    · rw [finalized_eq] at hf
      obtain ⟨e, he, hf⟩ := List.mem_filterMap.mp hf
      cases e with
      | finalized s =>
        cases hf
        exact he
      | _ => cases hf

/-- Two numbers are moved out of a level, and one of them is deleted: neither is lost with the level. -/
theorem reached_lifetimes_moved : ∃ m,
    Session.finish (ofFuel 10) ((Script.text movingText "").body (ofFuel 10)) (start {}) = .ok () m ∧
      m.history = [.closed 1] ++ .finalized 1 :: ([.deleted 1] ++ .placed 1 0 ::
        [.placed 1 1, .placed 0 0, .placed 0 1]) ∧
      m.heap.get? ⟨0, 0⟩ = some keptNumber ∧
      (∃ m₁, moveAllocation 0x100000000000 1 m.deeper = .ok () m₁ ∧
        m₁.heap.get? ⟨0, 0⟩ = some { keptNumber with level := 1 } ∧ m₁.history = .placed 0 1 :: m.history) ∧
      (Orphaned 1 [.placed 1 1, .placed 0 0, .placed 0 1] ∨ .deleted 1 ∈ [Event.deleted 1] ∨
        .closed 0 ∈ [Event.deleted 1] ∨ ∃ k, .placed 1 k ∈ [Event.deleted 1]) ∧
      ¬Orphaned 0 m.history := by
  obtain ⟨m, h, hr⟩ := moving_runs
  have hm : Reached m := .run 10 (.text movingText "") (.start ⟨rfl, rfl, rfl, rfl, rfl, rfl⟩) (.inl ⟨(), hr⟩)
  have hn : m.heap.nextSeq < UInt32.size := h.next ▸ (by decide : 2 < UInt32.size)
  obtain ⟨hmove, hreleased, horphaned⟩ := reached_lifetimes hm hn
  have hhistory : m.history = [.closed 1] ++ .finalized 1 :: ([.deleted 1] ++ .placed 1 0 ::
      [.placed 1 1, .placed 0 0, .placed 0 1]) := by
    rw [history, h.journal]
    rfl
  refine ⟨m, hr, hhistory, h.kept, hmove m.deeper _ _ _ _ h.found h.kept, hreleased _ _ _ _ _ hhistory,
    fun ho => ?_⟩
  have hf := horphaned 0 ho
  rw [hhistory] at hf
  revert hf
  decide

end Machine

end LevelScript
