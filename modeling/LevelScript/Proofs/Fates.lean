import LevelScript.Proofs.Lifetimes

/-!
# What waits to be released

While a level is being closed, what it owned is in no list, and each of it waits for its turn. Until then a method
`delete` of another one can delete it or move it. If neither happens it is the same allocation when its turn comes;
and what was deleted meanwhile is gone for good.
-/

namespace LevelScript

namespace Machine

/-! ## What has happened since -/

def since (m₀ m : Machine) : List Event := m.history.take (m.history.length - m₀.history.length)

/-- All that had happened before is in the history, no number is given out again, and what was deleted in
between was released. -/
structure Precedes (m₀ m : Machine) : Prop where
  history : m.history = m₀.since m ++ m₀.history
  numbers : m₀.heap.nextSeq ≤ m.heap.nextSeq
  released {seq : Nat} : .deleted seq ∈ m₀.since m → .finalized seq ∈ m₀.since m

section
variable {m₀ m m' : Machine} {orphans : List AllocId} {id : AllocId} {a : Allocation} {e : Event} {es : List Event}

theorem since_eq (es : List Event) (h : m.history = es ++ m₀.history) : m₀.since m = es := by
  rw [since, h, List.length_append, Nat.add_sub_cancel]
  exact List.take_left

theorem Precedes.of (es : List Event) (h : m.history = es ++ m₀.history) (hn : m₀.heap.nextSeq ≤ m.heap.nextSeq)
    (hd : ∀ seq, .deleted seq ∈ es → .finalized seq ∈ es) : m₀.Precedes m := by
  have he := since_eq es h
  exact ⟨he.symm ▸ h, hn, fun {seq} hs => he.symm ▸ hd seq (he ▸ hs)⟩

theorem Precedes.refl (m : Machine) : m.Precedes m := .of [] rfl (Nat.le_refl _) nofun

theorem Precedes.since_append (h : m₀.Precedes m) (h' : m.Precedes m') : m₀.since m' = m.since m' ++ m₀.since m :=
  since_eq _ (by rw [List.append_assoc, ← h.history, ← h'.history])

theorem Precedes.mem_since (h : m₀.Precedes m) (h' : m.Precedes m') :
    e ∈ m₀.since m' ↔ e ∈ m.since m' ∨ e ∈ m₀.since m := by
  rw [h.since_append h', List.mem_append]

theorem Precedes.trans (h : m₀.Precedes m) (h' : m.Precedes m') : m₀.Precedes m' := by
  refine ⟨?_, Nat.le_trans h.numbers h'.numbers, fun {seq} hs => ?_⟩
  · rw [h.since_append h', List.append_assoc, ← h.history, ← h'.history]
  · rw [h.mem_since h'] at hs ⊢
    exact hs.imp h'.released h.released

theorem Alike.precedes (h : m.Alike m') : m.Precedes m' :=
  .of [] h.history (Nat.le_of_eq (congrArg Heap.nextSeq h.heap.symm)) nofun

theorem precedes_deeper (m : Machine) : m.Precedes m.deeper := .of [] rfl (Nat.le_refl _) nofun

theorem precedes_shallower (m : Machine) : m.Precedes m.shallower :=
  .of [.closed m.scopes.outer.depth] rfl (Nat.le_refl _) (by simp)

theorem precedes_handedOver (m : Machine) (id : AllocId) (a : Allocation) : m.Precedes (m.handedOver id a) :=
  .of [.finalized a.seq] rfl (Nat.le_refl _) (by simp)

theorem precedes_allocated (m : Machine) (a : Allocation) (next : UInt64) :
    m.Precedes (m.allocated a.level ((m.heap.numbered next).insert a)) := by
  refine .of [.placed m.heap.nextSeq a.level] rfl ?_ (by simp)
  show _ ≤ ((m.heap.numbered next).insert a).2.nextSeq
  rw [Heap.nextSeq_insert]
  exact Nat.le_succ _

theorem nextSeq_moved (m : Machine) (id : AllocId) (level : Nat) :
    (m.moved id level).heap.nextSeq = m.heap.nextSeq := by
  rw [heap_moved, Heap.setLevel]
  split <;> rfl

theorem precedes_moved (m : Machine) (id : AllocId) (level : Nat) : m.Precedes (m.moved id level) := by
  have hn := Nat.le_of_eq (nextSeq_moved m id level).symm
  cases ha : m.heap.get? id with
  | some a => exact .of [.placed a.seq level] (history_moved ha level) hn (by simp)
  | none =>
    refine .of [] ?_ hn nofun
    simp only [history, moved, ha]
    rfl

/-- To delete an allocation is to release it. -/
theorem precedes_freed (m : Machine) (id : AllocId) (a : Allocation) :
    m.Precedes ((m.disowned id a).handedOver id a) :=
  .of [.finalized a.seq, .deleted a.seq] rfl (Nat.le_refl _) (by simp)

theorem Precedes.finalized (h : m₀.Precedes m) {seq : Nat} (hs : seq ∈ m₀.finalized) : seq ∈ m.finalized := by
  rw [finalized_eq] at hs ⊢
  rw [h.history, List.filterMap_append]
  exact List.mem_append_right _ hs

theorem mem_finalized {seq : Nat} : seq ∈ m.finalized ↔ .finalized seq ∈ m.history := by
  rw [finalized_eq, List.mem_filterMap]
  refine ⟨fun ⟨e, he, hs⟩ => ?_, fun h => ⟨_, h, rfl⟩⟩
  cases e with
  | finalized s =>
    cases hs
    exact he
  | _ => cases hs

theorem Precedes.finalized_of_deleted (h : m₀.Precedes m) {seq : Nat} (hs : .deleted seq ∈ m₀.since m) :
    seq ∈ m.finalized := by
  rw [mem_finalized, h.history]
  exact List.mem_append_left _ (h.released hs)

/-- What is there has not been released. -/
theorem Owned.not_finalized (h : m.Owned orphans) (ha : m.heap.get? id = some a) : a.seq ∉ m.finalized := by
  have hn : (m.heap.live.map Allocation.seq ++ m.finalized).Nodup := h.account.nodup_iff.mpr List.nodup_range
  intro hf
  exact (List.nodup_append.mp hn).2.2 _ (List.mem_map_of_mem (Heap.mem_live.mpr ⟨id, ha⟩)) _ hf rfl

/-- What is released when it is still there has not been deleted, and will not be. -/
theorem Owned.not_deleted {orphans' : List AllocId} (h : m.Owned orphans) (ha : m.heap.get? id = some a)
    (hp : m₀.Precedes m) (hp' : (m.handedOver id a).Precedes m') (h' : m'.Owned orphans') :
    .deleted a.seq ∉ m₀.since m' := by
  rw [hp.mem_since ((precedes_handedOver m id a).trans hp'), (precedes_handedOver m id a).mem_since hp',
    show m.since (m.handedOver id a) = [.finalized a.seq] from since_eq _ rfl]
  rintro ((hd | hd) | hd)
  · -- it would have been released twice
    have hn : m'.finalized.Nodup :=
      (List.nodup_append.mp (h'.account.nodup_iff.mpr List.nodup_range)).2.1
    rw [finalized_eq, hp'.history, List.filterMap_append, List.nodup_append] at hn
    have hl : a.seq ∈ ((m.handedOver id a).since m').filterMap Event.finalized? :=
      List.mem_filterMap.mpr ⟨_, hp'.released hd, rfl⟩
    exact hn.2.2 _ hl _ (finalized_eq _ ▸ List.mem_cons_self) rfl
  · cases List.mem_singleton.mp hd
  · exact h.not_finalized ha (hp.finalized_of_deleted hd)

end

end Machine

def progress (m₀ : Machine) : Upkeep where
  holds _ m := m₀.Precedes m
  alike h hs := h.trans hs.precedes
  deeper h := h.trans (Machine.precedes_deeper _)
  shallower h _ := h.trans (Machine.precedes_shallower _)
  dead h _ := h
  handedOver h _ := h.trans (Machine.precedes_handedOver ..)
  allocated h _ _ next := h.trans (Machine.precedes_allocated _ _ next)
  moved h _ _ := h.trans (Machine.precedes_moved ..)
  freed h _ := h.trans (Machine.precedes_freed ..)

namespace Machine

/-! ## Without an owner -/

structure Adrift (m : Machine) (id : AllocId) (a : Allocation) : Prop where
  found : m.heap.get? id = some a
  unlisted (index : Nat) : m.scopes.listings index id = 0

/-- A handle that was good for an allocation once. -/
structure Spent (m : Machine) (id : AllocId) : Prop where
  used : id.generation < m.heap.uses id.index
  dead : m.heap.get? id = none

section
variable {m₀ m m' : Machine} {orphans rest : List AllocId} {id id' : AllocId} {a b : Allocation} {level : Nat}

theorem Adrift.fewer (h : m.Adrift id a) (hh : m'.heap = m.heap)
    (hs : ∀ index, m'.scopes.listings index id ≤ m.scopes.listings index id) : m'.Adrift id a :=
  ⟨hh ▸ h.found, fun index => Nat.le_zero.mp (h.unlisted index ▸ hs index)⟩

theorem Spent.congr (h : m.Spent id) (hh : m'.heap = m.heap) : m'.Spent id := ⟨hh ▸ h.used, hh ▸ h.dead⟩

theorem Adrift.handedOver (h : m.Adrift id a) (hb : m.heap.get? id' = some b) (hne : id' ≠ id) :
    (m.handedOver id' b).Adrift id a :=
  ⟨(Heap.get?_remove hb _).mpr ⟨h.found, hne.symm⟩, h.unlisted⟩

theorem Spent.handedOver (h : m.Spent id) (hb : m.heap.get? id' = some b) (hg : id'.generation + 1 < UInt32.size) :
    (m.handedOver id' b).Spent id := by
  refine ⟨?_, Option.eq_none_iff_forall_ne_some.mpr fun c hc => ?_⟩
  · show _ < (m.heap.remove id' b.addr).uses id.index
    rw [Heap.uses_remove hb hg]
    exact h.used
  · have hc := ((Heap.get?_remove hb _).mp hc).1
    rw [h.dead] at hc
    cases hc

theorem spent_handedOver (ha : m.heap.get? id = some a) (hg : id.generation + 1 < UInt32.size) :
    (m.handedOver id a).Spent id := by
  refine ⟨?_, Option.eq_none_iff_forall_ne_some.mpr fun c hc => ((Heap.get?_remove ha _).mp hc).2 rfl⟩
  show _ < (m.heap.remove id a.addr).uses id.index
  rw [Heap.uses_remove ha hg, Heap.uses_live ha]
  exact Nat.lt_succ_self _

theorem Adrift.disowned (h : m.Adrift id a) (id' : AllocId) (b : Allocation) : (m.disowned id' b).Adrift id a := by
  refine h.fewer rfl fun index => ?_
  show (m.scopes.removeAlloc b.level id').listings index id ≤ _
  rw [Scopes.listings_removeAlloc]
  split
  · exact Nat.zero_le _
  · exact Nat.le_refl _

/-- A new allocation gets a handle of its own. -/
theorem Adrift.allocated (h : m.Adrift id a) (hv : m.heap.Valid) (hd : b.level < m.scopes.depth) (next : UInt64) :
    (m.allocated b.level ((m.heap.numbered next).insert b)).Adrift id a := by
  have hv := hv.numbered next
  have hne : id ≠ ((m.heap.numbered next).insert b).1 := fun he => by
    have hnew := Heap.get?_new hv b (congrArg AllocId.index he)
    cases (hnew : m.heap.get? id = none).symm.trans h.found
  refine ⟨?_, fun index => ?_⟩
  · show ((m.heap.numbered next).insert b).2.get? id = some a
    rw [Heap.get?_insert hv, if_neg hne]
    exact h.found
  · show (m.scopes.addAlloc b.level _).listings index id = 0
    rw [Scopes.listings_addAlloc hd, h.unlisted, if_neg fun he => hne he.2.symm]

theorem Spent.allocated (h : m.Spent id) (hv : m.heap.Valid) (b : Allocation) (next : UInt64) :
    (m.allocated b.level ((m.heap.numbered next).insert b)).Spent id := by
  have hv := hv.numbered next
  have hused : id.generation < (m.heap.numbered next).uses id.index := h.used
  refine ⟨?_, ?_⟩
  · show _ < ((m.heap.numbered next).insert b).2.uses id.index
    rw [Heap.uses_insert hv]
    exact Nat.lt_add_right _ hused
  · show ((m.heap.numbered next).insert b).2.get? id = none
    rw [Heap.get?_insert hv, if_neg]
    · exact h.dead
    · intro he
      rw [he, Heap.uses_new hv] at hused
      exact Nat.lt_irrefl _ hused

theorem Adrift.moved (h : m.Adrift id a) (hb : m.heap.get? id' = some b) (hne : id ≠ id')
    (hd : level < m.scopes.depth) :
    (m.moved id' level).Adrift id a := by
  refine ⟨?_, fun index => ?_⟩
  · rw [heap_moved, Heap.get?_setLevel hb, if_neg hne]
    exact h.found
  · rw [listings_moved hb hd, if_neg fun he => hne he.2.symm, if_neg fun he => hne he.2.symm, h.unlisted]

theorem Spent.moved (h : m.Spent id) (hb : m.heap.get? id' = some b) (level : Nat) :
    (m.moved id' level).Spent id := by
  have hne : id ≠ id' := fun he => by
    rw [← he, h.dead] at hb
    cases hb
  refine ⟨?_, ?_⟩
  · rw [heap_moved, Heap.uses_setLevel hb]
    exact h.used
  · rw [heap_moved, Heap.get?_setLevel hb, if_neg hne]
    exact h.dead

/-! ## Until its turn comes -/

/-- An allocation that has lost its level, and is none of `orphans`, is what it was in `m₀`, or it was deleted. -/
structure Waits (m₀ : Machine) (id : AllocId) (a : Allocation) (orphans : List AllocId) (m : Machine) : Prop where
  apart : id ∉ orphans
  fate : m.Adrift id a ∨ m.Spent id ∧ .deleted a.seq ∈ m₀.since m

theorem Waits.next (h : Waits m₀ id a orphans m) (hp : m₀.Precedes m) (hp' : m.Precedes m') (hr : id ∉ rest)
    (ha : m.Adrift id a → m'.Adrift id a ∨ m'.Spent id ∧ .deleted a.seq ∈ m.since m')
    (hs : m.Spent id → m'.Spent id) :
    Waits m₀ id a rest m' := by
  refine ⟨hr, ?_⟩
  rw [hp.mem_since hp']
  obtain h | ⟨h, hd⟩ := h.fate
  · exact (ha h).imp_right fun h => ⟨h.1, .inl h.2⟩
  · exact .inr ⟨hs h, .inr hd⟩

theorem Waits.dead (h : Waits m₀ id a orphans m) (hr : ∀ id' ∈ rest, id' ∈ orphans) : Waits m₀ id a rest m :=
  ⟨fun hm => h.apart (hr id hm), h.fate⟩

theorem Waits.alike (h : Waits m₀ id a orphans m) (hp : m₀.Precedes m) (hs : m.Alike m') :
    Waits m₀ id a orphans m' := by
  refine h.next hp hs.precedes h.apart (fun h => .inl (h.fewer hs.heap fun index => ?_)) (.congr · hs.heap)
  rw [Scopes.listings, hs.owned]
  exact Nat.le_refl _

/-- What a level lists when it is closed is something else. -/
theorem Waits.shallower (h : Waits m₀ id a orphans m) (hp : m₀.Precedes m) {l : Level}
    (hl : m.scopes.innermost? = some l) :
    Waits m₀ id a (orphans ++ m.heap.releaseOrder l.allocs.toList) m.shallower := by
  refine h.next hp (precedes_shallower m) ?_ (fun h => .inl (h.fewer rfl fun index => ?_)) (.congr · rfl)
  · rw [List.mem_append, Heap.mem_releaseOrder, not_or]
    refine ⟨h.apart, fun ⟨hm, b, hb⟩ => ?_⟩
    obtain h | ⟨h, -⟩ := h.fate
    · have hc := h.unlisted (m.scopes.depth - 1)
      rw [Scopes.listings_innermost hl, Array.count_eq_zero] at hc
      exact hc (Array.mem_toList_iff.mp hm)
    · rw [h.dead] at hb
      cases hb
  · show m.scopes.outer.listings index id ≤ _
    rw [Scopes.listings_outer]
    split
    · exact Nat.le_refl _
    · exact Nat.zero_le _

theorem Waits.handedOver (h : Waits m₀ id a orphans m) (hp : m₀.Precedes m) (hb : m.heap.get? id' = some b)
    (hg : id'.generation + 1 < UInt32.size) (hm : id' ∈ orphans) (hr : ∀ id ∈ rest, id ∈ orphans) :
    Waits m₀ id a rest (m.handedOver id' b) := by
  have hne : id' ≠ id := fun he => h.apart (he ▸ hm)
  exact h.next hp (precedes_handedOver ..) (fun hm => h.apart (hr id hm)) (fun h => .inl (h.handedOver hb hne))
    fun h => h.handedOver hb hg

theorem Waits.freed (h : Waits m₀ id a orphans m) (hp : m₀.Precedes m) (hb : m.heap.get? id' = some b)
    (hg : id'.generation + 1 < UInt32.size) : Waits m₀ id a orphans ((m.disowned id' b).handedOver id' b) := by
  have hb' : (m.disowned id' b).heap.get? id' = some b := hb
  have spent (h : m.Spent id) : (m.disowned id' b).Spent id := h.congr rfl
  refine h.next hp (precedes_freed ..) h.apart (fun h => ?_) fun h => (spent h).handedOver hb' hg
  by_cases he : id' = id
  · subst he
    cases h.found.symm.trans hb
    refine .inr ⟨spent_handedOver hb' hg, ?_⟩
    rw [since_eq [.finalized a.seq, .deleted a.seq] rfl]
    simp
  · exact .inl ((h.disowned id' b).handedOver hb' he)

theorem Waits.allocated (h : Waits m₀ id a orphans m) (hp : m₀.Precedes m) (hv : m.heap.Valid)
    (hd : b.level < m.scopes.depth) (next : UInt64) :
    Waits m₀ id a orphans (m.allocated b.level ((m.heap.numbered next).insert b)) :=
  h.next hp (precedes_allocated ..) h.apart (fun h => .inl (h.allocated hv hd next)) fun h => h.allocated hv b next

theorem Waits.moved (h : Waits m₀ id a orphans m) (hp : m₀.Precedes m) (hb : m.heap.get? id' = some b)
    (hd : level < m.scopes.depth) (hm : .placed a.seq level ∉ m.since (m.moved id' level)) :
    Waits m₀ id a orphans (m.moved id' level) := by
  refine h.next hp (precedes_moved ..) h.apart (fun h => .inl (h.moved hb ?_ hd)) fun h => h.moved hb level
  rintro rfl
  cases h.found.symm.trans hb
  rw [since_eq [.placed a.seq level] (history_moved hb level)] at hm
  exact hm List.mem_cons_self

/-- An allocation waits as long as it is not moved, and all others are accounted for. -/
structure Watched (m₀ : Machine) (others : List AllocId) (id : AllocId) (a : Allocation) (orphans : List AllocId)
    (m : Machine) : Prop where
  owned : m.Owned (others ++ orphans)
  since : m₀.Precedes m
  waits : m.heap.nextSeq < UInt32.size → (∀ level, .placed a.seq level ∉ m₀.since m) → Waits m₀ id a orphans m

theorem Watched.next {others : List AllocId} (h : Watched m₀ others id a orphans m) (ho : m'.Owned (others ++ rest))
    (hp : m.Precedes m') (hw : m.heap.nextSeq < UInt32.size → (∀ level, .placed a.seq level ∉ m.since m') →
      Waits m₀ id a orphans m → Waits m₀ id a rest m') : Watched m₀ others id a rest m' := by
  refine ⟨ho, h.since.trans hp, fun hn hm => ?_⟩
  have hn := Nat.lt_of_le_of_lt hp.numbers hn
  simp only [h.since.mem_since hp, not_or] at hm
  exact hw hn (fun level => (hm level).1) (h.waits hn fun level => (hm level).2)

end

end Machine

open Machine in
def watch (m₀ : Machine) (others : List AllocId) (id : AllocId) (a : Allocation) : Upkeep where
  holds := Watched m₀ others id a
  alike h hs := h.next (h.owned.alike hs) hs.precedes fun _ _ hw => hw.alike h.since hs
  deeper {orphans m} h := by
    refine h.next h.owned.deeper (precedes_deeper m) fun _ _ hw => ?_
    refine hw.next h.since (precedes_deeper m) hw.apart (fun ha => .inl (ha.fewer rfl fun index => ?_))
      (.congr · rfl)
    exact Nat.le_of_eq (Scopes.listings_push ..)
  shallower h hl := by
    refine h.next ?_ (precedes_shallower _) fun _ _ hw => hw.shallower h.since hl
    rw [← List.append_assoc]
    exact h.owned.shallower hl
  dead {orphans m id ids} h hd := by
    have ho := h.owned
    rw [← List.append_assoc] at ho
    refine h.next ?_ (.refl m) fun _ _ hw => hw.dead fun id hm => ?_
    · rw [← List.append_assoc]
      exact ho.dead hd
    · exact (List.mem_append.mp hm).elim (List.mem_append_left _) fun hm =>
        List.mem_append_right _ (List.mem_cons_of_mem _ hm)
  handedOver {orphans m id ids a} h ha := by
    have ho := h.owned
    rw [← List.append_assoc] at ho
    refine h.next ?_ (precedes_handedOver ..) fun hn _ hw => ?_
    · rw [← List.append_assoc]
      exact ownership.handedOver ho ha
    · refine hw.handedOver h.since ha ((h.owned.tidy hn).generation_lt hn ha) (by simp) fun id hm => ?_
      exact (List.mem_append.mp hm).elim (List.mem_append_left _) fun hm =>
        List.mem_append_right _ (List.mem_cons_of_mem _ hm)
  allocated h hs hd next :=
    h.next (h.owned.allocated hs hd next) (precedes_allocated ..) fun _ _ hw =>
      hw.allocated h.since h.owned.valid hd next
  moved {orphans m addr id level} h hf hd := by
    obtain ⟨b, hb, -⟩ := h.owned.valid.found hf
    exact h.next (h.owned.moved hb hd) (precedes_moved ..) fun _ hm hw => hw.moved h.since hb hd (hm level)
  freed h ha := by
    refine h.next (ownership.freed h.owned ha) (precedes_freed ..) fun hn _ hw => ?_
    exact hw.freed h.since ha ((h.owned.tidy hn).generation_lt hn ha)

end LevelScript
