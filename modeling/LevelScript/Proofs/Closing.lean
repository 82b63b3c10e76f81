import LevelScript.Proofs.Law

/-!
# Laws and levels

Closing a level runs the methods `delete` of what it owned, which can do all that a script can and
which can close levels in turn. Whatever they do, closing never ends with an error, and it closes
one level: this is where the way back from an error ends, too.
-/

namespace LevelScript

@[simp]
theorem Scopes.depth_modifyLevel (s : Scopes) (index : Nat) (f : Level → Level) :
    (s.modifyLevel index f).depth = s.depth := by
  simp [depth, modifyLevel]

@[simp]
theorem Scopes.depth_push (s : Scopes) : s.push.depth = s.depth + 1 := by simp [depth, push]

@[simp]
theorem Scopes.depth_outer (s : Scopes) : s.outer.depth = s.depth - 1 := by simp [depth, outer]

theorem Heap.mem_releaseOrder {h : Heap} {ids : List AllocId} {id : AllocId} :
    id ∈ h.releaseOrder ids ↔ id ∈ ids ∧ ∃ a, h.get? id = some a := by
  simp only [releaseOrder, List.mem_map, List.mem_mergeSort, List.mem_filterMap, Option.map_eq_some_iff,
    Prod.exists, Prod.mk.injEq]
  constructor
  · rintro ⟨_, _, ⟨_, hid, a, ha, rfl, rfl⟩, rfl⟩
    exact ⟨hid, a, ha⟩
  · rintro ⟨hid, a, ha⟩
    exact ⟨id, a, ⟨id, hid, a, ha, rfl, rfl⟩, rfl⟩

theorem Machine.depth_deeper (m : Machine) : m.deeper.scopes.depth = m.scopes.depth + 1 :=
  Scopes.depth_push _

theorem Machine.depth_lt_deeper (m : Machine) : m.scopes.depth < m.deeper.scopes.depth :=
  Nat.lt_of_lt_of_eq (Nat.lt_succ_self _) m.depth_deeper.symm

theorem Machine.depth_le_deeper (m : Machine) : m.scopes.depth ≤ m.deeper.scopes.depth :=
  Nat.le_of_lt m.depth_lt_deeper

theorem Machine.depth_moved (m : Machine) (id : AllocId) (level : Nat) :
    (m.moved id level).scopes.depth = m.scopes.depth := by
  simp only [moved, Scopes.addAlloc, Scopes.depth_modifyLevel]
  split
  · exact Scopes.depth_modifyLevel ..
  · rfl

namespace Exec

variable {m : Machine} {id : AllocId} {a : Allocation}

theorem takeAllocation_dead (h : m.heap.get? id = none) : takeAllocation id m = .ok none m := by
  rw [takeAllocation, modifyGet_eq, h]

theorem takeAllocation_live (h : m.heap.get? id = some a) :
    takeAllocation id m = .ok (some a) (m.taken id a) := by
  rw [takeAllocation, modifyGet_eq, h]
  rfl

theorem moveAllocation_eq {addr : UInt64} (hf : m.heap.find? addr = some id) (level : Nat) :
    moveAllocation addr level m = .ok () (m.moved id level) := by
  rw [moveAllocation]
  show (modifyGet _ : Exec PUnit) m = _
  rw [modifyGet_eq]
  dsimp only
  rw [hf]
  rfl

end Exec

namespace Interp

open Exec

/-- Levels are closed until there are no more than asked for. -/
theorem closeTo_depth (close : Exec Unit) (d : Nat) : ∀ (n : Nat) (m : Machine),
    (closeTo close d n).Ends m (fun _ m' => m'.scopes.depth ≤ d) (fun _ _ => True)
  | 0, _ => trivial
  | n + 1, m => by
    refine ends_bind.mpr (show Ends (if d < m.scopes.depth then _ else _) m _ _ from ?_)
    split
    case isTrue h =>
      refine ends_bind.mpr ?_
      unfold Ends
      split
      · exact closeTo_depth close d n _
      · trivial
      · trivial
    case isFalse h => exact Nat.le_of_not_lt h

/-- A level that owns nothing is only taken away. -/
theorem closeLevelWithin_unowned (i : Interp) (n : Nat) {m : Machine} {l : Level}
    (hl : m.scopes.innermost? = some l)
    (ha : l.allocs = #[]) : i.closeLevelWithin (n + 1) m = .ok () m.shallower := by
  have hpop : popLevel? m = .ok (some l) { m with scopes := m.scopes.outer } := by rw [← hl]; rfl
  have horder : m.heap.releaseOrder l.allocs.toList = [] := by
    rw [ha]
    simp [Heap.releaseOrder]
  rw [closeLevelWithin, bind_ok hpop]
  show i.finalizeAll _ _ (m.heap.releaseOrder l.allocs.toList) m.shallower = _
  rw [horder]
  rfl

end Interp

namespace Law

open Exec Interp

section
variable {α β : Type} {L : Law} {i : Interp} {close : Exec Unit} {d : Nat} {ids : List AllocId} {m m₁ : Machine}

theorem callMethod_calls (hi : L.Sound i) (id : TypeId) (addr : UInt64) (name : NameId) :
    L.Calls (i.callMethod id addr name) := by
  refine .bind (calls_calm (method?_calm id addr name)) fun found => ?_
  cases found with
  | none => exact calls_calm (.pure _)
  | some method => exact .bind (hi.call method []) fun _ => calls_calm (.pure _)

theorem releaseFunction_calls (id : Nat) : L.Calls (releaseFunction id) := by
  intro m
  refine ends_modifyGet.mpr ?_
  dsimp only
  split
  case h_1 hf => exact L.released hf
  case h_2 => exact calm (.refl m)

/-! ## The way back -/

theorem closeTo_ends (hc : L.Closes close) : ∀ (n : Nat) (m₁ : Machine), L.above d ids m m₁ →
    (closeTo close d n).Ends m₁ (fun _ m₂ => L.during d ids m m₂) (fun _ _ => False)
  | 0, _, _ => trivial
  | n + 1, m₁, h => by
    refine ends_bind.mpr (show Ends (if d < m₁.scopes.depth then _ else _) m₁ _ _ from ?_)
    split
    case isTrue hd =>
      refine (hc m₁ (by omega)).bind (fun _ m₂ h₂ => ?_) (fun _ _ h => h)
      exact closeTo_ends hc n m₂ (L.above_closed h hd h₂)
    case isFalse hd => exact L.above_done h (Nat.le_of_not_lt hd)

theorem unwindWith_ends (hc : L.Closes close) {m₂ : Machine} (h : L.during d ids m m₁)
    (hf : L.failed m₁ m₂) :
    (i.unwindWith close d m₁.frames.size).Ends m₂ (fun _ m₃ => L.during d ids m m₃)
      (fun _ _ => False) :=
  ends_bind.mpr (closeTo_ends hc _ _ (L.recovering h hf))

/-! ## Releasing allocations -/

theorem finalize_ends (hi : L.Sound i) (hc : L.Closes close) (a : Allocation)
    (h : L.during d ids m (m₁.noted (.finalized a.seq))) :
    (i.finalize close d a).Ends m₁ (fun _ m₂ => L.during d ids m m₂) (fun _ _ => False) := by
  refine ends_bind.mpr (show Ends _ (m₁.noted (.finalized a.seq)) _ _ from ?_)
  generalize m₁.noted (.finalized a.seq) = m₁ at h
  cases a.cleanup with
  | nothing => exact h
  | function id => exact L.during_step h (L.during_kept (releaseFunction_calls id m₁))
  | struct =>
    refine ends_bind.mpr (ends_bind.mpr (ends_attempt.mpr ?_))
    refine (callMethod_calls hi _ _ _ m₁).mono (fun _ m₂ h₂ => ?_) (fun e m₂ h₂ => ?_)
    · exact L.during_step h (L.during_kept h₂)
    · have hf := failed_calm h₂ (@logError_calm true e m₂)
      refine ends_bind.mpr (ends_bind.mpr ((unwindWith_ends hc h hf).mono ?_ (fun _ _ h => h)))
      intro _ m₃ h₃
      exact L.during_step h₃ (L.during_kept (L.control m₃ _))

theorem finalizeAll_ends (hi : L.Sound i) (hc : L.Closes close) : ∀ (ids : List AllocId)
    (m₁ : Machine), L.during d ids m m₁ →
    (i.finalizeAll close d ids).Ends m₁ (fun _ m₂ => L.during d [] m m₂) (fun _ _ => False)
  | [], _, h => h
  | id :: ids, m₁, h => by
    cases ha : m₁.heap.get? id with
    | none =>
      refine (ends_bind_ok (takeAllocation_dead ha)).mpr ?_
      exact finalizeAll_ends hi hc ids m₁ (L.dead h ha)
    | some a =>
      refine (ends_bind_ok (takeAllocation_live ha)).mpr ?_
      refine (finalize_ends hi hc a (L.handedOver h ha)).bind ?_ (fun _ _ h => h)
      exact fun _ m₂ h₂ => finalizeAll_ends hi hc ids m₂ h₂

/-! ## Levels -/

theorem closeLevelWithin_closes (hi : L.Sound i) : ∀ n : Nat, L.Closes (i.closeLevelWithin n)
  | 0 => fun _ _ => trivial
  | n + 1 => by
    intro m hm
    have hp : popLevel? m = .ok m.scopes.innermost? { m with scopes := m.scopes.outer } := rfl
    refine (ends_bind_ok hp).mpr ?_
    cases hl : m.scopes.innermost? with
    | none =>
      rw [Scopes.innermost?, Array.back?_eq_none_iff] at hl
      simp [Scopes.depth, hl] at hm
    | some l =>
      have hd : m.shallower.scopes.depth = m.scopes.depth - 1 := Scopes.depth_outer _
      refine ends_bind.mpr ?_
      show Ends (i.finalizeAll _ m.shallower.scopes.depth _) m.shallower _ _
      rw [hd]
      exact finalizeAll_ends hi (closeLevelWithin_closes hi n) _ _ (L.closing hl)

theorem closeLevel_closes (hi : L.Sound i) : L.Closes i.closeLevel := closeLevelWithin_closes hi _

theorem free_obeys (hi : L.Sound i) (addr : UInt64) : L.Obeys (i.free addr) := by
  intro m hm
  refine ends_get.mpr ?_
  cases m.heap.find? addr with
  | none => exact refl m
  | some id =>
    cases ha : m.heap.get? id with
    | none =>
      simp only [ha]
      exact (ends_bind_ok (takeAllocation_dead ha)).mpr (refl m)
    | some a =>
      simp only [ha]
      refine ends_bind.mpr (show Ends _ (m.disowned id a) _ _ from ?_)
      have ht := takeAllocation_live (m := m.disowned id a) ha
      refine (ends_bind_ok ht).mpr (ends_bind.mpr ?_)
      have hd : ((m.disowned id a).taken id a).scopes.depth = m.scopes.depth :=
        Scopes.depth_modifyLevel ..
      show Ends (i.finalize i.closeLevel ((m.disowned id a).taken id a).scopes.depth a) _ _ _
      rw [hd]
      have h := finalize_ends hi (closeLevel_closes hi) a (L.during_kept (L.freed ha))
      exact h.mono (fun _ _ h => h) (fun _ _ h => h.elim)

/-! ## Inside a level -/

/-- Starts in a level that `m` has opened, and closes it. -/
def Within (L : Law) (x : Exec α) : Prop :=
  ∀ m m₁, 0 < m.scopes.depth → L.during (m.scopes.depth + 1) [] m.deeper m₁ →
    x.Ends m₁ (fun _ m' => L.during m.scopes.depth [] m m') (fun _ m' => L.failed m m')

theorem Within.opened {x : Exec α} (hx : L.Within x) : L.Obeys (pushLevel >>= fun _ => x) := by
  intro m hm
  exact ends_bind.mpr (hx m m.deeper hm (m.depth_deeper ▸ refl m.deeper))

theorem Within.failed_during (h : L.during (m.scopes.depth + 1) [] m.deeper m₁) :
    L.failed m.deeper m₁ := by
  rw [← Machine.depth_deeper] at h
  exact L.failed_during h

theorem Within.bind {x : Exec α} {f : α → Exec β} (hx : L.Obeys x) (hf : ∀ a, L.Within (f a)) :
    L.Within (x >>= f) := by
  intro m m₁ hm h₁
  have hf₁ := failed_during h₁
  have hm₁ := L.failed_depth hf₁ (by rw [Machine.depth_deeper]; omega)
  refine (hx m₁ hm₁).bind (fun a m₂ h₂ => ?_) (fun _ _ h => L.opened_failed (L.failed_trans hf₁ h))
  exact hf a m m₂ hm (L.during_step h₁ h₂)

theorem Within.ite {c : Prop} [Decidable c] {x y : Exec α} (hx : L.Within x) (hy : L.Within y) :
    L.Within (if c then x else y) := by
  split
  · exact hx
  · exact hy

theorem Within.closed (hi : L.Sound i) {x : Exec α} (hx : L.Obeys x) :
    L.Within (i.closeLevel >>= fun _ => x) := by
  intro m m₁ hm h₁
  have hm₁ := L.failed_depth (failed_during h₁) (by rw [Machine.depth_deeper]; omega)
  refine (closeLevel_closes hi m₁ hm₁).bind (fun _ m₂ h₂ => ?_) (fun _ _ h => h.elim)
  have h := L.opened (L.closed h₁ h₂)
  have hf := L.failed_during h
  refine (hx m₂ (L.failed_depth hf hm)).mono (fun _ _ h' => ?_) (fun _ _ h' => ?_)
  · exact L.during_step h h'
  · exact L.failed_trans hf h'

theorem levelBlock_obeys (hi : L.Sound i) {r : Reader} (hb : L.Obeys (i.block r)) :
    L.Obeys (i.levelBlock r) :=
  Within.opened (.bind hb fun _ => .closed hi (.pure _))

end

end Law

end LevelScript
