import LevelScript.Proofs.Balance
import LevelScript.Proofs.Slots

/-!
# Releasing what a level owns

Without a method `delete`, the allocations of a level that is closed just go, and scripts see no
difference. A method that is called is a call like any other: native code apart, the control is
running when it has ended, whatever it was before.
-/

namespace LevelScript

namespace Exec

/-! ## Looking at memory -/

/-- Finds out something about the types and the memory, and changes nothing but the first invalid
access. -/
def Peeks (x : Exec α) : Prop :=
  ∃ f : TypeTable → Memory → α, ∀ m : Machine, ∃ p, x m = .ok (f m.types m.memory) { m with pending := p }

namespace Peeks

variable {α β : Type}

protected theorem pure (a : α) : Peeks (pure a) := ⟨fun _ _ => a, fun m => ⟨m.pending, rfl⟩⟩

theorem types (f : TypeTable → α) : Peeks (do return f (← get).types) :=
  ⟨fun types _ => f types, fun m => ⟨m.pending, rfl⟩⟩

protected theorem bind {x : Exec α} {f : α → Exec β} (hx : Peeks x) (hf : ∀ a, Peeks (f a)) : Peeks (x >>= f) := by
  obtain ⟨g, hx⟩ := hx
  obtain ⟨h, hf⟩ := Classical.axiomOfChoice hf
  refine ⟨fun types memory => h (g types memory) types memory, fun m => ?_⟩
  obtain ⟨p, hp⟩ := hx m
  rw [bind_ok hp]
  exact hf _ _

theorem onMachine {f : Machine → Exec α} (h : ∀ m m' : Machine, m'.types = m.types → f m' = f m)
    (hf : ∀ m, Peeks (f m)) : Peeks (get >>= f) := by
  obtain ⟨g, hf⟩ := Classical.axiomOfChoice hf
  refine ⟨fun types memory => g { types } types memory, fun m => ?_⟩
  show ∃ p, f m m = _
  rw [h { types := m.types } m rfl]
  exact hf _ m

protected theorem ite {c : Prop} [Decidable c] {x y : Exec α} (hx : Peeks x) (hy : Peeks y) :
    Peeks (if c then x else y) := by
  split
  · exact hx
  · exact hy

end Peeks

theorem peek_peeks (addr : UInt64) (size : Nat) : Peeks (peek addr size) := by
  refine .ite ⟨fun _ memory => memory.read addr size, fun m => ⟨m.pending, rfl⟩⟩ ?_
  exact ⟨fun _ _ => 0, fun m => ⟨m.pending <|> some addr, rfl⟩⟩

theorem bits_peeks (v : Variable) : Peeks (bits v) := by
  refine .bind (.types (·.get v.type)) fun t => ?_
  cases v.storage with
  | value bits => exact .pure _
  | location addr => exact .bind (peek_peeks addr _) fun _ => .pure _

theorem toValue_peeks (v : Variable) : Peeks (toValue v) := .bind (bits_peeks v) fun _ => .pure _

theorem fieldAt?_peeks (id : TypeId) (addr : UInt64) (name : NameId) : Peeks (fieldAt? id addr name) := by
  refine .onMachine (fun m m' ht => by simp only [ht]) fun m => ?_
  cases m.types.walkField id addr name with
  | none => exact .pure none
  | some place =>
    refine .ite (.pure _) (.bind (.types (·.get _)) fun t => .ite ?_ ?_)
    · exact .bind (toValue_peeks _) fun _ => .ite (.pure _) (.pure _)
    · exact .bind (.pure _) fun _ => .ite (.pure _) (.pure _)

theorem fieldAt?_missing {m : Machine} {id : TypeId} {addr : UInt64} {name : NameId}
    (h : m.types.walkField id addr name = none) : fieldAt? id addr name m = .ok none m := by
  rw [fieldAt?, get_bind, h]
  rfl

theorem method?_peeks (id : TypeId) (addr : UInt64) (name : NameId) : Peeks (method? id addr name) := by
  refine .bind (fieldAt?_peeks id addr name) fun found => ?_
  cases found with
  | none => exact .pure none
  | some method =>
    refine .bind (.types (·.kind method.type)) fun _ => .ite (.pure _) ?_
    exact .bind (bits_peeks method) fun _ => .ite (.pure _) (.pure _)

end Exec

/-! ## Methods -/

namespace Machine

def Deletes (m : Machine) (a : Allocation) : Prop :=
  a.cleanup = .struct ∧ ∃ f m', Exec.method? a.type a.addr NameId.destructor m = .ok (some f) m'

theorem Deletes.of_eq {m m' : Machine} {a : Allocation} (h : m.Deletes a) (ht : m'.types = m.types)
    (hm : m'.memory = m.memory) : m'.Deletes a := by
  obtain ⟨f, hf⟩ := Exec.method?_peeks a.type a.addr NameId.destructor
  have found (m : Machine) : m.Deletes a ↔ a.cleanup = .struct ∧ ∃ v, f m.types m.memory = some v := by
    obtain ⟨p, hp⟩ := hf m
    rw [Deletes, hp]
    simp
  rw [found, ht, hm]
  exact (found m).mp h

/-- A struct without fields has no method. -/
theorem not_deletes {m : Machine} {a : Allocation} (hf : (m.types.get a.type).fields = []) : ¬ m.Deletes a := by
  rintro ⟨-, f, m', h⟩
  have hl : m.types.walkField a.type a.addr NameId.destructor = none := by
    rw [TypeTable.walkField, TypeTable.walk, hf]
    rfl
  rw [Exec.method?, Exec.bind_ok (Exec.fieldAt?_missing hl)] at h
  cases h

def DeletesAny (m : Machine) (ids : List AllocId) : Prop :=
  ∃ id ∈ ids, ∃ a, m.heap.get? id = some a ∧ m.Deletes a

def DeletesFrom (m : Machine) (d : Nat) : Prop :=
  ∃ k l, d ≤ k ∧ m.scopes.levels[k]? = some l ∧ m.DeletesAny l.allocs.toList

/-- None of the allocations has a method that could run when it is released. -/
def Plain (m : Machine) (ids : List AllocId) : Prop :=
  ∀ id ∈ ids, ∀ a, m.heap.get? id = some a → a.cleanup ≠ .struct

def PlainFrom (m : Machine) (d : Nat) : Prop :=
  ∀ k l, d ≤ k → m.scopes.levels[k]? = some l → m.Plain l.allocs.toList

theorem PlainFrom.not_deletes {m : Machine} {d : Nat} (hp : m.PlainFrom d) : ¬ m.DeletesFrom d :=
  fun ⟨k, l, hk, hl, id, hid, a, ha, hd⟩ => hp k l hk hl id hid a ha hd.1

end Machine

namespace Interp

open Exec

variable {i : Interp} {m : Machine} {a : Allocation}

theorem callMethod_unset (ha : a.cleanup = .struct) (hd : ¬ m.Deletes a) :
    ∃ p, i.callMethod a.type a.addr NameId.destructor m = .ok () { m with pending := p } := by
  obtain ⟨f, hf⟩ := method?_peeks a.type a.addr NameId.destructor
  obtain ⟨p, hp⟩ := hf m
  refine ⟨p, ?_⟩
  cases hv : f m.types m.memory with
  | some v => exact absurd ⟨ha, v, _, hv ▸ hp⟩ hd
  | none =>
    rw [hv] at hp
    rw [callMethod, bind_ok hp]
    rfl

theorem callMethod_set (hd : m.Deletes a) : ∃ f p,
    i.callMethod a.type a.addr NameId.destructor m = (discard (i.call f [])) { m with pending := p } := by
  obtain ⟨-, v, m', hv⟩ := hd
  obtain ⟨f, hf⟩ := method?_peeks a.type a.addr NameId.destructor
  obtain ⟨p, hp⟩ := hf m
  rw [hv] at hp
  injection hp with _ hm
  exact ⟨v, p, by rw [callMethod, bind_ok hv, hm]⟩

end Interp

/-! ## Calls answer the control -/

namespace Machine

structure Stays (m m' : Machine) : Prop where
  natives : m.nativeCalls ≤ m'.nativeCalls
  control : m'.nativeCalls = m.nativeCalls → m.control = .running → m'.control = .running

/-- Unless native code was called, the control is running. -/
structure Answers (m m' : Machine) : Prop where
  natives : m.nativeCalls ≤ m'.nativeCalls
  control : m'.nativeCalls = m.nativeCalls → m'.control = .running

section
variable {a b c m m' : Machine}

theorem Stays.of_eq (hj : m'.journal = m.journal) (hc : m'.control = m.control) : m.Stays m' :=
  ⟨Nat.le_of_eq (congrArg (List.countP _) hj.symm), fun _ h => hc.trans h⟩

theorem Stays.trans (h : a.Stays b) (h' : b.Stays c) : a.Stays c := by
  have hn := h.natives
  have hn' := h'.natives
  exact ⟨by omega, fun hq hr => h'.control (by omega) (h.control (by omega) hr)⟩

theorem Answers.stays (h : m.Answers m') : m.Stays m' := ⟨h.natives, fun hq _ => h.control hq⟩

theorem Answers.trans (h : a.Answers b) (h' : b.Stays c) : a.Answers c := by
  have hn := h.natives
  have hn' := h'.natives
  exact ⟨by omega, fun hq => h'.control (by omega) (h.control (by omega))⟩

theorem Answers.after (h : b.Answers c) (hn : a.nativeCalls ≤ b.nativeCalls) : a.Answers c := by
  have hn' := h.natives
  exact ⟨by omega, fun hq => h.control (by omega)⟩

end

end Machine

namespace Interp

open Exec

def Answering (i : Interp) : Prop :=
  ∀ f args m, (i.call f args).Ends m (fun _ m' => m.Answers m') (fun _ m' => m.nativeCalls ≤ m'.nativeCalls)

def Staying (close : Exec Unit) : Prop := ∀ m, close.Ends m (fun _ m' => m.Stays m') (fun _ _ => False)

section
variable {i : Interp} {close : Exec Unit}

theorem closeTo_staying (hc : Staying close) (d : Nat) : ∀ n, Staying (closeTo close d n)
  | 0, _ => trivial
  | n + 1, m => by
    refine ends_bind.mpr (show Ends (if d < m.scopes.depth then _ else _) m _ _ from ?_)
    split
    · refine (hc m).bind (fun _ m₁ h₁ => ?_) (fun _ _ h => h)
      exact (closeTo_staying hc d n m₁).mono (fun _ _ h => h₁.trans h) (fun _ _ h => h)
    · exact .of_eq rfl rfl

end

end Interp

/-! ## Releasing -/

namespace Machine

/-- Of all that scripts can see, nothing has changed. -/
structure Untouched (m m' : Machine) : Prop where
  control : m'.control = m.control
  types : m'.types = m.types
  memory : m'.memory = m.memory
  frames : m'.frames = m.frames
  natives : m'.nativeCalls = m.nativeCalls

structure Releases (ids : List AllocId) (m m' : Machine) : Prop extends m.Untouched m' where
  scopes : m'.scopes = m.scopes
  pending : m.Plain ids → m'.pending = m.pending
  heap {id : AllocId} {a : Allocation} : m'.heap.get? id = some a ↔ m.heap.get? id = some a ∧ id ∉ ids

section
variable {a b c m m' : Machine} {ids ids' : List AllocId}

theorem Untouched.trans (h : a.Untouched b) (h' : b.Untouched c) : a.Untouched c :=
  ⟨h'.control.trans h.control, h'.types.trans h.types, h'.memory.trans h.memory, h'.frames.trans h.frames,
    h'.natives.trans h.natives⟩

theorem Untouched.stays (h : m.Untouched m') : m.Stays m' :=
  ⟨Nat.le_of_eq h.natives.symm, fun _ hr => h.control.trans hr⟩

theorem Untouched.answers (h : a.Untouched b) (h' : b.Answers c) : a.Answers c :=
  h'.after (Nat.le_of_eq h.natives.symm)

theorem Releases.refl (m : Machine) : m.Releases [] m :=
  ⟨⟨rfl, rfl, rfl, rfl, rfl⟩, rfl, fun _ => rfl, by simp⟩

theorem Releases.trans (h : a.Releases ids b) (h' : b.Releases ids' c) : a.Releases (ids ++ ids') c := by
  refine ⟨h.toUntouched.trans h'.toUntouched, h'.scopes.trans h.scopes, fun hp => ?_, ?_⟩
  · have hp' : b.Plain ids' := fun id hid x hx => hp id (List.mem_append_right _ hid) x (h.heap.mp hx).1
    exact (h'.pending hp').trans (h.pending fun id hid => hp id (List.mem_append_left _ hid))
  · intro id x
    rw [h'.heap, h.heap, List.mem_append, not_or, and_assoc]

theorem Releases.congr (h : m.Releases ids m') (hs : ∀ id x, m.heap.get? id = some x → (id ∈ ids ↔ id ∈ ids')) :
    m.Releases ids' m' := by
  refine ⟨h.toUntouched, h.scopes, fun hp => h.pending fun id hid x hx => ?_, ?_⟩
  · exact hp id ((hs id x hx).mp hid) x hx
  · intro id x
    rw [h.heap]
    exact and_congr_right fun hx => not_congr (hs id x hx)

theorem Releases.deletesAny (h : m.Releases ids m') (hd : ¬ m.DeletesAny ids) :
    m'.DeletesAny ids' ↔ m.DeletesAny ids' := by
  constructor
  · rintro ⟨id, hid, x, hx, hm⟩
    exact ⟨id, hid, x, (h.heap.mp hx).1, hm.of_eq h.types.symm h.memory.symm⟩
  · rintro ⟨id, hid, x, hx, hm⟩
    refine ⟨id, hid, x, h.heap.mpr ⟨hx, fun hi => hd ⟨id, hi, x, hx, hm⟩⟩, ?_⟩
    exact hm.of_eq h.types h.memory

theorem deletesAny_cons {id : AllocId} :
    m.DeletesAny (id :: ids) ↔ (∃ x, m.heap.get? id = some x ∧ m.Deletes x) ∨ m.DeletesAny ids := by
  simp [DeletesAny, or_and_right, exists_or]

/-- Either no method has been called, or the control has been answered. -/
def Releasing (ids : List AllocId) (m m' : Machine) : Prop :=
  (¬ m.DeletesAny ids ∧ m.Releases ids m') ∨ (m.DeletesAny ids ∧ m.Answers m')

theorem Releasing.stays (h : m.Releasing ids m') : m.Stays m' := by
  obtain ⟨-, h⟩ | ⟨-, h⟩ := h
  · exact h.stays
  · exact h.stays

end

end Machine

namespace Interp

open Exec

variable {i : Interp} {close : Exec Unit} {m : Machine} {id : AllocId} {a : Allocation}

/-- A method that has been called has answered the control, also if it failed. -/
theorem finalize_deletes (hi : i.Answering) (hc : Staying close) (d : Nat) (hd : m.Deletes a) :
    (i.finalize close d a).Ends m (fun _ m' => m.Answers m') (fun _ _ => False) := by
  have hn : (m.noted (.finalized a.seq)).nativeCalls = m.nativeCalls := m.nativeCalls_noted _
  have hd : (m.noted (.finalized a.seq)).Deletes a := hd.of_eq rfl rfl
  refine ends_modify.mpr (show Ends _ (m.noted (.finalized a.seq)) _ _ from ?_)
  generalize m.noted (.finalized a.seq) = m₁ at hd hn
  rw [hd.1]
  obtain ⟨f, p, hf⟩ := callMethod_set (i := i) hd
  refine ends_bind.mpr (ends_bind.mpr (ends_attempt.mpr ((ends_congr hf).mpr (ends_map.mpr ?_))))
  refine (hi f [] _).mono (fun _ m₂ h₂ => ?_) (fun e m₂ h₂ => ?_)
  · exact h₂.after (Nat.le_of_eq hn.symm)
  · refine ends_modify.mpr (ends_bind.mpr (ends_modify.mpr ?_))
    refine (closeTo_staying hc d _ _).mono (fun _ m₃ h₃ => ?_) (fun _ _ h => h)
    exact ⟨Nat.le_trans (Nat.le_of_eq hn.symm) (Nat.le_trans h₂ h₃.natives), fun _ => rfl⟩

/-- A struct that has no method is only taken note of. -/
theorem finalize_unset (d : Nat) (hs : a.cleanup = .struct) (hd : ¬ m.Deletes a) :
    ∃ p, i.finalize close d a m = .ok () { m.noted (.finalized a.seq) with pending := p } := by
  obtain ⟨p, hp⟩ := callMethod_unset (i := i) (m := m.noted (.finalized a.seq)) hs fun h => hd (h.of_eq rfl rfl)
  refine ⟨p, ?_⟩
  rw [finalize, hs]
  exact (bind_ok (s := m.noted (.finalized a.seq)) rfl).trans (get_bind.trans (bind_ok (attempt_ok hp)))

theorem finalize_keeps (d : Nat) (ha : m.heap.get? id = some a) (hd : ¬ m.Deletes a) :
    (i.finalize close d a).Ends (m.taken id a) (fun _ m' => m.Releases [id] m') (fun _ _ => False) := by
  have hn : (m.handedOver id a).nativeCalls = m.nativeCalls := (m.taken id a).nativeCalls_noted _
  have hm : m.Releases [id] (m.handedOver id a) := by
    refine ⟨⟨rfl, rfl, rfl, rfl, hn⟩, rfl, fun _ => rfl, ?_⟩
    intro id' b
    rw [List.mem_singleton]
    exact Heap.get?_remove ha _
  refine ends_modify.mpr (show Ends _ (m.handedOver id a) _ _ from ?_)
  cases hc : a.cleanup with
  | nothing => exact hm
  | function f =>
    refine ends_modifyGet.mpr ?_
    dsimp only
    split
    · exact ⟨⟨rfl, rfl, rfl, rfl, hn⟩, rfl, fun _ => rfl, hm.heap⟩
    · exact hm
  | struct =>
    have hd : ¬ (m.handedOver id a).Deletes a := fun h => hd (h.of_eq rfl rfl)
    obtain ⟨p, hp⟩ := callMethod_unset (i := i) hc hd
    refine ends_bind.mpr (ends_bind.mpr (ends_attempt.mpr ((ends_congr hp).mpr ?_)))
    refine ⟨⟨rfl, rfl, rfl, rfl, hn⟩, rfl, fun hq => absurd hc ?_, hm.heap⟩
    exact hq id (List.mem_singleton_self id) a ha

theorem finalizeAll_releasing (hi : i.Answering) (hc : Staying close) (d : Nat) :
    ∀ (ids : List AllocId) (m : Machine),
    (i.finalizeAll close d ids).Ends m (fun _ m' => m.Releasing ids m') (fun _ _ => False)
  | [], m => .inl ⟨by simp [Machine.DeletesAny], .refl m⟩
  | id :: ids, m => by
    cases ha : m.heap.get? id with
    | none =>
      -- a dead handle changes nothing
      have hd : m.DeletesAny (id :: ids) ↔ m.DeletesAny ids := by simp [Machine.deletesAny_cons, ha]
      refine (ends_bind_ok (takeAllocation_dead ha)).mpr ?_
      refine (finalizeAll_releasing hi hc d ids m).mono (fun _ m' h => ?_) (fun _ _ h => h)
      rw [Machine.Releasing, hd]
      refine h.imp_left fun h => ⟨h.1, h.2.congr fun id' b hb => ?_⟩
      rw [List.mem_cons, or_iff_right]
      intro he
      rw [he, ha] at hb
      cases hb
    | some a =>
      refine (ends_bind_ok (takeAllocation_live ha)).mpr ?_
      by_cases hd : m.Deletes a
      · -- from here on the control is running, whatever the other methods do
        have hm : (m.taken id a).Deletes a := hd.of_eq rfl rfl
        refine (finalize_deletes hi hc d hm).bind (fun _ m₁ h₁ => ?_) (fun _ _ h => h)
        refine (finalizeAll_releasing hi hc d ids m₁).mono (fun _ m₂ h₂ => ?_) (fun _ _ h => h)
        exact .inr ⟨⟨id, List.mem_cons_self, a, ha, hd⟩, (h₁.trans h₂.stays).after (Nat.le_refl _)⟩
      · have hn : ¬ m.DeletesAny [id] := by simp [Machine.DeletesAny, ha, hd]
        have hs : m.DeletesAny (id :: ids) ↔ m.DeletesAny ids := by simp [Machine.deletesAny_cons, ha, hd]
        refine (finalize_keeps d ha hd).bind (fun _ m₁ h₁ => ?_) (fun _ _ h => h)
        refine (finalizeAll_releasing hi hc d ids m₁).mono (fun _ m₂ h₂ => ?_) (fun _ _ h => h)
        rw [Machine.Releasing, hs, ← h₁.deletesAny hn]
        obtain ⟨h, h₂⟩ | ⟨h, h₂⟩ := h₂
        · exact .inl ⟨h, h₁.trans h₂⟩
        · exact .inr ⟨h, h₁.answers h₂⟩

end Interp

/-! ## Closing levels -/

namespace Machine

def innermost (m : Machine) : List AllocId :=
  match m.scopes.innermost? with
  | some l => l.allocs.toList
  | none => []

def ClosesLevel (m m' : Machine) : Prop :=
  (¬ m.DeletesAny m.innermost ∧ m.shallower.Releases m.innermost m') ∨ (m.DeletesAny m.innermost ∧ m.Answers m')

def ClosesTo (d : Nat) (m m' : Machine) : Prop :=
  (¬ m.DeletesFrom d ∧ m.Untouched m' ∧ (m.PlainFrom d → m'.pending = m.pending)) ∨ (m.DeletesFrom d ∧ m.Answers m')

section
variable {m m' : Machine} {d : Nat} {ids : List AllocId}

theorem ClosesLevel.stays (h : m.ClosesLevel m') : m.Stays m' := by
  obtain ⟨-, h⟩ | ⟨-, h⟩ := h
  · exact ⟨h.stays.natives, h.stays.control⟩
  · exact h.stays

theorem deletesAny_shallower : m.shallower.DeletesAny ids ↔ m.DeletesAny ids := by
  constructor
  · rintro ⟨id, hid, a, ha, hd⟩
    exact ⟨id, hid, a, ha, hd.of_eq rfl rfl⟩
  · rintro ⟨id, hid, a, ha, hd⟩
    exact ⟨id, hid, a, ha, hd.of_eq rfl rfl⟩

theorem deletesAny_releaseOrder : m.DeletesAny (m.heap.releaseOrder ids) ↔ m.DeletesAny ids := by
  constructor
  · rintro ⟨id, hid, h⟩
    exact ⟨id, (Heap.mem_releaseOrder.mp hid).1, h⟩
  · rintro ⟨id, hid, a, ha, hd⟩
    exact ⟨id, Heap.mem_releaseOrder.mpr ⟨hid, a, ha⟩, a, ha, hd⟩

theorem level_cases {k : Nat} {l : Level} (hl : m.scopes.levels[k]? = some l) :
    l.allocs.toList = m.innermost ∨ m.shallower.scopes.levels[k]? = some l := by
  by_cases hk : k < m.scopes.levels.size - 1
  · right
    show m.scopes.levels.pop[k]? = some l
    rw [Array.getElem?_pop, if_pos hk, hl]
  · left
    have hlt : k < m.scopes.levels.size := (Array.getElem?_eq_some_iff.mp hl).1
    rw [innermost, Scopes.innermost?, Array.back?_eq_getElem?, show m.scopes.levels.size - 1 = k by omega, hl]

theorem level_shallower {k : Nat} {l : Level} (hl : m.shallower.scopes.levels[k]? = some l) :
    m.scopes.levels[k]? = some l := by
  have hl : m.scopes.levels.pop[k]? = some l := hl
  rw [Array.getElem?_pop] at hl
  split at hl
  · exact hl
  · cases hl

theorem level_innermost (hd : 0 < m.scopes.depth) :
    ∃ l, m.scopes.levels[m.scopes.depth - 1]? = some l ∧ l.allocs.toList = m.innermost := by
  have hlt : m.scopes.levels.size - 1 < m.scopes.levels.size := Nat.sub_lt hd Nat.one_pos
  refine ⟨_, Array.getElem?_eq_getElem hlt, ?_⟩
  rw [innermost, Scopes.innermost?, Array.back?_eq_getElem?, Array.getElem?_eq_getElem hlt]

theorem deletesFrom_iff (hd : d < m.scopes.depth) :
    m.DeletesFrom d ↔ m.DeletesAny m.innermost ∨ m.shallower.DeletesFrom d := by
  constructor
  · rintro ⟨k, l, hk, hl, h⟩
    obtain he | hs := level_cases hl
    · exact .inl (he ▸ h)
    · exact .inr ⟨k, l, hk, hs, deletesAny_shallower.mpr h⟩
  · rintro (h | ⟨k, l, hk, hl, h⟩)
    · obtain ⟨l, hl, he⟩ := level_innermost (m := m) (by omega)
      exact ⟨_, l, by omega, hl, he ▸ h⟩
    · exact ⟨k, l, hk, level_shallower hl, deletesAny_shallower.mp h⟩

theorem not_deletesFrom (hd : m.scopes.depth ≤ d) : ¬ m.DeletesFrom d := by
  rintro ⟨k, l, hk, hl, -⟩
  have hlt : k < m.scopes.depth := (Array.getElem?_eq_some_iff.mp hl).1
  omega

theorem Releases.deletesFrom (h : m.Releases ids m') (hd : ¬ m.DeletesAny ids) :
    m'.DeletesFrom d ↔ m.DeletesFrom d := by
  simp only [DeletesFrom, h.scopes, h.deletesAny hd]

theorem Releases.plainFrom (h : m.Releases ids m') (hp : m.PlainFrom d) : m'.PlainFrom d := by
  intro k l hk hl id hid a ha
  rw [h.scopes] at hl
  exact hp k l hk hl id hid a (h.heap.mp ha).1

end

end Machine

namespace Interp

open Exec

variable {i : Interp} {m : Machine}

theorem closeLevelWithin_closesLevel (hi : i.Answering) : ∀ (n : Nat) (m : Machine),
    (i.closeLevelWithin n).Ends m (fun _ m' => m.ClosesLevel m') (fun _ _ => False)
  | 0, _ => trivial
  | n + 1, m => by
    have hc : Staying (i.closeLevelWithin n) := fun m =>
      (closeLevelWithin_closesLevel hi n m).mono (fun _ _ h => h.stays) (fun _ _ h => h)
    have hp : popLevel? m = .ok m.scopes.innermost? { m with scopes := m.scopes.outer } := rfl
    refine (ends_bind_ok hp).mpr ?_
    cases hl : m.scopes.innermost? with
    | none =>
      have hn : m.innermost = [] := by rw [Machine.innermost, hl]
      refine .inl ?_
      rw [hn]
      exact ⟨by simp [Machine.DeletesAny], ⟨rfl, rfl, rfl, rfl, rfl⟩, rfl, fun _ => rfl,
        by simp [Machine.shallower]⟩
    | some l =>
      have hn : m.innermost = l.allocs.toList := by rw [Machine.innermost, hl]
      refine ends_bind.mpr ?_
      show Ends (i.finalizeAll _ _ (m.shallower.heap.releaseOrder l.allocs.toList)) m.shallower _ _
      refine (finalizeAll_releasing hi hc _ _ _).mono (fun _ m' h => ?_) (fun _ _ h => h)
      rw [Machine.Releasing, Machine.deletesAny_releaseOrder, Machine.deletesAny_shallower, ← hn] at h
      refine h.imp (fun h => ⟨h.1, h.2.congr fun id a ha => ?_⟩) (fun h => ⟨h.1, h.2.after (Nat.le_refl _)⟩)
      rw [Heap.mem_releaseOrder]
      exact and_iff_left ⟨a, ha⟩

theorem closeLevel_staying (hi : i.Answering) : Staying i.closeLevel := fun m =>
  (closeLevelWithin_closesLevel hi _ m).mono (fun _ _ h => h.stays) (fun _ _ h => h)

theorem closeTo_closesTo (hi : i.Answering) (d : Nat) : ∀ (n : Nat) (m : Machine),
    (closeTo i.closeLevel d n).Ends m (fun _ m' => m.ClosesTo d m') (fun _ _ => False)
  | 0, _ => trivial
  | n + 1, m => by
    refine ends_bind.mpr (show Ends (if d < m.scopes.depth then _ else _) m _ _ from ?_)
    split
    case isTrue hd =>
      refine (closeLevelWithin_closesLevel hi _ m).bind (fun _ m₁ h₁ => ?_) (fun _ _ h => h)
      obtain ⟨hn, h₁⟩ | ⟨hn, h₁⟩ := h₁
      · have hn' : ¬ m.shallower.DeletesAny m.innermost := fun h => hn (Machine.deletesAny_shallower.mp h)
        have hs : m₁.DeletesFrom d ↔ m.DeletesFrom d := by
          rw [h₁.deletesFrom hn', Machine.deletesFrom_iff hd, or_iff_right hn]
        -- nothing was called, so the other levels are closed as they would have been
        have ht : m.Untouched m₁ := ⟨h₁.control, h₁.types, h₁.memory, h₁.frames, h₁.natives⟩
        refine (closeTo_closesTo hi d n m₁).mono (fun _ m₂ h₂ => ?_) (fun _ _ h => h)
        rw [Machine.ClosesTo, ← hs]
        refine h₂.imp (fun h => ⟨h.1, ht.trans h.2.1, fun hp => ?_⟩) (fun h => ⟨h.1, ht.answers h.2⟩)
        obtain ⟨l, hl, he⟩ := m.level_innermost (by omega)
        have hp₁ : m₁.PlainFrom d := h₁.plainFrom fun k l hk hl => hp k l hk (Machine.level_shallower hl)
        exact (h.2.2 hp₁).trans (h₁.pending (he ▸ hp _ l (by omega) hl))
      · refine (closeTo_staying (closeLevel_staying hi) d n m₁).mono (fun _ m₂ h₂ => ?_) (fun _ _ h => h)
        exact .inr ⟨(Machine.deletesFrom_iff hd).mpr (.inl hn), h₁.trans h₂⟩
    case isFalse hd =>
      exact .inl ⟨Machine.not_deletesFrom (by omega), ⟨rfl, rfl, rfl, rfl, rfl⟩, fun _ => rfl⟩

/-! ## Calls -/

theorem runBody_answers (hi : i.Answering) (hb : balance.Sound i) (call : ScriptCall) (r : Reader) :
    Law.InCall m (fun _ m' => m'.nativeCalls = m.nativeCalls → m'.control = .running) (fun _ _ => True)
      (i.runBody call m.scopes.depth r) := by
  intro m₁ ⟨f, _, h₁⟩
  have hn₁ : m₁.nativeCalls = m.nativeCalls := congrArg (List.countP _) h₁.journal
  have hd : m₁.scopes.depth = m.scopes.depth + 1 := h₁.depth.trans (Scopes.depth_push _)
  have block := (Law.block_obeys hb r).discard m₁ (by omega)
  refine block.bind (fun _ m₂ h₂ => ?_) (fun _ _ _ => trivial)
  refine ends_bind.mpr (show Ends _ { m₂ with control := .running } _ _ from ?_)
  refine (@functionResult_calm true call _ _).bind (fun result m₃ h₃ => ?_) (fun _ _ _ => trivial)
  refine (closeTo_staying (closeLevel_staying hi) _ _ m₃).bind (fun _ m₄ h₄ => ?_) (fun _ _ h => h.elim)
  intro hq
  have hn₂ := h₂.1.natives
  have hn₃ : m₃.nativeCalls = m₂.nativeCalls := congrArg (List.countP _) h₃.journal
  have hn₄ := h₄.natives
  have hq : m₄.nativeCalls = m.nativeCalls := hq
  exact h₄.control (by omega) h₃.control

theorem callScript_answers (hi : i.Answering) (hb : balance.Sound i) (call : ScriptCall) (args : List Variable)
    (m : Machine) :
    (i.callScript call args).Ends m (fun _ m' => m'.nativeCalls = m.nativeCalls → m'.control = .running)
      (fun _ _ => True) :=
  Law.callScript_ends call args (fun _ => trivial) (fun _ _ _ => trivial) (runBody_answers hi hb call)

theorem callNative_counts (hb : balance.Sound i) (addr : UInt64) (result : TypeId) (assignable : Bool) (fixed : Nat)
    (args : List Variable) (m : Machine) :
    (i.callNative addr result assignable fixed args).Ends m (fun _ m' => m.nativeCalls < m'.nativeCalls)
      (fun _ _ => True) := by
  refine (Law.callNative_ends hb addr result assignable fixed args m).mono (fun _ _ h => ?_) (fun _ _ _ => trivial)
  have hn := h.1.natives
  rw [Machine.nativeCalls_noted] at hn
  exact hn

theorem guard_ends {α : Type} {c : Prop} [Decidable c] {e : Cause} {x : Exec α} {m : Machine}
    {Q : α → Machine → Prop} (hx : x.Ends m Q (fun _ _ => True)) :
    Ends (if c then (raise e : Exec PUnit) >>= fun _ => x else x) m Q (fun _ _ => True) := by
  split
  · exact trivial
  · exact hx

theorem callFunction_answers (hi : i.Answering) (hb : balance.Sound i) (f : Variable) (args : List Variable)
    (m : Machine) :
    (i.callFunction f args).Ends m (fun _ m' => m'.nativeCalls = m.nativeCalls → m'.control = .running)
      (fun _ _ => True) := by
  refine ends_bind.mpr (guard_ends (guard_ends ?_))
  refine (@convertArguments_calm true _ args m).bind (fun converted m₁ h₁ => ?_) (fun _ _ _ => trivial)
  refine (@bits_calm true f m₁).bind (fun addr m₂ h₂ => guard_ends ?_) (fun _ _ _ => trivial)
  have hn : m₂.nativeCalls = m.nativeCalls := congrArg (List.countP _) (h₁.trans h₂).journal
  refine ends_get.mpr ?_
  cases m₂.functions.classify addr with
  | native addr =>
    -- native code is on record, so there was one call more
    refine (callNative_counts hb _ _ _ _ _ m₂).mono (fun _ m' h hq => ?_) (fun _ _ _ => trivial)
    omega
  | script id =>
    refine (callScript_answers hi hb _ _ m₂).mono (fun _ m' h hq => ?_) (fun _ _ _ => trivial)
    exact h (hq.trans hn.symm)

theorem ofFuel_answering : ∀ n, (ofFuel n).Answering
  | 0 => fun _ _ _ => trivial
  | n + 1 => by
    intro f args m
    have hb := Law.sound_ofFuel balance n
    have h := callFunction_answers (ofFuel_answering n) hb f args m
    have hc := Law.callFunction_calls hb f args m
    exact (h.and hc).mono (fun _ _ h => ⟨h.2.1.natives, h.1⟩) (fun _ _ h => h.2.natives)

end Interp

end LevelScript
