import LevelScript.Proofs.Quiescence

/-!
# What is kept of the allocations

A statement about all allocations of a machine holds all the time if few steps keep it: opening and
closing a level, releasing what the closed level owned, making, moving and deleting. While a level is
being closed there are allocations without an owner, which any method `delete` leaves for later.
-/

namespace LevelScript

namespace Machine

def history (m : Machine) : List Event := m.journal.filter (!·.isNativeCall)

/-- The same allocations in the same lists, with the same history. -/
structure Alike (m m' : Machine) : Prop where
  heap : m'.heap = m.heap
  owned : m'.scopes.owned = m.scopes.owned
  history : m'.history = m.history

theorem Alike.depth {m m' : Machine} (h : m.Alike m') : m'.scopes.depth = m.scopes.depth := by
  rw [← Scopes.size_owned, h.owned, Scopes.size_owned]

end Machine

/-- A statement about the allocations of a machine, which knows those that have lost their level, and the steps
that keep it. -/
structure Upkeep where
  holds (orphans : List AllocId) (m : Machine) : Prop
  alike {orphans m m'} : holds orphans m → m.Alike m' → holds orphans m'
  deeper {orphans m} : holds orphans m → holds orphans m.deeper
  shallower {orphans m l} : holds orphans m → m.scopes.innermost? = some l →
    holds (orphans ++ m.heap.releaseOrder l.allocs.toList) m.shallower
  dead {orphans m id ids} : holds (orphans ++ id :: ids) m → m.heap.get? id = none → holds (orphans ++ ids) m
  handedOver {orphans m id ids a} : holds (orphans ++ id :: ids) m → m.heap.get? id = some a →
    holds (orphans ++ ids) (m.handedOver id a)
  allocated {orphans m a} : holds orphans m → a.seq = m.heap.nextSeq → a.level < m.scopes.depth → ∀ next,
    holds orphans (m.allocated a.level ((m.heap.numbered next).insert a))
  moved {orphans m addr id level} : holds orphans m → m.heap.find? addr = some id → level < m.scopes.depth →
    holds orphans (m.moved id level)
  freed {orphans m id a} : holds orphans m → m.heap.get? id = some a →
      holds orphans ((m.disowned id a).handedOver id a)

/-- The same of all machines that a program can come to. -/
structure Custody extends Upkeep where
  start {m : Machine} : m.Unused → holds [] m.start

/-! ## The law -/

/-- `d` levels or more, and `ids` have lost their level on the way. -/
structure Hands (C : Upkeep) (d : Nat) (ids : List AllocId) (m m' : Machine) : Prop where
  depth : d ≤ m'.scopes.depth
  holds {orphans : List AllocId} : C.holds orphans m → C.holds (orphans ++ ids) m'

namespace Hands

variable {C : Upkeep} {d e : Nat} {ids : List AllocId} {a b c m m' : Machine}

theorem of (hd : d ≤ m'.scopes.depth) (h : ∀ orphans, C.holds orphans m → C.holds orphans m') : Hands C d [] m m' :=
  ⟨hd, fun {orphans} ho => (List.append_nil orphans).symm ▸ h orphans ho⟩

theorem none {orphans : List AllocId} (h : Hands C d [] m m') (ho : C.holds orphans m) : C.holds orphans m' :=
  List.append_nil orphans ▸ h.holds ho

theorem trans (h : Hands C d ids a b) (h' : Hands C b.scopes.depth [] b c) : Hands C d ids a c :=
  ⟨Nat.le_trans h.depth h'.depth, fun ho => h'.none (h.holds ho)⟩

theorem opened (h : Hands C e ids m.deeper m') (hd : d ≤ e) : Hands C d ids m m' :=
  ⟨Nat.le_trans hd h.depth, fun ho => h.holds (C.deeper ho)⟩

theorem closed (h : Hands C e ids a b) (hd : d < b.scopes.depth) (h' : Hands C (b.scopes.depth - 1) [] b c) :
    Hands C d ids a c := by
  have hc := h'.depth
  exact ⟨by omega, fun ho => h'.none (h.holds ho)⟩

theorem alike (h : m.Alike m') : Hands C m.scopes.depth [] m m' :=
  .of (Nat.le_of_eq h.depth.symm) fun _ ho => C.alike ho h

theorem between (h : Hands C d ids a b) (ha : m.Alike a) (hb : b.Alike m') : Hands C d ids m m' :=
  ⟨hb.depth.symm ▸ h.depth, fun ho => C.alike (h.holds (C.alike ho ha)) hb⟩

end Hands

namespace Upkeep

def law (C : Upkeep) : Law where
  kept m := Hands C m.scopes.depth [] m
  during := Hands C
  above := Hands C
  failed m := Hands C m.scopes.depth [] m
  wild m := Hands C m.scopes.depth [] m
  kept_trans := .trans
  during_kept h := h
  during_step := .trans
  failed_during h := h
  failed_trans := .trans
  failed_depth h hm := Nat.lt_of_lt_of_le hm h.depth
  wild_failed h := h
  wild_trans := .trans
  wild_parked m e := .alike ⟨rfl, rfl, rfl⟩
  calmly h := .alike ⟨h.heap, h.owned, congrArg (List.filter _) h.journal⟩
  control m c := .alike ⟨rfl, rfl, rfl⟩
  place m row col := .alike ⟨rfl, rfl, rfl⟩
  place_back {m m' row col} h := h.between ⟨rfl, rfl, rfl⟩ ⟨rfl, rfl, rfl⟩
  opened h := h.opened (Nat.le_refl _)
  opened_failed {m m'} h := h.opened (by rw [m.depth_deeper]; omega)
  closing {m l} hl := ⟨Nat.le_of_eq (Scopes.depth_outer _).symm, fun ho => C.shallower ho hl⟩
  dead h hd := ⟨h.depth, fun ho => C.dead (h.holds ho) hd⟩
  handedOver h ha := ⟨h.depth, fun ho => C.handedOver (h.holds ho) ha⟩
  closed h h' := h.closed h.depth h'
  closed_failed {m m₁ m₂} h h' := by
    have hd := h.depth
    rw [m.depth_deeper] at hd
    exact (h.closed hd h').opened (Nat.le_refl _)
  recovering {d ids m m₁ m₂} h h' := h.trans (h'.trans (.alike ⟨rfl, rfl, rfl⟩))
  leaving h := ⟨Nat.le_of_succ_le h.depth, h.holds⟩
  above_closed h hd h' := h.closed hd h'
  above_done h _ := h
  called {m m' f} _ h := by
    have h : Hands C m.scopes.depth [] m.deeper m'.left := h.between ⟨rfl, rfl, rfl⟩ ⟨rfl, rfl, rfl⟩
    exact h.opened (Nat.le_refl _)
  called_failed {m m' f} _ h := by
    refine (h.between (m := m.deeper) ⟨rfl, rfl, rfl⟩ ⟨rfl, rfl, rfl⟩).opened ?_
    exact Nat.le_trans (Nat.le_succ _) (Nat.le_of_eq (Scopes.depth_push _).symm)
  calledNative {m m' addr} h _ := h.between ⟨rfl, rfl, rfl⟩ ⟨rfl, rfl, rfl⟩
  filed {m m' file} h := h.between ⟨rfl, rfl, rfl⟩ ⟨rfl, rfl, rfl⟩
  filed_failed h := h.between ⟨rfl, rfl, rfl⟩ ⟨rfl, rfl, rfl⟩
  added {m} size type inner cleanup hd := by
    have hl : (if inner then m.topLevel else 0) < m.scopes.depth := by
      rw [Machine.topLevel]
      split <;> omega
    exact .of (Nat.le_of_eq (Scopes.depth_modifyLevel ..).symm) fun _ ho =>
      C.allocated (a := ⟨m.heap.nextAddr, size, type, _, cleanup, m.heap.nextSeq⟩) ho rfl hl _
  created {m m₁ m₂ found} f inner hs h _ _ _ hd := by
    have h := (Exec.newStub_steady hs h).1
    have hl : (if inner then m₂.topLevel else 0) < m₂.scopes.depth := by
      rw [Machine.topLevel, h.depth]
      split <;> omega
    have ha : m.Alike (m₂.withFunctions (m₂.functions.insert found.1 f)) :=
      ⟨h.heap, h.owned, congrArg (List.filter _) h.journal⟩
    refine (Hands.alike ha).trans (.of (Nat.le_of_eq (Scopes.depth_modifyLevel ..).symm) fun _ ho => ?_)
    exact C.allocated (a := ⟨f.stub, 0, f.type, _, .function found.1, m₂.heap.nextSeq⟩) ho rfl hl m₂.heap.nextAddr
  released _ := .alike ⟨rfl, rfl, rfl⟩
  moved {m addr id level} hf hd := .of (Nat.le_of_eq (m.depth_moved id level).symm) fun _ ho => C.moved ho hf hd
  freed ha := .of (Nat.le_of_eq (Scopes.depth_modifyLevel ..).symm) fun _ ho => C.freed ho ha

/-! ## Sessions -/

open Exec Interp

variable {C : Upkeep} {m : Machine}

theorem closeTo_holds (n d k : Nat) (hd : d ≤ m.scopes.depth) (ho : C.holds [] m) :
    (closeTo (ofFuel n).closeLevel d k).Ends m (fun _ m' => C.holds [] m') (fun _ _ => False) := by
  have hc := Law.closeLevel_closes (Law.sound_ofFuel C.law n)
  have ha : C.law.above d [] m m := Hands.of hd fun _ ho => ho
  exact (Law.closeTo_ends hc k m ha).mono (fun _ _ h => Hands.none h ho) (fun _ _ h => h)

theorem reset_holds (n : Nat) (hd : 0 < m.scopes.depth) (ho : C.holds [] m) :
    (ofFuel n).reset.Ends m (fun _ m' => C.holds [] m') (fun _ _ => False) := by
  refine ends_bind.mpr (ends_bind.mpr (show Ends _ (m.cutTo 1) _ _ from ?_))
  have hc := closeTo_holds n 1 (ofFuel n).fuel (m := m.cutTo 1) hd (C.alike ho ⟨rfl, rfl, rfl⟩)
  exact hc.mono (fun _ _ h => C.alike h ⟨rfl, rfl, rfl⟩) (fun _ _ h => h)

end Upkeep

open Exec Interp in
/-- After every run and the way back, no allocation is without an owner. -/
theorem Custody.of_reached (C : Custody) {m : Machine} (h : m.Reached) : C.holds [] m := by
  induction h with
  | start h => exact C.start h
  | @run m m' n s hm hl ih =>
    obtain ⟨o, m₁, hr, hl⟩ := Machine.leads_finish hl
    have hd : 0 < m.scopes.depth := by rw [hm.settled.depth]; omega
    have hb : (attempt (s.body (ofFuel n))).Ends m (fun _ m' => C.holds [] m') (fun _ _ => True) := by
      refine ends_attempt.mpr ((Machine.body_obeys C.law n s m hd).mono (fun _ _ h => ?_) (fun _ _ h => ?_))
      · exact Hands.none h ih
      · exact Hands.none h ih
    have hs := C.reset_holds n (hm.settled.after_body hr).1 (hb.ok hr)
    exact Ends.leads (hs.mono (fun _ _ h => h) (fun _ _ h => h.elim)) hl
  | idle _ hs _ _ ih => exact C.alike ih ⟨hs.heap, hs.owned, congrArg (List.filter _) hs.journal⟩

end LevelScript
