import LevelScript.Proofs.Release
import LevelScript.Session

/-!
# What a run leaves behind

A program runs texts and files one after the other, and goes back to the outermost level in between,
whatever the outcome. Two things can outlast this: calls that a method `delete` leaves open, if it
runs native code on the way back, and an invalid access in a command that failed for another reason,
which is then raised in the next run.
-/

namespace LevelScript

inductive Script where
  | text (source file : String)
  | file (path : String)

open Interp in
def Script.body (i : Interp) : Script → Exec Unit
  | .text source name => i.runSource source name
  | .file path => i.runFile path

def Exec.Leads (x : Exec α) (m m' : Machine) : Prop :=
  (∃ a, x m = .ok a m') ∨ ∃ e, x m = .error (.raised e) m'

theorem Exec.Ends.leads {x : Exec α} {m m' : Machine} {P : Machine → Prop}
    (h : x.Ends m (fun _ => P) (fun _ => P)) (hx : x.Leads m m') : P m' := by
  obtain ⟨_, hx⟩ | ⟨_, hx⟩ := hx
  · exact h.ok hx
  · exact h.raised hx

namespace Machine

structure Unused (m : Machine) : Prop where
  scopes : m.scopes = {}
  heap : m.heap = {}
  control : m.control = .running
  parked : m.parked = none
  pending : m.pending = none
  journal : m.journal = []

/-- The machines that a program can come to. Between its runs it can change values, names and
settings. -/
inductive Reached : Machine → Prop
  | start {m : Machine} : m.Unused → Reached m.start
  | run {m m' : Machine} (n : Nat) (s : Script) : Reached m →
    (Session.finish (Interp.ofFuel n) (s.body (Interp.ofFuel n))).Leads m m' → Reached m'
  | idle {m m' : Machine} : Reached m → m.Steady m' → m'.parked = m.parked →
    m'.pending = m.pending → Reached m'

/-- One level, and the outermost call; nothing waits to be answered. -/
structure Settled (m : Machine) : Prop where
  depth : m.scopes.depth = 1
  frames : 0 < m.frames.size
  base : m.frames[0]?.map Frame.base = some 0
  control : m.control = .running
  parked : m.parked = none

/-- And nothing else is left of what was run. -/
structure Quiescent (m : Machine) : Prop extends m.Settled where
  alone : m.frames.size = 1
  pending : m.pending = none

theorem quiescent_iff {m : Machine} (h : m.Settled) :
    m.Quiescent ↔ m.frames.size = 1 ∧ m.pending = none :=
  ⟨fun q => ⟨q.alone, q.pending⟩, fun q => ⟨h, q.1, q.2⟩⟩

theorem Unused.settled {m : Machine} (h : m.Unused) : m.start.Settled where
  depth := by rw [start, h.scopes]; rfl
  frames := Nat.one_pos
  base := rfl
  control := h.control
  parked := h.parked

end Machine

namespace Interp

open Exec

/-! ## Going back -/

/-- Going back to the outermost level always comes to an end there. -/
theorem reset_settles (n : Nat) {m : Machine} (hd : 0 < m.scopes.depth) (hf : 0 < m.frames.size)
    (hb : m.frames[0]?.map Frame.base = some 0) :
    (ofFuel n).reset.Ends m
      (fun _ m' => m'.Settled ∧ (m'.nativeCalls = m.nativeCalls → m'.frames.size = 1) ∧
        (m.PlainFrom 1 → m'.frames.size = 1 ∧ m'.pending = m.pending))
      (fun _ _ => False) := by
  have hi := Law.sound_ofFuel balance n
  refine ends_bind.mpr (ends_bind.mpr (show Ends _ (m.cutTo 1) _ _ from ?_))
  have hs : (m.cutTo 1).frames.size = 1 := by
    show (m.frames.take 1).size = 1
    rw [Array.take_eq_extract, Array.size_extract]
    omega
  have ha : balance.above 1 [] (m.cutTo 1) (m.cutTo 1) := ⟨⟨hd, .refl _, Nat.le_refl _⟩, fun _ => rfl⟩
  have hc := Law.closeTo_ends (Law.closeLevel_closes hi) (ofFuel n).fuel _ ha
  refine ends_iff.mpr ⟨fun _ m₁ h₁ => ?_, fun _ _ h => hc.raised h⟩
  have hh := hc.ok h₁
  have h0 : (m.cutTo 1).frames[0]? = m.frames[0]? := by
    show (m.frames.take 1)[0]? = _
    rw [Array.take_eq_extract, Array.getElem?_extract, if_pos (by omega)]
  refine ⟨?_, fun hn => ?_, fun hp => ?_⟩
  · have hl := (closeTo_depth (ofFuel n).closeLevel 1 (ofFuel n).fuel (m.cutTo 1)).ok h₁
    refine ⟨Nat.le_antisymm hl hh.1.depth, Nat.lt_of_lt_of_le (by omega) hh.1.frames.size, ?_, rfl, rfl⟩
    show m₁.frames[0]?.map Frame.base = some 0
    rw [hh.1.frames.base 0 (by omega), h0, hb]
  · exact (hh.2 ⟨hn, by omega⟩).2.trans hs
  · have hp : (m.cutTo 1).PlainFrom 1 := hp
    have hq := (closeTo_closesTo (ofFuel_answering n) 1 _ _).ok h₁
    obtain ⟨-, ht, hq⟩ | ⟨hd, -⟩ := hq
    · exact ⟨(congrArg Array.size ht.frames).trans hs, hq hp⟩
    · exact absurd hd hp.not_deletes

/-! ## Runs -/

theorem checkFault_ends (m : Machine) : checkFault.Ends m (fun _ m' => m'.pending = none) (fun _ _ => True) := by
  refine ends_get.mpr ?_
  cases hp : m.pending with
  | none => exact hp
  | some addr => trivial

theorem keepResult_ends (type : TypeId) (word : UInt64) (m : Machine) :
    (keepResult type word).Ends m (fun _ m' => m'.pending = m.pending) (fun _ _ => True) := by
  refine ends_bind.mpr (ends_modifyGet.mpr (ends_modifyGet.mpr ?_))
  dsimp only
  split <;> rfl

theorem runSource_ends (i : Interp) (source file : String) (m : Machine) :
    (i.runSource source file).Ends m (fun _ m' => m'.pending = none) (fun _ _ => True) := by
  refine ends_bind.mpr (ends_bind.mpr ?_)
  refine ends_any.bind (fun p m₁ _ => ?_) (fun _ _ h => h)
  refine ends_bind.mpr (ends_any.bind (fun value m₂ _ => ?_) (fun _ _ h => h))
  obtain ⟨last, error⟩ := p
  cases error with
  | some e =>
    refine (ends_bind_ok rfl).mpr ((keepResult_ends _ _ m₂).bind (fun _ _ _ => ?_) (fun _ _ h => h))
    trivial
  | none =>
    refine ends_bind.mpr (ends_attempt.mpr ((checkFault_ends m₂).mono (fun _ m₃ h₃ => ?_) (fun e m₃ _ => ?_)))
    · refine (ends_bind_ok rfl).mpr ((keepResult_ends _ _ m₃).bind (fun _ m₄ h₄ => ?_) (fun _ _ h => h))
      exact h₄.trans h₃
    · refine (ends_bind_ok rfl).mpr ((keepResult_ends _ _ m₃).bind (fun _ _ _ => ?_) (fun _ _ h => h))
      trivial

end Interp

/-! ## Sessions -/

namespace Machine

open Exec Interp

theorem body_obeys (L : Law) (n : Nat) (s : Script) : L.Obeys (s.body (ofFuel n)) := by
  have hi := Law.sound_ofFuel L n
  cases s with
  | text source name => exact Law.runSource_obeys hi source name
  | file path => exact Law.runFile_obeys hi path

theorem body_pending (n : Nat) (s : Script) (m : Machine) :
    (s.body (ofFuel n)).Ends m (fun _ m' => m'.pending = none) (fun _ _ => True) := by
  cases s with
  | text source name => exact runSource_ends _ source name m
  | file path => exact ends_any.bind (fun p m₁ _ => runSource_ends _ _ _ m₁) (fun _ _ h => h)

/-- Whatever a run does, the outermost level and call stay. -/
theorem Settled.after_body {m m₁ : Machine} {n : Nat} {s : Script} {o : Except RunError Unit} (hm : m.Settled)
    (hr : attempt (s.body (ofFuel n)) m = .ok o m₁) :
    0 < m₁.scopes.depth ∧ 0 < m₁.frames.size ∧ m₁.frames[0]?.map Frame.base = some 0 := by
  have hd : 0 < m.scopes.depth := by rw [hm.depth]; omega
  have h : (attempt (s.body (ofFuel n))).Ends m (fun _ m' => Holds m.scopes.depth m m') (fun _ _ => True) := by
    refine ends_attempt.mpr ((body_obeys balance n s m hd).mono (fun _ _ h => ?_) (fun _ _ h => h))
    exact h.1
  have h := h.ok hr
  refine ⟨Nat.lt_of_lt_of_le hd h.depth, Nat.lt_of_lt_of_le hm.frames h.frames.size, ?_⟩
  rw [h.frames.base 0 hm.frames, hm.base]

theorem leads_finish {i : Interp} {x : Exec Unit} {m m' : Machine} (h : (Session.finish i x).Leads m m') :
    ∃ o m₁, attempt x m = .ok o m₁ ∧ i.reset.Leads m₁ m' := by
  refine Ends.leads (P := fun m' => ∃ o m₁, attempt x m = .ok o m₁ ∧ i.reset.Leads m₁ m') ?_ h
  have never : (attempt x).Ends m (fun _ _ => True) (fun _ _ => False) := ends_attempt.mpr ends_any
  refine ends_bind.mpr (ends_iff.mpr ⟨fun o m₁ hx => ?_, fun _ _ hx => (never.raised hx).elim⟩)
  refine ends_bind.mpr (ends_iff.mpr ⟨fun _ m₂ hr => ?_, fun e m₂ hr => ⟨o, m₁, hx, .inr ⟨e, hr⟩⟩⟩)
  cases o <;> exact ⟨_, m₁, hx, .inl ⟨_, hr⟩⟩

theorem Reached.settled {m : Machine} (h : m.Reached) : m.Settled := by
  induction h with
  | start h => exact h.settled
  | run n s _ hl ih =>
    obtain ⟨o, m₁, hr, hl⟩ := leads_finish hl
    obtain ⟨hd, hf, hb⟩ := ih.after_body hr
    have hs := reset_settles n hd hf hb
    obtain ⟨_, hl⟩ | ⟨_, hl⟩ := hl
    · exact (hs.ok hl).1
    · exact (hs.raised hl).elim
  | idle _ hs hp _ ih =>
    exact ⟨hs.depth.trans ih.depth, hs.frames ▸ ih.frames, hs.frames ▸ ih.base,
      hs.control.trans ih.control, hp.trans ih.parked⟩

/-- After a run and the way back, the machine is settled, whatever was run before and whatever the
outcome. It is quiescent exactly if the way back has left no call open and no access is still to be
raised: the first holds if no native code is called on the way back, and if no struct is to be
released there, the second is a matter of the run alone. A run without an error has raised them all. -/
theorem reached_run_settles {m m₁ : Machine} {n : Nat} {s : Script} {o : Except RunError Unit} (hm : m.Reached)
    (hr : attempt (s.body (ofFuel n)) m = .ok o m₁) :
    (ofFuel n).reset.Ends m₁
      (fun _ m₂ => m₂.Settled ∧ (m₂.Quiescent ↔ m₂.frames.size = 1 ∧ m₂.pending = none) ∧
        (m₂.nativeCalls = m₁.nativeCalls → m₂.frames.size = 1) ∧
        (m₁.PlainFrom 1 → (m₂.Quiescent ↔ m₁.pending = none)) ∧
        (o = .ok () → m₁.pending = none))
      (fun _ _ => False) := by
  obtain ⟨hd, hf, hb⟩ := hm.settled.after_body hr
  refine (reset_settles n hd hf hb).mono (fun _ m₂ h => ?_) (fun _ _ h => h)
  obtain ⟨hs, hn, hp⟩ := h
  refine ⟨hs, quiescent_iff hs, hn, fun hq => ?_, fun ho => ?_⟩
  · rw [quiescent_iff hs, (hp hq).1, (hp hq).2]
    exact ⟨fun h => h.2, fun h => ⟨rfl, h⟩⟩
  · have hb : (attempt (s.body (ofFuel n))).Ends m (fun o m₁ => o = .ok () → m₁.pending = none) (fun _ _ => True) :=
      ends_attempt.mpr ((body_pending n s m).mono (fun _ _ h _ => h) (fun _ _ _ h => nomatch h))
    exact hb.ok hr ho

/-- A run fails in a block: its level and the error are left, and the way back ends with neither. -/
theorem reached_run_settles_failed : ∃ e m₁ m₂,
    attempt ((Script.text "{ sizeof(...); }" "").body (ofFuel 9)) (start {}) = .ok (.error e) m₁ ∧
      m₁.scopes.depth = 2 ∧ (ofFuel 9).reset m₁ = .ok () m₂ ∧ m₂.Quiescent := by
  have run : (attempt ((Script.text "{ sizeof(...); }" "").body (ofFuel 9))).succeeds (start {})
      (fun o m₁ => !o.toBool && m₁.scopes.levels.toList.map (·.allocs.size) == [0, 0] && m₁.pending.isNone &&
        (ofFuel 9).reset.succeeds m₁ fun _ _ => true) = true := by decide +kernel
  obtain ⟨o, m₁, hr, hm₁⟩ := of_succeeds run
  simp only [Bool.and_eq_true, beq_iff_eq] at hm₁
  obtain ⟨⟨⟨ho, hlevels⟩, hpending⟩, hreset⟩ := hm₁
  obtain ⟨⟨⟩, m₂, hreset, -⟩ := of_succeeds hreset
  cases o with
  | ok u => cases ho
  | error e =>
    have hm : Reached (start {}) := .start ⟨rfl, rfl, rfl, rfl, rfl, rfl⟩
    have hd : m₁.scopes.depth = 2 := by
      have := congrArg List.length hlevels
      rwa [List.length_map, Array.length_toList] at this
    have hplain : m₁.PlainFrom 1 := by
      intro k l _ hl id hid
      have hm : l.allocs.size ∈ [0, 0] :=
        hlevels ▸ List.mem_map_of_mem (Array.mem_toList_iff.mpr (Array.mem_of_getElem? hl))
      have hempty : l.allocs = #[] := Array.eq_empty_of_size_eq_zero (by simpa using hm)
      rw [hempty] at hid
      cases hid
    have h := (reached_run_settles hm hr).ok hreset
    exact ⟨e, m₁, m₂, hr, hd, hreset, (h.2.2.2.1 hplain).mpr (Option.isNone_iff_eq_none.mp hpending)⟩

end Machine

end LevelScript
