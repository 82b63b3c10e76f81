import LevelScript.Proofs.PlainTypes
import LevelScript.Proofs.Release

/-!
# Leaving blocks

`return`, `break` and `continue` change the control, and blocks stop at the change until a function
or a loop answers it. On the way out levels are closed. If nothing that they own has a method
`delete`, the change gets where it should; but a script function that is called then does not run
its body, and it takes the change for its own.
-/

namespace LevelScript

namespace Interp

open Exec

variable {i : Interp} {m : Machine}

theorem commands_pending (hc : m.control ≠ .running) (last : Variable) (r : Reader) : ∀ n,
    Ends (i.commands last n r) m (fun p m' => p = (last, r) ∧ m' = m) (fun _ _ => False)
  | 0 => trivial
  | n + 1 => by
    have hr : m.control.isRunning = false := by
      cases h : m.control with
      | running => exact absurd h hc
      | _ => rfl
    show Ends ((if m.control.isRunning then _ else _ : Run Variable) r) m _ _
    rw [hr]
    exact ⟨rfl, rfl⟩

theorem block_pending (hc : m.control ≠ .running) (r : Reader) :
    (i.block r).Ends m (fun v m' => v = voidValue ∧ m' = m) (fun _ _ => False) :=
  ends_map.mpr ((commands_pending hc voidValue r i.fuel).mono (fun _ _ h => ⟨h.1 ▸ rfl, h.2⟩) (fun _ _ h => h))

theorem runBody_of_block {m₀ : Machine} {r : Reader} {v : Variable} (hb : i.block r m₀ = .ok v m)
    (call : ScriptCall) (depth : Nat) :
    i.runBody call depth r m₀ = i.leaveCall call depth m.control { m with control := .running } := by
  have hd : discard (i.block r) m₀ = .ok () m := by
    show EStateM.map _ (i.block r) m₀ = _
    rw [EStateM.map, hb]
  rw [runBody, bind_ok hd]
  rfl

end Interp

/-- How a loop goes on after a round: it answers `continue` and `break`, and leaves `return` to the
function around it. -/
def Machine.answerLoop {α : Type} (m : Machine) (again done : Exec α) : EStateM.Result Halt Machine α :=
  match m.control with
  | .running => again m
  | .continuing => again { m with control := .running }
  | .breaking => done { m with control := .running }
  | .returning _ => done m

namespace Interp

open Exec

variable {i : Interp} {m : Machine}

theorem loopControl_bind {α : Type} (m : Machine) (again done : Exec α) :
    (loopControl >>= fun goesOn => if goesOn then again else done) m = m.answerLoop again done := by
  have h : loopControl m = (match m.control with
      | .running => .ok true m
      | .continuing => .ok true { m with control := .running }
      | .breaking => .ok false { m with control := .running }
      | .returning _ => .ok false m) := by
    show (match m.control with
      | .running => _ | .continuing => _ | .breaking => _ | .returning _ => _ : Exec Bool) m = _
    cases m.control <;> rfl
  rw [Machine.answerLoop]
  cases hm : m.control with
  | running => rw [hm] at h; rw [bind_ok h]; rfl
  | continuing => rw [hm] at h; rw [bind_ok h]; rfl
  | breaking => rw [hm] at h; rw [bind_ok h]; rfl
  | returning v => rw [hm] at h; rw [bind_ok h]; rfl

theorem whileFrom_round {start n : Nat} {last c v : Variable} {r r₁ : Reader} {m₀ m₁ m₂ : Machine}
    (hv : i.value (r.seek start) m₀ = .ok (c, r₁) m₁) (ht : truthy c m₁ = .ok true m₂)
    (hb : i.levelBlock r₁.enter.1 m₂ = .ok v m) :
    i.whileFrom start (n + 1) last r m₀ =
      m.answerLoop (i.whileFrom start n v r₁.enter.2) (pure (v, r₁.enter.2)) := by
  show (i.value (r.seek start) >>= fun p => _) m₀ = _
  rw [bind_ok hv]
  show ((liftM (truthy c) : Run _) >>= _) r₁ m₁ = _
  rw [Run.lift_bind, bind_ok ht]
  rw [Run.enter_bind, if_neg (by decide), Run.lift_bind, bind_ok hb, Run.lift_bind, ← loopControl_bind]
  refine congrFun (congrArg _ (funext fun goesOn => ?_)) m
  cases goesOn <;> rfl

theorem forRounds_round {l : LoopRange} {type : TypeId} {name : NameId} {step x : UInt64} {body : Reader} {n : Nat}
    {last v : Variable} {m₀ m₁ : Machine} (hx : l.contains x = true)
    (ho : (pushLevel >>= fun _ => fresh type x >>= fun v => discard (declare name v)) m₀ = .ok () m₁)
    (hb : i.block body m₁ = .ok v m) :
    i.forRounds l type name step body (n + 1) x last m₀ =
      m.answerLoop (i.nextRound l type name step x v fun next => i.forRounds l type name step body n next v)
        (i.closeLevel >>= fun _ => pure v) := by
  have hs : i.forRounds l type name step body (n + 1) x last =
      ((pushLevel >>= fun _ => fresh type x >>= fun v => discard (declare name v)) >>= fun _ =>
        i.block body >>= fun v => loopControl >>= fun goesOn =>
          if goesOn then i.nextRound l type name step x v fun next => i.forRounds l type name step body n next v
          else i.closeLevel >>= fun _ => pure v) := by
    rw [forRounds, hx]
    simp only [bind_assoc]
    rfl
  rw [hs, bind_ok ho, bind_ok hb, loopControl_bind]

end Interp

/-- The change of control that `m` has is still there exactly if no method was called; else it was
answered, by the first one. -/
def Machine.PendingKept (called : Prop) (m m' : Machine) : Prop :=
  (m'.control = m.control ↔ ¬ called) ∧ (called → m'.control = .running) ∧ (¬ called → m.Untouched m')

theorem Machine.PendingKept.of {called : Prop} {m m' : Machine} (hc : m.control ≠ .running)
    (h : (¬ called ∧ m.Untouched m') ∨ (called ∧ m'.control = .running)) : m.PendingKept called m' := by
  obtain ⟨hd, h⟩ | ⟨hd, h⟩ := h
  · exact ⟨iff_of_true h.control hd, fun hd' => absurd hd' hd, fun _ => h⟩
  · exact ⟨iff_of_false (fun he => hc (he ▸ h)) (not_not_intro hd), fun _ => h, fun hd' => absurd hd hd'⟩

open Exec Interp in
/-- What becomes of the change of control that `m` has: on the way out of blocks and levels, and then in the
function or in the loop that it gets to. -/
structure Interp.Carries (i : Interp) (m : Machine) : Prop where
  block (r : Reader) : (i.block r).Ends m (fun v m' => v = voidValue ∧ m' = m) (fun _ _ => False)
  closeLevel : i.closeLevel.Ends m
    (fun _ m' => m'.nativeCalls = m.nativeCalls → m.PendingKept (m.DeletesAny m.innermost) m') (fun _ _ => False)
  closeTo (d k : Nat) : (closeTo i.closeLevel d k).Ends m
    (fun _ m' => m'.nativeCalls = m.nativeCalls → m.PendingKept (m.DeletesFrom d) m') (fun _ _ => False)
  body (call : ScriptCall) (depth : Nat) {r : Reader} {v : Variable} {m₀ : Machine} : i.block r m₀ = .ok v m →
    i.runBody call depth r m₀ = i.leaveCall call depth m.control { m with control := .running }
  result {call : ScriptCall} {v : Variable} : m.control = .returning v → call.assignable = false →
    functionResult call m.control = cast call.result v
  whileLoop {start k : Nat} {last c v : Variable} {r r₁ : Reader} {m₀ m₁ m₂ : Machine} :
    i.value (r.seek start) m₀ = .ok (c, r₁) m₁ → truthy c m₁ = .ok true m₂ → i.levelBlock r₁.enter.1 m₂ = .ok v m →
    i.whileFrom start (k + 1) last r m₀ = m.answerLoop (i.whileFrom start k v r₁.enter.2) (pure (v, r₁.enter.2))
  forLoop {l : LoopRange} {type : TypeId} {name : NameId} {step x : UInt64} {body : Reader} {k : Nat}
    {last v : Variable} {m₀ m₁ : Machine} : l.contains x = true →
    (pushLevel >>= fun _ => fresh type x >>= fun v => discard (declare name v)) m₀ = .ok () m₁ →
    i.block body m₁ = .ok v m →
    i.forRounds l type name step body (k + 1) x last m₀ =
      m.answerLoop (i.nextRound l type name step x v fun next => i.forRounds l type name step body k next v)
        (i.closeLevel >>= fun _ => pure v)

open Exec Interp in
/-- What becomes of a `return`, `break` or `continue`, native code apart. Closing a level keeps it
exactly if nothing that the level owns has a method `delete`: the body of a script function that is
called then does not run, and the call takes the change for its own. A change that is kept makes the
function return the value it had, or is answered by the loop. -/
theorem pending_kept_iff (n : Nat) {m : Machine} (hc : m.control ≠ .running) : (ofFuel n).Carries m where
  block r := block_pending hc r
  closeLevel := by
    refine (closeLevelWithin_closesLevel (ofFuel_answering n) _ m).mono (fun _ m' h hq => .of hc ?_)
      (fun _ _ h => h)
    refine h.imp (fun h => ⟨h.1, ?_⟩) (fun h => ⟨h.1, h.2.control hq⟩)
    exact ⟨h.2.control, h.2.types, h.2.memory, h.2.frames, h.2.natives⟩
  closeTo d k := by
    refine (closeTo_closesTo (ofFuel_answering n) d k m).mono (fun _ m' h hq => .of hc ?_) (fun _ _ h => h)
    exact h.imp (fun h => ⟨h.1, h.2.1⟩) (fun h => ⟨h.1, h.2.control hq⟩)
  body call depth _ _ _ hb := runBody_of_block hb call depth
  result hm ha := by
    rw [hm, functionResult, ha]
    rfl
  whileLoop hv ht hb := whileFrom_round hv ht hb
  forLoop hx ho hb := forRounds_round hx ho hb

/-- A struct without a field of any name. -/
def fieldless : Allocation :=
  { addr := 0x100000000000, size := 16, type := TypeTable.int32, level := 1, cleanup := .struct, seq := 0 }

def breakInBlock : Machine :=
  { Machine.start {} with
    heap := { slots := #[⟨0, some fieldless⟩], nextSeq := 1 }
    scopes := ⟨(Machine.start {}).scopes.levels.push { allocs := #[⟨0, 0⟩] }⟩
    control := .breaking }

open Exec Interp in
/-- The level of the block is closed with the struct that it owns, and the `break` is still there. -/
theorem pending_kept_iff_breakInBlock : ∃ m', (ofFuel 3).closeLevel breakInBlock = .ok () m' ∧
    m'.journal = [.finalized 0, .closed 1] ∧ m'.control = .breaking ∧ breakInBlock.Untouched m' := by
  have hint32 : TypeTable.initial.types[TypeTable.int32]? = some (TypeTable.plainInfo .int32 {}) :=
    TypeTable.stocked_initial.primitive rfl
  have hfields : (TypeTable.initial.get TypeTable.int32).fields = [] :=
    congrArg TypeInfo.fields (TypeTable.get_eq hint32)
  let m₁ := breakInBlock.shallower.handedOver ⟨0, 0⟩ fieldless
  have horder : breakInBlock.heap.releaseOrder [⟨0, 0⟩] = [⟨0, 0⟩] := by
    simp [Heap.releaseOrder, breakInBlock, Heap.get?]
  have hall : (ofFuel 3).closeLevel breakInBlock =
      (ofFuel 3).finalizeAll ((ofFuel 3).closeLevelWithin 1) 1 (breakInBlock.heap.releaseOrder [⟨0, 0⟩])
        breakInBlock.shallower := rfl
  obtain ⟨p, hstruct⟩ : ∃ p, (ofFuel 3).finalize ((ofFuel 3).closeLevelWithin 1) 1 fieldless
      (breakInBlock.shallower.taken ⟨0, 0⟩ fieldless) = .ok () { m₁ with pending := p } :=
    finalize_unset 1 rfl (Machine.not_deletes hfields)
  have hclose : (ofFuel 3).closeLevel breakInBlock = .ok () { m₁ with pending := p } := by
    rw [hall, horder, finalizeAll, bind_ok (takeAllocation_live rfl)]
    exact (bind_ok hstruct).trans rfl
  have hd : ¬ breakInBlock.DeletesAny breakInBlock.innermost := by
    rintro ⟨id, hid, a, ha, hd⟩
    cases List.mem_singleton.mp hid
    cases ha
    exact Machine.not_deletes hfields hd
  have h := (pending_kept_iff 3 (m := breakInBlock) (by decide)).closeLevel.ok hclose rfl
  exact ⟨_, hclose, rfl, h.1.mpr hd, h.2.2 hd⟩

end LevelScript
