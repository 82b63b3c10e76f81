import LevelScript.Proofs.Lookout
import LevelScript.Proofs.Quiescence

/-!
# How deep calls go

Script functions call each other, native code calls them back, methods `delete` run when a level is
closed, and files include files. Whatever the mix, no part of the interpreter is ever entered with
more calls than the settings allow: it makes no difference what it would do there.
-/

namespace LevelScript

namespace Exec

/-- `x` on machines with at most so many calls, and `y` on all others. -/
def upTo (calls : Nat) (x y : Exec α) : Exec α := fun m => if m.frames.size ≤ calls then x m else y m

end Exec

namespace Lookout

open Exec Interp

/-- The interpreter whose parts do as `other` does as soon as there are more calls than the settings allow,
and for texts inside of others unless there may be some. -/
def interp (l : Lookout) (other : Interp) : Nat → Interp
  | 0 => ofFuel 0
  | n + 1 =>
    { fuel := n
      eval := fun r => upTo l.calls ((l.interp other n).expression r) (other.eval r)
      command := fun r => upTo l.calls ((l.interp other n).oneCommand r) (other.command r)
      call := fun f args => upTo l.calls ((l.interp other n).callFunction f args) (other.call f args)
      source := fun source file =>
        if l.includes then upTo l.calls ((l.interp other n).runSource source file) (other.source source file)
        else other.source source file }

variable {l : Lookout} {α : Type} {i j : Interp}

theorem Alike.upTo {x y : Exec α} (h : l.Alike x y) (z : Exec α) : l.Alike x (upTo l.calls y z) :=
  fun m hm => ⟨(if_pos hm.frames).trans (h m hm).1, (h m hm).2⟩

theorem matches_interp (l : Lookout) (other : Interp) : ∀ n, l.Matches (ofFuel n) (l.interp other n)
  | 0 =>
    { fuel := rfl
      eval := fun _ => .outOfFuel
      command := fun _ => .outOfFuel
      call := fun _ _ => .outOfFuel
      source := fun _ _ _ => .outOfFuel }
  | n + 1 =>
    { fuel := rfl
      eval := fun r => (expression_inStep (matches_interp l other n) r).upTo _
      command := fun r => (oneCommand_inStep (matches_interp l other n) r).upTo _
      call := fun f args => (callFunction_alike (matches_interp l other n) f args).upTo _
      source := fun source file hi => by
        have h := (runSource_alike (matches_interp l other n) source file).upTo (other.source source file)
        rwa [interp, hi] }

/-! ## Runs -/

theorem script_alike (h : l.Matches i j) (s : Script) : l.Alike (s.body i) (s.body j) := by
  cases s with
  | text source file => exact runSource_alike h source file
  | file path => exact .bind (.calm (loadSource_calm path)) fun p => runSource_alike h p.2 p.1

theorem finish_alike (h : l.Matches i j) {body body' : Exec Unit} (hb : l.Alike body body') :
    l.Alike (Session.finish i body) (Session.finish j body') := by
  have reset : l.Alike i.reset j.reset :=
    .bind (unwindWith_alike h (closeLevel_alike h) 1 1) fun _ => .modify fun _ => ⟨Nat.le_refl _, rfl, rfl⟩
  refine .bind hb.attempt fun outcome => .bind reset fun _ => ?_
  cases outcome with
  | ok _ => exact .pure _
  | error e => exact .throw e

theorem callCode_alike (h : l.Matches i j) (addr : UInt64) (args : List NativeArg) :
    l.Alike (Session.callCode i addr args) (Session.callCode j addr args) := by
  rw [Session.callCode, Session.callCode, h.fuel]
  refine .ite (.pure _) (.bind (enterCode_alike h i.fuel addr args) fun outcome => ?_)
  cases outcome with
  | ok r => exact .pure _
  | error addr => exact .pure _

end Lookout

/-! ## The limit -/

namespace Interp

open Exec

/-- A call that is one too many changes nothing, and its error can be caught. -/
theorem callScript_overflow (i : Interp) (call : ScriptCall) (args : List Variable) {m : Machine}
    (h : m.settings.maxFrames ≤ m.frames.size) :
    attempt (i.callScript call args) m = .ok (.error ⟨.stackOverflow m.settings.maxFrames, m.trace⟩) m := by
  have hraise : i.callScript call args m = .error (.raised ⟨.stackOverflow m.settings.maxFrames, m.trace⟩) m := by
    rw [callScript, get_bind, if_pos h]
    rfl
  rw [attempt, hraise]

/-- From a machine with no more calls than allowed, as every new one is and as every run leaves it, a run is
the same whatever the interpreter would do with more of them, and whatever it would do with a text inside of
another one if there are no files. A call that would be one too many raises an error that can be caught. -/
theorem calls_limited (n : Nat) (includes : Bool) (other : Interp) (m : Machine)
    (hm : m.frames.size ≤ max 1 m.settings.maxFrames) (hi : includes = false → ∀ path, m.sources path = none) :
    let watched := Lookout.interp { maxFrames := m.settings.maxFrames, includes } other n
    let kept (m' : Machine) := m'.frames.size ≤ max 1 m'.settings.maxFrames ∧
      m'.settings.maxFrames = m.settings.maxFrames
    (∀ s : Script, Session.finish watched (s.body watched) m = Session.finish (ofFuel n) (s.body (ofFuel n)) m ∧
      (Session.finish (ofFuel n) (s.body (ofFuel n))).Ends m (fun _ => kept) (fun _ => kept)) ∧
    (∀ addr args, Session.callCode watched addr args m = Session.callCode (ofFuel n) addr args m ∧
      (Session.callCode (ofFuel n) addr args).Ends m (fun _ => kept) (fun _ => kept)) ∧
    ∀ call args (m' : Machine), m'.settings.maxFrames ≤ m'.frames.size →
      attempt ((ofFuel n).callScript call args) m' =
          .ok (.error ⟨.stackOverflow m'.settings.maxFrames, m'.trace⟩) m' := by
  intro watched kept
  let l : Lookout := { maxFrames := m.settings.maxFrames, includes }
  have hw : m.Within l := ⟨hm, rfl, hi⟩
  have hk (m' : Machine) (h : m'.Within l) : kept m' := ⟨h.allowed ▸ h.frames, h.allowed⟩
  have alike : l.Matches (ofFuel n) watched := Lookout.matches_interp l other n
  refine ⟨fun s => ?_, fun addr args => ?_, fun call args m' h => (ofFuel n).callScript_overflow call args h⟩
  · obtain ⟨he, hends⟩ := Lookout.finish_alike alike (Lookout.script_alike alike s) m hw
    exact ⟨he, hends.mono (fun _ => hk) (fun _ => hk)⟩
  · obtain ⟨he, hends⟩ := Lookout.callCode_alike alike addr args m hw
    exact ⟨he, hends.mono (fun _ => hk) (fun _ => hk)⟩

theorem calls_limited_fresh :
    let m : Machine := Machine.start { settings := { maxFrames := 2 } }
    let watched := Lookout.interp { maxFrames := 2, includes := false } (ofFuel 0) 8
    m.frames.size ≤ max 1 m.settings.maxFrames ∧ (∀ path, m.sources path = none) ∧
      Session.run watched "s32 <- () f { return f(); } f();" m =
          Session.run (ofFuel 8) "s32 <- () f { return f(); } f();" m := by
  intro m watched
  have hm : m.frames.size ≤ max 1 m.settings.maxFrames := by decide
  have hi (path : String) : m.sources path = none := rfl
  have h := calls_limited 8 false (ofFuel 0) m hm fun _ => hi
  exact ⟨hm, hi, (h.1 (.text "s32 <- () f { return f(); } f();" Session.memoryFile)).1⟩

end Interp

end LevelScript
