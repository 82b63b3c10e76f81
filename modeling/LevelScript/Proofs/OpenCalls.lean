import LevelScript.Proofs.Release

/-!
# Calls that are open while a level is closed

An error moves the innermost call to the place where it arose. But a script function that is called in between has a
call of its own, and an error in it does not reach the calls around it. So a method `delete` that fails leaves them
where they were, and closing a level leaves all calls as they are, as long as no native code is called.
-/

namespace LevelScript

namespace Machine

def reported (m : Machine) (e : RunError) : Machine := { m with errors := m.errors ++ e.report ++ "\n" }

/-- Unless native code was called, the open calls are where they were; there may be more of them. -/
structure CallsBelow (m m' : Machine) : Prop where
  natives : m.nativeCalls ≤ m'.nativeCalls
  frames : m'.nativeCalls = m.nativeCalls → ∀ k < m.frames.size, m'.frames[k]? = m.frames[k]?

structure CallsKept (m m' : Machine) : Prop where
  natives : m.nativeCalls ≤ m'.nativeCalls
  frames : m'.nativeCalls = m.nativeCalls → 0 < m.frames.size → m'.frames = m.frames

section
variable {a b c m m' : Machine}

theorem CallsBelow.of_eq (hj : m'.journal = m.journal) (hf : m'.frames = m.frames) : m.CallsBelow m' :=
  ⟨Nat.le_of_eq (congrArg (List.countP _) hj.symm), fun _ _ _ => by rw [hf]⟩

theorem CallsBelow.after (hj : b.journal = a.journal) (hf : b.frames = a.frames) (h : b.CallsBelow c) :
    a.CallsBelow c := by
  have hn : b.nativeCalls = a.nativeCalls := congrArg (List.countP _) hj
  refine ⟨hn ▸ h.natives, fun hq k hk => ?_⟩
  rw [h.frames (hq.trans hn.symm) k (hf ▸ hk), hf]

theorem CallsKept.of_eq (hn : m'.nativeCalls = m.nativeCalls) (hf : m'.frames = m.frames) : m.CallsKept m' :=
  ⟨Nat.le_of_eq hn.symm, fun _ _ => hf⟩

theorem CallsKept.trans (h : a.CallsKept b) (h' : b.CallsKept c) : a.CallsKept c := by
  have hn := h.natives
  have hn' := h'.natives
  refine ⟨by omega, fun hq hs => ?_⟩
  have hf : b.frames = a.frames := h.frames (by omega) hs
  exact (h'.frames (by omega) (hf ▸ hs)).trans hf

theorem CallsBelow.cut (h : m.CallsBelow m') : m.CallsKept (m'.cutTo m.frames.size) := by
  refine ⟨h.natives, fun hq hs => Array.ext_getElem? fun k => ?_⟩
  show (m'.frames.take (max m.frames.size 1))[k]? = _
  rw [Nat.max_eq_left hs, Array.take_eq_extract, Array.getElem?_extract]
  by_cases hk : k < m.frames.size
  · have he := h.frames hq k hk
    have hlt : k < m'.frames.size := by
      rw [Array.getElem?_eq_getElem hk] at he
      exact (Array.getElem?_eq_some_iff.mp he).1
    rw [if_pos (by omega), Nat.zero_add, he]
  · rw [if_neg (by omega), Array.getElem?_eq_none (Nat.le_of_not_lt hk)]

end

end Machine

namespace Interp

open Exec Machine

variable {i : Interp} {close : Exec Unit} {m : Machine}

/-! ## Errors in calls -/

theorem runBody_raises (hi : i.Answering) (hb : balance.Sound i) (call : ScriptCall) (depth : Nat) (r : Reader)
    (hd : 0 < m.scopes.depth) :
    (i.runBody call depth r).Ends m (fun _ _ => True) (fun _ m' => Holds m.scopes.depth m m') := by
  have block := (Law.block_obeys hb r).discard m hd
  refine block.bind (fun _ m₂ h₂ => ?_) (fun _ _ h => h)
  refine ends_bind.mpr (show Ends _ { m₂ with control := .running } _ _ from ?_)
  have hrunning : Restored m₂ { m₂ with control := .running } := .of_eq rfl rfl rfl
  have h₃ := h₂.1.trans hrunning.1
  refine (@functionResult_calm true call _ _).bind (fun result m₄ h₄ => ?_)
    (fun _ _ h => Law.failed_calm (L := balance) h₃ h.1)
  exact (closeTo_staying (closeLevel_staying hi) _ _ m₄).bind (fun _ _ _ => trivial) (fun _ _ h => h.elim)

theorem callScript_raises (hi : i.Answering) (hb : balance.Sound i) (call : ScriptCall)
    (args : List Variable) (m : Machine) :
    (i.callScript call args).Ends m (fun _ _ => True) (fun _ m' => m.CallsBelow m') := by
  have below {f : Frame} {m₁ m' : Machine} (h₁ : (m.entered f).Calm m₁) (h : Holds m₁.scopes.depth m₁ m') :
      m.CallsBelow m' := by
    have hn : m₁.nativeCalls = m.nativeCalls := congrArg (List.countP _) h₁.journal
    have hf : m₁.frames = m.frames.push f := h₁.frames
    exact ⟨hn ▸ h.natives, fun _ => (hf ▸ h.frames).below f⟩
  refine Law.callScript_ends call args (fun _ => .of_eq rfl rfl) (fun _ m₁ ⟨f, _, h₁⟩ => ?_)
    (fun r m₁ ⟨f, _, h₁⟩ => ?_)
  · exact below h₁ (Restored.of_eq rfl rfl rfl).1
  · have hd : m₁.scopes.depth = m.scopes.depth + 1 := h₁.depth.trans (Scopes.depth_push _)
    exact (runBody_raises hi hb call _ r (by omega)).mono (fun _ _ h => h) (fun _ _ h => below h₁ h)

theorem guard_raises {α : Type} {c : Prop} [Decidable c] {e : Cause} {x : Exec α} {m₀ : Machine}
    (hm : m₀.CallsBelow m) (hx : x.Ends m (fun _ _ => True) (fun _ m' => m₀.CallsBelow m')) :
    Ends (if c then (raise e : Exec PUnit) >>= fun _ => x else x) m (fun _ _ => True)
    (fun _ m' => m₀.CallsBelow m') := by
  split
  · exact hm
  · exact hx

theorem callFunction_raises (hi : i.Answering) (hb : balance.Sound i) (f : Variable)
    (args : List Variable) (m : Machine) :
    (i.callFunction f args).Ends m (fun _ _ => True) (fun _ m' => m.CallsBelow m') := by
  have calm {m' : Machine} (h : m.Calm m') : m.CallsBelow m' := .of_eq h.journal h.frames
  refine ends_bind.mpr (guard_raises (calm (.refl m)) (guard_raises (calm (.refl m)) ?_))
  refine (@convertArguments_calm true _ args m).bind (fun converted m₁ h₁ => ?_) (fun _ _ h => calm h.1)
  refine (@bits_calm true f m₁).bind (fun addr m₂ h₂ => ?_) (fun _ _ h => calm (h₁.trans h.1))
  have h₂ := h₁.trans h₂
  refine guard_raises (calm h₂) (ends_get.mpr ?_)
  cases m₂.functions.classify addr with
  | native addr =>
    refine (Law.callNative_ends hb addr _ _ _ _ m₂).mono (fun _ _ _ => trivial) (fun _ m' h => ?_)
    have hn := h.1.natives
    have hj : m₂.nativeCalls = m.nativeCalls := congrArg (List.countP _) h₂.journal
    rw [Machine.nativeCalls_noted, show Event.isNativeCall (.nativeCall addr) = true from rfl, if_pos rfl] at hn
    exact ⟨by omega, fun hq => absurd hq (by omega)⟩
  | script id =>
    exact (callScript_raises hi hb _ _ m₂).mono (fun _ _ h => h) (fun _ _ h => h.after h₂.journal h₂.frames)

theorem ofFuel_call_raises : ∀ (n : Nat) (f : Variable) (args : List Variable) (m : Machine),
    ((ofFuel n).call f args).Ends m (fun _ _ => True) (fun _ m' => m.CallsBelow m')
  | 0, _, _, _ => trivial
  | n + 1, f, args, m => callFunction_raises (ofFuel_answering n) (Law.sound_ofFuel balance n) f args m

theorem callMethod_raises (n : Nat) (id : TypeId) (addr : UInt64) (name : NameId) (m : Machine) :
    ((ofFuel n).callMethod id addr name).Ends m (fun _ _ => True) (fun _ m' => m.CallsBelow m') := by
  refine (@method?_calm true id addr name m).bind (fun found m₁ h₁ => ?_)
    (fun _ _ h => .of_eq h.1.journal h.1.frames)
  cases found with
  | none => trivial
  | some f =>
    refine ends_map.mpr ((ofFuel_call_raises n f [] m₁).mono (fun _ _ h => h) (fun _ _ h => ?_))
    exact h.after h₁.journal h₁.frames

/-! ## Closing levels -/

def KeepsCalls (close : Exec Unit) : Prop := ∀ m, close.Ends m (fun _ m' => m.CallsKept m') (fun _ _ => False)

theorem closeTo_keepsCalls (hc : KeepsCalls close) (d : Nat) : ∀ n, KeepsCalls (closeTo close d n)
  | 0, _ => trivial
  | n + 1, m => by
    refine ends_bind.mpr (show Ends (if d < m.scopes.depth then _ else _) m _ _ from ?_)
    split
    · refine (hc m).bind (fun _ m₁ h₁ => ?_) (fun _ _ h => h)
      exact (closeTo_keepsCalls hc d n m₁).mono (fun _ _ h => h₁.trans h) (fun _ _ h => h)
    · exact .of_eq rfl rfl

theorem finalize_keepsCalls (hc : KeepsCalls close) (n d : Nat) (a : Allocation) :
    KeepsCalls ((ofFuel n).finalize close d a) := by
  intro m
  have hn : m.CallsKept (m.noted (.finalized a.seq)) := .of_eq (m.nativeCalls_noted _) rfl
  refine ends_modify.mpr (show Ends _ (m.noted (.finalized a.seq)) _ _ from ?_)
  generalize m.noted (.finalized a.seq) = m₁ at hn
  cases a.cleanup with
  | nothing => exact hn
  | function id =>
    refine ends_modifyGet.mpr (hn.trans ?_)
    dsimp only
    split <;> exact .of_eq rfl rfl
  | struct =>
    have hcall := (Law.callMethod_calls (Law.sound_ofFuel balance n) a.type a.addr NameId.destructor m₁).and
      (callMethod_raises n a.type a.addr NameId.destructor m₁)
    refine ends_bind.mpr (ends_bind.mpr (ends_attempt.mpr (hcall.mono (fun _ m₂ h₂ => ?_) (fun e m₂ h₂ => ?_))))
    · exact hn.trans ⟨h₂.1.1.natives, fun hq hs => (h₂.1.2 ⟨hq, hs⟩).2⟩
    · have hbelow : m₁.CallsBelow (m₂.reported e) := ⟨h₂.2.natives, h₂.2.frames⟩
      have hcut := hbelow.cut
      refine ends_modify.mpr (ends_bind.mpr (ends_modify.mpr ?_))
      exact (closeTo_keepsCalls hc d _ _).mono
        (fun _ _ h => (hn.trans hcut).trans (h.trans (.of_eq rfl rfl))) (fun _ _ h => h)

theorem finalizeAll_keepsCalls (hc : KeepsCalls close) (n d : Nat) :
    ∀ ids, KeepsCalls ((ofFuel n).finalizeAll close d ids)
  | [], _ => .of_eq rfl rfl
  | id :: ids, m => by
    cases ha : m.heap.get? id with
    | none =>
      refine (ends_bind_ok (takeAllocation_dead ha)).mpr ?_
      exact finalizeAll_keepsCalls hc n d ids m
    | some a =>
      have ht : m.CallsKept (m.taken id a) := .of_eq rfl rfl
      refine (ends_bind_ok (takeAllocation_live ha)).mpr ?_
      refine (finalize_keepsCalls hc n d a (m.taken id a)).bind (fun _ m₁ h₁ => ?_) (fun _ _ h => h)
      exact (finalizeAll_keepsCalls hc n d ids m₁).mono (fun _ _ h => (ht.trans h₁).trans h) (fun _ _ h => h)

theorem closeLevelWithin_keepsCalls (n : Nat) : ∀ k, KeepsCalls ((ofFuel n).closeLevelWithin k)
  | 0, _ => trivial
  | k + 1, m => by
    have hp : popLevel? m = .ok m.scopes.innermost? { m with scopes := m.scopes.outer } := rfl
    refine (ends_bind_ok hp).mpr ?_
    cases m.scopes.innermost? with
    | none => exact .of_eq rfl rfl
    | some l =>
      have hs : m.CallsKept m.shallower := .of_eq rfl rfl
      refine ends_bind.mpr ?_
      show Ends ((ofFuel n).finalizeAll _ m.shallower.scopes.depth _) m.shallower _ _
      have hall := finalizeAll_keepsCalls (closeLevelWithin_keepsCalls n k) n m.shallower.scopes.depth
      exact (hall _ m.shallower).mono (fun _ _ h => hs.trans h) (fun _ _ h => h)

end Interp

end LevelScript
