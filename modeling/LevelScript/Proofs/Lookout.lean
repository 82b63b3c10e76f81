import LevelScript.Proofs.Interpreter

/-!
# Interpreters that are alike up to a depth of calls

Whether a run ever has more than so many calls cannot be seen from where it ends. It can be seen by
asking what else the interpreter may do there: if two interpreters agree on machines with few calls,
and whatever is made of them agrees there as well, then nothing else was ever asked of them.

The same is done for texts inside of others: where there are no files, none is ever run.
-/

namespace LevelScript

/-- What is watched: the number of calls that the settings allow, and whether texts may be run inside of others. -/
structure Lookout where
  maxFrames : Nat
  includes : Bool

/-- The outermost call is there even if none is allowed. -/
def Lookout.calls (l : Lookout) : Nat := max 1 l.maxFrames

namespace Machine

structure Shrinks (m m' : Machine) : Prop where
  frames : m'.frames.size ≤ m.frames.size
  settings : m'.settings = m.settings
  sources : m'.sources = m.sources

/-- There are few calls, and no text is there to be included unless it may be. -/
structure Within (l : Lookout) (m : Machine) : Prop where
  frames : m.frames.size ≤ l.calls
  allowed : m.settings.maxFrames = l.maxFrames
  sources : l.includes = false → ∀ path, m.sources path = none

variable {l : Lookout} {m m' : Machine}

theorem Calm.shrinks (h : m.Calm m') : m.Shrinks m' :=
  ⟨Nat.le_of_eq (congrArg Array.size h.frames), h.settings, h.sources⟩

theorem Within.of (h : m.Within l) (hs : m.Shrinks m') : m'.Within l :=
  ⟨Nat.le_trans hs.frames h.frames, hs.settings ▸ h.allowed, fun hi => hs.sources ▸ h.sources hi⟩

end Machine

namespace Lookout

open Exec

/-- Two computations come to the same on a machine, which is within the limits again. -/
def At (l : Lookout) (x y : Exec α) (m : Machine) : Prop :=
  y m = x m ∧ x.Ends m (fun _ => Machine.Within l) (fun _ => Machine.Within l)

def Alike (l : Lookout) (x y : Exec α) : Prop := ∀ m : Machine, m.Within l → l.At x y m

def InStep (l : Lookout) (x y : Run α) : Prop := ∀ r, l.Alike (x r) (y r)

variable {l : Lookout} {α β : Type} {x y : Exec α} {f g : α → Exec β} {m m₁ : Machine}

theorem At.bind_ok {a : α} (hx : x m = .ok a m₁) (h : l.At (f a) (g a) m₁) : l.At (x >>= f) (x >>= g) m := by
  refine ⟨?_, (ends_bind_ok hx).mpr h.2⟩
  rw [Exec.bind_ok hx, Exec.bind_ok hx]
  exact h.1

theorem At.get {f g : Machine → Exec α} (h : l.At (f m) (g m) m) : l.At (get >>= f) (get >>= g) m := h

theorem At.guarded {c : Prop} [Decidable c] {e : Cause} (hm : m.Within l) (h : ¬c → l.At x y m) :
    l.At (if c then (Exec.raise e : Exec PUnit) >>= fun _ => x else x)
      (if c then (Exec.raise e : Exec PUnit) >>= fun _ => y else y) m := by
  split
  case isTrue => exact ⟨rfl, hm⟩
  case isFalse hc => exact h hc

namespace Alike

theorem after {P : α → Prop} (hx : l.Alike x y) (hP : ∀ m, m.Within l → x.Ends m (fun a _ => P a) (fun _ _ => True))
    (hf : ∀ a, P a → l.Alike (f a) (g a)) : l.Alike (x >>= f) (y >>= g) := by
  intro m hm
  obtain ⟨he, hw⟩ := hx m hm
  have hends := hw.and (hP m hm)
  refine ⟨?_, hends.bind (fun a m₁ h => (hf a h.2 m₁ h.1).2) (fun _ _ h => h.1)⟩
  simp only [Bind.bind, EStateM.bind, he]
  cases hx : x m with
  | ok a m₁ => exact (hf a (hends.ok hx).2 m₁ (hends.ok hx).1).1
  | error e m₁ => rfl

protected theorem bind (hx : l.Alike x y) (hf : ∀ a, l.Alike (f a) (g a)) : l.Alike (x >>= f) (y >>= g) :=
  after (P := fun _ => True) hx (fun _ _ => ends_any) fun a _ => hf a

/-- A computation is like itself if it stays within the limits. -/
theorem same (h : ∀ m : Machine, x.Ends m (fun _ => m.Shrinks) (fun _ => m.Shrinks)) : l.Alike x x :=
  fun m hm => ⟨rfl, (h m).mono (fun _ _ => hm.of) (fun _ _ => hm.of)⟩

theorem calm (h : Calm true x) : l.Alike x x :=
  same fun m => (h m).mono (fun _ _ h => h.shrinks) (fun _ _ h => h.1.shrinks)

theorem smooth (h : Smooth x) : l.Alike x x := calm h.calm

protected theorem pure (a : α) : l.Alike (pure a) (pure a) := calm (.pure a)

protected theorem raise (c : Cause) : l.Alike (Exec.raise c : Exec α) (Exec.raise c) :=
  calm (.raiseInternal c fun _ => rfl)

protected theorem outOfFuel : l.Alike (Exec.outOfFuel : Exec α) Exec.outOfFuel := calm .outOfFuel

protected theorem throw (e : RunError) : l.Alike (throw (.raised e) : Exec α) (throw (.raised e)) :=
  calm (.throw fun _ => rfl)

protected theorem modifyGet {f : Machine → α × Machine} (hf : ∀ m : Machine, m.Shrinks (f m).2) :
    l.Alike (modifyGet f) (modifyGet f) := same hf

protected theorem modify {f : Machine → Machine} (hf : ∀ m : Machine, m.Shrinks (f m)) :
    l.Alike (modify f) (modify f) := same hf

protected theorem get : l.Alike get get := calm .get

protected theorem attempt (h : l.Alike x y) : l.Alike (attempt x) (attempt y) := by
  intro m hm
  obtain ⟨he, hw⟩ := h m hm
  refine ⟨?_, ends_attempt.mpr hw⟩
  simp only [attempt, he]

protected theorem ite {c : Prop} [Decidable c] {x' y' : Exec α} (hx : l.Alike x y) (hy : l.Alike x' y') :
    l.Alike (if c then x else x') (if c then y else y') := by
  split
  · exact hx
  · exact hy

theorem guarded {c : Prop} [Decidable c] {e : Cause} (h : l.Alike x y) :
    l.Alike (if c then (Exec.raise e : Exec PUnit) >>= fun _ => x else x)
      (if c then (Exec.raise e : Exec PUnit) >>= fun _ => y else y) :=
  .ite (.bind (.raise e) fun _ => h) h

protected theorem map (f : α → β) (h : l.Alike x y) : l.Alike (f <$> x) (f <$> y) := by
  rw [map_eq_pure_bind, map_eq_pure_bind]
  exact h.bind fun a => .pure _

protected theorem discard (h : l.Alike x y) : l.Alike (discard x) (discard y) := h.map _

protected theorem atPlace (row col : Int) (h : l.Alike x y) : l.Alike (atPlace row col x) (atPlace row col y) := by
  have place (row col : Int) : l.Alike (modify (·.setPosition row col)) (modify (·.setPosition row col)) :=
    .modify fun m => ⟨Nat.le_of_eq Array.size_modify, rfl, rfl⟩
  exact .bind .get fun _ => .bind (place _ _) fun _ => .bind h fun _ => .bind (place _ _) fun _ => .pure _

end Alike

namespace InStep

variable {x y x' y' : Run α} {f g : α → Run β}

protected theorem pure (a : α) : l.InStep (pure a : Run α) (pure a) := fun _ => .pure _

protected theorem bind (hx : l.InStep x y) (hf : ∀ a, l.InStep (f a) (g a)) : l.InStep (x >>= f) (y >>= g) :=
  fun r => .bind (hx r) fun p => hf p.1 p.2

theorem lift {x y : Exec α} (h : l.Alike x y) : l.InStep (liftM x : Run α) (liftM y) :=
  fun _ => .bind h fun _ => .pure _

theorem calm {x : Exec α} (h : Calm true x) : l.InStep (liftM x : Run α) (liftM x) := lift (.calm h)

theorem machine : l.InStep (getThe Machine : Run Machine) (getThe Machine) := calm .get

theorem onMachine {f g : Machine → Run α} (h : ∀ m r, m.Within l → l.At (f m r) (g m r) m) :
    l.InStep (getThe Machine >>= f) (getThe Machine >>= g) := fun r m hm => h m r hm

theorem reader : l.InStep (getThe Reader : Run Reader) (getThe Reader) := fun _ => .pure _

theorem reads (h : Run.Reads x) : l.InStep x x := by
  intro r
  obtain ⟨p, hp⟩ := h r
  rw [hp]
  exact .pure p

theorem next (read : Reader → α × Reader) : l.InStep (Run.next read) (Run.next read) := reads (.next read)

theorem name? : l.InStep Run.name? Run.name? := reads .name?

theorem place : l.InStep Run.place Run.place := reads .place

protected theorem raise (c : Cause) :
    l.InStep (liftM (Exec.raise c : Exec α) : Run α) (liftM (Exec.raise c : Exec α)) :=
  lift (.raise c)

protected theorem outOfFuel :
    l.InStep (liftM (Exec.outOfFuel : Exec α) : Run α) (liftM (Exec.outOfFuel : Exec α)) :=
  lift .outOfFuel

protected theorem ite {c : Prop} [Decidable c] (hx : l.InStep x y) (hy : l.InStep x' y') :
    l.InStep (if c then x else x') (if c then y else y') := by
  split
  · exact hx
  · exact hy

theorem branch {c : Prop} [Decidable c] (hx : l.InStep x y) (hy : l.InStep x' y') (hf : ∀ a, l.InStep (f a) (g a)) :
    l.InStep (if c then x >>= f else x' >>= f) (if c then y >>= g else y' >>= g) :=
  .ite (.bind hx hf) (.bind hy hf)

theorem guarded {c : Prop} [Decidable c] {e : Cause} (h : l.InStep x y) :
    l.InStep (if c then (liftM (Exec.raise e : Exec PUnit) : Run PUnit) >>= fun _ => x else x)
      (if c then (liftM (Exec.raise e : Exec PUnit) : Run PUnit) >>= fun _ => y else y) :=
  .ite (.bind (.raise e) fun _ => h) h

protected theorem map (f : α → β) (h : l.InStep x y) : l.InStep (f <$> x) (f <$> y) := by
  rw [map_eq_pure_bind, map_eq_pure_bind]
  exact h.bind fun a => .pure _

theorem run' (h : l.InStep x y) (r : Reader) : l.Alike (x.run' r) (y.run' r) := (h r).map _

protected theorem atPlace (row col : Int) (h : l.InStep x y) :
    l.InStep (Run.atPlace row col x) (Run.atPlace row col y) :=
  fun r => (h r).atPlace row col

end InStep

/-- Two interpreters agree within the limits. Texts inside of others matter only where there can be some. -/
structure Matches (l : Lookout) (i j : Interp) : Prop where
  fuel : j.fuel = i.fuel
  eval : l.InStep i.eval j.eval
  command : l.InStep i.command j.command
  call (f args) : l.Alike (i.call f args) (j.call f args)
  source (text file) : l.includes = true → l.Alike (i.source text file) (j.source text file)

open Interp

section
variable {i j : Interp}

/-! ## Sequences -/

theorem value_inStep (h : l.Matches i j) : l.InStep i.value j.value := by
  refine .bind h.eval fun v => ?_
  cases v with
  | none => exact .raise _
  | some v => exact .pure v

theorem values_inStep (h : l.Matches i j) : ∀ n, l.InStep (i.values n) (j.values n)
  | 0 => .outOfFuel
  | n + 1 => by
    refine .bind h.eval fun v => ?_
    cases v with
    | none => exact .pure _
    | some v => exact .bind (values_inStep h n) fun _ => .pure _

theorem type_inStep (h : l.Matches i j) : l.InStep i.type j.type :=
  .bind (value_inStep h) fun v => .calm (expectType_calm v)

theorem commands_inStep (h : l.Matches i j) : ∀ n last, l.InStep (i.commands last n) (j.commands last n)
  | 0, _ => .outOfFuel
  | n + 1, last => by
    refine .bind .machine fun m => .ite ?_ (.pure _)
    refine .bind h.command fun v => ?_
    cases v with
    | none => exact .pure _
    | some v => exact commands_inStep h n v

theorem block_alike (h : l.Matches i j) (r : Reader) : l.Alike (i.block r) (j.block r) := by
  rw [block, block, h.fuel]
  exact (commands_inStep h i.fuel voidValue).run' r

/-! ## Levels -/

theorem closeTo_alike {close close' : Exec Unit} (hc : l.Alike close close') (depth : Nat) :
    ∀ n, l.Alike (closeTo close depth n) (closeTo close' depth n)
  | 0 => .outOfFuel
  | n + 1 => .bind .get fun _ => .ite (.bind hc fun _ => closeTo_alike hc depth n) (.pure _)

theorem unwindWith_alike (h : l.Matches i j) {close close' : Exec Unit} (hc : l.Alike close close')
    (depth frames : Nat) :
    l.Alike (i.unwindWith close depth frames) (j.unwindWith close' depth frames) := by
  rw [unwindWith, unwindWith, h.fuel]
  refine .bind (.modify fun m => ⟨?_, rfl, rfl⟩) fun _ => closeTo_alike hc depth i.fuel
  show (m.frames.extract 0 (max frames 1)).size ≤ m.frames.size
  rw [Array.size_extract]
  omega

theorem callMethod_alike (h : l.Matches i j) (id : TypeId) (addr : UInt64) (name : NameId) :
    l.Alike (i.callMethod id addr name) (j.callMethod id addr name) := by
  refine .bind (.calm (method?_calm id addr name)) fun found => ?_
  cases found with
  | none => exact .pure _
  | some method => exact .bind (h.call method []) fun _ => .pure _

theorem releaseFunction_alike (id : Nat) : l.Alike (releaseFunction id) (releaseFunction id) := by
  refine .modify fun m => ?_
  split
  · exact ⟨Nat.le_refl _, rfl, rfl⟩
  · exact ⟨Nat.le_refl _, rfl, rfl⟩

theorem setControl_alike (control : Control) : l.Alike (setControl control) (setControl control) :=
  .modify fun _ => ⟨Nat.le_refl _, rfl, rfl⟩

theorem note_alike (e : Event) : l.Alike (note e) (note e) := .modify fun _ => ⟨Nat.le_refl _, rfl, rfl⟩

theorem finalize_alike (h : l.Matches i j) {close close' : Exec Unit} (hc : l.Alike close close')
    (depth : Nat) (a : Allocation) :
    l.Alike (i.finalize close depth a) (j.finalize close' depth a) := by
  refine .bind (note_alike _) fun _ => ?_
  cases a.cleanup with
  | nothing => exact .pure _
  | function id => exact releaseFunction_alike id
  | struct =>
    refine .bind .get fun m => .bind (callMethod_alike h a.type a.addr NameId.destructor).attempt fun outcome => ?_
    cases outcome with
    | ok _ => exact .pure _
    | error e =>
      exact .bind (.calm (logError_calm e)) fun _ => .bind (unwindWith_alike h hc depth m.frames.size) fun _ =>
        setControl_alike .running

theorem takeAllocation_alike (id : AllocId) : l.Alike (takeAllocation id) (takeAllocation id) := by
  refine .modifyGet fun m => ?_
  split
  · exact ⟨Nat.le_refl _, rfl, rfl⟩
  · exact ⟨Nat.le_refl _, rfl, rfl⟩

theorem taken_alike (id : AllocId) {f g : Option Allocation → Exec Unit} (hnone : l.Alike (f none) (g none))
    (hsome : ∀ a, l.Alike (f (some a)) (g (some a))) :
    l.Alike (takeAllocation id >>= f) (takeAllocation id >>= g) := by
  refine .bind (takeAllocation_alike id) fun found => ?_
  cases found with
  | none => exact hnone
  | some a => exact hsome a

theorem finalizeAll_alike (h : l.Matches i j) {close close' : Exec Unit} (hc : l.Alike close close') (depth : Nat) :
    ∀ ids, l.Alike (i.finalizeAll close depth ids) (j.finalizeAll close' depth ids)
  | [] => .pure _
  | id :: ids => by
    have rest := finalizeAll_alike h hc depth ids
    exact taken_alike id rest fun a => .bind (finalize_alike h hc depth a) fun _ => rest

theorem closeLevelWithin_alike (h : l.Matches i j) : ∀ n, l.Alike (i.closeLevelWithin n) (j.closeLevelWithin n)
  | 0 => .outOfFuel
  | n + 1 => by
    refine .bind (.modifyGet fun m => ⟨Nat.le_refl _, rfl, rfl⟩) fun level => ?_
    cases level with
    | none => exact .pure _
    | some level =>
      exact .bind .get fun m => .bind (note_alike _) fun _ => finalizeAll_alike h (closeLevelWithin_alike h n) _ _

theorem closeLevel_alike (h : l.Matches i j) : l.Alike i.closeLevel j.closeLevel := by
  rw [closeLevel, closeLevel, h.fuel]
  exact closeLevelWithin_alike h i.fuel

theorem free_alike (h : l.Matches i j) (addr : UInt64) : l.Alike (i.free addr) (j.free addr) := by
  refine .bind .get fun m => ?_
  cases m.heap.find? addr with
  | none => exact .pure _
  | some id =>
    have finalized (a : Allocation) := Alike.get.bind fun m =>
      finalize_alike h (closeLevel_alike h) m.scopes.depth a
    dsimp only
    cases m.heap.get? id with
    | none => exact taken_alike id (.pure _) finalized
    | some a => exact .bind (.modify fun _ => ⟨Nat.le_refl _, rfl, rfl⟩) fun _ => taken_alike id (.pure _) finalized

theorem pushLevel_alike : l.Alike pushLevel pushLevel := .modify fun _ => ⟨Nat.le_refl _, rfl, rfl⟩

theorem levelBlock_alike (h : l.Matches i j) (r : Reader) : l.Alike (i.levelBlock r) (j.levelBlock r) :=
  .bind pushLevel_alike fun _ => .bind (block_alike h r) fun _ => .bind (closeLevel_alike h) fun _ => .pure _

/-! ## Calls -/

theorem runBody_alike (h : l.Matches i j) (call : ScriptCall) (depth : Nat) (r : Reader) :
    l.Alike (i.runBody call depth r) (j.runBody call depth r) := by
  refine .bind (block_alike h r).discard fun _ =>
    .bind (.modifyGet fun m => ⟨Nat.le_refl _, rfl, rfl⟩) fun control => ?_
  rw [leaveCall, leaveCall, h.fuel]
  refine .bind (.calm (functionResult_calm call control)) fun result =>
    .bind (closeTo_alike (closeLevel_alike h) depth i.fuel) fun _ =>
      .bind (.modify fun m => ⟨?_, rfl, rfl⟩) fun _ => .pure _
  exact Nat.le_trans (Nat.le_of_eq Array.size_pop) (Nat.sub_le ..)

theorem modifyFrame_alike (f : Frame → Frame) : l.Alike (modify (·.modifyFrame f)) (modify (·.modifyFrame f)) :=
  .modify fun _ => ⟨Nat.le_of_eq Array.size_modify, rfl, rfl⟩

/-- The one place where there is a call more than before; it is within the limits because the settings are. -/
theorem openFrame_at {f g : Nat → Exec α} (name file : NameId) (hm : m.Within l)
    (hfree : m.frames.size < m.settings.maxFrames)
    (h : l.Alike (f m.scopes.depth) (g m.scopes.depth)) :
    l.At (openFrame name file >>= f) (openFrame name file >>= g) m := by
  have entered (frame : Frame) : (m.entered frame).Within l := by
    refine ⟨?_, hm.allowed, hm.sources⟩
    have hpush : (m.entered frame).frames.size = m.frames.size + 1 := Array.size_push _
    rw [hpush, Lookout.calls, ← hm.allowed]
    omega
  exact .bind_ok rfl (h _ (entered { name, file, base := m.scopes.depth }))

theorem callScript_alike (h : l.Matches i j) (call : ScriptCall) (args : List Variable) :
    l.Alike (i.callScript call args) (j.callScript call args) := by
  intro m hm
  refine .get (.guarded hm fun hfree => ?_)
  cases m.functions.get? call.id with
  | none => exact ⟨rfl, hm⟩
  | some f =>
    have run := runBody_alike h call m.scopes.depth (Reader.slice f.chunk f.entry f.len)
    -- more arguments than parameters are kept in the frame
    have last := Alike.ite (c := call.fixed < call.params.length)
      (.bind (modifyFrame_alike ({ · with varargs := some (args.drop call.fixed).toArray })) fun _ => run) run
    refine openFrame_at _ _ hm (by omega) ?_
    refine .bind (.calm (declareCaptured_calm _ _)) fun _ => .bind (.calm (declareParameters_calm _ _)) fun _ => ?_
    cases call.origin.bind (·.receiver) with
    | none => exact last
    | some receiver =>
      exact .bind (.calm (constant_calm _)) fun type => .bind (.calm (fresh_calm _ _)) fun v =>
        .bind (.calm (.discard (declare_calm _ _))) fun _ => last

/-! ## Native code -/

theorem runNative_alike {enter enter' : UInt64 → List NativeArg → Exec (Except UInt64 NativeResult)}
    (he : ∀ addr args, l.Alike (enter addr args) (enter' addr args)) :
    ∀ action, l.Alike (runNative enter action) (runNative enter' action)
  | .done _ => .pure _
  | .print _ next => .bind (.modify fun _ => ⟨Nat.le_refl _, rfl, rfl⟩) fun _ => runNative_alike he next
  | .read addr next => by
    rw [runNative, runNative]
    exact .ite (.bind .get fun _ => runNative_alike he (next _)) (.pure _)
  | .write _ _ next => .bind (.modify fun _ => ⟨Nat.le_refl _, rfl, rfl⟩) fun _ => runNative_alike he next
  | .readText addr next => by
    rw [runNative, runNative]
    exact .ite (.bind .get fun _ => runNative_alike he (next _)) (.pure _)
  | .call code args next => by
    rw [runNative, runNative]
    refine .bind (he code args) fun result => ?_
    cases result with
    | ok result => exact runNative_alike he (next result)
    | error addr => exact .pure _

theorem enterStub_alike (h : l.Matches i j) (type : TypeId) (id : Nat) (words : List UInt64) :
    l.Alike (i.enterStub type id words) (j.enterStub type id words) := by
  rw [enterStub, enterStub, h.fuel]
  refine .bind .get fun m => ?_
  cases m.functions.get? id with
  | none => exact .raise _
  | some f => exact .bind (h.call _ _) fun v => .calm (bits_calm v)

theorem enterCode_alike (h : l.Matches i j) :
    ∀ n addr args, l.Alike (i.enterCode n addr args) (j.enterCode n addr args)
  | 0, _, _ => .outOfFuel
  | n + 1, addr, args => by
    refine .bind .get fun m => ?_
    cases m.code[addr]? with
    | none => exact .pure _
    | some code =>
      cases code with
      | native f => exact runNative_alike (enterCode_alike h n) _
      | stub type id =>
        refine .bind (enterStub_alike h type id _).attempt fun outcome => ?_
        cases outcome with
        | ok bits => exact .pure _
        | error e => exact .bind (.modify fun _ => ⟨Nat.le_refl _, rfl, rfl⟩) fun _ => .pure _

theorem callNative_alike (h : l.Matches i j) (addr : UInt64) (result : TypeId) (assignable : Bool) (fixed : Nat)
    (args : List Variable) :
    l.Alike (i.callNative addr result assignable fixed args) (j.callNative addr result assignable fixed args) := by
  rw [callNative, callNative, h.fuel]
  refine .bind (note_alike _) fun _ => .guarded (.bind (.smooth (nativeArguments_smooth fixed args)) fun args => ?_)
  refine .bind (enterCode_alike h i.fuel addr args) fun outcome =>
    .bind (.modifyGet fun m => ⟨Nat.le_refl _, rfl, rfl⟩) fun parked => ?_
  cases outcome with
  | error addr => exact .raise _
  | ok r =>
    cases parked with
    | some e => exact .throw e
    | none => exact .bind (.calm (typeInfo_calm result)) fun _ => .pure _

theorem callFunction_alike (h : l.Matches i j) (f : Variable) (args : List Variable) :
    l.Alike (i.callFunction f args) (j.callFunction f args) := by
  refine .bind .get fun m => .guarded (.guarded ?_)
  refine .bind (.calm (convertArguments_calm _ args)) fun converted =>
    .bind (.calm (bits_calm f)) fun addr => .guarded ?_
  refine .bind .get fun m₁ => ?_
  cases m₁.functions.classify addr with
  | native addr => exact callNative_alike h _ _ _ _ _
  | script id => exact callScript_alike h _ _

/-! ## New functions and allocations -/

theorem createFunction_alike (chunk : Chunk) (entry len : Nat) (capture : Capture) (type : TypeId) (name : NameId)
    (inner : Bool) :
    l.Alike (createFunction chunk entry len capture type name inner)
      (createFunction chunk entry len capture type name inner) := by
  refine .bind (.calm (resolveType_calm type)) fun type => .bind .get fun m => .guarded (.bind .get fun m₁ => ?_)
  dsimp only
  split
  case h_1 => exact .pure _
  case h_2 =>
    have fresh : l.Alike (newStub type) (newStub type) := by
      refine .modifyGet fun m => ?_
      split
      · exact ⟨Nat.le_refl _, rfl, rfl⟩
      · exact ⟨Nat.le_refl _, rfl, rfl⟩
    refine .bind fresh fun found => .bind .get fun m₂ => .bind .get fun m₃ => ?_
    cases capture
    all_goals
      refine .bind ?_ fun _ => .bind .get fun _ =>
        .bind (.modify fun _ => ⟨Nat.le_refl _, rfl, rfl⟩) fun _ => .pure _
    case nothing | shared => exact .pure _
    case copyPerCall | copyOnce => exact .smooth (copyCaptured_smooth _)

theorem allocate_alike (size : UInt64) (type : TypeId) (inner : Bool) (cleanup : Cleanup) :
    l.Alike (allocate size type inner cleanup) (allocate size type inner cleanup) :=
  .guarded (.modifyGet fun _ => ⟨Nat.le_refl _, rfl, rfl⟩)

theorem readFunction_inStep (type : TypeId) (name : NameId) (inner : Bool) :
    l.InStep (readFunction type name inner) (readFunction type name inner) :=
  .bind (.next _) fun _ => .bind .reader fun _ => .bind (.next _) fun _ =>
    .lift (createFunction_alike _ _ _ _ _ _ _)

theorem moveAllocation_alike (addr : UInt64) (level : Nat) :
    l.Alike (moveAllocation addr level) (moveAllocation addr level) := by
  refine .modify fun m => ?_
  split
  · exact ⟨Nat.le_refl _, rfl, rfl⟩
  · exact ⟨Nat.le_refl _, rfl, rfl⟩

/-! ## Operators -/

theorem parameters_inStep (h : l.Matches i j) : ∀ n, l.InStep (i.parameters n) (j.parameters n)
  | 0 => .outOfFuel
  | n + 1 => by
    refine .bind h.eval fun v => ?_
    cases v with
    | none => exact .pure _
    | some v =>
      exact .bind (.calm (expectType_calm v)) fun _ => .bind .name? fun _ =>
        .bind (parameters_inStep h n) fun _ => .pure _

theorem indexPointer_inStep (h : l.Matches i j) (v : Variable) :
    l.InStep (i.indexPointer v) (j.indexPointer v) := by
  refine .bind (value_inStep h) fun index => .bind (.calm (checkIndex_calm index)) fun _ =>
    .bind (.calm (bits_calm v)) fun addr => .guarded (.bind .machine fun m => ?_)
  exact .bind (.calm (bits_calm index)) fun _ => .calm (elementAt_calm _ _)

theorem indexStruct_inStep (h : l.Matches i j) (v : Variable) : l.InStep (i.indexStruct v) (j.indexStruct v) := by
  refine .bind (value_inStep h) fun index => .bind (.calm (checkIndex_calm index)) fun _ =>
    .bind (.calm (bits_calm v)) fun addr => .guarded ?_
  exact .bind (.calm (bits_calm index)) fun _ => .bind (.calm (typeInfo_calm _)) fun _ => .pure _

theorem unary_inStep (h : l.Matches i j) (op : Opcode) (action : Operator.Action) (v : Variable) :
    l.InStep (i.unary op action v) (j.unary op action v) := by
  unfold unary
  rw [h.fuel]
  split
  · exact .calm (step_calm op v)
  · exact .calm (addressOf_calm v)
  · exact .calm (dereference_calm v)
  · exact .calm (dereferenceType_calm v)
  · exact .calm (mapBits_calm _ v)
  · exact .bind (.calm (truthy_calm v)) fun _ => .calm (boolValue_calm _)
  · exact .calm (mapBits_calm _ v)
  · exact .bind (.calm (asType_calm v)) fun type => .bind (.calm (modifiedType_calm op type)) fun _ => .pure _
  · exact .bind (.calm (asType_calm v)) fun _ => .bind (.next _) fun _ => .bind (parameters_inStep h _) fun _ =>
      .bind (.calm (withTypes_calm fun ts => ts.function_grows _ _ _)) fun _ => .pure _
  · exact indexPointer_inStep h v
  · exact indexStruct_inStep h v
  · exact .bind (values_inStep h _) fun args => .lift (h.call v args)
  · exact .calm (allocationInfo_calm op v)
  · exact .bind (.next _) fun name => .calm (member_calm v name)
  · exact .bind (.next _) fun name => .bind (.calm (asType_calm v)) fun type => .calm (memberType_calm type name)
  · exact .raise _

theorem applyOperator_inStep (h : l.Matches i j) (op : Opcode) (stack : List Variable) :
    l.InStep (i.applyOperator op stack) (j.applyOperator op stack) := by
  refine .bind .machine fun m => ?_
  split
  · exact .calm (mismatch_calm op stack)
  · refine .ite ?_ ?_
    · split
      · exact .ite (.bind (.calm (compound_calm (.inr rfl) _ _)) fun _ => .pure _)
          (.bind (.calm (binary_calm (.inr rfl) _ _)) fun _ => .pure _)
      · exact .raise _
    · split
      · exact .bind (unary_inStep h op _ _) fun _ => .pure _
      · exact .raise _

/-! ## Struct types -/

theorem inlineCount_inStep (h : l.Matches i j) : l.InStep i.inlineCount j.inlineCount := by
  refine .bind (.next _) fun _ => .ite (.pure _) (.bind (.next _) fun _ => .ite (.pure _) ?_)
  refine .bind (value_inStep h) fun count => .bind (.calm (kindOf_calm count)) fun _ => ?_
  exact .ite (.bind (.calm (bits_calm count)) fun _ => .pure _) (.raise _)

theorem fieldValue_inStep (h : l.Matches i j) (type : TypeId) (name : Option NameId) :
    l.InStep (i.fieldValue type name) (j.fieldValue type name) := by
  refine .bind (.next _) fun _ => .ite (.pure _) (.bind (.next _) fun _ => .ite (readFunction_inStep _ _ _) ?_)
  refine .bind (value_inStep h) fun v => .bind .machine fun m => ?_
  split
  · exact .calm (bits_calm v)
  · exact .calm (bits_calm v)
  · exact .calm (castBits_calm type v)

theorem fieldPlace_inStep (h : l.Matches i j) : l.InStep i.fieldPlace j.fieldPlace := by
  refine .bind (.next _) fun _ => .ite (.pure _) (.bind (.next _) fun _ => ?_)
  refine .bind (value_inStep h) fun offset => .bind (.calm (kindOf_calm offset)) fun _ => .guarded ?_
  exact .bind (.calm (bits_calm offset)) fun _ => .pure _

theorem field_inStep (h : l.Matches i j) : l.InStep i.field j.field :=
  .bind (inlineCount_inStep h) fun _ => .bind (type_inStep h) fun type => .bind .name? fun name =>
    .bind (fieldValue_inStep h type name) fun _ => .bind (fieldPlace_inStep h) fun _ => .pure _

theorem fields_inStep (h : l.Matches i j) : ∀ n, l.InStep (i.fields n) (j.fields n)
  | 0 => .outOfFuel
  | n + 1 => by
    refine .bind (.next _) fun _ => .ite (.pure _) (.bind .place fun place => ?_)
    refine .bind (.lift (modifyFrame_alike _)) fun _ => ?_
    exact .bind (field_inStep h) fun _ => .bind (fields_inStep h n) fun _ => .pure _

theorem structType_inStep (h : l.Matches i j) : l.InStep i.structType j.structType := by
  rw [structType, structType, h.fuel]
  refine .bind (.next _) fun _ => .branch (.map _ (type_inStep h)) (.pure _) fun base => ?_
  refine .bind (fields_inStep h i.fuel) fun fields => .onMachine fun m r hm => ?_
  cases m.types.struct fields base with
  | ok p => exact ⟨rfl, hm.of ⟨Nat.le_refl _, rfl, rfl⟩⟩
  | error e => exact ⟨rfl, hm⟩

theorem typeLiteral_inStep (h : l.Matches i j) : l.InStep i.typeLiteral j.typeLiteral := by
  refine .bind (.next _) fun isConst => .bind (.next _) fun code => ?_
  have rest (type : TypeId) :
      l.InStep (if isConst then liftM (withTypes (·.constant type)) else pure type : Run TypeId)
        (if isConst then liftM (withTypes (·.constant type)) else pure type) :=
    .ite (.calm (constant_calm type)) (.pure _)
  dsimp only
  split
  · exact .bind (.raise _) rest
  · exact .bind (structType_inStep h) rest
  · exact .bind (.next _) fun unsigned => .bind (.calm (primitiveType_calm _ unsigned)) rest

/-! ## Operands -/

theorem vararg_inStep (h : l.Matches i j) : l.InStep i.vararg j.vararg := by
  refine .bind (value_inStep h) fun index => .bind .machine fun m => ?_
  split
  · exact .raise _
  · refine .bind (.calm (checkIndex_calm index)) fun _ => .bind (.calm (bits_calm index)) fun bits => .guarded ?_
    split
    · exact .pure _
    · exact .raise _

theorem sizeOf_inStep (h : l.Matches i j) : l.InStep i.sizeOf j.sizeOf := by
  have rest (type : TypeId) :
      l.InStep (do wordValue (← typeInfo type).size : Run Variable) (do wordValue (← typeInfo type).size) :=
    .bind (.calm (typeInfo_calm type)) fun _ => .calm (wordValue_calm _)
  refine .bind (.next _) fun _ => .ite (.bind .machine fun m => ?_) ?_
  · split
    · exact .raise _
    · exact .calm (wordValue_calm _)
  · refine .bind (value_inStep h) fun v => .bind (.calm (kindOf_calm v)) fun _ => .ite ?_ ?_
    · exact .bind (.calm (asType_calm v)) fun _ => .bind (.calm (resolveType_calm _)) rest
    · exact .bind (.pure _) rest

theorem delete_inStep (h : l.Matches i j) : l.InStep i.delete j.delete := by
  have rest (v : Variable) :
      l.InStep (do i.free (← bits v); return voidValue : Run Variable) (do j.free (← bits v); return voidValue) :=
    .bind (.calm (bits_calm v)) fun addr => .bind (.lift (free_alike h addr)) fun _ => .pure _
  refine .bind (value_inStep h) fun v => .bind (.calm (kindOf_calm v)) fun _ => ?_
  split
  · exact rest v
  · exact rest v
  · exact rest v
  · exact .raise _

theorem move_inStep (h : l.Matches i j) : l.InStep i.move j.move := by
  refine .bind (value_inStep h) fun v => .bind (value_inStep h) fun level =>
    .bind (.calm (kindOf_calm level)) fun _ =>
    .guarded (.bind .machine fun m => ?_)
  exact .bind (.calm (bits_calm level)) fun _ => .bind (.calm (bits_calm v)) fun addr =>
    .bind (.lift (moveAllocation_alike addr _)) fun _ => .pure _

theorem ternary_inStep (h : l.Matches i j) : l.InStep i.ternary j.ternary := by
  refine .bind (value_inStep h) fun v => .bind (.calm (truthy_calm v)) fun truth =>
    .bind (.next _) fun yes => .bind (.next _) fun no => ?_
  exact .lift ((value_inStep h).run' _)

theorem loadSource_ends (name : String) (m : Machine) (hm : m.Within l) :
    (loadSource name).Ends m (fun _ _ => l.includes = true) (fun _ _ => True) := by
  refine ends_get.mpr ?_
  dsimp only
  split
  case h_1 hs =>
    cases hi : l.includes with
    | true => rfl
    | false => rw [hm.sources hi] at hs; cases hs
  case h_2 => trivial

/-- A file is run only if there are files. -/
theorem includeFile_inStep (h : l.Matches i j) : l.InStep i.includeFile j.includeFile := by
  refine .bind (.next _) fun name => .bind (.calm (nameText_calm name)) fun text r => ?_
  rw [Run.lift_bind, Run.lift_bind]
  refine .after (.calm (loadSource_calm text)) (loadSource_ends text) fun p hi => ?_
  exact InStep.bind (.lift (h.source _ _ hi)) (fun _ => .calm resultValue_calm) r

/-! ## Declarations -/

theorem bindGenerics_inStep (h : l.Matches i j) : ∀ n, l.InStep (i.bindGenerics n) (j.bindGenerics n)
  | 0 => .outOfFuel
  | n + 1 => by
    have rest (name : NameId) (v : Variable) : l.InStep (do
        declareNew name (← fresh v.type (← bits v))
        i.bindGenerics n : Run Unit) (do
        declareNew name (← fresh v.type (← bits v))
        j.bindGenerics n) :=
      .bind (.calm (bits_calm v)) fun _ => .bind (.calm (fresh_calm _ _)) fun _ =>
        .bind (.calm (declareNew_calm _ _)) fun _ => bindGenerics_inStep h n
    refine .bind (.next _) fun _ => .ite (.bind (.next _) fun name => ?_) (.pure _)
    refine .bind (value_inStep h) fun v => .bind (.calm (kindOf_calm v)) fun _ => .ite ?_ (rest name v)
    exact .bind (.calm (nameText_calm name)) fun _ => .bind (.raise _) fun _ => rest name v

theorem declaredType_inStep (h : l.Matches i j) (type : TypeId) :
    l.InStep (i.declaredType type) (j.declaredType type) := by
  intro r
  have inside : l.InStep (do i.bindGenerics i.fuel; resolveType type : Run TypeId)
      (do j.bindGenerics i.fuel; resolveType type) :=
    .bind (bindGenerics_inStep h i.fuel) fun _ => .calm (resolveType_calm type)
  rw [declaredType, declaredType, h.fuel]
  refine .bind pushLevel_alike fun _ => .bind (inside r).attempt fun outcome =>
    .bind (closeLevel_alike h) fun _ => ?_
  cases outcome with
  | ok p => exact .pure _
  | error e => exact .throw e

theorem declaration_inStep (h : l.Matches i j) (type : Option Variable) :
    l.InStep (i.declaration type) (j.declaration type) := by
  refine .bind (.next _) fun external => .bind (.next _) fun name => ?_
  -- the body of a function comes last
  have code (v : Variable) (type : TypeId) (kind : Kind) {x : Run Variable} (hx : x = (do
      declareNew name v
      if ← Run.bool then
        if kind ≠ .function then raise .codeOnNonFunction
        store v (← readFunction type name true)
      return { v with origin := some { name } })) : l.InStep x x := by
    subst hx
    refine .bind (.calm (declareNew_calm name v)) fun _ => .bind (.next _) fun _ => .ite (.guarded ?_) (.pure _)
    exact .bind (readFunction_inStep _ _ _) fun _ => .bind (.calm (store_calm v _)) fun _ => .pure _
  cases type
  all_goals refine .bind ?_ fun declared => ?_
  case none.refine_1 => exact .raise _
  case some.refine_1 v => exact .calm (expectType_calm v)
  all_goals
    refine .branch (.map some (.calm (symbolAddress_calm name))) (.pure none) fun symbol => ?_
    refine .bind (declaredType_inStep h declared) fun type => .bind .machine fun m => ?_
    cases symbol with
    | none => exact .bind (.calm (fresh_calm _ _)) fun v => code v type _ rfl
    | some addr => exact .branch (.calm (fresh_calm _ _)) (.pure _) fun v => code v type _ rfl

/-! ## Allocations -/

theorem elements_inStep (h : l.Matches i j) (type : TypeId) (addr stride count : UInt64) :
    ∀ n index, l.InStep (i.elements type addr stride count n index) (j.elements type addr stride count n index)
  | 0, _ => .outOfFuel
  | n + 1, index => by
    have rest := elements_inStep h type addr stride count n (index + 1)
    refine .bind h.eval fun v => ?_
    cases v with
    | none => exact .pure _
    | some v =>
      refine .ite (.bind (.calm (typeInfo_calm type)) fun t => .ite ?_ ?_) rest
      · exact .bind (.calm (bits_calm v)) fun _ => .bind (.calm (copyStruct_calm _ _ _)) fun _ => rest
      · exact .bind (.calm (castBits_calm type v)) fun _ => .bind (.calm (poke_calm _ _ _)) fun _ => rest

theorem newArray_inStep (h : l.Matches i j) (type : TypeId) (inner : Bool) :
    l.InStep (i.newArray type inner) (j.newArray type inner) := by
  rw [newArray, newArray, h.fuel]
  refine .bind (value_inStep h) fun count => .bind (.calm (kindOf_calm count)) fun _ => .guarded ?_
  refine .bind (.calm (bits_calm count)) fun _ => .bind (.calm (typeInfo_calm type)) fun t => .guarded ?_
  exact .bind (.lift (allocate_alike _ _ _ _)) fun addr => .bind (elements_inStep h _ _ _ _ _ _) fun _ => .pure _

theorem overrides_inStep (h : l.Matches i j) (type : TypeId) (addr : UInt64) :
    ∀ n, l.InStep (i.overrides type addr n) (j.overrides type addr n)
  | 0 => .outOfFuel
  | n + 1 => by
    refine .bind (.next _) fun _ => .ite (.bind (.next _) fun name => ?_) (.pure _)
    exact .bind (value_inStep h) fun v => .bind (.calm (overrideField_calm type addr name v)) fun _ =>
      overrides_inStep h type addr n

theorem newStruct_alike (type : TypeId) (inner : Bool) : l.Alike (newStruct type inner) (newStruct type inner) :=
  .bind (.calm (typeInfo_calm type)) fun _ => .bind (allocate_alike _ _ _ _) fun addr =>
    .bind (.calm (initStruct_calm type addr)) fun _ => .pure _

theorem newAddress_inStep (h : l.Matches i j) (type : TypeId) (inner : Bool) :
    ∀ form, l.InStep (i.newAddress type inner form) (j.newAddress type inner form)
  | .bare => by
    refine .bind (.calm (typeInfo_calm type)) fun t => ?_
    split
    · exact .raise _
    · exact .lift (newStruct_alike type inner)
    · exact .lift (allocate_alike _ _ _ _)
  | .scalar => by
    refine .bind (value_inStep h) fun v => .bind (.calm (typeInfo_calm type)) fun t => ?_
    split
    · exact .raise _
    · exact .bind (.lift (allocate_alike _ _ _ _)) fun _ => .bind (.calm (bits_calm v)) fun _ =>
        .bind (.calm (copyStruct_calm _ _ _)) fun _ => .pure _
    · exact .bind (.lift (allocate_alike _ _ _ _)) fun _ => .bind (.calm (castBits_calm type v)) fun _ =>
        .bind (.calm (poke_calm _ _ _)) fun _ => .pure _
  | .array => newArray_inStep h type inner
  | .function => .bind (.calm (typeInfo_calm type)) fun _ => .guarded (readFunction_inStep _ _ _)
  | .struct => by
    rw [newAddress, newAddress, h.fuel]
    exact .bind (.calm (typeInfo_calm type)) fun _ =>
      .guarded (.bind (.lift (newStruct_alike type inner)) fun addr =>
      .bind (overrides_inStep h type addr _) fun _ =>
        .bind (.lift (callMethod_alike h type addr _)) fun _ => .pure _)

theorem newValue_inStep (h : l.Matches i j) : l.InStep i.newValue j.newValue := by
  refine .bind (.next _) fun inner => .bind (type_inStep h) fun type =>
    .bind (.calm (resolveType_calm type)) fun type =>
    .bind (.next _) fun form => .bind (.calm (typeInfo_calm type)) fun t => ?_
  have rest (result : TypeId) : l.InStep (do return Variable.value result (← i.newAddress type inner form))
      (do return Variable.value result (← j.newAddress type inner form)) :=
    .bind (newAddress_inStep h type inner form) fun _ => .pure _
  split
  · exact .bind (.pure _) rest
  · exact .bind (.pure _) rest
  · exact .bind (.calm (pointer_calm _)) rest

/-! ## Nodes -/

theorem operand_inStep (h : l.Matches i j) (op : Opcode) : l.InStep (i.operand op) (j.operand op) := by
  unfold operand
  split
  · exact .bind (.next _) fun n => .bind (.calm (literalType_calm n)) fun _ => .pure _
  · exact .bind (.next _) fun _ => .pure _
  · exact .bind (.next _) fun name => .calm (textValue_calm name)
  · exact .bind (typeLiteral_inStep h) fun _ => .pure _
  · exact .bind (.next _) fun b => .calm (boolValue_calm b)
  · exact .bind (.calm (pointer_calm _)) fun _ => .pure _
  · exact .bind (.next _) fun name => .calm (load_calm name)
  · exact value_inStep h
  · exact .bind (.next _) fun name => .bind
      (.calm (withTypes_calm fun ts => ts.deferred_grows name)) fun _ => .pure _
  · exact vararg_inStep h
  · exact sizeOf_inStep h
  · exact .bind (value_inStep h) fun _ => .pure _
  · exact .bind .name? fun name => .calm (scopeOf_calm name)
  · exact newValue_inStep h
  · exact delete_inStep h
  · exact move_inStep h
  · exact ternary_inStep h
  · exact includeFile_inStep h
  · exact .raise _

theorem node_inStep (h : l.Matches i j) (op : Opcode) (stack : List Variable) :
    l.InStep (i.node op stack) (j.node op stack) := by
  refine .ite (applyOperator_inStep h op stack) (.ite ?_ ?_)
  · exact .bind (declaration_inStep h _) fun _ => .pure _
  · exact .bind (operand_inStep h op) fun _ => .pure _

theorem nodes_inStep (h : l.Matches i j) : ∀ n stack, l.InStep (i.nodes n stack) (j.nodes n stack)
  | 0, _ => .outOfFuel
  | n + 1, stack => by
    refine .bind (.next _) fun op => .ite (.pure _) (.bind .place fun place => ?_)
    refine .bind (.atPlace _ _ (.bind (node_inStep h op stack) fun stack => ?_)) fun stack => nodes_inStep h n stack
    exact .bind (.calm checkFault_calm) fun _ => .bind .machine fun m => .guarded (.pure _)

theorem expression_inStep (h : l.Matches i j) : l.InStep i.expression j.expression := by
  rw [expression, expression, h.fuel]
  exact nodes_inStep h i.fuel []

/-! ## Commands -/

theorem ifElse_inStep (h : l.Matches i j) : l.InStep i.ifElse j.ifElse := by
  have block (r : Reader) : l.InStep (liftM (i.levelBlock r) : Run Variable) (liftM (j.levelBlock r)) :=
    .lift (levelBlock_alike h r)
  refine .bind (value_inStep h) fun v => .bind (.calm (truthy_calm v)) fun truth =>
    .bind (.next _) fun yes => .bind (.next _) fun more => ?_
  refine .branch (.map some (.next _)) (.pure _) fun no => .ite (block yes) ?_
  cases no with
  | some no => exact block no
  | none => exact .pure _

theorem loopControl_alike : l.Alike loopControl loopControl := by
  refine .bind .get fun m => ?_
  split
  · exact .pure _
  · exact .bind (setControl_alike _) fun _ => .pure _
  · exact .bind (setControl_alike _) fun _ => .pure _
  · exact .pure _

theorem whileFrom_inStep (h : l.Matches i j) (start : Nat) :
    ∀ n last, l.InStep (i.whileFrom start n last) (j.whileFrom start n last)
  | 0, _ => .outOfFuel
  | n + 1, last => by
    refine .bind (fun _ => .pure _) fun _ => .bind (value_inStep h) fun v =>
      .bind (.calm (truthy_calm v)) fun _ => .bind (.next _) fun body => .ite (.pure _) ?_
    refine .bind (.lift (levelBlock_alike h body)) fun last => .bind (.lift loopControl_alike) fun _ => ?_
    exact .ite (whileFrom_inStep h start n last) (.pure _)

theorem nextRound_alike (h : l.Matches i j) (range : LoopRange) (type : TypeId) (name : NameId) (step x : UInt64)
    (last : Variable) {again again' : UInt64 → Exec Variable} (ha : ∀ next, l.Alike (again next) (again' next)) :
    l.Alike (i.nextRound range type name step x last again) (j.nextRound range type name step x last again') := by
  have goOn (x : UInt64) : l.Alike (do
      let next := extend (← typeInfo type) (x + step)
      i.closeLevel
      if range.advances x next then again next else return last) (do
      let next := extend (← typeInfo type) (x + step)
      j.closeLevel
      if range.advances x next then again' next else return last) :=
    .bind (.calm (typeInfo_calm type)) fun _ => .bind (closeLevel_alike h) fun _ => .ite (ha _) (.pure _)
  refine .bind .get fun m => ?_
  cases m.scopes.lookup name m.base with
  | some v => exact .bind (.calm (bits_calm v)) goOn
  | none => exact .bind (.pure _) goOn

theorem forRounds_alike (h : l.Matches i j) (range : LoopRange) (type : TypeId) (name : NameId)
    (step : UInt64) (body : Reader) :
    ∀ n x last, l.Alike (i.forRounds range type name step body n x last)
    (j.forRounds range type name step body n x last)
  | 0, _, _ => .outOfFuel
  | n + 1, x, last => by
    refine .ite (.pure _) (.bind pushLevel_alike fun _ => .bind (.calm (fresh_calm type x)) fun v =>
      .bind (.calm (.discard (declare_calm name v))) fun _ => .bind (block_alike h body) fun last =>
        .bind loopControl_alike fun _ => .ite ?_ (.bind (closeLevel_alike h) fun _ => .pure _))
    exact nextRound_alike h range type name step x last fun next =>
      forRounds_alike h range type name step body n next last

theorem forLoop_inStep (h : l.Matches i j) : l.InStep i.forLoop j.forLoop := by
  rw [forLoop, forLoop, h.fuel]
  refine .bind (type_inStep h) fun type => .bind (.calm (resolveType_calm type)) fun type =>
    .bind (.calm (typeInfo_calm type)) fun t => .guarded (.bind (.next _) fun name => ?_)
  refine .bind (value_inStep h) fun low => .bind (.calm (castBits_calm type low)) fun low =>
    .bind (.next _) fun lowExcluded => ?_
  refine .bind (value_inStep h) fun high => .bind (.calm (castBits_calm type high)) fun high =>
    .bind (.next _) fun highExcluded => .bind (.next _) fun stepped => .ite ?_ ?_
  · exact .bind (value_inStep h) fun step => .bind (.calm (castBits_calm _ step)) fun step =>
      .bind (.next _) fun body => .lift (forRounds_alike h _ _ _ _ _ _ _ _)
  · exact .bind (.pure _) fun step => .bind (.next _) fun body => .lift (forRounds_alike h _ _ _ _ _ _ _ _)

theorem handle_alike (h : l.Matches i j) (e : RunError) (handler : Option Interp.Handler) :
    l.Alike (i.handle e handler) (j.handle e handler) := by
  refine .bind .get fun m => ?_
  cases handler with
  | none => exact .ite (.bind (.calm (logError_calm e)) fun _ => .pure _) (.pure _)
  | some handler =>
    have run : l.Alike (do let v ← i.block handler.body; i.closeLevel; return v)
        (do let v ← j.block handler.body; j.closeLevel; return v) :=
      .bind (block_alike h handler.body) fun _ => .bind (closeLevel_alike h) fun _ => .pure _
    refine .ite (.bind (.calm (logError_calm e)) fun _ => .bind pushLevel_alike fun _ => ?_)
      (.bind pushLevel_alike fun _ => ?_)
    all_goals
      cases handler.bound with
      | none => exact run
      | some name =>
        exact .bind (.calm (caughtValue_calm e)) fun v =>
          .bind (.calm (.discard (declare_calm name v))) fun _ => run

theorem tryCatch_inStep (h : l.Matches i j) : l.InStep i.tryCatch j.tryCatch := by
  refine .bind .machine fun m => .bind (.next _) fun body => .bind (.reads Law.handler?_reads) fun handler =>
    .bind (.lift (levelBlock_alike h body).attempt) fun outcome => ?_
  cases outcome with
  | ok v => exact .pure v
  | error e =>
    exact .bind (.lift (unwindWith_alike h (closeLevel_alike h) _ _)) fun _ =>
      .bind (.lift (setControl_alike _)) fun _ =>
      .lift (handle_alike h e handler)

theorem throwValue_inStep (h : l.Matches i j) : l.InStep i.throwValue j.throwValue := by
  rw [throwValue, throwValue, h.fuel]
  refine .bind (value_inStep h) fun v => .bind (.next _) fun texted => ?_
  have rest (text : String) : l.InStep (do
      let frames := (← getThe Machine).trace
      throw (.raised ⟨.thrown (← toValue v) text, frames⟩) : Run Variable) (do
      let frames := (← getThe Machine).trace
      throw (.raised ⟨.thrown (← toValue v) text, frames⟩)) :=
    .bind .machine fun m => .bind (.calm (toValue_calm v)) fun v => fun _ => .throw _
  refine .ite ?_ (.bind (.calm (renderVariable_calm _ v)) rest)
  exact .bind (.next _) fun name => .bind (.calm (nameText_calm name)) rest

theorem returnValue_inStep (h : l.Matches i j) : l.InStep i.returnValue j.returnValue := by
  have rest (v : Variable) :
      l.InStep (do setControl (.returning v); return v : Run Variable) (do setControl (.returning v); return v) :=
    .bind (.lift (setControl_alike _)) fun _ => .pure _
  exact .bind (.next _) fun _ => .ite (.bind (value_inStep h) rest) (.bind (.pure _) rest)

theorem body_inStep (h : l.Matches i j) (op : Opcode) : l.InStep (i.body op) (j.body op) := by
  unfold body
  rw [h.fuel]
  split
  · exact ifElse_inStep h
  · exact .bind .reader fun r => whileFrom_inStep h r.pos _ _
  · exact forLoop_inStep h
  · exact returnValue_inStep h
  · exact .bind (.lift (setControl_alike _)) fun _ => .pure _
  · exact .bind (.lift (setControl_alike _)) fun _ => .pure _
  · exact tryCatch_inStep h
  · exact throwValue_inStep h
  · exact .bind (.next _) fun r => .lift (levelBlock_alike h r)
  · exact .bind h.eval fun _ => .pure _
  · exact .raise _

theorem oneCommand_inStep (h : l.Matches i j) : l.InStep i.oneCommand j.oneCommand := by
  refine .bind (.next _) fun op => .ite (.pure _) (.bind .place fun place => .atPlace _ _ ?_)
  exact .bind (body_inStep h op) fun v => .bind (.calm checkFault_calm) fun _ => .pure _

/-! ## Texts -/

theorem topCommands_alike (h : l.Matches i j) :
    ∀ n r last, l.Alike (i.topCommands n r last) (j.topCommands n r last)
  | 0, _, _ => .outOfFuel
  | n + 1, r, last => by
    refine .ite (.pure _) (.bind (h.command r).attempt fun outcome => ?_)
    cases outcome with
    | error e => exact .pure _
    | ok p =>
      obtain ⟨v, r⟩ := p
      cases v with
      | none => exact .pure _
      | some v =>
        refine .bind .get fun m => ?_
        cases m.control with
        | running => exact topCommands_alike h n r v
        | returning v => exact .pure _
        | continuing => exact .bind (.bind .get fun _ => .pure _) fun _ => .pure _
        | breaking => exact .bind (.bind .get fun _ => .pure _) fun _ => .pure _

theorem setFile_alike (index : Nat) (file : NameId) : l.Alike (setFile index file) (setFile index file) :=
  .modify fun _ => ⟨Nat.le_of_eq Array.size_modify, rfl, rfl⟩

theorem topLevel_alike (h : l.Matches i j) (source file : String) :
    l.Alike (i.topLevel source file) (j.topLevel source file) := by
  rw [topLevel, topLevel, h.fuel]
  refine .bind (.calm (compileSource_calm source file)) fun compiled => ?_
  cases compiled with
  | error e => exact .pure _
  | ok chunk => exact .bind .get fun m => .bind (setFile_alike _ _) fun _ => topCommands_alike h i.fuel _ _

theorem runSource_alike (h : l.Matches i j) (source file : String) :
    l.Alike (i.runSource source file) (j.runSource source file) := by
  refine .bind .get fun m => .bind .get fun m₁ => .bind (topLevel_alike h source file) fun p => ?_
  obtain ⟨last, error⟩ := p
  -- at the end the result is kept, and the file is the old one again
  have finish (value : UInt64) {x : Exec Unit} (hx : l.Alike x x) : l.Alike (do
      keepResult last.type value
      setFile (m.frames.size - 1) m₁.frame.file
      x) (do
      keepResult last.type value
      setFile (m.frames.size - 1) m₁.frame.file
      x) :=
    .bind (.smooth (keepResult_smooth last.type value)) fun _ => .bind (setFile_alike _ _) fun _ => hx
  refine .bind (setControl_alike .running) fun _ => .bind (.smooth (bits_smooth last)) fun value => ?_
  cases error with
  | some e => exact finish value (.throw e)
  | none =>
    refine .bind (.attempt (.calm checkFault_calm)) fun outcome => ?_
    cases outcome with
    | ok _ => exact finish value (.pure ())
    | error e => exact finish value (.throw e)

end

end Lookout

end LevelScript
