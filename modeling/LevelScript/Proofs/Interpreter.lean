import LevelScript.Proofs.Closing

/-!
# Laws and the interpreter

Every part of the interpreter obeys a law if the parts inside it do, so that the interpreter does,
whatever its fuel.
-/

namespace LevelScript

namespace Run

/-- Only bytecode is read; the machine does not matter. -/
def Reads (x : Run α) : Prop := ∀ r, ∃ p, x r = pure p

namespace Reads

variable {α β : Type}

protected theorem pure (a : α) : Reads (pure a) := fun r => ⟨(a, r), rfl⟩

theorem next (read : Reader → α × Reader) : Reads (Run.next read) := fun r => ⟨read r, rfl⟩

protected theorem bind {x : Run α} {f : α → Run β} (hx : Reads x) (hf : ∀ a, Reads (f a)) :
    Reads (x >>= f) := by
  intro r
  obtain ⟨p, hp⟩ := hx r
  obtain ⟨q, hq⟩ := hf p.1 p.2
  refine ⟨q, ?_⟩
  show (x r >>= fun p => f p.1 p.2) = _
  rw [hp, pure_bind, hq]

protected theorem ite {c : Prop} [Decidable c] {x y : Run α} (hx : Reads x) (hy : Reads y) :
    Reads (if c then x else y) := by
  split
  · exact hx
  · exact hy

theorem name? : Reads Run.name? := .bind (next _) fun _ => .ite (.bind (next _) fun _ => .pure _) (.pure _)

theorem place : Reads Run.place := .bind (next _) fun _ => .bind (next _) fun _ => .pure _

end Reads

theorem machine_bind {f : Machine → Run α} {r : Reader} {m : Machine} : (getThe Machine >>= f) r m = f m r m := rfl

theorem lift_bind (x : Exec α) (f : α → Run β) (r : Reader) :
    ((liftM x : Run α) >>= f) r = x >>= fun a => f a r := by
  funext m
  simp only [bind, StateT.bind, liftM, monadLift, MonadLift.monadLift, StateT.lift, EStateM.bind]
  cases x m <;> rfl

theorem enter_bind (f : Reader → Run β) (r : Reader) : (enter >>= f) r = f r.enter.1 r.enter.2 := rfl

end Run

namespace Law

open Exec Interp

/-- A computation on bytecode that obeys a law from every position. -/
def Follows (L : Law) (x : Run α) : Prop := ∀ r, L.Obeys (x r)

namespace Follows

variable {L : Law} {α β : Type}

protected theorem pure (a : α) : L.Follows (pure a : Run α) := fun _ => .pure _

protected theorem bind {x : Run α} {f : α → Run β} (hx : L.Follows x) (hf : ∀ a, L.Follows (f a)) :
    L.Follows (x >>= f) :=
  fun r => .bind (hx r) fun p => hf p.1 p.2

theorem lift {x : Exec α} (hx : L.Obeys x) : L.Follows (liftM x : Run α) :=
  fun _ => .bind hx fun _ => .pure _

theorem calm {x : Exec α} (hx : Calm true x) : L.Follows (liftM x : Run α) := lift (obeys_calm hx)

theorem machine : L.Follows (getThe Machine : Run Machine) := calm .get

theorem onMachine {f : Machine → Run α} (h : ∀ m r, 0 < m.scopes.depth →
    (f m r).Ends m (fun _ m' => L.during m.scopes.depth [] m m') (fun _ m' => L.failed m m')) :
    L.Follows (getThe Machine >>= f) :=
  fun r m hm => h m r hm

theorem reader : L.Follows (getThe Reader : Run Reader) := fun _ => .pure _

theorem reads {x : Run α} (hx : Run.Reads x) : L.Follows x := by
  intro r
  obtain ⟨p, hp⟩ := hx r
  rw [hp]
  exact .pure p

theorem next (read : Reader → α × Reader) : L.Follows (Run.next read) := reads (.next read)

theorem raise (c : Cause) : L.Follows (liftM (Exec.raise c : Exec α) : Run α) :=
  calm (.raiseInternal c fun _ => rfl)

theorem outOfFuel : L.Follows (liftM (Exec.outOfFuel : Exec α) : Run α) := calm .outOfFuel

protected theorem ite {c : Prop} [Decidable c] {x y : Run α} (hx : L.Follows x) (hy : L.Follows y) :
    L.Follows (if c then x else y) := by
  split
  · exact hx
  · exact hy

theorem branch {c : Prop} [Decidable c] {x y : Run α} {f : α → Run β} (hx : L.Follows x) (hy : L.Follows y)
    (hf : ∀ a, L.Follows (f a)) : L.Follows (if c then x >>= f else y >>= f) :=
  .ite (.bind hx hf) (.bind hy hf)

theorem guarded {c : Prop} [Decidable c] {e : Cause} {x : Run α} (hx : L.Follows x) :
    L.Follows (if c then (liftM (Exec.raise e : Exec PUnit) : Run PUnit) >>= fun _ => x else x) :=
  .ite (.bind (.raise e) fun _ => hx) hx

protected theorem map {x : Run α} (f : α → β) (hx : L.Follows x) : L.Follows (f <$> x) :=
  hx.bind fun _ => .pure _

theorem run' {x : Run α} (hx : L.Follows x) (r : Reader) : L.Obeys (x.run' r) := (hx r).map _

theorem name? : L.Follows Run.name? := reads .name?

theorem place : L.Follows Run.place := reads .place

end Follows

def Restores (L : Law) (x : Run α) : Prop := ∀ r, L.Keeps (x r)

namespace Restores

variable {L : Law} {α β : Type}

protected theorem bind {x : Run α} {f : α → Run β} (hx : L.Restores x) (hf : ∀ a, L.Restores (f a)) :
    L.Restores (x >>= f) :=
  fun r => .bind (hx r) fun p => hf p.1 p.2

theorem reads {x : Run α} (hx : Run.Reads x) : L.Restores x := by
  intro r
  obtain ⟨p, hp⟩ := hx r
  rw [hp]
  exact (calls_calm (.pure p)).keeps

theorem atPlace {x : Run α} (hx : L.Follows x) (row col : Int) : L.Restores (Run.atPlace row col x) :=
  fun r => (hx r).atPlace row col

theorem outOfFuel : L.Restores (liftM (Exec.outOfFuel : Exec α) : Run α) :=
  fun _ _ _ => trivial

protected theorem ite {c : Prop} [Decidable c] {x y : Run α} (hx : L.Restores x) (hy : L.Restores y) :
    L.Restores (if c then x else y) := by
  split
  · exact hx
  · exact hy

end Restores

section
variable {L : Law} {i : Interp}

/-! ## Sequences -/

theorem Sound.eval_follows (hi : L.Sound i) : L.Follows i.eval := fun r => (hi.eval r).obeys

theorem value_follows (hi : L.Sound i) : L.Follows i.value := by
  refine .bind hi.eval_follows fun v => ?_
  cases v with
  | none => exact .raise _
  | some v => exact .pure v

theorem values_follows (hi : L.Sound i) : ∀ n, L.Follows (i.values n)
  | 0 => .outOfFuel
  | n + 1 => by
    refine .bind hi.eval_follows fun v => ?_
    cases v with
    | none => exact .pure _
    | some v => exact .bind (values_follows hi n) fun _ => .pure _

theorem type_follows (hi : L.Sound i) : L.Follows i.type :=
  .bind (value_follows hi) fun v => .calm (expectType_calm v)

theorem commands_follows (hi : L.Sound i) : ∀ n last, L.Follows (i.commands last n)
  | 0, _ => .outOfFuel
  | n + 1, last => by
    refine .bind .machine fun m => .ite ?_ (.pure _)
    refine .bind (fun r => (hi.command r).obeys) fun v => ?_
    cases v with
    | none => exact .pure _
    | some v => exact commands_follows hi n v

theorem block_obeys (hi : L.Sound i) (r : Reader) : L.Obeys (i.block r) :=
  (commands_follows hi _ _).run' r

/-! ## Calls -/

/-- A call has been entered from `m`, and nothing but variables has changed since. -/
def Prepared (m m' : Machine) : Prop := ∃ f : Frame, f.base = m.scopes.depth ∧ (m.entered f).Calm m'

theorem Prepared.calm {m m₁ m₂ : Machine} (h : Prepared m m₁) (h' : m₁.Calm m₂) : Prepared m m₂ := by
  obtain ⟨f, hf, h⟩ := h
  exact ⟨f, hf, h.trans h'⟩

theorem Prepared.modifyFrame {m m₁ : Machine} (h : Prepared m m₁) {g : Frame → Frame}
    (hg : ∀ f, (g f).base = f.base) : Prepared m (m₁.modifyFrame g) := by
  obtain ⟨f, hf, h⟩ := h
  refine ⟨g f, (hg f).trans hf, ⟨h.heap, h.owned, ?_, h.control, h.journal⟩, h.functions, h.sources,
    h.parked, h.types, h.code, h.stub, h.declares, h.settings⟩
  show m₁.frames.modify (m₁.frames.size - 1) g = m.frames.push (g f)
  rw [show m₁.frames = m.frames.push f from h.frames]
  apply Array.ext_getElem?
  intro k
  rw [Array.getElem?_modify, Array.size_push, Nat.add_sub_cancel, Array.getElem?_push, Array.getElem?_push]
  by_cases hk : k = m.frames.size
  · simp [hk]
  · simp [hk, Ne.symm hk]

def InCall (m : Machine) (ok : Variable → Machine → Prop) (err : RunError → Machine → Prop)
    (x : Exec Variable) : Prop :=
  ∀ m₁, Prepared m m₁ → x.Ends m₁ ok err

section
variable {α : Type} {m : Machine} {ok : Variable → Machine → Prop} {err : RunError → Machine → Prop}

theorem InCall.bind {x : Exec α} {f : α → Exec Variable} (hx : Calm true x)
    (he : ∀ e m₁, Prepared m m₁ → err e m₁) (hf : ∀ a, InCall m ok err (f a)) :
    InCall m ok err (x >>= f) := by
  intro m₁ h₁
  exact (hx m₁).bind (fun a m₂ h₂ => hf a m₂ (h₁.calm h₂)) (fun e m₂ h₂ => he e m₂ (h₁.calm h₂.1))

theorem InCall.ite {c : Prop} [Decidable c] {x y : Exec Variable} (hx : InCall m ok err x)
    (hy : InCall m ok err y) : InCall m ok err (if c then x else y) := by
  split
  · exact hx
  · exact hy

/-- What a call of a script function comes to is a matter of its body, once the call is entered. -/
theorem callScript_ends (call : ScriptCall) (args : List Variable) (h0 : ∀ e, err e m)
    (he : ∀ e m₁, Prepared m m₁ → err e m₁)
    (hb : ∀ r, InCall m ok err (i.runBody call m.scopes.depth r)) :
    (i.callScript call args).Ends m ok err := by
  refine ends_get.mpr (show Ends (if m.settings.maxFrames ≤ m.frames.size then _ else _) m _ _ from ?_)
  split
  · exact h0 _
  · cases m.functions.get? call.id with
    | none => exact h0 _
    | some f =>
      have run := hb (Reader.slice f.chunk f.entry f.len)
      -- more arguments than parameters are kept in the frame
      have more (g : Frame → Frame) (hg : ∀ f, (g f).base = f.base) : InCall m ok err
          (modify (·.modifyFrame g) >>= fun _ =>
            i.runBody call m.scopes.depth (Reader.slice f.chunk f.entry f.len)) :=
        fun m₁ h₁ => run _ (h₁.modifyFrame hg)
      have last := more ({ · with varargs := some (args.drop call.fixed).toArray }) (fun _ => rfl)
      have finish := InCall.ite (c := call.fixed < call.params.length) last run
      refine ends_bind.mpr (show Ends _ (m.entered _) _ _ from ?_)
      refine InCall.bind (m := m) (declareCaptured_calm _ _) he (fun _ =>
        .bind (declareParameters_calm _ _) he fun _ => ?_) _ ⟨_, rfl, .refl _⟩
      cases call.origin.bind (·.receiver) with
      | none => exact finish
      | some receiver =>
        refine .bind (constant_calm _) he fun type => .bind (fresh_calm _ _) he fun v => ?_
        exact .bind (.discard (declare_calm _ _)) he fun _ => finish

end

theorem Prepared.failed {m m₁ m₂ : Machine} (h : Prepared m m₁) (h' : L.failed m₁ m₂) : L.failed m m₂ := by
  obtain ⟨f, hf, h⟩ := h
  exact L.called_failed hf (L.failed_trans (failed_kept (L.calm h)) h')

theorem runBody_ends (hi : L.Sound i) (m : Machine) (call : ScriptCall) (r : Reader) :
    InCall m (fun _ m' => L.kept m m') (fun _ m' => L.failed m m') (i.runBody call m.scopes.depth r) := by
  intro m₁ h₁
  have fails {m₂ : Machine} (h : L.failed m₁ m₂) : L.failed m m₂ := h₁.failed h
  obtain ⟨f, hf, h₁⟩ := h₁
  have hd : m₁.scopes.depth = m.scopes.depth + 1 := h₁.depth.trans (Scopes.depth_push _)
  refine ((block_obeys hi r).discard m₁ (by omega)).bind (fun _ m₂ h₂ => ?_) (fun _ _ h => fails h)
  refine ends_bind.mpr (show Ends _ { m₂ with control := .running } _ _ from ?_)
  have h₃ := L.during_step h₂ (L.during_kept (L.control m₂ .running))
  generalize { m₂ with control := Control.running } = m₃ at h₃
  refine (@functionResult_calm true call _ m₃).bind (fun _ m₄ h₄ => ?_) (fun _ m₄ h₄ => ?_)
  · have h := L.during_step (L.during_kept (calm h₁)) (during_calm h₃ h₄)
    rw [show (m.entered f).scopes.depth = m.scopes.depth + 1 from Scopes.depth_push _] at h
    refine (closeTo_ends (closeLevel_closes hi) _ _ (L.leaving h)).bind ?_ (fun _ _ h => h.elim)
    exact fun _ m₅ h₅ => L.called hf h₅
  · exact fails (failed_calm (L.failed_during h₃) h₄.1)

theorem callScript_calls (hi : L.Sound i) (call : ScriptCall) (args : List Variable) :
    L.Calls (i.callScript call args) := by
  intro m
  refine callScript_ends call args (fun _ => failed_kept (L.calm (.refl m))) (fun _ m₁ h₁ => ?_) ?_
  · exact h₁.failed (failed_kept (L.calm (.refl m₁)))
  · exact runBody_ends hi m call

/-! ## Native code -/

theorem runNative_wild {enter : UInt64 → List NativeArg → Exec (Except UInt64 NativeResult)}
    (he : ∀ addr args, L.Wild (enter addr args)) : ∀ action, L.Wild (runNative enter action)
  | .done _ => wild_smooth (.pure _)
  | .print _ next =>
    .bind (wild_smooth (.modify fun _ =>
      ⟨⟨rfl, rfl, rfl, rfl, rfl⟩, rfl, rfl, rfl, .refl _, rfl, rfl, .refl _ _, rfl⟩)) fun _ =>
      runNative_wild he next
  | .read addr next => by
    rw [runNative]
    split
    · exact .bind (wild_smooth .get) fun _ => runNative_wild he (next _)
    · exact wild_smooth (.pure _)
  | .write _ _ next =>
    .bind (wild_smooth (.modify fun _ =>
      ⟨⟨rfl, rfl, rfl, rfl, rfl⟩, rfl, rfl, rfl, .refl _, rfl, rfl, .refl _ _, rfl⟩)) fun _ =>
      runNative_wild he next
  | .readText addr next => by
    rw [runNative]
    split
    · exact .bind (wild_smooth .get) fun _ => runNative_wild he (next _)
    · exact wild_smooth (.pure _)
  | .call code args next => by
    rw [runNative]
    refine .bind (he code args) fun result => ?_
    cases result with
    | ok result => exact runNative_wild he (next result)
    | error addr => exact wild_smooth (.pure _)

theorem enterStub_calls (hi : L.Sound i) (type : TypeId) (id : Nat) (words : List UInt64) :
    L.Calls (i.enterStub type id words) := by
  refine .bind (calls_calm .get) fun m => ?_
  dsimp only
  split
  · exact calls_calm (.raise _ rfl)
  · exact .bind (hi.call _ _) fun v => calls_calm (bits_calm v)

theorem enterCode_wild (hi : L.Sound i) : ∀ n addr args, L.Wild (i.enterCode n addr args)
  | 0, _, _ => fun _ => trivial
  | n + 1, addr, args => by
    refine .bind (wild_smooth .get) fun m => ?_
    dsimp only
    split
    · exact wild_smooth (.pure _)
    · exact runNative_wild (enterCode_wild hi n) _
    · refine .bind (enterStub_calls hi _ _ _).attempt fun outcome => ?_
      cases outcome with
      | ok bits => exact wild_smooth (.pure _)
      | error e => exact .bind (fun m => L.wild_parked m _) fun _ => wild_smooth (.pure _)

/-- The end of a native call takes the error that waits, and raises it unless there was an invalid
access. -/
theorem nativeEnd_ends (result : TypeId) (outcome : Except UInt64 NativeResult) (m : Machine) :
    Ends (do
      let parked ← takeParked
      match outcome with
      | .error addr => raise (.fault addr)
      | .ok r =>
        match parked with
        | some e => throw (.raised e)
        | none => return Variable.value result (nativeResult (← typeInfo result) r)) m
      (fun _ m' => m' = { m with parked := none } ∧ m.parked = none)
      (fun e m' => m' = { m with parked := none } ∧ ((∃ a, e.cause = .fault a) ∨ m.parked = some e)) := by
  refine ends_bind.mpr (show Ends _ { m with parked := none } _ _ from ?_)
  cases outcome with
  | error addr => exact ⟨rfl, .inl ⟨addr, rfl⟩⟩
  | ok r =>
    dsimp only
    split
    case h_1 e he => exact ⟨rfl, .inr he⟩
    case h_2 he => exact ⟨rfl, he⟩

theorem callNative_ends (hi : L.Sound i) (addr : UInt64) (result : TypeId) (assignable : Bool)
    (fixed : Nat) (args : List Variable) (m : Machine) :
    (i.callNative addr result assignable fixed args).Ends m
      (fun _ m' => L.wild (m.noted (.nativeCall addr)) m' ∧ m'.parked = none)
      (fun _ m' => L.wild (m.noted (.nativeCall addr)) m' ∧ (m'.parked = none ∨ m'.parked = m.parked)) := by
  refine ends_modify.mpr ?_
  change Ends (if assignable then _ else _) (m.noted (.nativeCall addr)) _ _
  generalize hn : m.noted (.nativeCall addr) = n
  have hp : n.parked = m.parked := hn ▸ rfl
  split
  · exact ⟨wild_calm (.refl n), .inr hp⟩
  refine (nativeArguments_smooth fixed args n).bind (fun args m₁ h₁ => ?_) (fun _ _ h => h.elim)
  refine (enterCode_wild hi _ _ _ m₁).bind (fun outcome m₂ h₂ => ?_) (fun _ _ h => h.elim)
  have h := L.wild_trans (L.wild_trans (wild_calm h₁) h₂) (L.wild_parked m₂ none)
  exact (nativeEnd_ends result outcome m₂).mono (fun _ _ e => e.1 ▸ ⟨h, rfl⟩) (fun _ _ e => e.1 ▸ ⟨h, .inl rfl⟩)

theorem callNative_calls (hi : L.Sound i) (addr : UInt64) (result : TypeId) (assignable : Bool)
    (fixed : Nat) (args : List Variable) : L.Calls (i.callNative addr result assignable fixed args) := by
  intro m
  refine (callNative_ends hi addr result assignable fixed args m).mono (fun _ _ h => ?_) (fun _ _ h => ?_)
  · exact L.calledNative h.1 (.inl h.2)
  · exact failed_kept (L.calledNative h.1 h.2)

theorem callFunction_calls (hi : L.Sound i) (f : Variable) (args : List Variable) :
    L.Calls (i.callFunction f args) := by
  refine .bind (calls_calm .get) fun m => .guarded (.guarded ?_)
  refine .bind (calls_calm (convertArguments_calm _ args)) fun converted => ?_
  refine .bind (calls_calm (bits_calm f)) fun addr => .guarded ?_
  refine .bind (calls_calm .get) fun m₁ => ?_
  dsimp only
  split
  · exact callNative_calls hi _ _ _ _ _
  · exact callScript_calls hi _ _

/-! ## New functions and allocations -/

/-- The new function is put into the table, and its address belongs to a level. -/
theorem ownFunction_ends {m m₁ : Machine} {found : Nat × UInt64} (f : ScriptFunction) (inner : Bool)
    (hm : 0 < m.scopes.depth) (hstub : newStub f.type m = .ok found m₁) (hf : f.stub = found.2) (hkey : f.Keyed)
    (hnew : ∀ key, f.key = some key → m.functions.cached? key = none) :
    ∀ m₂, m₁.Calm m₂ → Ends (do
      modify fun m =>
        let level := if inner then m.topLevel else 0
        let (owner, heap) := m.heap.track f.stub f.type level (.function found.1)
        { m with
          functions := m.functions.insert found.1 f
          heap
          scopes := m.scopes.addAlloc level owner
          journal := .placed m.heap.nextSeq level :: m.journal }
      return f.stub) m₂ (fun _ m' => L.during m.scopes.depth [] m m') (fun _ m' => L.failed m m') :=
  fun _ h₂ => L.during_kept (L.created f inner hstub h₂ hf hkey hnew hm)

/-- Nothing else is done between the search for an address and the entry into the table but copying. -/
theorem makeFunction_ends (chunk : Chunk) (entry len : Nat) (capture : Capture) (type : TypeId)
    (name : NameId) (inner : Bool)
    {m : Machine} (hm : 0 < m.scopes.depth)
    (hnew : capture = .nothing → m.functions.cached? (chunk.serial, entry) = none) :
    Ends (do
      let (id, stub) ← newStub type
      let visible := (← get).scopes.visibleFrom (← get).base
      let captured ← match capture with
        | .nothing => pure []
        | .shared => pure visible
        | .copyPerCall | .copyOnce => copyCaptured visible
      let f : ScriptFunction :=
        { name, file := (← get).frame.file, chunk, entry, len, capture, captured, type, stub,
          key := if capture = .nothing then some (chunk.serial, entry) else none }
      modify fun m =>
        let level := if inner then m.topLevel else 0
        let (owner, heap) := m.heap.track stub type level (.function id)
        { m with
          functions := m.functions.insert id f
          heap
          scopes := m.scopes.addAlloc level owner
          journal := .placed m.heap.nextSeq level :: m.journal }
      return stub) m (fun _ m' => L.during m.scopes.depth [] m m') (fun _ m' => L.failed m m') := by
  obtain ⟨found, m₁, hstub⟩ : ∃ found m₁, newStub type m = .ok found m₁ := ⟨_, _, rfl⟩
  refine (ends_bind_ok hstub).mpr (ends_get.mpr (ends_get.mpr ?_))
  dsimp only
  have hkey {key : Nat × Nat} (hk : (if capture = .nothing then some (chunk.serial, entry) else none) = some key) :
      capture = .nothing ∧ (chunk.serial, entry) = key := by
    rw [Option.ite_none_right_eq_some] at hk
    exact ⟨hk.1, Option.some.inj hk.2⟩
  have made (captured : List (NameId × Variable)) (m₂ : Machine) (h₂ : m₁.Calm m₂) :=
    ownFunction_ends (L := L) (m := m)
      { name, file := m₂.frame.file, chunk, entry, len, capture, captured, type, stub := found.2,
        key := if capture = .nothing then some (chunk.serial, entry) else none } inner hm hstub rfl
      (fun key hk => ⟨(hkey hk).2.symm, (hkey hk).1⟩) (fun key hk => (hkey hk).2 ▸ hnew (hkey hk).1) m₂ h₂
  cases capture with
  | nothing => exact made [] m₁ (.refl m₁)
  | shared => exact made _ m₁ (.refl m₁)
  | copyPerCall | copyOnce =>
    exact (copyCaptured_smooth _ m₁).bind (fun captured m₂ h₂ => made captured m₂ h₂) (fun _ _ h => h.elim)

theorem createFunction_obeys (chunk : Chunk) (entry len : Nat) (capture : Capture) (type : TypeId)
    (name : NameId) (inner : Bool) :
    L.Obeys (createFunction chunk entry len capture type name inner) := by
  refine .bind (obeys_calm (resolveType_calm type)) fun type => .bind (obeys_calm .get) fun m => .guarded ?_
  intro m hm
  refine ends_get.mpr ?_
  dsimp only
  split
  case h_1 => exact Obeys.pure _ m hm
  case h_2 hknown =>
    refine makeFunction_ends chunk entry len capture type name inner hm fun hc => ?_
    rwa [if_pos hc] at hknown

theorem allocate_obeys (size : UInt64) (type : TypeId) (inner : Bool) (cleanup : Cleanup) :
    L.Obeys (allocate size type inner cleanup) :=
  .guarded fun _ hm => L.during_kept (L.added size type inner cleanup hm)

theorem readFunction_follows (type : TypeId) (name : NameId) (inner : Bool) :
    L.Follows (readFunction type name inner) :=
  .bind (.next _) fun _ => .bind .reader fun _ => .bind (.next _) fun _ =>
    .lift (createFunction_obeys _ _ _ _ _ _ _)

theorem moveAllocation_ends (addr : UInt64) {level : Nat} {m : Machine} (hl : level < m.scopes.depth) :
    (moveAllocation addr level).Ends m (fun _ m' => L.kept m m') (fun _ _ => False) := by
  refine ends_modifyGet.mpr ?_
  dsimp only
  cases hf : m.heap.find? addr with
  | none => exact L.calm (.refl m)
  | some id => exact L.moved hf hl

/-! ## Operators -/

theorem parameters_follows (hi : L.Sound i) : ∀ n, L.Follows (i.parameters n)
  | 0 => .outOfFuel
  | n + 1 => by
    refine .bind hi.eval_follows fun v => ?_
    cases v with
    | none => exact .pure _
    | some v =>
      exact .bind (.calm (expectType_calm v)) fun _ => .bind .name? fun _ =>
        .bind (parameters_follows hi n) fun _ => .pure _

theorem indexPointer_follows (hi : L.Sound i) (v : Variable) : L.Follows (i.indexPointer v) := by
  refine .bind (value_follows hi) fun index => .bind (.calm (checkIndex_calm index)) fun _ =>
    .bind (.calm (bits_calm v)) fun addr => .guarded (.bind .machine fun m => ?_)
  exact .bind (.calm (bits_calm index)) fun _ => .calm (elementAt_calm _ _)

theorem indexStruct_follows (hi : L.Sound i) (v : Variable) : L.Follows (i.indexStruct v) := by
  refine .bind (value_follows hi) fun index => .bind (.calm (checkIndex_calm index)) fun _ =>
    .bind (.calm (bits_calm v)) fun addr => .guarded ?_
  exact .bind (.calm (bits_calm index)) fun _ => .bind (.calm (typeInfo_calm _)) fun _ => .pure _

theorem unary_follows (hi : L.Sound i) (op : Opcode) (action : Operator.Action) (v : Variable) :
    L.Follows (i.unary op action v) := by
  unfold unary
  split
  · exact .calm (step_calm op v)
  · exact .calm (addressOf_calm v)
  · exact .calm (dereference_calm v)
  · exact .calm (dereferenceType_calm v)
  · exact .calm (mapBits_calm _ v)
  · exact .bind (.calm (truthy_calm v)) fun _ => .calm (boolValue_calm _)
  · exact .calm (mapBits_calm _ v)
  · exact .bind (.calm (asType_calm v)) fun type => .bind (.calm (modifiedType_calm op type)) fun _ => .pure _
  · exact .bind (.calm (asType_calm v)) fun _ => .bind (.next _) fun _ =>
      .bind (parameters_follows hi _) fun _ =>
        .bind (.calm (withTypes_calm fun ts => ts.function_grows _ _ _)) fun _ => .pure _
  · exact indexPointer_follows hi v
  · exact indexStruct_follows hi v
  · exact .bind (values_follows hi _) fun args => .lift (hi.call v args).obeys
  · exact .calm (allocationInfo_calm op v)
  · exact .bind (.next _) fun name => .calm (member_calm v name)
  · exact .bind (.next _) fun name => .bind (.calm (asType_calm v)) fun type =>
      .calm (memberType_calm type name)
  · exact .raise _

theorem applyOperator_follows (hi : L.Sound i) (op : Opcode) (stack : List Variable) :
    L.Follows (i.applyOperator op stack) := by
  refine .bind .machine fun m => ?_
  split
  · exact .calm (mismatch_calm op stack)
  · refine .ite ?_ ?_
    · split
      · exact .ite (.bind (.calm (compound_calm (.inr rfl) _ _)) fun _ => .pure _)
          (.bind (.calm (binary_calm (.inr rfl) _ _)) fun _ => .pure _)
      · exact .raise _
    · split
      · exact .bind (unary_follows hi op _ _) fun _ => .pure _
      · exact .raise _

/-! ## Struct types -/

theorem inlineCount_follows (hi : L.Sound i) : L.Follows i.inlineCount := by
  refine .bind (.next _) fun _ => .ite (.pure _) (.bind (.next _) fun _ => .ite (.pure _) ?_)
  refine .bind (value_follows hi) fun count => .bind (.calm (kindOf_calm count)) fun _ => ?_
  exact .ite (.bind (.calm (bits_calm count)) fun _ => .pure _) (.raise _)

theorem fieldValue_follows (hi : L.Sound i) (type : TypeId) (name : Option NameId) :
    L.Follows (i.fieldValue type name) := by
  refine .bind (.next _) fun _ => .ite (.pure _) (.bind (.next _) fun _ => .ite ?_ ?_)
  · exact readFunction_follows _ _ _
  · refine .bind (value_follows hi) fun v => .bind .machine fun m => ?_
    split
    · exact .calm (bits_calm v)
    · exact .calm (bits_calm v)
    · exact .calm (castBits_calm type v)

theorem fieldPlace_follows (hi : L.Sound i) : L.Follows i.fieldPlace := by
  refine .bind (.next _) fun _ => .ite (.pure _) (.bind (.next _) fun _ => ?_)
  refine .bind (value_follows hi) fun offset => .bind (.calm (kindOf_calm offset)) fun _ => .guarded ?_
  exact .bind (.calm (bits_calm offset)) fun _ => .pure _

theorem field_follows (hi : L.Sound i) : L.Follows i.field :=
  .bind (inlineCount_follows hi) fun _ => .bind (type_follows hi) fun type => .bind .name? fun name =>
    .bind (fieldValue_follows hi type name) fun _ => .bind (fieldPlace_follows hi) fun _ => .pure _

theorem fields_follows (hi : L.Sound i) : ∀ n, L.Follows (i.fields n)
  | 0 => .outOfFuel
  | n + 1 => by
    refine .bind (.next _) fun _ => .ite (.pure _) (.bind .place fun place => ?_)
    refine .bind (.lift fun m _ => L.place m place.1 place.2) fun _ => ?_
    exact .bind (field_follows hi) fun _ => .bind (fields_follows hi n) fun _ => .pure _

theorem structType_follows (hi : L.Sound i) : L.Follows i.structType := by
  refine .bind (.next _) fun _ => .branch (.map _ (type_follows hi)) (.pure _) fun base => ?_
  refine .bind (fields_follows hi _) fun fields => .onMachine fun m r hm => ?_
  cases hs : m.types.struct fields base with
  | ok p => exact L.during_kept (calm ⟨⟨rfl, rfl, rfl, rfl, rfl⟩, rfl, rfl, rfl, m.types.struct_grows hs,
    rfl, rfl, .refl _ _, rfl⟩)
  | error e => exact Follows.raise (L := L) _ r m hm

theorem typeLiteral_follows (hi : L.Sound i) : L.Follows i.typeLiteral := by
  refine .bind (.next _) fun isConst => .bind (.next _) fun code => ?_
  have rest (type : TypeId) :
      L.Follows (if isConst then liftM (withTypes (·.constant type)) else pure type : Run TypeId) :=
    .ite (.calm (constant_calm type)) (.pure _)
  dsimp only
  split
  · exact .bind (.raise _) rest
  · exact .bind (structType_follows hi) rest
  · exact .bind (.next _) fun unsigned => .bind (.calm (primitiveType_calm _ unsigned)) rest

/-! ## Operands -/

theorem vararg_follows (hi : L.Sound i) : L.Follows i.vararg := by
  refine .bind (value_follows hi) fun index => .bind .machine fun m => ?_
  split
  · exact .raise _
  · refine .bind (.calm (checkIndex_calm index)) fun _ => .bind (.calm (bits_calm index)) fun bits =>
      .guarded ?_
    split
    · exact .pure _
    · exact .raise _

theorem sizeOf_follows (hi : L.Sound i) : L.Follows i.sizeOf := by
  have rest (type : TypeId) : L.Follows (do wordValue (← typeInfo type).size : Run Variable) :=
    .bind (.calm (typeInfo_calm type)) fun _ => .calm (wordValue_calm _)
  refine .bind (.next _) fun _ => .ite (.bind .machine fun m => ?_) ?_
  · split
    · exact .raise _
    · exact .calm (wordValue_calm _)
  · refine .bind (value_follows hi) fun v => .bind (.calm (kindOf_calm v)) fun _ => .ite ?_ ?_
    · exact .bind (.calm (asType_calm v)) fun _ => .bind (.calm (resolveType_calm _)) rest
    · exact .bind (.pure _) rest

theorem delete_follows (hi : L.Sound i) : L.Follows i.delete := by
  have rest (v : Variable) : L.Follows (do i.free (← bits v); return voidValue : Run Variable) :=
    .bind (.calm (bits_calm v)) fun addr => .bind (.lift (free_obeys hi addr)) fun _ => .pure _
  refine .bind (value_follows hi) fun v => .bind (.calm (kindOf_calm v)) fun _ => ?_
  split
  · exact rest v
  · exact rest v
  · exact rest v
  · exact .raise _

theorem move_follows (hi : L.Sound i) : L.Follows i.move := by
  refine .bind (value_follows hi) fun v => .bind (value_follows hi) fun level =>
    .bind (.calm (kindOf_calm level)) fun _ => .guarded (.onMachine fun m r hm => ?_)
  rw [Run.lift_bind]
  refine (@bits_calm true level m).bind (fun n m₁ h₁ => ?_) (fun _ _ h => failed_kept (calm h.1))
  rw [Run.lift_bind]
  refine (@bits_calm true v m₁).bind (fun addr m₂ h₂ => ?_) (fun _ _ h => failed_kept (calm (h₁.trans h.1)))
  have hs := h₁.trans h₂
  have hl : clampLevel m.scopes.depth n < m₂.scopes.depth := by
    rw [hs.depth, clampLevel]
    omega
  rw [Run.lift_bind]
  refine (moveAllocation_ends (L := L) addr hl).bind (fun _ m₃ h₃ => ?_) (fun _ _ h => h.elim)
  exact L.during_kept (L.kept_trans (calm hs) h₃)

theorem ternary_follows (hi : L.Sound i) : L.Follows i.ternary := by
  refine .bind (value_follows hi) fun v => .bind (.calm (truthy_calm v)) fun truth =>
    .bind (.next _) fun yes => .bind (.next _) fun no => ?_
  exact .lift ((value_follows hi).run' _)

theorem includeFile_follows (hi : L.Sound i) : L.Follows i.includeFile :=
  .bind (.next _) fun name => .bind (.calm (nameText_calm name)) fun text =>
    .bind (.calm (loadSource_calm text)) fun _ => .bind (.lift (hi.source _ _)) fun _ =>
      .calm resultValue_calm

/-! ## Declarations -/

theorem bindGenerics_follows (hi : L.Sound i) : ∀ n, L.Follows (i.bindGenerics n)
  | 0 => .outOfFuel
  | n + 1 => by
    have rest (name : NameId) (v : Variable) : L.Follows (do
        declareNew name (← fresh v.type (← bits v))
        i.bindGenerics n : Run Unit) :=
      .bind (.calm (bits_calm v)) fun _ => .bind (.calm (fresh_calm _ _)) fun _ =>
        .bind (.calm (declareNew_calm _ _)) fun _ => bindGenerics_follows hi n
    refine .bind (.next _) fun _ => .ite (.bind (.next _) fun name => ?_) (.pure _)
    refine .bind (value_follows hi) fun v => .bind (.calm (kindOf_calm v)) fun _ => .ite ?_ (rest name v)
    exact .bind (.calm (nameText_calm name)) fun _ => .bind (.raise _) fun _ => rest name v

theorem declaredType_follows (hi : L.Sound i) (type : TypeId) : L.Follows (i.declaredType type) := by
  intro r m hm
  have hd := m.depth_deeper
  have inside : L.Follows (do i.bindGenerics i.fuel; resolveType type : Run TypeId) :=
    .bind (bindGenerics_follows hi _) fun _ => .calm (resolveType_calm type)
  refine ends_bind.mpr (show Ends _ m.deeper _ _ from ends_bind.mpr (ends_attempt.mpr ?_))
  refine (inside r m.deeper (by omega)).mono (fun p m₁ h₁ => ?_) (fun e m₁ h₁ => ?_)
  · have hm₁ := L.failed_depth (L.failed_during h₁) (by omega)
    refine (closeLevel_closes hi m₁ hm₁).bind (fun _ m₂ h₂ => ?_) (fun _ _ h => h.elim)
    rw [hd] at h₁
    exact L.opened (L.closed h₁ h₂)
  · have hm₁ := L.failed_depth h₁ (by omega)
    refine (closeLevel_closes hi m₁ hm₁).bind (fun _ m₂ h₂ => ?_) (fun _ _ h => h.elim)
    exact L.closed_failed h₁ h₂

theorem declaration_follows (hi : L.Sound i) (type : Option Variable) : L.Follows (i.declaration type) := by
  refine .bind (.next _) fun external => .bind (.next _) fun name => ?_
  -- the body of a function comes last
  have code (v : Variable) (type : TypeId) (kind : Kind) : L.Follows (do
      declareNew name v
      if ← Run.bool then
        if kind ≠ .function then raise .codeOnNonFunction
        store v (← readFunction type name true)
      return { v with origin := some { name } } : Run Variable) := by
    refine .bind (.calm (declareNew_calm name v)) fun _ => .bind (.next _) fun _ =>
      .ite (.guarded ?_) (.pure _)
    exact .bind (readFunction_follows _ _ _) fun _ => .bind (.calm (store_calm v _)) fun _ => .pure _
  cases type
  all_goals refine .bind ?_ fun declared => ?_
  case none.refine_1 => exact .raise _
  case some.refine_1 v => exact .calm (expectType_calm v)
  all_goals
    refine .branch (.map some (.calm (symbolAddress_calm name))) (.pure none) fun symbol => ?_
    refine .bind (declaredType_follows hi declared) fun type => .bind .machine fun m => ?_
    cases symbol with
    | none => exact .bind (.calm (fresh_calm _ _)) fun v => code v type _
    | some addr => exact .branch (.calm (fresh_calm _ _)) (.pure _) fun v => code v type _

/-! ## Allocations -/

theorem elements_follows (hi : L.Sound i) (type : TypeId) (addr stride count : UInt64) :
    ∀ n index, L.Follows (i.elements type addr stride count n index)
  | 0, _ => .outOfFuel
  | n + 1, index => by
    have rest := elements_follows hi type addr stride count n (index + 1)
    refine .bind hi.eval_follows fun v => ?_
    cases v with
    | none => exact .pure _
    | some v =>
      refine .ite (.bind (.calm (typeInfo_calm type)) fun t => .ite ?_ ?_) rest
      · exact .bind (.calm (bits_calm v)) fun _ => .bind (.calm (copyStruct_calm _ _ _)) fun _ => rest
      · exact .bind (.calm (castBits_calm type v)) fun _ => .bind (.calm (poke_calm _ _ _)) fun _ => rest

theorem newArray_follows (hi : L.Sound i) (type : TypeId) (inner : Bool) :
    L.Follows (i.newArray type inner) := by
  refine .bind (value_follows hi) fun count => .bind (.calm (kindOf_calm count)) fun _ => .guarded ?_
  refine .bind (.calm (bits_calm count)) fun _ => .bind (.calm (typeInfo_calm type)) fun t =>
    .guarded ?_
  exact .bind (.lift (allocate_obeys _ _ _ _)) fun addr =>
    .bind (elements_follows hi _ _ _ _ _ _) fun _ => .pure _

theorem overrides_follows (hi : L.Sound i) (type : TypeId) (addr : UInt64) :
    ∀ n, L.Follows (i.overrides type addr n)
  | 0 => .outOfFuel
  | n + 1 => by
    refine .bind (.next _) fun _ => .ite (.bind (.next _) fun name => ?_) (.pure _)
    exact .bind (value_follows hi) fun v => .bind (.calm (overrideField_calm type addr name v)) fun _ =>
      overrides_follows hi type addr n

theorem newStruct_obeys (type : TypeId) (inner : Bool) : L.Obeys (newStruct type inner) :=
  .bind (obeys_calm (typeInfo_calm type)) fun _ => .bind (allocate_obeys _ _ _ _) fun addr =>
    .bind (obeys_calm (initStruct_calm type addr)) fun _ => .pure _

theorem newAddress_follows (hi : L.Sound i) (type : TypeId) (inner : Bool) :
    ∀ form, L.Follows (i.newAddress type inner form)
  | .bare => by
    refine .bind (.calm (typeInfo_calm type)) fun t => ?_
    split
    · exact .raise _
    · exact .lift (newStruct_obeys type inner)
    · exact .lift (allocate_obeys _ _ _ _)
  | .scalar => by
    refine .bind (value_follows hi) fun v => .bind (.calm (typeInfo_calm type)) fun t => ?_
    split
    · exact .raise _
    · exact .bind (.lift (allocate_obeys _ _ _ _)) fun _ => .bind (.calm (bits_calm v)) fun _ =>
        .bind (.calm (copyStruct_calm _ _ _)) fun _ => .pure _
    · exact .bind (.lift (allocate_obeys _ _ _ _)) fun _ => .bind (.calm (castBits_calm type v)) fun _ =>
        .bind (.calm (poke_calm _ _ _)) fun _ => .pure _
  | .array => newArray_follows hi type inner
  | .function =>
    .bind (.calm (typeInfo_calm type)) fun _ => .guarded (readFunction_follows _ _ _)
  | .struct =>
    .bind (.calm (typeInfo_calm type)) fun _ => .guarded (.bind (.lift (newStruct_obeys type inner)) fun addr =>
      .bind (overrides_follows hi type addr _) fun _ =>
        .bind (.lift (callMethod_calls hi type addr _).obeys) fun _ => .pure _)

theorem newValue_follows (hi : L.Sound i) : L.Follows i.newValue := by
  refine .bind (.next _) fun inner => .bind (type_follows hi) fun type =>
    .bind (.calm (resolveType_calm type)) fun type => .bind (.next _) fun form =>
      .bind (.calm (typeInfo_calm type)) fun t => ?_
  have rest (result : TypeId) : L.Follows (do return Variable.value result (← i.newAddress type inner form)) :=
    .bind (newAddress_follows hi type inner form) fun _ => .pure _
  split
  · exact .bind (.pure _) rest
  · exact .bind (.pure _) rest
  · exact .bind (.calm (pointer_calm _)) rest

/-! ## Nodes -/

theorem operand_follows (hi : L.Sound i) (op : Opcode) : L.Follows (i.operand op) := by
  unfold operand
  split
  · exact .bind (.next _) fun n => .bind (.calm (literalType_calm n)) fun _ => .pure _
  · exact .bind (.next _) fun _ => .pure _
  · exact .bind (.next _) fun name => .calm (textValue_calm name)
  · exact .bind (typeLiteral_follows hi) fun _ => .pure _
  · exact .bind (.next _) fun b => .calm (boolValue_calm b)
  · exact .bind (.calm (pointer_calm _)) fun _ => .pure _
  · exact .bind (.next _) fun name => .calm (load_calm name)
  · exact value_follows hi
  · exact .bind (.next _) fun name =>
      .bind (.calm (withTypes_calm fun ts => ts.deferred_grows name)) fun _ => .pure _
  · exact vararg_follows hi
  · exact sizeOf_follows hi
  · exact .bind (value_follows hi) fun _ => .pure _
  · exact .bind .name? fun name => .calm (scopeOf_calm name)
  · exact newValue_follows hi
  · exact delete_follows hi
  · exact move_follows hi
  · exact ternary_follows hi
  · exact includeFile_follows hi
  · exact .raise _

theorem node_follows (hi : L.Sound i) (op : Opcode) (stack : List Variable) :
    L.Follows (i.node op stack) := by
  refine .ite (applyOperator_follows hi op stack) (.ite ?_ ?_)
  · exact .bind (declaration_follows hi _) fun _ => .pure _
  · exact .bind (operand_follows hi op) fun _ => .pure _

theorem nodes_restores (hi : L.Sound i) : ∀ n stack, L.Restores (i.nodes n stack)
  | 0, _ => .outOfFuel
  | n + 1, stack => by
    refine .bind (.reads (.next _)) fun op => .ite (.reads (.pure _)) (.bind (.reads .place) fun place => ?_)
    refine .bind (.atPlace (.bind (node_follows hi op stack) fun stack => ?_) _ _) fun stack =>
      nodes_restores hi n stack
    refine .bind (.calm checkFault_calm) fun _ => .bind .machine fun m => .guarded (.pure _)

theorem expression_restores (hi : L.Sound i) : L.Restores i.expression := nodes_restores hi _ _

/-! ## Commands -/

theorem ifElse_follows (hi : L.Sound i) : L.Follows i.ifElse := by
  have block (r : Reader) : L.Follows (liftM (i.levelBlock r) : Run Variable) :=
    .lift (levelBlock_obeys hi (block_obeys hi r))
  refine .bind (value_follows hi) fun v => .bind (.calm (truthy_calm v)) fun truth =>
    .bind (.next _) fun yes => .bind (.next _) fun more => ?_
  refine .branch (.map some (.next _)) (.pure _) fun no => .ite (block yes) ?_
  cases no with
  | some no => exact block no
  | none => exact .pure _

theorem setControl_obeys (c : Control) : L.Obeys (setControl c) :=
  fun m _ => L.during_kept (L.control m c)

theorem loopControl_obeys : L.Obeys loopControl := by
  refine .bind (obeys_calm .get) fun m => ?_
  split
  · exact .pure _
  · exact .bind (setControl_obeys _) fun _ => .pure _
  · exact .bind (setControl_obeys _) fun _ => .pure _
  · exact .pure _

theorem whileFrom_follows (hi : L.Sound i) (start : Nat) : ∀ n last, L.Follows (i.whileFrom start n last)
  | 0, _ => .outOfFuel
  | n + 1, last => by
    refine .bind (fun _ => .pure _) fun _ => .bind (value_follows hi) fun v =>
      .bind (.calm (truthy_calm v)) fun _ => .bind (.next _) fun body => .ite (.pure _) ?_
    refine .bind (.lift (levelBlock_obeys hi (block_obeys hi body))) fun last =>
      .bind (.lift loopControl_obeys) fun _ => ?_
    exact .ite (whileFrom_follows hi start n last) (.pure _)

theorem nextRound_within (hi : L.Sound i) (l : LoopRange) (type : TypeId) (name : NameId) (step x : UInt64)
    (last : Variable) {again : UInt64 → Exec Variable} (ha : ∀ next, L.Obeys (again next)) :
    L.Within (i.nextRound l type name step x last again) := by
  have goOn (x : UInt64) : L.Within (do
      let next := extend (← typeInfo type) (x + step)
      i.closeLevel
      if l.advances x next then again next else return last) :=
    .bind (obeys_calm (typeInfo_calm type)) fun _ => .closed hi (.ite (ha _) (.pure _))
  refine .bind (obeys_calm .get) fun m => ?_
  cases m.scopes.lookup name m.base with
  | some v => exact .bind (obeys_calm (bits_calm v)) goOn
  | none => exact .bind (.pure _) goOn

theorem forRounds_obeys (hi : L.Sound i) (l : LoopRange) (type : TypeId) (name : NameId) (step : UInt64)
    (body : Reader) : ∀ n x last, L.Obeys (i.forRounds l type name step body n x last)
  | 0, _, _ => obeys_calm .outOfFuel
  | n + 1, x, last => by
    refine .ite (.pure _) (Within.opened ?_)
    refine .bind (obeys_calm (fresh_calm type x)) fun v => .bind (obeys_calm (.discard (declare_calm name v)))
      fun _ => .bind (block_obeys hi body) fun last => .bind loopControl_obeys fun _ =>
        .ite ?_ (.closed hi (.pure _))
    exact nextRound_within hi l type name step x last fun next =>
      forRounds_obeys hi l type name step body n next last

theorem forLoop_follows (hi : L.Sound i) : L.Follows i.forLoop := by
  refine .bind (type_follows hi) fun type => .bind (.calm (resolveType_calm type)) fun type =>
    .bind (.calm (typeInfo_calm type)) fun t => .guarded (.bind (.next _) fun name => ?_)
  refine .bind (value_follows hi) fun low => .bind (.calm (castBits_calm type low)) fun low =>
    .bind (.next _) fun lowExcluded => ?_
  refine .bind (value_follows hi) fun high => .bind (.calm (castBits_calm type high)) fun high =>
    .bind (.next _) fun highExcluded => .bind (.next _) fun stepped => .ite ?_ ?_
  · exact .bind (value_follows hi) fun step => .bind (.calm (castBits_calm _ step)) fun step =>
      .bind (.next _) fun body => .lift (forRounds_obeys hi _ _ _ _ _ _ _ _)
  · exact .bind (.pure _) fun step => .bind (.next _) fun body => .lift (forRounds_obeys hi _ _ _ _ _ _ _ _)

theorem handle_obeys (hi : L.Sound i) (e : RunError) (handler : Option Interp.Handler) :
    L.Obeys (i.handle e handler) := by
  refine .bind (obeys_calm .get) fun m => ?_
  cases handler with
  | none => exact .ite (.bind (obeys_calm (logError_calm e)) fun _ => .pure _) (.pure _)
  | some h =>
    have run : L.Within (do let v ← i.block h.body; i.closeLevel; return v) :=
      .bind (block_obeys hi h.body) fun _ => .closed hi (.pure _)
    refine .ite (.bind (obeys_calm (logError_calm e)) fun _ => Within.opened ?_) (Within.opened ?_)
    all_goals
      cases h.bound with
      | none => exact run
      | some name =>
        exact .bind (obeys_calm (caughtValue_calm e)) fun v =>
          .bind (obeys_calm (.discard (declare_calm name v))) fun _ => run

theorem handler?_reads : Run.Reads handler? :=
  .bind (.next _) fun _ => .ite (.pure _) (.bind (.next _) fun _ => .bind .name? fun _ =>
    .bind (.next _) fun _ => .pure _)

theorem tryCatch_follows (hi : L.Sound i) : L.Follows i.tryCatch := by
  refine .onMachine fun m r hm => ?_
  obtain ⟨p, hp⟩ := handler?_reads r.enter.2
  show Ends ((handler? r.enter.2 : Exec _) >>= fun p => _) m _ _
  rw [hp, pure_bind]
  show Ends (((liftM (attempt (i.levelBlock r.enter.1)) : Run _) >>= _) p.2) m _ _
  rw [Run.lift_bind]
  refine ends_bind.mpr (ends_attempt.mpr ?_)
  refine (levelBlock_obeys hi (block_obeys hi _) m hm).mono (fun _ _ h => h) (fun e m₁ h₁ => ?_)
  dsimp only
  rw [Run.lift_bind]
  refine (unwindWith_ends (closeLevel_closes hi) (refl m) h₁).bind (fun _ m₂ h₂ => ?_) (fun _ _ h => h.elim)
  have rest := Follows.bind (.lift (setControl_obeys .running)) fun _ => .lift (handle_obeys hi e p.1)
  have hf := L.failed_during h₂
  refine (rest p.2 m₂ (L.failed_depth hf hm)).mono (fun _ _ h => ?_) (fun _ _ h => ?_)
  · exact L.during_step h₂ h
  · exact L.failed_trans hf h

theorem throwValue_follows (hi : L.Sound i) : L.Follows i.throwValue := by
  refine .bind (value_follows hi) fun v => .bind (.next _) fun texted => ?_
  have rest (text : String) : L.Follows (do
      let frames := (← getThe Machine).trace
      throw (.raised ⟨.thrown (← toValue v) text, frames⟩) : Run Variable) :=
    .bind .machine fun m => .bind (.calm (toValue_calm v)) fun v => fun _ => obeys_calm (.throw nofun)
  refine .ite ?_ (.bind (.calm (renderVariable_calm _ v)) rest)
  exact .bind (.next _) fun name => .bind (.calm (nameText_calm name)) rest

theorem returnValue_follows (hi : L.Sound i) : L.Follows i.returnValue := by
  have rest (v : Variable) : L.Follows (do setControl (.returning v); return v : Run Variable) :=
    .bind (.lift (setControl_obeys _)) fun _ => .pure _
  exact .bind (.next _) fun _ => .ite (.bind (value_follows hi) rest) (.bind (.pure _) rest)

theorem body_follows (hi : L.Sound i) (op : Opcode) : L.Follows (i.body op) := by
  unfold body
  split
  · exact ifElse_follows hi
  · exact .bind .reader fun r => whileFrom_follows hi r.pos _ _
  · exact forLoop_follows hi
  · exact returnValue_follows hi
  · exact .bind (.lift (setControl_obeys _)) fun _ => .pure _
  · exact .bind (.lift (setControl_obeys _)) fun _ => .pure _
  · exact tryCatch_follows hi
  · exact throwValue_follows hi
  · exact .bind (.next _) fun r => .lift (levelBlock_obeys hi (block_obeys hi r))
  · exact .bind hi.eval_follows fun _ => .pure _
  · exact .raise _

theorem oneCommand_restores (hi : L.Sound i) : L.Restores i.oneCommand := by
  refine .bind (.reads (.next _)) fun op => .ite (.reads (.pure _)) ?_
  refine .bind (.reads .place) fun place => .atPlace ?_ _ _
  exact .bind (body_follows hi op) fun v => .bind (.calm checkFault_calm) fun _ => .pure _

/-! ## Texts -/

def Stops (L : Law) (m : Machine) : Variable × Option RunError → Machine → Prop
  | (_, none), m' => L.during m.scopes.depth [] m m'
  | (_, some _), m' => L.failed m m'

theorem Stops.after {m m₁ m' : Machine} (h : L.during m.scopes.depth [] m m₁) :
    ∀ {p}, L.Stops m₁ p m' → L.Stops m p m'
  | (_, none), h' => L.during_step h h'
  | (_, some _), h' => L.failed_trans (L.failed_during h) h'

theorem topCommands_ends (hi : L.Sound i) : ∀ n r last m, 0 < m.scopes.depth →
    (i.topCommands n r last).Ends m (L.Stops m) (fun _ _ => False)
  | 0, _, _, _, _ => trivial
  | n + 1, r, last, m, hm => by
    rw [topCommands]
    split
    · exact refl m
    refine ends_bind.mpr (ends_attempt.mpr ?_)
    refine (hi.command r m hm).mono (fun p m₁ h₁ => ?_) (fun _ _ h => h)
    have h := L.during_kept h₁
    obtain ⟨v, r⟩ := p
    cases v with
    | none => exact h
    | some v =>
      refine ends_get.mpr ?_
      cases m₁.control with
      | running =>
        have hm₁ := L.failed_depth (failed_kept h₁) hm
        exact (topCommands_ends hi n r v m₁ hm₁).mono (fun _ _ => Stops.after h) (fun _ _ => id)
      | returning v => exact h
      | continuing => exact L.failed_during h
      | breaking => exact L.failed_during h

theorem withFile_self (m : Machine) : m.withFile (m.frames.size - 1) m.frame.file = m := by
  have h : m.frames.modify (m.frames.size - 1) ({ · with file := m.frame.file }) = m.frames := by
    apply Array.ext_getElem?
    intro k
    rw [Array.getElem?_modify]
    split
    case isTrue hk =>
      rw [← hk, ← Array.back?_eq_getElem?, Machine.frame]
      cases m.frames.back? <;> rfl
    case isFalse => rfl
  rw [Machine.withFile, h]

theorem withFile_calm {m m' : Machine} (h : m.Calm m') (index : Nat) (file : NameId) :
    (m.withFile index file).Calm (m'.withFile index file) :=
  ⟨⟨h.heap, h.owned, by rw [Machine.withFile, Machine.withFile, h.frames], h.control, h.journal⟩, h.functions,
    h.sources, h.parked, h.types, h.code, h.stub, h.declares, h.settings⟩

/-- A text is run in the file it names; one that is not well formed is not run. -/
theorem topLevel_ends (hi : L.Sound i) (source file : String) (m : Machine) (hm : 0 < m.scopes.depth) :
    (i.topLevel source file).Ends m
      (fun p m' => ∃ file, L.Stops (m.withFile (m.frames.size - 1) file) p m') (fun _ _ => False) := by
  obtain ⟨r, m₁, hr, hs⟩ : ∃ r m₁, compileSource source file m = .ok r m₁ ∧ m.Calm m₁ :=
    ⟨_, _, rfl, @compileSource_calm true source file m⟩
  refine (ends_bind_ok hr).mpr ?_
  cases r with
  | error e =>
    refine ⟨m.frame.file, ?_⟩
    rw [withFile_self]
    exact failed_kept (calm hs)
  | ok chunk =>
    refine ends_bind.mpr (ends_bind.mpr ?_)
    show Ends (i.topCommands i.fuel (Reader.ofChunk chunk).name.2 voidValue)
      (m₁.withFile (m₁.frames.size - 1) (Reader.ofChunk chunk).name.1) _ _
    have hf := withFile_calm hs (m.frames.size - 1) (Reader.ofChunk chunk).name.1
    rw [hs.frames]
    refine (topCommands_ends hi _ _ _ _ (by exact hs.depth ▸ hm)).mono
      (fun p m' h => ⟨(Reader.ofChunk chunk).name.1, ?_⟩) (fun _ _ => id)
    exact Stops.after (L.during_kept (calm hf)) h

theorem runSource_obeys (hi : L.Sound i) (source file : String) : L.Obeys (i.runSource source file) := by
  intro m hm
  refine ends_bind.mpr (ends_bind.mpr ?_)
  refine (topLevel_ends hi source file m hm).bind (fun p m₁ h₁ => ?_) (fun _ _ h => h.elim)
  obtain ⟨file, h₁⟩ := h₁
  obtain ⟨last, error⟩ := p
  -- at the end the result is kept, and the file is the old one again
  have finish (error : Option RunError) (value : UInt64) (m₂ : Machine)
      (h₂ : L.Stops (m.withFile (m.frames.size - 1) file) (last, error) m₂) : Ends (do
        keepResult last.type value
        setFile (m.frames.size - 1) m.frame.file
        match error with
        | some e => throw (.raised e)
        | none => return) m₂ (fun _ m' => L.during m.scopes.depth [] m m') (fun _ m' => L.failed m m') := by
    refine (keepResult_smooth last.type value m₂).bind (fun _ m₃ h₃ => ends_bind.mpr ?_) (fun _ _ h => h.elim)
    cases error with
    | none => exact L.filed (during_calm h₂ h₃)
    | some e => exact L.filed_failed (failed_calm h₂ h₃)
  refine ends_bind.mpr (show Ends _ { m₁ with control := .running } _ _ from ?_)
  have hc := L.control m₁ .running
  generalize { m₁ with control := Control.running } = m₂ at hc
  refine (bits_smooth last m₂).bind (fun value m₃ h₃ => ?_) (fun _ _ h => h.elim)
  have h := L.kept_trans hc (calm h₃)
  cases error with
  | some e => exact finish (some e) value m₃ (L.failed_trans h₁ (failed_kept h))
  | none =>
    have h₃ : L.during _ [] _ m₃ := L.during_step h₁ (L.during_kept h)
    refine ends_bind.mpr (ends_attempt.mpr ?_)
    refine (@checkFault_calm true m₃).mono (fun _ m₄ h₄ => ?_) (fun e m₄ h₄ => ?_)
    · exact finish none value m₄ (during_calm h₃ h₄)
    · exact finish (some e) value m₄ (L.failed_during (during_calm h₃ h₄.1))

theorem runFile_obeys (hi : L.Sound i) (path : String) : L.Obeys (i.runFile path) :=
  .bind (obeys_calm (loadSource_calm path)) fun _ => runSource_obeys hi _ _

/-! ## The whole interpreter -/

theorem sound_ofFuel (L : Law) : ∀ n, L.Sound (ofFuel n)
  | 0 =>
    { eval := fun _ => (calls_calm .outOfFuel).keeps
      command := fun _ => (calls_calm .outOfFuel).keeps
      call := fun _ _ => calls_calm .outOfFuel
      source := fun _ _ => obeys_calm .outOfFuel }
  | n + 1 =>
    { eval := expression_restores (sound_ofFuel L n)
      command := oneCommand_restores (sound_ofFuel L n)
      call := callFunction_calls (sound_ofFuel L n)
      source := runSource_obeys (sound_ofFuel L n) }

end

end Law

end LevelScript
