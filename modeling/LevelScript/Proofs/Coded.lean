import LevelScript.Proofs.Functions
import LevelScript.Proofs.Interpreter
import LevelScript.Proofs.Reading
import LevelScript.Proofs.WellFormed

/-!
# Machines that hold compiled code

All that a machine can come to run is compiled: the bodies of its functions are blocks of well-formed
commands, and so will be the texts it can include. What runs on such a machine leaves it so, and ends with
no error that tells of bytes which are no code.
-/

namespace LevelScript

/-- A text whose code is shorter than a length field can tell. -/
def ShortCode (source : String) : Prop :=
  ∀ file names bytes names', compile source file names = .ok (bytes, names') → bytes.size < UInt32.size

/-- A reader at code that can be followed. -/
structure Reader.Holds (r : Reader) (code : Bytecode) : Prop where
  short : r.chunk.bytes.size < UInt32.size
  code : code.bytes <+: r.rest

def Chunk.HoldsBody (chunk : Chunk) (entry len : Nat) : Prop :=
  ∃ names, ∃ body : Block, body.WellFormed ∧ chunk.bytes.size < UInt32.size ∧
    (body.content names).size = len ∧ (Reader.slice chunk entry len).rest = (body.content names).bytes

/-- All functions are compiled, also those in texts that can still be included, and the error that
waits is not one of bytes which are no code. -/
structure Machine.Coded (m : Machine) : Prop where
  functions : ∀ id f, m.functions.get? id = some f → f.chunk.HoldsBody f.entry f.len
  sources : ∀ path source, m.sources path = some source → ShortCode source
  parked : ∀ e, m.parked = some e → e.cause.isInternal = false

structure Machine.SameCode (m m' : Machine) : Prop where
  functions : m'.functions = m.functions
  sources : m'.sources = m.sources
  parked : m'.parked = m.parked

theorem Machine.Calm.sameCode {m m' : Machine} (h : m.Calm m') : m.SameCode m' :=
  ⟨h.functions, h.sources, h.parked⟩

theorem Machine.Coded.same {m m' : Machine} (hm : m.Coded) (h : m.SameCode m') : m'.Coded :=
  ⟨h.functions ▸ hm.functions, h.sources ▸ hm.sources, h.parked ▸ hm.parked⟩

namespace Exec

/-- Keeps the machine coded, and ends with no error that tells of bytes which are no code. -/
def Tame (x : Exec α) : Prop :=
  ∀ m : Machine, m.Coded → x.Ends m (fun _ m' => m'.Coded) (fun e m' => m'.Coded ∧ e.cause.isInternal = false)

namespace Tame

variable {α β : Type}

theorem calm {x : Exec α} (h : Calm false x) : Tame x := fun m hm =>
  (h m).mono (fun _ _ h => hm.same h.sameCode)
    (fun _ _ h => ⟨hm.same h.1.sameCode, Bool.eq_false_iff.mpr fun hi => nomatch h.2 hi⟩)

protected theorem pure (a : α) : Tame (pure a) := fun _ hm => hm

protected theorem bind {x : Exec α} {f : α → Exec β} (hx : Tame x) (hf : ∀ a, Tame (f a)) : Tame (x >>= f) :=
  fun m hm => (hx m hm).bind (fun a m₁ h₁ => hf a m₁ h₁) (fun _ _ h => h)

theorem onMachine {f : Machine → Exec α} (hf : ∀ m, m.Coded → Tame (f m)) : Tame (get >>= f) :=
  fun m hm => hf m hm m hm

theorem outOfFuel : Tame (Exec.outOfFuel : Exec α) := fun _ _ => trivial

theorem raise {c : Cause} (hc : c.isInternal = false) : Tame (Exec.raise c : Exec α) := calm (.raise c hc)

theorem throw {e : RunError} (he : e.cause.isInternal = false) : Tame (throw (.raised e) : Exec α) :=
  fun _ hm => ⟨hm, he⟩

protected theorem modify {f : Machine → Machine} (hf : ∀ m : Machine, m.SameCode (f m)) : Tame (modify f) :=
  fun m hm => hm.same (hf m)

protected theorem modifyGet {f : Machine → α × Machine} (hf : ∀ m : Machine, m.SameCode (f m).2) :
    Tame (modifyGet f) := fun m hm => hm.same (hf m)

protected theorem ite {c : Prop} [Decidable c] {x y : Exec α} (hx : Tame x) (hy : Tame y) :
    Tame (if c then x else y) := by
  split
  · exact hx
  · exact hy

theorem guarded {c : Prop} [Decidable c] {e : Cause} {x : Exec α} (he : e.isInternal = false) (hx : Tame x) :
    Tame (if c then (Exec.raise e : Exec PUnit) >>= fun _ => x else x) :=
  .ite (.bind (.raise he) fun _ => hx) hx

protected theorem discard {x : Exec α} (hx : Tame x) : Tame (discard x) := hx.bind fun _ => .pure _

theorem caught {x : Exec α} {f : Except RunError α → Exec β} (hx : Tame x) (hok : ∀ a, Tame (f (.ok a)))
    (herr : ∀ e : RunError, e.cause.isInternal = false → Tame (f (.error e))) : Tame (attempt x >>= f) := by
  intro m hm
  refine ends_bind.mpr (ends_attempt.mpr ((hx m hm).mono (fun a m₁ h₁ => ?_) (fun e m₁ h₁ => ?_)))
  · exact hok a m₁ h₁
  · exact herr e h₁.2 m₁ h₁.1

end Tame

end Exec

open Exec

/-- At the code, the computation consumes exactly it and gives a value with the property. -/
def Parses (x : Run α) (code : Bytecode) (Q : α → Prop) : Prop :=
  ∀ r : Reader, r.Holds code → ∀ m : Machine, m.Coded →
    (x r).Ends m (fun p m' => Q p.1 ∧ p.2 = r.advance code.bytes.length ∧ m'.Coded)
      (fun e m' => m'.Coded ∧ e.cause.isInternal = false)

namespace Interp

/-- On compiled code, expressions and commands consume just their own and have values, an end mark alone
has none, and calls and texts keep to such code. -/
structure InStep (i : Interp) : Prop where
  eval (names : Names) (x : Expr) : x.WellFormed → Parses i.eval (x.encode names) (fun v => v.isSome = true)
  evalEnd : Parses i.eval .endMark (fun v => v = none)
  command (names : Names) (c : Command) : c.WellFormed →
      Parses i.command (c.encode names) (fun v => v.isSome = true)
  commandEnd : Parses i.command .endMark (fun v => v = none)
  call (f : Variable) (args : List Variable) : Tame (i.call f args)
  source (text file : String) : ShortCode text → Tame (i.source text file)

end Interp

theorem Reader.Holds.left {r : Reader} {a b : Bytecode} (h : r.Holds (a ++ b)) : r.Holds a :=
  ⟨h.short, sees_left h.code⟩

theorem Reader.Holds.right {r : Reader} {a b : Bytecode} (h : r.Holds (a ++ b)) :
    (r.advance a.bytes.length).Holds b :=
  ⟨h.short, sees_right h.code⟩

theorem Reader.Holds.block_lt {r : Reader} {content : Bytecode} (h : r.Holds content.block) :
    content.bytes.length < UInt32.size := by
  have hends := (block_ends h.code).2
  have hshort := h.short
  omega

theorem Reader.Holds.inner {r : Reader} {content : Bytecode} (h : r.Holds content.block) :
    ((r.advance 4).part content.bytes.length).Holds content :=
  ⟨h.short, [], by rw [List.append_nil, rest_part (block_content h.code)]⟩

/-- Where the commands of a block stop: behind the end mark or, if the control leaves the block, behind one
of the commands. -/
def StopsIn (names : Names) (commands : List Command) (r r' : Reader) (m' : Machine) : Prop :=
  r' = r.advance (encodeCommands names commands ++ .endMark).size ∨
    m'.control.isRunning = false ∧
      ∃ done left, commands = done ++ left ∧ r' = r.advance (encodeCommands names done).size

namespace Interp

variable {i : Interp}

section
variable (hi : i.InStep)
include hi

/-! ## Blocks -/

theorem commands_ends (names : Names) :
    ∀ (n : Nat) (cs : List Command) (last : Variable) (r : Reader) (m : Machine),
    CommandsWellFormed cs → r.Holds (encodeCommands names cs ++ .endMark) → m.Coded →
    (i.commands last n r).Ends m (fun p m' => m'.Coded ∧ StopsIn names cs r p.2 m')
      (fun e m' => m'.Coded ∧ e.cause.isInternal = false)
  | 0, _, _, _, _, _, _, _ => trivial
  | n + 1, cs, last, r, m, hc, hr, hm => by
    rw [commands]
    show Ends ((if m.control.isRunning = true then _ else _ : Run Variable) r) m _ _
    split
    case isFalse h => exact ⟨hm, .inr ⟨Bool.eq_false_iff.mpr h, [], cs, rfl, rfl⟩⟩
    case isTrue =>
      cases cs with
      | nil =>
        refine (hi.commandEnd r hr m hm).bind (fun p m₁ h₁ => ?_) (fun _ _ h => h)
        obtain ⟨v, r₁⟩ := p
        obtain ⟨rfl, rfl, hm₁⟩ := h₁
        exact ⟨hm₁, .inl rfl⟩
      | cons c cs =>
        rw [encodeCommands, Bytecode.append_assoc] at hr
        refine (hi.command names c hc.1 r hr.left m hm).bind (fun p m₁ h₁ => ?_) (fun _ _ h => h)
        obtain ⟨v, r₁⟩ := p
        obtain ⟨hv, rfl, hm₁⟩ := h₁
        cases v with
        | none => cases hv
        | some v =>
          refine (commands_ends names n cs v _ m₁ hc.2 hr.right hm₁).mono (fun p m' h => ?_) (fun _ _ h => h)
          obtain ⟨hm', h⟩ := h
          refine ⟨hm', ?_⟩
          obtain h | ⟨hcon, done, left, rfl, h⟩ := h
          · left
            rw [h, Reader.advance_advance, encodeCommands, Bytecode.append_assoc,
              Bytecode.size_append (c.encode names)]
            rfl
          · right
            refine ⟨hcon, c :: done, left, rfl, ?_⟩
            rw [h, Reader.advance_advance, encodeCommands, Bytecode.size_append]
            rfl

theorem block_tame {names : Names} {b : Block} {r : Reader} (hb : b.WellFormed) (hr : r.Holds (b.content names)) :
    Tame (i.block r) := by
  obtain ⟨cs⟩ := b
  intro m hm
  have h := commands_ends hi names i.fuel cs voidValue r m hb hr hm
  exact ends_map.mpr (h.mono (fun _ _ h => h.1) (fun _ _ h => h))

/-! ## Levels -/

theorem callMethod_tame (id : TypeId) (addr : UInt64) (name : NameId) : Tame (i.callMethod id addr name) := by
  refine .bind (.calm (method?_calm id addr name)) fun found => ?_
  cases found with
  | none => exact .pure _
  | some method => exact .discard (hi.call method [])

omit hi in
theorem releaseFunction_tame (id : Nat) : Tame (releaseFunction id) := by
  intro m hm
  refine ends_modifyGet.mpr ?_
  dsimp only
  split
  · exact ⟨fun k f h => hm.functions k f (FunctionTable.get?_of_remove h).2, hm.sources, hm.parked⟩
  · exact hm

omit hi in
theorem closeTo_tame {close : Exec Unit} (hc : Tame close) (d : Nat) : ∀ n, Tame (closeTo close d n)
  | 0 => .outOfFuel
  | n + 1 => .onMachine fun _ _ => .ite (.bind hc fun _ => closeTo_tame hc d n) (.pure _)

omit hi in
theorem unwindWith_tame {close : Exec Unit} (hc : Tame close) (d frames : Nat) :
    Tame (i.unwindWith close d frames) :=
  .bind (.modify fun _ => ⟨rfl, rfl, rfl⟩) fun _ => closeTo_tame hc d _

theorem finalize_tame {close : Exec Unit} (hc : Tame close) (d : Nat) (a : Allocation) :
    Tame (i.finalize close d a) := by
  refine .bind (.modify fun _ => ⟨rfl, rfl, rfl⟩) fun _ => ?_
  split
  · exact .pure _
  · exact releaseFunction_tame _
  · refine .onMachine fun m _ => .caught (callMethod_tame hi _ _ _) (fun _ => .pure _) fun e _ => ?_
    exact .bind (.calm (logError_calm e)) fun _ => .bind (unwindWith_tame hc d _) fun _ =>
      .modify fun _ => ⟨rfl, rfl, rfl⟩

omit hi in
theorem takeAllocation_tame (id : AllocId) : Tame (takeAllocation id) :=
  .modifyGet fun m => by split <;> exact ⟨rfl, rfl, rfl⟩

theorem finalizeAll_tame {close : Exec Unit} (hc : Tame close) (d : Nat) : ∀ ids, Tame (i.finalizeAll close d ids)
  | [] => .pure _
  | id :: ids => by
    refine .bind (takeAllocation_tame id) fun found => ?_
    cases found with
    | none => exact finalizeAll_tame hc d ids
    | some a => exact .bind (finalize_tame hi hc d a) fun _ => finalizeAll_tame hc d ids

theorem closeLevelWithin_tame : ∀ n, Tame (i.closeLevelWithin n)
  | 0 => .outOfFuel
  | n + 1 => by
    refine .bind (.modifyGet fun _ => ⟨rfl, rfl, rfl⟩) fun level => ?_
    cases level with
    | none => exact .pure _
    | some level =>
      exact .onMachine fun m _ => .bind (.modify fun _ => ⟨rfl, rfl, rfl⟩) fun _ =>
        finalizeAll_tame hi (closeLevelWithin_tame n) _ _

theorem closeLevel_tame : Tame i.closeLevel := closeLevelWithin_tame hi _

theorem unwind_tame (d frames : Nat) : Tame (i.unwind d frames) := unwindWith_tame (closeLevel_tame hi) d frames

theorem free_tame (addr : UInt64) : Tame (i.free addr) := by
  refine .onMachine fun m _ => ?_
  split
  · exact .pure _
  case h_2 id _ =>
    split
    case' h_1 => refine .bind (.modify fun _ => ⟨rfl, rfl, rfl⟩) fun _ => ?_
    all_goals
      refine .bind (takeAllocation_tame id) fun found => ?_
      cases found with
      | none => exact .pure _
      | some a => exact .onMachine fun m _ => finalize_tame hi (closeLevel_tame hi) _ a

omit hi in
theorem pushLevel_tame : Tame pushLevel := .modify fun _ => ⟨rfl, rfl, rfl⟩

theorem levelBlock_tame {names : Names} {b : Block} {r : Reader} (hb : b.WellFormed)
    (hr : r.Holds (b.content names)) :
    Tame (i.levelBlock r) :=
  .bind pushLevel_tame fun _ => .bind (block_tame hi hb hr) fun _ => .bind (closeLevel_tame hi) fun _ => .pure _

/-! ## Calls -/

theorem runBody_tame (call : ScriptCall) (d : Nat) {chunk : Chunk} {entry len : Nat}
    (h : chunk.HoldsBody entry len) :
    Tame (i.runBody call d (Reader.slice chunk entry len)) := by
  obtain ⟨names, body, hb, hs, -, hr⟩ := h
  have hh : (Reader.slice chunk entry len).Holds (body.content names) := ⟨hs, hr ▸ List.prefix_rfl⟩
  refine .bind (.discard (block_tame hi hb hh)) fun _ => ?_
  refine .bind (.modifyGet fun _ => ⟨rfl, rfl, rfl⟩) fun control => ?_
  refine .bind (.calm (functionResult_calm call control)) fun _ => ?_
  exact .bind (closeTo_tame (closeLevel_tame hi) d _) fun _ =>
    .bind (.modify fun _ => ⟨rfl, rfl, rfl⟩) fun _ => .pure _

theorem callScript_tame (call : ScriptCall) (args : List Variable) : Tame (i.callScript call args) := by
  refine .onMachine fun m hm => .guarded rfl ?_
  split
  · exact .raise rfl
  case h_2 f hf =>
    have run (d : Nat) := runBody_tame hi call d (hm.functions _ f hf)
    have varied (d : Nat) : Tame (do
        if call.fixed < call.params.length then
          modify (·.modifyFrame ({ · with varargs := some (args.drop call.fixed).toArray }))
        i.runBody call d (Reader.slice f.chunk f.entry f.len)) :=
      .ite (.bind (.modify fun _ => ⟨rfl, rfl, rfl⟩) fun _ => run d) (run d)
    refine .bind (.modifyGet fun _ => ⟨rfl, rfl, rfl⟩) fun d => .bind (.calm (declareCaptured_calm _ _)) fun _ =>
      .bind (.calm (declareParameters_calm _ _)) fun _ => ?_
    cases call.origin.bind (·.receiver) with
    | none => exact varied d
    | some receiver =>
      refine .bind (.calm (constant_calm _)) fun _ => .bind (.calm (fresh_calm _ _)) fun v => ?_
      exact .bind (.calm (.discard (declare_calm _ v))) fun _ => varied d

/-! ## Native code -/

omit hi in
theorem runNative_tame {enter : UInt64 → List NativeArg → Exec (Except UInt64 NativeResult)}
    (he : ∀ addr args, Tame (enter addr args)) : ∀ action, Tame (runNative enter action)
  | .done _ => .pure _
  | .print _ next => .bind (.modify fun _ => ⟨rfl, rfl, rfl⟩) fun _ => runNative_tame he next
  | .read _ next => .ite (.onMachine fun _ _ => runNative_tame he (next _)) (.pure _)
  | .write _ _ next => .bind (.modify fun _ => ⟨rfl, rfl, rfl⟩) fun _ => runNative_tame he next
  | .readText _ next => .ite (.onMachine fun _ _ => runNative_tame he (next _)) (.pure _)
  | .call code args next => by
    rw [runNative]
    refine .bind (he code args) fun result => ?_
    cases result with
    | ok result => exact runNative_tame he (next result)
    | error addr => exact .pure _

theorem enterStub_tame (type : TypeId) (id : Nat) (words : List UInt64) : Tame (i.enterStub type id words) := by
  refine .onMachine fun m _ => ?_
  dsimp only
  split
  · exact .raise rfl
  · exact .bind (hi.call _ _) fun v => .calm (bits_calm v)

omit hi in
theorem park_tame {e : RunError} (he : e.cause.isInternal = false) : Tame (park e) := by
  intro m hm
  refine ⟨hm.functions, hm.sources, fun e' h => ?_⟩
  change (m.parked <|> some e) = some e' at h
  cases hp : m.parked with
  | none =>
    rw [hp] at h
    exact Option.some.inj h ▸ he
  | some e₁ =>
    rw [hp] at h
    exact Option.some.inj h ▸ hm.parked e₁ hp

theorem enterCode_tame : ∀ n addr args, Tame (i.enterCode n addr args)
  | 0, _, _ => .outOfFuel
  | n + 1, addr, args => by
    refine .onMachine fun m _ => ?_
    dsimp only
    split
    · exact .pure _
    · exact runNative_tame (enterCode_tame n) _
    · refine .caught (enterStub_tame hi _ _ _) (fun _ => .pure _) fun e he => ?_
      exact .bind (park_tame he) fun _ => .pure _

theorem callNative_tame (addr : UInt64) (result : TypeId) (assignable : Bool) (fixed : Nat) (args : List Variable) :
    Tame (i.callNative addr result assignable fixed args) := by
  refine .bind (.modify fun _ => ⟨rfl, rfl, rfl⟩) fun _ => .guarded rfl ?_
  refine .bind (.calm (nativeArguments_smooth fixed args).calm) fun args =>
    .bind (enterCode_tame hi _ _ _) fun outcome => ?_
  intro m hm
  refine (Law.nativeEnd_ends result outcome m).mono (fun _ _ h => ?_) (fun e _ h => ?_)
  · exact h.1 ▸ ⟨hm.functions, hm.sources, nofun⟩
  · refine ⟨h.1 ▸ ⟨hm.functions, hm.sources, nofun⟩, ?_⟩
    obtain ⟨addr, h⟩ | h := h.2
    · rw [h]
      rfl
    · exact hm.parked e h

theorem callFunction_tame (f : Variable) (args : List Variable) : Tame (i.callFunction f args) := by
  refine .onMachine fun m _ => .guarded rfl (.guarded rfl ?_)
  refine .bind (.calm (convertArguments_calm _ args)) fun converted =>
    .bind (.calm (bits_calm f)) fun addr => .guarded rfl ?_
  refine .onMachine fun m₁ _ => ?_
  dsimp only
  split
  · exact callNative_tame hi _ _ _ _ _
  · exact callScript_tame hi _ _

/-! ## Functions and allocations -/

omit hi in
theorem newStub_tame (type : TypeId) : Tame (newStub type) := by
  intro m hm
  refine ends_modifyGet.mpr ?_
  split
  case h_1 found functions h =>
    exact ⟨fun k f hf => hm.functions k f (FunctionTable.get?_reuse h k ▸ hf), hm.sources, hm.parked⟩
  case h_2 => exact ⟨hm.functions, hm.sources, hm.parked⟩

omit hi in
theorem createFunction_tame {chunk : Chunk} {entry len : Nat} (h : chunk.HoldsBody entry len) (capture : Capture)
    (type : TypeId) (name : NameId) (inner : Bool) :
    Tame (createFunction chunk entry len capture type name inner) := by
  refine .bind (.calm (resolveType_calm type)) fun type => .onMachine fun m _ =>
    .guarded rfl (.onMachine fun m _ => ?_)
  dsimp only
  split
  · exact .pure _
  · refine .bind (newStub_tame type) fun stub => .onMachine fun m₁ _ => .onMachine fun m₂ _ => ?_
    cases capture
    all_goals
      refine .bind ?_ fun captured => .onMachine fun m₃ _ =>
        .bind (fun m hm => ⟨fun k f hf => ?_, hm.sources, hm.parked⟩) fun _ => .pure _
    case nothing.refine_1 | shared.refine_1 => exact .pure _
    case copyPerCall.refine_1 | copyOnce.refine_1 => exact .calm (copyCaptured_smooth _).calm
    all_goals
      obtain rfl | hf := FunctionTable.get?_insert_or hf
      · exact h
      · exact hm.functions k f hf

omit hi in
theorem allocate_tame (size : UInt64) (type : TypeId) (inner : Bool) (cleanup : Cleanup) :
    Tame (allocate size type inner cleanup) := .guarded rfl (.modifyGet fun _ => ⟨rfl, rfl, rfl⟩)

omit hi in
theorem moveAllocation_tame (addr : UInt64) (level : Nat) : Tame (moveAllocation addr level) :=
  .modify fun m => by split <;> exact ⟨rfl, rfl, rfl⟩

omit hi in
theorem newStruct_tame (type : TypeId) (inner : Bool) : Tame (newStruct type inner) :=
  .bind (.calm (typeInfo_calm type)) fun _ => .bind (allocate_tame _ _ _ _) fun addr =>
    .bind (.calm (initStruct_calm type addr)) fun _ => .pure _

end

end Interp

end LevelScript
