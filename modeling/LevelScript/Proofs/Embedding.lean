import LevelScript.Proofs.Faults
import LevelScript.Proofs.Globals
import LevelScript.Proofs.Parking
import LevelScript.Proofs.Pools
import LevelScript.Proofs.Stepping

/-!
# Programs that embed the machine

A program runs texts, looks at global variables and changes them by their names, and calls script functions
by their addresses. Names are looked up in all levels that are open, and what a failed call from outside leaves
open stays so until the next run ends. Apart from that, a name means a global variable.
-/

namespace LevelScript

/-! ## Looking at values -/

namespace Exec

open Machine

/-- Changes nothing; at most an invalid access is still to be raised. -/
def Looks (x : Exec α) : Prop := ∀ m, x.Ends m (fun _ m' => m.SameButFault m') (fun _ m' => m.SameButFault m')

namespace Looks

variable {α β : Type}

protected theorem pure (a : α) : Looks (pure a) := fun m => .refl m

protected theorem bind {x : Exec α} {f : α → Exec β} (hx : Looks x) (hf : ∀ a, Looks (f a)) : Looks (x >>= f) := by
  intro m
  refine (hx m).bind (fun a m₁ h₁ => ?_) (fun _ _ h => h)
  exact (hf a m₁).mono (fun _ _ h => h₁.trans h) (fun _ _ h => h₁.trans h)

theorem get : Looks get := fun m => .refl m

theorem outOfFuel : Looks (Exec.outOfFuel : Exec α) := fun _ => trivial

theorem noteFault (addr : UInt64) : Looks (modify (·.noteFault addr) : Exec PUnit) := fun _ => ⟨_, rfl⟩

protected theorem ite {c : Prop} [Decidable c] {x y : Exec α} (hx : Looks x) (hy : Looks y) :
    Looks (if c then x else y) := by
  split
  · exact hx
  · exact hy

end Looks

theorem peek_looks (addr : UInt64) (size : Nat) : Looks (peek addr size) :=
  .ite (.bind .get fun _ => .pure _) (.bind (.noteFault addr) fun _ => .pure _)

theorem bits_looks (v : Variable) : Looks (bits v) := by
  intro m
  obtain ⟨m', h, hs⟩ := bits_valueIn v m
  rw [Ends, h]
  exact hs

theorem textAt_looks (addr : UInt64) : Looks (textAt addr) :=
  .ite (.bind .get fun _ => .pure _) (.bind (.noteFault addr) fun _ => .pure _)

theorem typeInfo_looks (id : TypeId) : Looks (typeInfo id) := fun m => .refl m

theorem nameText_looks (name : NameId) : Looks (nameText name) := fun m => .refl m

theorem displayType_looks (id : TypeId) : Looks (displayType id) := .bind .get fun _ => .pure _

theorem renderFields_looks {render : TypeId → UInt64 → Exec String}
    (hr : ∀ id word, Looks (render id word)) (addr : UInt64) :
    ∀ fields, Looks (renderFields render addr fields)
  | [] => .pure _
  | f :: fs => by
    have rest (name : String) (word : UInt64) : Looks (do
        let text ← render f.type word
        return (" " ++ name ++ " = " ++ text) :: (← renderFields render addr fs)) :=
      .bind (hr _ _) fun _ => .bind (renderFields_looks hr addr fs) fun _ => .pure _
    have value (name : String) (t : TypeInfo) : Looks (do
        let value ← if f.inlined.isSome then pure (addr + f.offset)
          else pure (extend t (← peek (addr + f.offset) t.valueSize))
        let text ← render f.type value
        return (" " ++ name ++ " = " ++ text) :: (← renderFields render addr fs)) :=
      .ite (.bind (.pure _) fun _ => rest _ _) (.bind (peek_looks _ _) fun _ => .bind (.pure _) fun _ => rest _ _)
    unfold renderFields
    cases f.name with
    | none => exact .bind (.pure _) fun name => .bind (typeInfo_looks _) fun t => value name t
    | some name => exact .bind (nameText_looks name) fun name => .bind (typeInfo_looks _) fun t => value name t

theorem render_looks : ∀ (n : Nat) (id : TypeId) (word : UInt64), Looks (render n id word)
  | 0, _, _ => .outOfFuel
  | n + 1, id, word => by
    refine .bind .get fun m => .ite (.bind (textAt_looks word) fun _ => .pure _) ?_
    split
    case h_10 => exact .ite (.pure _) (.bind (renderFields_looks (render_looks n) word _) fun _ => .pure _)
    all_goals first | exact .pure _ | exact displayType_looks _

theorem renderVariable_looks (fuel : Nat) (v : Variable) : Looks (renderVariable fuel v) :=
  .bind (bits_looks v) fun _ => render_looks _ _ _

end Exec

/-! ## What a program does -/

namespace Session

open Exec Interp Machine

inductive Action where
  | run (source : String)
  | runFile (path : String)
  | get (name : String)
  | set (name : String) (bytes : List UInt8)
  | getScalar (s : Scalar) (name : String)
  | setScalar (s : Scalar) (name : String) (value : UInt64)
  | render (name : String)
  | typeOf (name : String)
  | call (addr : UInt64) (args : List NativeArg)

namespace Action

def perform (i : Interp) : Action → Exec Unit
  | run source => Session.run i source
  | runFile path => Session.runFile i path
  | get name => discard (getBytes name)
  | set name bytes => discard (setBytes name bytes)
  | getScalar s name => discard (Session.getScalar s name)
  | setScalar s name value => discard (Session.setScalar s name value)
  | render name => discard (Session.render i name)
  | typeOf name => discard (Session.typeOf name)
  | call addr args => discard (callCode i addr args)

def script? : Action → Option Script
  | run source => some (.text source memoryFile)
  | runFile path => some (.file path)
  | _ => none

def name? : Action → Option String
  | get name | set name _ | getScalar _ name | setScalar _ name _ | render name | typeOf name => some name
  | _ => none

def writes : Action → Bool
  | set _ _ | setScalar _ _ _ => true
  | _ => false

end Action

/-- What happens to a machine when a program looks at a variable, or changes it. -/
inductive Accesses (name : String) (writes : Bool) (m : Machine) : Machine → Prop
  | looked {m' : Machine} : m.SameButFault m' → Accesses name writes m m'
  | stored {m₁ : Machine} {id : NameId} {v : Variable} (word : UInt64) : writes = true → m.SameButFault m₁ →
    m.names.get? name = some id → m.scopes.lookup id 0 = some v → Accesses name writes m (m₁.stored v word)

section
variable {m m' : Machine} {name : String}

/-- What a program is told of a variable are the bytes of its value. -/
theorem getBytes_gives (name : String) (m : Machine) : ∃ m', getBytes name m =
    .ok (((m.names.get? name).bind fun id => m.scopes.lookup id 0).map fun v =>
      bytesLE (m.types.get v.type).valueSize (v.valueIn m.types m.memory).toNat) m' := by
  have hg : global? name m = .ok ((m.names.get? name).bind fun id => m.scopes.lookup id 0) m := rfl
  rw [getBytes, bind_ok hg]
  cases (m.names.get? name).bind fun id => m.scopes.lookup id 0 with
  | none => exact ⟨m, rfl⟩
  | some v =>
    have ht : typeInfo v.type m = .ok (m.types.get v.type) m := rfl
    obtain ⟨m', hb, -⟩ := bits_valueIn v m
    refine ⟨m', ?_⟩
    dsimp only
    rw [bind_ok ht, bind_ok hb]
    rfl

theorem getBytes_looks (name : String) : Looks (getBytes name) := by
  refine .bind (.bind .get fun _ => .pure _) fun found => ?_
  cases found with
  | none => exact .pure _
  | some v => exact .bind (typeInfo_looks _) fun _ => .bind (bits_looks v) fun _ => .pure _

theorem render_looks (i : Interp) (name : String) : Looks (render i name) := by
  refine .bind (.bind .get fun _ => .pure _) fun found => ?_
  cases found with
  | none => exact .pure _
  | some v => exact .bind (renderVariable_looks _ v) fun _ => .pure _

theorem typeOf_looks (name : String) : Looks (typeOf name) := by
  refine .bind (.bind .get fun _ => .pure _) fun found => ?_
  cases found with
  | none => exact .pure _
  | some v => exact .bind (displayType_looks _) fun _ => .pure _

theorem setBytes_ends (name : String) (bytes : List UInt8) {m₁ : Machine} (h : m.SameButFault m₁) :
    (setBytes name bytes).Ends m₁ (fun _ m' => Accesses name true m m') (fun _ _ => False) := by
  obtain ⟨pending, rfl⟩ := h
  have h : m.SameButFault (m.withFault pending) := ⟨pending, rfl⟩
  have hg : global? name (m.withFault pending) =
      .ok ((m.names.get? name).bind fun id => m.scopes.lookup id 0) (m.withFault pending) := rfl
  refine (ends_bind_ok hg).mpr ?_
  cases hv : (m.names.get? name).bind fun id => m.scopes.lookup id 0 with
  | none => exact .looked h
  | some v =>
    obtain ⟨id, hid, hv⟩ := Option.bind_eq_some_iff.mp hv
    show Ends (if _ then _ else _) (m.withFault pending) _ _
    split
    · exact .looked h
    · exact (ends_bind_ok (store_eq v _ _)).mpr (.stored _ rfl h hid hv)

theorem getScalar_looks (s : Scalar) (name : String) : Looks (getScalar s name) := by
  refine .bind (getBytes_looks name) fun found => ?_
  cases found <;> exact .pure _

theorem setScalar_ends (s : Scalar) (name : String) (value : UInt64) (m : Machine) :
    (setScalar s name value).Ends m (fun _ m' => Accesses name true m m')
    (fun _ m' => Accesses name true m m') := by
  refine (getBytes_looks name m).bind (fun found m₁ h₁ => ?_) (fun _ _ h => .looked h)
  cases found with
  | none => exact .looked h₁
  | some bytes =>
    dsimp only
    split
    · exact (setBytes_ends name _ h₁).mono (fun _ _ h => h) (fun _ _ h => h.elim)
    · exact .looked h₁

theorem Accesses.same {writes : Bool} (h : Accesses name writes m m') :
    m'.scopes = m.scopes ∧ m'.frames = m.frames := by
  cases h with
  | looked h =>
    obtain ⟨_, rfl⟩ := h
    exact ⟨rfl, rfl⟩
  | stored word _ h =>
    obtain ⟨_, rfl⟩ := h
    rw [Machine.stored]
    split
    · exact ⟨rfl, rfl⟩
    · dsimp only
      split
      · exact ⟨rfl, rfl⟩
      · split <;> exact ⟨rfl, rfl⟩

/-- An action that names a variable looks at this variable, or changes it if it may. -/
theorem perform_accesses (i : Interp) {a : Action} (ha : a.name? = some name) (m : Machine) :
    (a.perform i).Ends m (fun _ m' => Accesses name a.writes m m') (fun _ m' => Accesses name a.writes m m') := by
  have looks {α : Type} {x : Exec α} (hx : Looks x) (writes : Bool) :
      (discard x).Ends m (fun _ m' => Accesses name writes m m') (fun _ m' => Accesses name writes m m') :=
    ends_map.mpr ((hx m).mono (fun _ _ h => .looked h) (fun _ _ h => .looked h))
  cases a with
  | run | runFile | call => cases ha
  | get n => cases ha; exact looks (getBytes_looks _) _
  | getScalar s n => cases ha; exact looks (getScalar_looks s _) _
  | render n => cases ha; exact looks (render_looks i _) _
  | typeOf n => cases ha; exact looks (typeOf_looks _) _
  | set n bytes =>
    cases ha
    exact ends_map.mpr ((setBytes_ends _ bytes (.refl m)).mono (fun _ _ h => h) (fun _ _ h => h.elim))
  | setScalar s n value =>
    cases ha
    exact ends_map.mpr (setScalar_ends s _ value m)

end

end Session

/-! ## Runs -/

namespace Interp

open Exec Machine

/-- The commands of a text, from one place to another one between two of them. -/
inductive Proceeds (i : Interp) : Nat → Reader → Variable → Machine → Nat → Reader → Variable → Machine → Prop
  | here (n : Nat) (r : Reader) (last : Variable) (m : Machine) : Proceeds i n r last m n r last m
  | next {n n' : Nat} {r r₁ r' : Reader} {last v last' : Variable} {m m₁ m' : Machine} : r.atEnd = false →
    i.command.run r m = .ok (some v, r₁) m₁ → m₁.control = .running → Proceeds i n r₁ v m₁ n' r' last' m' →
    Proceeds i (n + 1) r last m n' r' last' m'

section
variable {i : Interp} {n n' : Nat} {r r' : Reader} {last last' : Variable} {m m₁ m' : Machine}

theorem Proceeds.topCommands_eq (h : i.Proceeds n r last m n' r' last' m') :
    i.topCommands n r last m = i.topCommands n' r' last' m' := by
  induction h with
  | here => rfl
  | @next n n' r r₁ r' last v last' m m₁ m' hr hc hrun _ ih =>
    rw [← ih, topCommands, if_neg (by rw [hr]; exact Bool.false_ne_true)]
    have ha : attempt (i.command.run r) m = .ok (.ok (some v, r₁)) m₁ := by rw [attempt, hc]
    rw [bind_ok ha]
    dsimp only
    rw [get_bind, hrun]

theorem Proceeds.kept {L : Law} (hi : L.Sound i) (h : i.Proceeds n r last m n' r' last' m')
    (hm : 0 < m.scopes.depth) :
    L.kept m m' := by
  induction h with
  | here _ _ _ m => exact Law.calm (.refl m)
  | next _ hc _ _ ih =>
    have hk := (hi.command _ _ hm).ok hc
    exact L.kept_trans hk (ih (L.failed_depth (Law.failed_kept hk) hm))

def BetweenIn (i : Interp) (source file : String) (m m₁ : Machine) : Prop :=
  ∃ chunk m₀, compileSource source file m = .ok (.ok chunk) m₀ ∧ ∃ n r last,
    i.Proceeds i.fuel (Reader.ofChunk chunk).name.2 voidValue
      (m₀.withFile (m₀.frames.size - 1) (Reader.ofChunk chunk).name.1) n r last m₁

def Between (i : Interp) : Script → Machine → Machine → Prop
  | .text source file, m, m₁ => i.BetweenIn source file m m₁
  | .file path, m, m₁ => ∃ file source, loadSource path m = .ok (file, source) m ∧ i.BetweenIn source file m m₁

theorem BetweenIn.kept {source file : String} (hi : balance.Sound i) (h : i.BetweenIn source file m m₁)
    (hm : 0 < m.scopes.depth) :
    m.scopes.depth ≤ m₁.scopes.depth ∧
      (0 < m.frames.size → m₁.nativeCalls = m.nativeCalls → m₁.scopes.depth = m.scopes.depth) := by
  obtain ⟨chunk, m₀, hc, n, r, last, h⟩ := h
  have hs : m.Calm m₀ := (@compileSource_calm true source file m).ok hc
  have hcount : m₀.nativeCalls = m.nativeCalls := congrArg (List.countP _) hs.journal
  have hk : Restored _ m₁ := h.kept hi (by exact hs.depth ▸ hm)
  have hd := hk.1.depth
  refine ⟨by rw [← hs.depth]; exact hd, fun hf hn => ?_⟩
  rw [← hs.depth]
  refine (hk.2 ⟨hn.trans hcount.symm, ?_⟩).1
  show 0 < (m₀.frames.modify _ _).size
  rw [Array.size_modify, hs.frames]
  exact hf

/-- What has been declared between two commands is still there when the text has come to its end. -/
theorem runSource_keeps {source file : String} (hi : declaring.Sound i) (h : i.BetweenIn source file m m₁)
    (hm : 0 < m₁.scopes.depth) :
    (i.runSource source file).Ends m (fun _ m' => Declared m₁.scopes.depth m₁ m')
    (fun _ m' => Declared m₁.scopes.depth m₁ m') := by
  obtain ⟨chunk, m₀, hc, n, r, last, h⟩ := h
  have htop : i.topLevel source file m = i.topCommands n r last m₁ := by
    rw [← h.topCommands_eq, topLevel, bind_ok hc]
    rfl
  refine ends_bind.mpr (ends_bind.mpr ?_)
  refine ((ends_congr htop).mpr (Law.topCommands_ends hi n r last m₁ hm)).bind (fun p m₂ h₂ => ?_)
    (fun _ _ h => h.elim)
  obtain ⟨last, error⟩ := p
  have h₂ : Declared m₁.scopes.depth m₁ m₂ := by cases error <;> exact h₂
  have step {a b : Machine} (h : Declared m₁.scopes.depth m₁ a) (h' : a.Calm b) : Declared m₁.scopes.depth m₁ b :=
    h.trans (declaring.calmly h')
  have finish (x : Exec Unit) (hx : ∀ m, x.Ends m (fun _ m' => m' = m) (fun _ m' => m' = m))
    (value : UInt64) (m₃ : Machine)
      (h₃ : Declared m₁.scopes.depth m₁ m₃) : Ends (do
        keepResult last.type value
        setFile (m.frames.size - 1) m.frame.file
        x) m₃ (fun _ m' => Declared m₁.scopes.depth m₁ m') (fun _ m' => Declared m₁.scopes.depth m₁ m') := by
    refine (keepResult_smooth last.type value m₃).bind (fun _ m₄ h₄ => ends_bind.mpr ?_) (fun _ _ h => h.elim)
    have h₄ := step h₃ h₄
    exact (hx _).mono (by rintro _ _ rfl; exact ⟨h₄.depth, h₄.declares, h₄.types⟩)
      (by rintro _ _ rfl; exact ⟨h₄.depth, h₄.declares, h₄.types⟩)
  refine ends_bind.mpr (show Ends _ { m₂ with control := .running } _ _ from ?_)
  refine (bits_smooth last _).bind (fun value m₃ h₃ => ?_) (fun _ _ h => h.elim)
  have h₃ := step (h₂.trans (declaring.control m₂ .running)) h₃
  cases error with
  | some e => exact finish (throw (Halt.raised e)) (fun m => (rfl : m = m)) value m₃ h₃
  | none =>
    refine ends_bind.mpr (ends_attempt.mpr ?_)
    refine (@checkFault_calm true m₃).mono (fun _ m₄ h₄ => ?_) (fun e m₄ h₄ => ?_)
    · exact finish (pure ()) (fun m => (rfl : m = m)) value m₄ (step h₃ h₄)
    · exact finish (throw (Halt.raised e)) (fun m => (rfl : m = m)) value m₄ (step h₃ h₄.1)

theorem body_keeps {s : Script} (hi : declaring.Sound i) (h : i.Between s m m₁) (hm : 0 < m₁.scopes.depth) :
    (s.body i).Ends m (fun _ m' => Declared m₁.scopes.depth m₁ m')
    (fun _ m' => Declared m₁.scopes.depth m₁ m') := by
  cases s with
  | text source file => exact runSource_keeps hi h hm
  | file path =>
    obtain ⟨file, source, hl, h⟩ := h
    exact (ends_bind_ok hl).mpr (runSource_keeps hi h hm)

theorem Between.kept {s : Script} (hi : balance.Sound i) (h : i.Between s m m₁) (hm : 0 < m.scopes.depth) :
    m.scopes.depth ≤ m₁.scopes.depth ∧
      (0 < m.frames.size → m₁.nativeCalls = m.nativeCalls → m₁.scopes.depth = m.scopes.depth) := by
  cases s with
  | text source file => exact BetweenIn.kept hi h hm
  | file path =>
    obtain ⟨file, source, -, h⟩ := h
    exact h.kept hi hm

theorem reset_keeps (n : Nat) (hm : 0 < m.scopes.depth) :
    (ofFuel n).reset.Ends m (fun _ m' => Declared 1 m m') (fun _ m' => Declared 1 m m') := by
  refine ends_bind.mpr (ends_bind.mpr (show Ends _ (m.cutTo 1) _ _ from ?_))
  have hcut : Declared m.scopes.depth m (m.cutTo 1) := .of_scopes rfl rfl
  have ha : declaring.above 1 [] m (m.cutTo 1) := hcut.mono hm
  have hc := Law.closeTo_ends (Law.closeLevel_closes (Law.sound_ofFuel declaring n)) (ofFuel n).fuel _ ha
  exact hc.mono (fun _ _ h => ⟨h.depth, h.declares, h.types⟩) (fun _ _ h => h.elim)

end

end Interp

/-! ## Calls from outside -/

/-- No level is missing, and none has been added unless an error waits now or native code was called. -/
def Tidy (m m' : Machine) : Prop :=
  Holds m.scopes.depth m m' ∧ (Quiet m m' → m'.parked = none → m.parked = none ∧ m'.scopes.depth = m.scopes.depth)

namespace Tidy

variable {a b c m m' : Machine}

theorem trans (h : Tidy a b) (h' : Tidy b c) : Tidy a c := by
  refine ⟨h.1.trans h'.1, fun q hp => ?_⟩
  obtain ⟨q₁, q₂⟩ := q.split h.1 h'.1.natives
  obtain ⟨hb, hd⟩ := h'.2 q₂ hp
  exact ⟨(h.2 q₁ hb).1, hd.trans (h.2 q₁ hb).2⟩

theorem calm (h : m.Calm m') : Tidy m m' := by
  have hr : Restored m m' := Law.calm (L := balance) h
  exact ⟨hr.1, fun q hp => ⟨h.parked.symm.trans hp, (hr.2 q).1⟩⟩

theorem called (h : Restored m m') (hp : m.Parks m') : Tidy m m' := by
  refine ⟨h.1, fun q hn => ⟨?_, (h.2 q).1⟩⟩
  have hn' := q.1
  obtain hp | ⟨-, hp⟩ := hp.2
  · exact hp.symm.trans hn
  · omega

/-- A call that has failed: its error waits now. -/
theorem failed {e : RunError} (h : Holds m.scopes.depth m m') :
    Tidy m { m' with parked := m'.parked <|> some e } := by
  refine ⟨⟨h.depth, h.frames, h.natives⟩, fun _ hp => ?_⟩
  cases hm : m'.parked <;> simp [hm] at hp

end Tidy

namespace Interp

open Exec

/-- What native code does to the levels; errors in it are kept for later. -/
def Tidies (x : Exec α) : Prop := ∀ m : Machine, x.Ends m (fun _ m' => Tidy m m') (fun _ _ => False)

theorem Tidies.bind {α β : Type} {x : Exec α} {f : α → Exec β} (hx : Tidies x) (hf : ∀ a, Tidies (f a)) :
    Tidies (x >>= f) :=
  fun m => (hx m).bind (fun a m₁ h₁ => (hf a m₁).mono (fun _ _ h => h₁.trans h) (fun _ _ h => h)) (fun _ _ h => h)

theorem Tidies.smooth {α : Type} {x : Exec α} (h : Smooth x) : Tidies x :=
  fun m => (h m).mono (fun _ _ => .calm) (fun _ _ h => h)

theorem runNative_tidies {enter : UInt64 → List NativeArg → Exec (Except UInt64 NativeResult)}
    (he : ∀ addr args, Tidies (enter addr args)) : ∀ action, Tidies (runNative enter action)
  | .done _ => .smooth (.pure _)
  | .print _ next =>
    .bind (.smooth (.modify fun _ => ⟨⟨rfl, rfl, rfl, rfl, rfl⟩, rfl, rfl, rfl, .refl _, rfl, rfl, .refl _ _, rfl⟩))
      fun _ => runNative_tidies he next
  | .read addr next => by
    rw [runNative]
    split
    · exact .bind (.smooth .get) fun _ => runNative_tidies he (next _)
    · exact .smooth (.pure _)
  | .write _ _ next =>
    .bind (.smooth (.modify fun _ => ⟨⟨rfl, rfl, rfl, rfl, rfl⟩, rfl, rfl, rfl, .refl _, rfl, rfl, .refl _ _, rfl⟩))
      fun _ => runNative_tidies he next
  | .readText addr next => by
    rw [runNative]
    split
    · exact .bind (.smooth .get) fun _ => runNative_tidies he (next _)
    · exact .smooth (.pure _)
  | .call code args next => by
    rw [runNative]
    refine .bind (he code args) fun result => ?_
    cases result with
    | ok result => exact runNative_tidies he (next result)
    | error addr => exact .smooth (.pure _)

theorem enterStub_ends {i : Interp} (hb : balance.Sound i) (hp : parking.Sound i) (type : TypeId)
    (id : Nat) (words : List UInt64)
    (m : Machine) :
    (i.enterStub type id words).Ends m (fun _ m' => Tidy m m') (fun _ m' => Holds m.scopes.depth m m') := by
  have h := (Law.enterStub_calls hb type id words m).and (Law.enterStub_calls hp type id words m)
  exact h.mono (fun _ _ h => .called h.1 h.2.2) (fun _ _ h => h.1)

theorem enterCode_tidies {i : Interp} (hb : balance.Sound i) (hp : parking.Sound i) :
    ∀ n addr args, Tidies (i.enterCode n addr args)
  | 0, _, _ => fun _ => trivial
  | n + 1, addr, args => by
    refine .bind (.smooth .get) fun m => ?_
    dsimp only
    split
    · exact .smooth (.pure _)
    · exact runNative_tidies (enterCode_tidies hb hp n) _
    · intro m
      refine ends_bind.mpr (ends_attempt.mpr ?_)
      exact (enterStub_ends hb hp _ _ _ m).mono (fun _ _ h => h) (fun _ _ h => .failed h)

theorem callCode_tidies (n : Nat) (addr : UInt64) (args : List NativeArg) :
    Tidies (Session.callCode (ofFuel n) addr args) := by
  unfold Session.callCode
  split
  · exact .smooth (.pure _)
  · refine .bind (enterCode_tidies (Law.sound_ofFuel _ n) (Law.sound_ofFuel _ n) _ _ _) fun outcome => ?_
    cases outcome <;> exact .smooth (.pure _)

theorem callCode_wild (L : Law) (n : Nat) (addr : UInt64) (args : List NativeArg) :
    L.Wild (Session.callCode (ofFuel n) addr args) := by
  unfold Session.callCode
  split
  · exact Law.wild_smooth (.pure _)
  · refine .bind (Law.enterCode_wild (Law.sound_ofFuel _ n) _ _ _) fun outcome => ?_
    cases outcome <;> exact Law.wild_smooth (.pure _)

theorem call_ends (n : Nat) (addr : UInt64) (args : List NativeArg) (m : Machine) :
    ((Session.Action.call addr args).perform (ofFuel n)).Ends m
    (fun _ m' => Tidy m m' ∧ Declared m.scopes.depth m m')
      (fun _ m' => Tidy m m' ∧ Declared m.scopes.depth m m') := by
  have h := (callCode_tidies n addr args m).and (callCode_wild declaring n addr args m)
  exact ends_map.mpr (h.mono (fun _ _ h => h) (fun _ _ h => h.1.elim))

end Interp

/-! ## Sessions -/

namespace Machine

open Exec Interp Session

/-- The machines that a program can come to by what it does, one action after the other. -/
inductive Driven : Machine → Prop
  | start {m : Machine} : m.Unused → m.start.Driven
  | act {m m' : Machine} (n : Nat) (a : Action) : m.Driven → (a.perform (ofFuel n)).Leads m m' → m'.Driven

structure Rooted (m : Machine) : Prop where
  depth : 0 < m.scopes.depth
  frames : 0 < m.frames.size
  base : m.frames[0]?.map Frame.base = some 0

section
variable {m m₁ m' : Machine} {d n : Nat} {a : Action}

theorem Rooted.held (h : m.Rooted) (hh : Holds d m m') (hd : 0 < d) : m'.Rooted :=
  ⟨Nat.lt_of_lt_of_le hd hh.depth, Nat.lt_of_lt_of_le h.frames hh.frames.size,
    by rw [hh.frames.base 0 h.frames, h.base]⟩

/-- Whatever a run does, one level is left. -/
theorem Rooted.after_run {s : Script} (h : m.Rooted)
    (hl : (finish (ofFuel n) (s.body (ofFuel n))).Leads m m') : m'.Settled := by
  obtain ⟨o, m₁, hr, hl⟩ := leads_finish hl
  have hb : (attempt (s.body (ofFuel n))).Ends m (fun _ m' => m'.Rooted) (fun _ _ => True) := by
    refine ends_attempt.mpr ((body_obeys balance n s m h.depth).mono (fun _ _ hh => ?_) (fun _ _ hh => ?_))
    · exact h.held hh.1 h.depth
    · exact h.held hh h.depth
  have h₁ := hb.ok hr
  exact ((reset_settles n h₁.depth h₁.frames h₁.base).mono (fun _ _ h => h.1) (fun _ _ h => h.elim)).leads hl

theorem Driven.rooted (h : m.Driven) : m.Rooted := by
  induction h with
  | start h => exact ⟨by rw [h.settled.depth]; omega, h.settled.frames, h.settled.base⟩
  | @act m m' n a _ hl ih =>
    have ran {s : Script} (hl : (finish (ofFuel n) (s.body (ofFuel n))).Leads m m') : m'.Rooted := by
      have hs := ih.after_run hl
      exact ⟨by rw [hs.depth]; omega, hs.frames, hs.base⟩
    have accessed {name : String} (ha : a.name? = some name) : m'.Rooted := by
      have h := Accesses.same ((perform_accesses (ofFuel n) ha m).leads hl)
      exact ⟨h.1 ▸ ih.depth, h.2 ▸ ih.frames, h.2 ▸ ih.base⟩
    cases a with
    | run source => exact ran (s := .text source memoryFile) hl
    | runFile path => exact ran (s := .file path) hl
    | call addr args =>
      exact ih.held ((call_ends n addr args m).leads hl).1.1 ih.depth
    | get | set | getScalar | setScalar | render | typeOf => exact accessed rfl

theorem ran_keeps {s : Script} (h : m.Rooted) (hl : (finish (ofFuel n) (s.body (ofFuel n))).Leads m m') :
    Declared 1 m m' ∧ ∀ m₁, (ofFuel n).Between s m m₁ → Declared 1 m₁ m' := by
  obtain ⟨o, m₂, hr, hl⟩ := leads_finish hl
  have after {m₁ : Machine} (h₁ : 0 < m₁.scopes.depth)
      (hb : (s.body (ofFuel n)).Ends m (fun _ m' => Declared m₁.scopes.depth m₁ m')
        (fun _ m' => Declared m₁.scopes.depth m₁ m')) :
      Declared 1 m₁ m' := by
    have h₂ : Declared m₁.scopes.depth m₁ m₂ :=
      (show (attempt (s.body (ofFuel n))).Ends m (fun _ m' => Declared _ m₁ m') (fun _ _ => False) from
        ends_attempt.mpr (hb.mono (fun _ _ h => h) (fun _ _ h => h))).ok hr
    have h₃ : Declared 1 m₂ m' := (reset_keeps n (Nat.lt_of_lt_of_le h₁ h₂.depth)).leads hl
    exact ⟨h₃.depth, (h₂.mono h₁).declares.trans h₃.declares (Nat.le_refl _), h₂.types.trans h₃.types⟩
  have hb := body_obeys declaring n s m h.depth
  refine ⟨after h.depth hb, fun m₁ hm => ?_⟩
  have hd := (Between.kept (Law.sound_ofFuel _ n) hm h.depth).1
  have h₁ := Nat.lt_of_lt_of_le h.depth hd
  exact after h₁ (body_keeps (Law.sound_ofFuel _ n) hm h₁)

/-- What a program can rely on when an action has led from `m` to `m'`. -/
structure KeepsGlobals (n : Nat) (a : Action) (m m' : Machine) : Prop where
  outermost (id : NameId) : ¬m.scopes.Hides id → m.scopes.lookup id 0 = m.scopes.global? id
  unhidden : m.scopes.depth = 1 → ∀ id, ¬m.scopes.Hides id
  innermost {id : NameId} {k : Nat} {v : Variable} : 0 < k → m.scopes.var? k id = some v →
    (∀ j, k < j → m.scopes.var? j id = none) → m.scopes.lookup id 0 = some v
  accesses {name : String} : a.name? = some name → Accesses name a.writes m m'
  tells (name : String) : ∃ m₁, getBytes name m =
      .ok (((m.names.get? name).bind fun id => m.scopes.lookup id 0).map fun v =>
    bytesLE (m.types.get v.type).valueSize (v.valueIn m.types m.memory).toNat) m₁
  stays {id : NameId} {v : Variable} : id ≠ NameId.result → m.scopes.global? id = some v →
      m'.scopes.global? id = some v
  runs {s : Script} : a.script? = some s → m'.scopes.depth = 1 ∧ ∀ m₁, (ofFuel n).Between s m m₁ →
    (m₁.nativeCalls = m.nativeCalls → m₁.scopes.depth = m.scopes.depth) ∧
    ∀ id v, id ≠ NameId.result → m₁.scopes.global? id = some v → m'.scopes.global? id = some v
  leavesLevels : a.script? = none → m'.nativeCalls = m.nativeCalls → m'.parked = none →
      m'.scopes.depth = m.scopes.depth
  declares {type : Option Variable} {r r' : Reader} {w : Variable} {m₁ m₂ : Machine} :
    (ofFuel n).declaration type r m₁ = .ok (w, r') m₂ → m₁.scopes.depth = 1 → 0 < m₁.frames.size →
    m₂.nativeCalls = m₁.nativeCalls → ∃ id v, w = { v with origin := some { name := id } } ∧
      (id ≠ NameId.result → m₂.scopes.global? id = some v)

/-- A name means the global variable unless an inner level that is still open declares it, and no level is left
open by a run, whatever its outcome, by an access to a variable, or by a call that neither left an error waiting
nor called native code. An access looks at that variable or stores a word in it, and changes nothing else.
Global variables stay, also those that a run has made between two of its commands. -/
theorem actions_address_globals (h : m.Driven) (n : Nat) (a : Action) (hl : (a.perform (ofFuel n)).Leads m m') :
    KeepsGlobals n a m m' := by
  have hm := h.rooted
  have accesses {name : String} (ha : a.name? = some name) : Accesses name a.writes m m' :=
    (perform_accesses (ofFuel n) ha m).leads hl
  refine { outermost := fun id => Scopes.lookup_outermost, unhidden := fun hd id => Scopes.not_hides hd
           innermost := Scopes.lookup_innermost, accesses := accesses, tells := fun name => getBytes_gives name m
           stays := fun {id v} hid hv => ?_, runs := fun {s} hs => ?_, leavesLevels := fun hs hn hp => ?_
           declares := fun {type r r' w m₁ m₂} hdecl hd hf hn => ?_ }
  · cases a with
    | run source => exact (ran_keeps (s := .text source memoryFile) hm hl).1.global Nat.one_pos hid hv
    | runFile path => exact (ran_keeps (s := .file path) hm hl).1.global Nat.one_pos hid hv
    | call addr args => exact ((call_ends n addr args m).leads hl).2.global hm.depth hid hv
    | get | set | getScalar | setScalar | render | typeOf => exact (accesses rfl).same.1 ▸ hv
  · have hl : (finish (ofFuel n) (s.body (ofFuel n))).Leads m m' := by
      cases a with
      | run source => cases hs; exact hl
      | runFile path => cases hs; exact hl
      | call | get | set | getScalar | setScalar | render | typeOf => cases hs
    refine ⟨(hm.after_run hl).depth, fun m₁ h₁ => ⟨?_, fun id v hid hv => ?_⟩⟩
    · exact (h₁.kept (Law.sound_ofFuel _ n) hm.depth).2 hm.frames
    · exact ((ran_keeps hm hl).2 m₁ h₁).global Nat.one_pos hid hv
  · cases a with
    | run | runFile => cases hs
    | call addr args => exact (((call_ends n addr args m).leads hl).1.2 ⟨hn, hm.frames⟩ hp).2
    | get | set | getScalar | setScalar | render | typeOf => rw [(accesses rfl).same.1]
  · obtain ⟨-, hq⟩ := (declaration_adds (Law.sound_ofFuel balance n) type r m₁ (by omega) hf).ok hdecl
    obtain ⟨id, v, hw, hv⟩ := hq hn
    rw [hd] at hv
    exact ⟨id, v, hw, hv⟩

end

end Machine

/-! ## A run that declares -/

namespace Scopes

theorem outer_push (s : Scopes) : s.push.outer = s := by
  rw [outer, push, Array.pop_push]

theorem global?_add {s : Scopes} {id : NameId} (hd : s.depth = 1) (hf : s.isFree id = true) (v : Variable) :
    (s.add id v).global? id = some v := by
  have hlast : s.depth - 1 = 0 := by rw [hd]
  obtain ⟨l, hl⟩ : ∃ l, s.levels[0]? = some l := ⟨_, Array.getElem?_eq_getElem (hd ▸ Nat.one_pos)⟩
  have hnone : l.find? id = none := by
    rw [isFree, hlast, declaresAt_eq, hl, Bool.and_eq_true, Bool.not_eq_true', Bool.not_eq_true'] at hf
    exact Option.isNone_iff_eq_none.mp (Option.isSome_eq_false_iff.mp hf.2)
  show (s.add id v).var? 0 id = _
  rw [add, var?_modifyLevel, if_pos hlast, hl, Option.bind_some, Level.find?_adding, hnone, beq_self_eq_true]
  rfl

end Scopes

namespace Machine

/-- The types and the journal when the type of a declaration has been resolved, in a level of its own. -/
def resolved (m : Machine) : Machine :=
  { m with types := (m.types.constant TypeTable.type).2, journal := .closed m.scopes.depth :: m.journal }

theorem start_isFree {id : NameId} (hne : id ≠ NameId.result) : (start {}).scopes.isFree id = true := by
  have hs : (start {}).scopes =
      ({} : Scopes).push.add NameId.result (.atAddress TypeTable.void 0x200000000000) := rfl
  have hnone : ({} : Level).find? id = none := rfl
  simp [hs, hnone, hne, Scopes.isFree, Scopes.push, Scopes.add, Scopes.modifyLevel, Scopes.depth,
    Scopes.declaresAt_eq, Level.find?_adding]

def numberSlot : UInt64 := 0x200000000010

theorem room_numberSlot : Cell.Room 1 numberSlot := ⟨by decide, by decide, by decide⟩

def declaredNumber : Variable := .atAddress TypeTable.int32 numberSlot

/-- The outermost level has a number named `y`. -/
structure DeclaresNumber (m : Machine) (id : NameId) : Prop where
  name : m.names.get? "y" = some id
  ne : id ≠ NameId.result
  types : TypeTable.initial.Grows m.types
  global : m.scopes.global? id = some declaredNumber

end Machine

namespace Interp

open Exec

theorem Concluded.global {v w : Variable} {m m' : Machine} {id : NameId} (h : Concluded v m m')
    (hne : id ≠ NameId.result) (hg : m.scopes.global? id = some w) : m'.scopes.global? id = some w := by
  rw [h.scopes]
  cases ha : m.scopes.assign NameId.result 0 (.atAddress v.type m.addresses.slot) with
  | none => exact hg
  | some s => exact (Scopes.Declares.assignResult ha 1).kept Nat.one_pos hne hg

/-- The tree of `s32 y`. -/
def declareInt32 (type name : Position) (text : String) : Expr :=
  .mk [.mk type (.baseType false .int32 false), .mk name (.declare false text [] .absent)]

theorem declareInt32_steps {m : Machine} {n : Nat} {names : Names} {text : String} {id : NameId}
    (type name : Position) (hid : names.idOf text = id) (hg : TypeTable.initial.Grows m.types)
    (hp : m.pending = none) (hl : 0 < m.settings.maxStack) (hfree : m.scopes.isFree id = true) :
    Steps (ofFuel (n + 5)).eval ((declareInt32 type name text).encode names) m
      (some { Variable.atAddress TypeTable.int32 m.addresses.slot with origin := some { name := id } })
      (m.resolved.withVariable id TypeTable.int32 0) := by
  let m₁ : Machine := { m.deeper with types := (m.types.constant TypeTable.type).2 }
  let m' : Machine := m.resolved.withVariable id TypeTable.int32 0
  let v : Variable := { Variable.atAddress TypeTable.int32 m.addresses.slot with origin := some { name := id } }
  have hint : TypeTable.primitiveKinds.idxOf? .int32 = some TypeTable.int32 := rfl
  have hbase : Steps ((ofFuel (n + 4)).operand .typeLiteral) ((Form.baseType false .int32 false).operands names) m
      (typeValue TypeTable.int32) m := baseType_steps rfl (by decide)
  have hclose : (ofFuel (n + 4)).closeLevel.Effects m₁ () m.resolved := by
    have hinner : m₁.scopes.innermost? = some {} := Array.back?_push
    have hshallow : m₁.shallower = m.resolved := by
      rw [Machine.shallower, show m₁.scopes.outer = m.scopes from Scopes.outer_push _]
      rfl
    exact hshallow ▸ .closeLevel hinner rfl
  have hresolve : Steps (do (ofFuel (n + 4)).bindGenerics (ofFuel (n + 4)).fuel; resolveType TypeTable.int32)
      (.bool false) m.deeper TypeTable.int32 m₁ := by
    have hbind : Steps ((ofFuel (n + 4)).bindGenerics (ofFuel (n + 4)).fuel) (.bool false) m.deeper () m.deeper :=
      .last (.bool false) (.pure _ _)
    exact .finish hbind (.lift (.resolveType hg hint (by decide)))
  have hdeclare : Steps ((ofFuel (n + 4)).declaration (some (typeValue TypeTable.int32)))
      ((Form.declare false text [] .absent).operands names) m v m' := by
    have h := declaration_steps text hg rfl (declaredType_steps hresolve hclose) (hid ▸ hfree)
    rwa [hid] at h
  have hend : Steps ((ofFuel (n + 4)).nodes (n + 1) [v]) .endMark m' (some v) m' := nodes_end
  have hstack : ([v] : List Variable).length ≤ m.settings.maxStack := hl
  have hname : Steps ((ofFuel (n + 4)).nodes (n + 2) [typeValue TypeTable.int32])
    (.op .declare name ++ (_ ++ .endMark))
      m (some v) m' := nodes_step name (by decide) (node_declare hdeclare) hp hstack hend
  have htype : Steps (ofFuel (n + 5)).eval (.op .typeLiteral type ++ (_ ++ _)) m (some v) m' :=
    nodes_step type (by decide) (node_operand rfl (by decide) hbase) hp hl hname
  simp only [declareInt32, Expr.encode, encodeNodes, Node.encode, Bytecode.append_nil, Bytecode.append_assoc]
  exact htype

def declaringText : String := "s32 y;"

def declaringProgram : Program :=
  ⟨Session.memoryFile, [.mk ⟨1, 1⟩ (.expression (declareInt32 ⟨1, 1⟩ ⟨1, 5⟩ "y"))]⟩

theorem parse_declaring : parse declaringText Session.memoryFile = .ok declaringProgram := by
  cbv

theorem emit_declaring : ∃ names id, (declaringProgram.emit (Machine.start {}).names).2 = names ∧
    names.get? "y" = some id ∧ names.idOf "y" = id ∧ id ≠ NameId.result := by
  let a : Names := Names.initial.internAll [Session.memoryFile, Session.memoryFile]
  let names : Names := Names.initial.internAll [Session.memoryFile, Session.memoryFile, "y"]
  have hemit : (declaringProgram.emit (Machine.start {}).names).2 = names := rfl
  have hget : names.get? "y" = some (a.intern "y").1 := a.get?_intern "y"
  have hsize : names.size ≤ UInt32.size := by
    have h : names.size ≤ Names.initial.size + 3 := Names.size_internAll_le ..
    have hinitial : Names.initial.size ≤ 0 + 8 := Names.size_internAll_le Names.wellKnown .empty
    exact Nat.le_trans h (Nat.le_trans (Nat.add_le_add_right hinitial 3) (by decide))
  have hplaced : names.Placed := (declaringProgram.emit_placed [Session.memoryFile] hemit hsize).1
  refine ⟨names, _, hemit, hget, by rw [Names.idOf, hget]; rfl, fun he => ?_⟩
  have hy := hplaced.text_eq hget
  rw [he, hplaced.text_eq (Names.get?_result _)] at hy
  exact absurd hy (by decide)

theorem declaring_runs : ∃ m id, m.DeclaresNumber id ∧
    Session.finish (ofFuel 10) ((ofFuel 10).runSource declaringText Session.memoryFile) (Machine.start {}) =
      .ok () m := by
  obtain ⟨names, id, hnames, hget, hid, hne⟩ := emit_declaring
  let v : Variable := { Machine.declaredNumber with origin := some { name := id } }
  let m := compiledStart names
  let m₁ := m.resolved.withVariable id TypeTable.int32 0
  have hlength : (declaringProgram.encode names).size < UInt32.size := by
    rw [declaringProgram.size_eq names .initial]
    decide +kernel
  have hfree : m.scopes.isFree id = true := Machine.start_isFree hne
  have hdeclare : Steps (ofFuel 9).eval ((declareInt32 ⟨1, 1⟩ ⟨1, 5⟩ "y").encode names) m (some v) m₁ := by
    have hl : 0 < ({} : Settings).maxStack := by decide
    exact declareInt32_steps (n := 4) ⟨1, 1⟩ ⟨1, 5⟩ hid (.refl _) rfl hl hfree
  have hreads : m₁.Reads v := by
    rintro addr ⟨⟩
    rw [Machine.canAccess, Machine.room_numberSlot.isValid, Bool.or_true]
  have hdepth : m₁.scopes.depth = 1 := Scopes.depth_modifyLevel _ _ _
  obtain ⟨m', hrun, hend⟩ := finish_steps (n := 7) parse_declaring hnames hlength (expression_steps hdeclare rfl)
    rfl rfl hreads hdepth
  have hglobal : m₁.scopes.global? id = some Machine.declaredNumber := Scopes.global?_add rfl hfree _
  exact ⟨m', id, ⟨hend.names ▸ hget, hne, hend.types ▸ TypeTable.constant_grows _ _, hend.global hne hglobal⟩, hrun⟩

end Interp

namespace Machine

open Exec Interp Session

section
variable {m : Machine} {id : NameId} (h : DeclaresNumber m id)
include h

theorem type_declared : m.types.get TypeTable.int32 = TypeTable.plainInfo .int32 {} :=
  TypeTable.get_eq (h.types _ _ (TypeTable.stocked_initial.primitive rfl))

theorem setBytes_declared (hl : m.scopes.lookup id 0 = some declaredNumber) : setBytes "y" [7, 0, 0, 0] m =
    .ok true { m with memory := m.memory.withCell m.types numberSlot TypeTable.int32 7 } := by
  have ht := type_declared h
  have hsize : (m.types.get TypeTable.int32).valueSize ≠ 0 := by
    rw [ht]
    decide
  have hstored : m.stored declaredNumber 7 =
      { m with memory := m.memory.withCell m.types numberSlot TypeTable.int32 7 } := by
    rw [Memory.withCell, if_neg hsize]
    exact (if_neg hsize).trans (if_pos room_numberSlot.isValid)
  have hfound : global? "y" m = .ok (some declaredNumber) m := by
    show EStateM.Result.ok ((m.names.get? "y").bind fun id => m.scopes.lookup id 0) m = _
    rw [h.name, Option.bind_some, hl]
  have htype : typeInfo declaredNumber.type m = .ok (TypeTable.plainInfo .int32 {}) m := by
    show EStateM.Result.ok (m.types.get TypeTable.int32) m = _
    rw [ht]
  rw [setBytes, bind_ok hfound]
  dsimp only
  rw [bind_ok htype]
  exact (bind_ok (store_eq declaredNumber 7 m)).trans (congrArg (EStateM.Result.ok true) hstored)

theorem told_declared : bytesLE (m.types.get declaredNumber.type).valueSize
    (declaredNumber.valueIn m.types (m.memory.withCell m.types numberSlot TypeTable.int32 7)).toNat =
    [7, 0, 0, 0] := by
  rw [show declaredNumber.valueIn m.types _ = _ from Memory.valueIn_withCell room_numberSlot TypeTable.int32 7,
    show m.types.get declaredNumber.type = _ from type_declared h, type_declared h]
  rfl

end

theorem actions_address_globals_declared : ∃ m₁ m₂ m₃ id,
    (Action.run declaringText).perform (ofFuel 10) (start {}) = .ok () m₁ ∧ m₁.names.get? "y" = some id ∧
      m₁.scopes.global? id = some declaredNumber ∧ m₁.scopes.depth = 1 ∧
      (Action.set "y" [7, 0, 0, 0]).perform (ofFuel 10) m₁ = .ok () m₂ ∧ Accesses "y" true m₁ m₂ ∧
      m₂.scopes.global? id = some declaredNumber ∧ getBytes "y" m₂ = .ok (some [7, 0, 0, 0]) m₃ := by
  obtain ⟨m₁, id, h, hran⟩ := declaring_runs
  have hstart : (start {}).Driven := .start ⟨rfl, rfl, rfl, rfl, rfl, rfl⟩
  have hrun : ((Action.run declaringText).perform (ofFuel 10)).Leads (start {}) m₁ := .inl ⟨(), hran⟩
  have hdepth := ((actions_address_globals hstart 10 _ hrun).runs rfl).1
  have hlookup : m₁.scopes.lookup id 0 = some declaredNumber :=
    (Scopes.lookup_outermost (Scopes.not_hides hdepth)).trans h.global
  have hstored : (Action.set "y" [7, 0, 0, 0]).perform (ofFuel 10) m₁ = .ok () _ :=
    bind_ok (setBytes_declared h hlookup)
  have hset : ((Action.set "y" [7, 0, 0, 0]).perform (ofFuel 10)).Leads m₁ _ := .inl ⟨(), hstored⟩
  have hkeeps := actions_address_globals (hstart.act 10 _ hrun) 10 _ hset
  obtain ⟨m₃, hread⟩ :=
    getBytes_gives "y" { m₁ with memory := m₁.memory.withCell m₁.types numberSlot TypeTable.int32 7 }
  have hget : ((Action.get "y").perform (ofFuel 10)).Leads _ m₃ := .inl ⟨(), bind_ok hread⟩
  obtain ⟨m₄, htold⟩ := (actions_address_globals ((hstart.act 10 _ hrun).act 10 _ hset) 10 _ hget).tells "y"
  dsimp only at htold
  rw [h.name, Option.bind_some, hlookup, Option.map_some, told_declared h] at htold
  exact ⟨m₁, _, m₄, id, hran, h.name, h.global, hdepth, hstored, hkeeps.accesses rfl,
    hkeeps.stays h.ne h.global, htold⟩

end Machine

end LevelScript
