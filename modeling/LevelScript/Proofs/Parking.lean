import LevelScript.Proofs.Balance
import LevelScript.Session

/-!
# Errors of callbacks

An error in a script function that native code calls waits until the native code has returned. There
is one place to wait in, and every native call takes what it finds there on its return, also one that
a later callback makes.
-/

namespace LevelScript

/-! ## What scripts do to an error that waits -/

/-- An error that waits still does, unless native code was called. -/
def Machine.Parks (m m' : Machine) : Prop :=
  m.nativeCalls ≤ m'.nativeCalls ∧
    (m'.parked = m.parked ∨ m'.parked = none ∧ m.nativeCalls < m'.nativeCalls)

theorem Machine.Parks.trans {a b c : Machine} (h : a.Parks b) (h' : b.Parks c) : a.Parks c := by
  obtain ⟨hn, hp⟩ := h
  obtain ⟨hn', hp'⟩ := h'
  refine ⟨Nat.le_trans hn hn', ?_⟩
  obtain hp' | ⟨hp', ht'⟩ := hp'
  · rw [hp']
    exact hp.imp_right fun ⟨hp, ht⟩ => ⟨hp, by omega⟩
  · exact .inr ⟨hp', by omega⟩

theorem Machine.Parks.of_eq {m m' : Machine} (hn : m'.nativeCalls = m.nativeCalls) (hp : m'.parked = m.parked) :
    m.Parks m' := ⟨Nat.le_of_eq hn.symm, .inl hp⟩

def ParksAt (d : Nat) (m m' : Machine) : Prop := d ≤ m'.scopes.depth ∧ m.Parks m'

section
variable {d e : Nat} {a b c m m' : Machine}

theorem ParksAt.trans (h : ParksAt d a b) (h' : ParksAt b.scopes.depth b c) : ParksAt d a c :=
  ⟨Nat.le_trans h.1 h'.1, h.2.trans h'.2⟩

theorem ParksAt.of_eq (hd : m'.scopes.depth = m.scopes.depth) (hn : m'.nativeCalls = m.nativeCalls)
    (hp : m'.parked = m.parked) : ParksAt m.scopes.depth m m' := ⟨Nat.le_of_eq hd.symm, .of_eq hn hp⟩

theorem ParksAt.closed (h : ParksAt e a b) (hd : d < b.scopes.depth) (h' : ParksAt (b.scopes.depth - 1) b c) :
    ParksAt d a c := ⟨by have := h'.1; omega, h.2.trans h'.2⟩

end

def parking : Law where
  kept m := ParksAt m.scopes.depth m
  during d _ := ParksAt d
  above d _ := ParksAt d
  failed m := ParksAt m.scopes.depth m
  wild m m' := m.scopes.depth ≤ m'.scopes.depth ∧ m.nativeCalls ≤ m'.nativeCalls
  kept_trans := .trans
  during_kept h := h
  during_step := .trans
  failed_during h := h
  failed_trans := .trans
  failed_depth h hm := Nat.lt_of_lt_of_le hm h.1
  wild_failed h := ⟨h.1, h.2.1⟩
  wild_trans h h' := ⟨Nat.le_trans h.1 h'.1, Nat.le_trans h.2 h'.2⟩
  wild_parked m e := ⟨Nat.le_refl _, Nat.le_refl _⟩
  calmly h := .of_eq h.depth (congrArg (List.countP _) h.journal) h.parked
  control m c := .of_eq rfl rfl rfl
  place m row col := .of_eq rfl rfl rfl
  place_back h := h
  opened h := h
  opened_failed {m m'} h := ⟨by have := h.1; rw [m.depth_deeper] at this; omega, h.2⟩
  closing {m l} _ := ⟨Nat.le_of_eq (Scopes.depth_outer _).symm, .of_eq rfl rfl⟩
  dead h _ := h
  handedOver {d id ids m m' a} h _ := h.trans (.of_eq rfl (Machine.nativeCalls_noted _ _) rfl)
  closed h h' := h.closed h.1 h'
  closed_failed {m m₁ m₂} h h' := by
    have hd := h.1
    rw [m.depth_deeper] at hd
    exact ParksAt.closed h hd h'
  recovering h h' := h.trans h'
  leaving h := ⟨Nat.le_of_succ_le h.1, h.2⟩
  above_closed h hd h' := h.closed hd h'
  above_done h _ := h
  called _ h := h
  called_failed {m m' f} _ h :=
    ⟨by have : m.scopes.push.depth ≤ _ := h.1; rw [Scopes.depth_push] at this; omega, h.2⟩
  calledNative {m m' addr} h hp := by
    have hn := h.2
    rw [Machine.nativeCalls_noted] at hn
    simp only [Event.isNativeCall, if_true] at hn
    refine ⟨h.1, by omega, ?_⟩
    obtain hp | hp := hp
    · exact .inr ⟨hp, by omega⟩
    · exact .inl hp
  filed h := h
  filed_failed h := h
  added size type inner cleanup _ := .of_eq (Scopes.depth_modifyLevel ..) rfl rfl
  created f inner hs h _ _ _ _ :=
    have ⟨h, hp⟩ := Exec.newStub_steady hs h
    (ParksAt.of_eq h.depth (congrArg (List.countP _) h.journal) hp).trans
      (.of_eq (Scopes.depth_modifyLevel ..) rfl rfl)
  released _ := .of_eq rfl rfl rfl
  moved {m addr id level} _ _ := .of_eq (m.depth_moved id level) (m.nativeCalls_moved id level) rfl
  freed _ := .of_eq (Scopes.depth_modifyLevel ..) rfl rfl

/-! ## Callbacks -/

/-- A call of a script function that native code has made: the machine before and after it, and the
error it failed with. -/
structure Callback where
  start : Machine
  stop : Machine
  error : Option RunError

namespace Callback

def Quiet (c : Callback) : Prop := c.stop.nativeCalls = c.start.nativeCalls

def takes (c : Callback) : Bool := c.start.parked.isSome && c.stop.parked.isNone

/-- The machine in which its error waits, unless another one does. -/
def after (c : Callback) : Machine := { c.stop with parked := c.stop.parked <|> c.error }

theorem after_none (m m' : Machine) : after ⟨m, m', none⟩ = m' := by simp [after]

end Callback

def waiting (e : Option RunError) : List Callback → Option RunError
  | [] => e
  | c :: cs => waiting ((if c.takes then none else e) <|> c.error) cs

def firstError (cs : List Callback) : Option RunError := cs.findSome? Callback.error

/-- From the first one that fails on, the callbacks call no native code. -/
def QuietAfterError : List Callback → Prop
  | [] => True
  | c :: cs => if c.error.isSome then ∀ d ∈ cs, d.Quiet else QuietAfterError cs

theorem waiting_untaken {cs : List Callback} (h : ∀ c ∈ cs, c.takes = false) (e : Option RunError) :
    waiting e cs = (e <|> firstError cs) := by
  induction cs generalizing e with
  | nil => cases e <;> rfl
  | cons c cs ih =>
    rw [waiting, h c List.mem_cons_self, ih fun d hd => h d (List.mem_cons_of_mem c hd)]
    cases e <;> cases he : c.error <;> simp [firstError, he]

namespace Interp

open Exec Law

/-- The callback is one that native code can make. -/
def Enters (i : Interp) (c : Callback) : Prop :=
  ∃ type id words, match c.error with
    | none => ∃ bits, i.enterStub type id words c.start = .ok bits c.stop
    | some e => i.enterStub type id words c.start = .error (.raised e) c.stop

/-- Native code makes these callbacks, in this order; all else that it changes is memory and what it
has printed. -/
inductive CallsBack (i : Interp) : Machine → List Callback → Machine → Prop
  | rest (m : Machine) (memory : Memory) (lines : Array String) : i.CallsBack m [] { m with memory, lines }
  | call {m m' : Machine} {c : Callback} {cs : List Callback} (memory : Memory) (lines : Array String) :
    c.start = { m with memory, lines } → i.Enters c → i.CallsBack c.after cs m' → i.CallsBack m (c :: cs) m'

section
variable {i : Interp} {m m₁ m' : Machine} {cs ds : List Callback}

theorem CallsBack.trans (h : i.CallsBack m cs m₁) (h' : i.CallsBack m₁ ds m') : i.CallsBack m (cs ++ ds) m' := by
  induction h with
  | rest m memory lines =>
    cases h' with
    | rest _ memory' lines' => exact .rest m memory' lines'
    | call memory' lines' hs hc hr => exact .call memory' lines' hs hc hr
  | call memory lines hs hc _ ih => exact .call memory lines hs hc (ih h')

theorem CallsBack.refl (i : Interp) (m : Machine) : i.CallsBack m [] m := .rest m m.memory m.lines

theorem CallsBack.one {c : Callback} (hc : i.Enters c) : i.CallsBack c.start [c] c.after :=
  .call c.start.memory c.start.lines rfl hc (.refl i c.after)

theorem Enters.parks (hi : parking.Sound i) {c : Callback} (h : i.Enters c) : c.start.Parks c.stop := by
  obtain ⟨type, id, words, h⟩ := h
  have he := enterStub_calls hi type id words c.start
  split at h
  · obtain ⟨bits, h⟩ := h
    exact (he.ok h).2
  · exact (he.raised h).2

theorem Enters.not_quiet (hi : parking.Sound i) {c : Callback} (h : i.Enters c) (ht : c.takes = true) :
    ¬ c.Quiet := by
  intro hq
  rw [Callback.takes, Bool.and_eq_true, Option.isNone_iff_eq_none] at ht
  obtain hp | ⟨-, hn⟩ := (h.parks hi).2
  · rw [← hp, ht.2] at ht
    exact absurd ht.1 nofun
  · rw [Callback.Quiet] at hq
    omega

theorem CallsBack.enters (h : i.CallsBack m cs m') : ∀ c ∈ cs, i.Enters c := by
  intro d hd
  induction h with
  | rest => cases hd
  | call _ _ _ hc _ ih =>
    obtain rfl | hd := List.mem_cons.mp hd
    · exact hc
    · exact ih hd

/-- An error waits in one place, for all callbacks. -/
theorem CallsBack.parked (hi : parking.Sound i) (h : i.CallsBack m cs m') : m'.parked = waiting m.parked cs := by
  induction h with
  | rest => rfl
  | @call m m' c cs memory lines hs hc _ ih =>
    have hp : c.start.parked = m.parked := hs ▸ rfl
    rw [ih, waiting, ← hp]
    show waiting (c.stop.parked <|> c.error) cs = _
    congr 2
    obtain hk | ⟨hk, -⟩ := (hc.parks hi).2
    · rw [Callback.takes, hk]
      cases c.start.parked <;> rfl
    · rw [Callback.takes, hk]
      cases c.start.parked <;> rfl

theorem CallsBack.waiting_quiet (hi : parking.Sound i) (h : i.CallsBack m cs m') (hq : ∀ c ∈ cs, c.Quiet)
    (e : Option RunError) : waiting e cs = (e <|> firstError cs) := by
  refine waiting_untaken (fun c hc => ?_) e
  rw [← Bool.not_eq_true]
  exact fun ht => (h.enters c hc).not_quiet hi ht (hq c hc)

/-- The first error stays if no later callback calls native code. -/
theorem CallsBack.waiting_first (hi : parking.Sound i) (h : i.CallsBack m cs m') (hq : QuietAfterError cs) :
    waiting none cs = firstError cs := by
  induction h with
  | rest => rfl
  | @call m m' c cs memory lines hs hc hr ih =>
    rw [waiting, ite_self, firstError, List.findSome?_cons]
    rw [QuietAfterError] at hq
    cases he : c.error with
    | none =>
      rw [he] at hq
      exact ih hq
    | some e =>
      rw [he] at hq
      exact hr.waiting_quiet hi hq (some e)

/-! ## Native code -/

def MakesCalls (i : Interp) (x : Exec α) : Prop :=
  ∀ m, x.Ends m (fun _ m' => ∃ cs, i.CallsBack m cs m') (fun _ _ => False)

theorem MakesCalls.bind {α β : Type} {x : Exec α} {f : α → Exec β} (hx : i.MakesCalls x)
    (hf : ∀ a, i.MakesCalls (f a)) : i.MakesCalls (x >>= f) := by
  intro m
  refine (hx m).bind (fun a m₁ ⟨cs, h₁⟩ => ?_) (fun _ _ h => h)
  exact (hf a m₁).mono (fun _ _ ⟨ds, h⟩ => ⟨cs ++ ds, h₁.trans h⟩) (fun _ _ h => h)

theorem runNative_makesCalls {enter : UInt64 → List NativeArg → Exec (Except UInt64 NativeResult)}
    (he : ∀ addr args, i.MakesCalls (enter addr args)) (action : NativeAction) :
    i.MakesCalls (runNative enter action) := by
  have none {α : Type} (a : α) : i.MakesCalls (pure a) := fun m => ⟨[], .refl i m⟩
  have get : i.MakesCalls get := fun m => ⟨[], .refl i m⟩
  induction action with
  | done result => exact none _
  | print line next ih => exact .bind (fun m => ⟨[], .rest m m.memory (m.lines.push line)⟩) fun _ => ih
  | read addr next ih =>
    rw [runNative]
    split
    · exact .bind get fun _ => ih _
    · exact none _
  | write addr bits next ih =>
    exact .bind (fun m => ⟨[], .rest m (m.memory.write addr 8 bits) m.lines⟩) fun _ => ih
  | readText addr next ih =>
    rw [runNative]
    split
    · exact .bind get fun _ => ih _
    · exact none _
  | call code args next ih =>
    rw [runNative]
    refine .bind (he code args) fun result => ?_
    cases result with
    | ok result => exact ih result
    | error addr => exact none _

theorem enterCode_makesCalls (i : Interp) (n : Nat) (addr : UInt64) (args : List NativeArg) :
    i.MakesCalls (i.enterCode n addr args) := by
  induction n generalizing addr args with
  | zero => exact fun _ => trivial
  | succ n ih =>
    intro m
    refine ends_get.mpr ?_
    dsimp only
    split
    · exact ⟨[], .refl i m⟩
    · exact runNative_makesCalls ih _ m
    case h_3 type id _ =>
      refine ends_bind.mpr (ends_attempt.mpr (ends_iff.mpr ⟨fun bits m₁ h => ?_, fun e m₁ h => ?_⟩))
      · have hc : i.Enters ⟨m, m₁, none⟩ := ⟨type, id, _, bits, h⟩
        have h₁ := CallsBack.one hc
        rw [Callback.after_none] at h₁
        exact ⟨_, h₁⟩
      · have hc : i.Enters ⟨m, m₁, some e⟩ := ⟨type, id, _, h⟩
        exact ⟨_, CallsBack.one hc⟩

/-- A native call that has made these callbacks; nothing waits after it. -/
def CallsNative (i : Interp) (addr : UInt64) (m : Machine) (cs : List Callback) (m' : Machine) : Prop :=
  ∃ m₀ m₁, (m.noted (.nativeCall addr)).Calm m₀ ∧ i.CallsBack m₀ cs m₁ ∧ m' = { m₁ with parked := none }

theorem callNative_callsNative (hi : parking.Sound i) (addr : UInt64) (result : TypeId) (fixed : Nat)
    (args : List Variable) (m : Machine) :
    (i.callNative addr result false fixed args).Ends m
      (fun _ m' => ∃ cs, i.CallsNative addr m cs m' ∧ waiting m.parked cs = none)
      (fun e m' => ∃ cs, i.CallsNative addr m cs m' ∧
        ((∃ a, e.cause = .fault a) ∨ waiting m.parked cs = some e)) := by
  refine ends_modify.mpr ?_
  change Ends (nativeArguments fixed args >>= _) (m.noted (.nativeCall addr)) _ _
  refine (nativeArguments_smooth fixed args _).bind (fun args m₀ h₀ => ?_) (fun _ _ h => h.elim)
  refine (enterCode_makesCalls i _ _ _ m₀).bind (fun outcome m₁ ⟨cs, h₁⟩ => ?_) (fun _ _ h => h.elim)
  have hw := h₁.parked hi
  rw [h₀.parked] at hw
  refine (nativeEnd_ends result outcome m₁).mono (fun _ m' ⟨hm, h⟩ => ?_) (fun e m' ⟨hm, h⟩ => ?_)
  · exact ⟨cs, ⟨m₀, m₁, h₀, h₁, hm⟩, hw ▸ h⟩
  · exact ⟨cs, ⟨m₀, m₁, h₀, h₁, hm⟩, hw ▸ h⟩

end

open Session in
/-- A native call raises the error that waits when its code has returned, and only that, once, with the
levels and calls of its caller still there. This is the first error of its callbacks if nothing
waited before and, from that error on, its callbacks call no native code; for a native call inside a
callback takes what waits, as its own. A callback outside of all native calls leaves its error to the
next one. -/
theorem native_call_raises_waiting (n : Nat) (addr : UInt64) (result : TypeId) (fixed : Nat) (args : List Variable)
    (m : Machine) :
    let i := ofFuel n
    (i.callNative addr result false fixed args).Ends m
      (fun _ m' => Holds m.scopes.depth m m' ∧ m'.parked = none ∧
        ∃ cs, i.CallsNative addr m cs m' ∧ waiting m.parked cs = none)
      (fun e m' => Holds m.scopes.depth m m' ∧ m'.parked = none ∧
        ∃ cs, i.CallsNative addr m cs m' ∧ ((∃ a, e.cause = .fault a) ∨ waiting m.parked cs = some e)) ∧
    (∀ cs m', i.CallsNative addr m cs m' →
      (QuietAfterError cs → waiting none cs = firstError cs) ∧
      (∀ e, (∀ c ∈ cs, c.Quiet) → waiting (some e) cs = some e) ∧
      ∀ c ∈ cs, c.takes = true → ¬ c.Quiet) ∧
    (∀ words, (callCode i addr words).Ends m
      (fun _ m' => m' = m ∨ ∃ cs, i.CallsBack m cs m' ∧ m'.parked = waiting m.parked cs) (fun _ _ => False)) ∧
    (0 < m.scopes.depth → m.parked = none → ∀ text file,
      (i.runSource text file).Ends m (fun _ m' => m'.parked = none) (fun _ m' => m'.parked = none)) := by
  intro i
  have hi : parking.Sound i := sound_ofFuel parking n
  have hb : balance.Sound i := sound_ofFuel balance n
  refine ⟨?_, fun cs m' ⟨m₀, m₁, h₀, h₁, _⟩ => ⟨h₁.waiting_first hi, fun e hq => ?_, fun c hc ht => ?_⟩,
    fun words => ?_, fun hd hp text file => ?_⟩
  · have h := (callNative_calls hb addr result false fixed args m).and
      (callNative_callsNative hi addr result fixed args m)
    refine h.mono (fun _ m' ⟨hk, cs, hc, hw⟩ => ⟨hk.1, ?_, cs, hc, hw⟩)
      (fun e m' ⟨hk, cs, hc, hw⟩ => ⟨hk, ?_, cs, hc, hw⟩)
    · obtain ⟨_, _, _, _, rfl⟩ := hc
      rfl
    · obtain ⟨_, _, _, _, rfl⟩ := hc
      rfl
  · rw [h₁.waiting_quiet hi hq]
    rfl
  · exact (h₁.enters c hc).not_quiet hi ht
  · unfold callCode
    split
    · exact .inl rfl
    · refine (enterCode_makesCalls i _ _ _ m).bind (fun outcome m₁ ⟨cs, h₁⟩ => ?_) (fun _ _ h => h)
      cases outcome <;> exact .inr ⟨cs, h₁, h₁.parked hi⟩
  · have none {m' : Machine} (h : m.Parks m') : m'.parked = none := by
      obtain h | h := h.2
      · exact h.trans hp
      · exact h.1
    exact (runSource_obeys hi text file m hd).mono (fun _ _ h => none h.2) (fun _ _ h => none h.2)

theorem enterCode_native (i : Interp) {n : Nat} {addr : UInt64} (args : List NativeArg) {f : NativeFunction}
    {m : Machine} (hc : m.code[addr]? = some (.native f)) :
    i.enterCode (n + 1) addr args m =
      runNative (i.enterCode n) (f.run ((CallFrame.systemV args).arguments f.params)) m := by
  rw [enterCode, get_bind, hc]

/-- Code that enters a script function which has been released. -/
theorem enterCode_released (i : Interp) {n : Nat} {addr : UInt64} (args : List NativeArg) {type : TypeId} {id : Nat}
    {m : Machine} (hc : m.code[addr]? = some (.stub type id)) (hf : m.functions.get? id = none) :
    i.enterCode (n + 1) addr args m = .ok (.ok {})
    { m with parked := m.parked <|> some ⟨.callUnset, m.trace⟩ } := by
  have he (words : List UInt64) : i.enterStub type id words m = .error (.raised ⟨.callUnset, m.trace⟩) m := by
    rw [enterStub, get_bind, hf]
    rfl
  have ha (words : List UInt64) :
      attempt (i.enterStub type id words) m = .ok (.error ⟨.callUnset, m.trace⟩) m := by rw [attempt, he]
  rw [enterCode, get_bind, hc]
  exact bind_ok (ha _)

def callsTwice : NativeFunction :=
  { params := [], run := fun _ => .call 32 [] fun _ => .call 32 [] fun _ => .done {} }

def callsReleased : Machine :=
  { Machine.start {} with
    code := (Std.HashMap.insert ∅ 16 (.native callsTwice)).insert 32 (.stub TypeTable.void 0) }

theorem native_call_raises_waiting_released : ∃ e m' cs,
    (ofFuel 4).callNative 16 TypeTable.void false 0 [] callsReleased = .error (.raised e) m' ∧
      e.cause = .callUnset ∧ (ofFuel 4).CallsNative 16 callsReleased cs m' ∧ waiting none cs = some e := by
  have hr : ∃ m', (ofFuel 4).callNative 16 TypeTable.void false 0 [] callsReleased =
      .error (.raised ⟨.callUnset, callsReleased.trace⟩) m' := by
    let m := callsReleased.noted (.nativeCall 16)
    let e : RunError := ⟨.callUnset, m.trace⟩
    have h₁ : m.code[(16 : UInt64)]? = some (.native callsTwice) := by
      simp [m, Machine.noted, callsReleased, Std.HashMap.getElem_insert]
    have h₂ : m.code[(32 : UInt64)]? = some (.stub TypeTable.void 0) := by simp [m, Machine.noted, callsReleased]
    have he : (ofFuel 4).enterCode 3 16 [] m = .ok (.ok {}) { m with parked := some e } := by
      rw [enterCode_native _ [] h₁, callsTwice, runNative, bind_ok (enterCode_released _ [] h₂ rfl)]
      dsimp only
      rw [runNative]
      exact bind_ok (enterCode_released _ [] (m := { m with parked := some e }) h₂ rfl)
    exact ⟨{ m with parked := none }, bind_ok he⟩
  obtain ⟨m', hr⟩ := hr
  obtain ⟨-, -, cs, hc, hw⟩ := (native_call_raises_waiting 4 16 TypeTable.void 0 [] callsReleased).1.raised hr
  exact ⟨_, m', cs, hr, rfl, hc, hw.resolve_left (by rintro ⟨_, ⟨⟩⟩)⟩

end Interp

end LevelScript
