import LevelScript.Proofs.Steady

/-!
# Laws of the machine

A law relates a machine to what a run makes of it. Which relations can hold is decided by few
steps: opening and closing a level, a call, a place, an allocation, a handler that goes back to
where it began. `Law` asks for these steps only; what the parts of the interpreter owe to a law
follows from them.
-/

namespace LevelScript

namespace Machine

/-! ## Steps -/

def deeper (m : Machine) : Machine := { m with scopes := m.scopes.push }

/-- The innermost level is gone; what it owned is still there. -/
def shallower (m : Machine) : Machine :=
  { m with scopes := m.scopes.outer, journal := .closed m.scopes.outer.depth :: m.journal }

def entered (m : Machine) (f : Frame) : Machine :=
  { m with frames := m.frames.push f, scopes := m.scopes.push }

def left (m : Machine) : Machine := { m with frames := m.frames.pop }

def cutTo (m : Machine) (frames : Nat) : Machine :=
  { m with frames := m.frames.take (max frames 1) }

def withFile (m : Machine) (index : Nat) (file : NameId) : Machine :=
  { m with frames := m.frames.modify index ({ · with file }) }

def withFunctions (m : Machine) (functions : FunctionTable) : Machine := { m with functions }

def noted (m : Machine) (e : Event) : Machine := { m with journal := e :: m.journal }

def taken (m : Machine) (id : AllocId) (a : Allocation) : Machine :=
  { m with heap := m.heap.remove id a.addr }

def handedOver (m : Machine) (id : AllocId) (a : Allocation) : Machine :=
  (m.taken id a).noted (.finalized a.seq)

def disowned (m : Machine) (id : AllocId) (a : Allocation) : Machine :=
  { m with scopes := m.scopes.removeAlloc a.level id, journal := .deleted a.seq :: m.journal }

def allocated (m : Machine) (level : Nat) (a : AllocId × Heap) : Machine :=
  { m with
    heap := a.2
    scopes := m.scopes.addAlloc level a.1
    journal := .placed m.heap.nextSeq level :: m.journal }

def moved (m : Machine) (id : AllocId) (level : Nat) : Machine :=
  let scopes := match m.heap.get? id with
    | some a => m.scopes.removeAlloc a.level id
    | none => m.scopes
  { m with
    heap := m.heap.setLevel id level
    scopes := scopes.addAlloc level id
    journal := match m.heap.get? id with
      | some a => .placed a.seq level :: m.journal
      | none => m.journal }

end Machine

namespace Exec

/-- A number and an address for a function are used again, or they are new ones. -/
theorem newStub_cases {type : TypeId} {found : Nat × UInt64} {m m₁ : Machine} (h : newStub type m = .ok found m₁) :
    (∃ functions, m.functions.reuse type = some (found, functions) ∧ m₁ = m.withFunctions functions) ∨
      found = (m.functions.nextId, m.addresses.stub) ∧ m₁ = { m with
        code := m.code.insert m.addresses.stub (.stub type m.functions.nextId)
        addresses := { m.addresses with stub := m.addresses.stub + 16 } } := by
  rw [newStub] at h
  change (modifyGet _ : Exec (Nat × UInt64)) m = _ at h
  rw [modifyGet_eq] at h
  split at h
  case h_1 functions hr =>
    cases h
    exact .inl ⟨functions, hr, rfl⟩
  case h_2 =>
    cases h
    exact .inr ⟨rfl, rfl⟩

theorem newStub_ok {type : TypeId} {found : Nat × UInt64} {m m₁ : Machine} (h : newStub type m = .ok found m₁) :
    ∃ functions code addresses, m₁ = { m with functions, code, addresses } := by
  obtain ⟨functions, -, rfl⟩ | ⟨-, rfl⟩ := newStub_cases h
  · exact ⟨functions, m.code, m.addresses, rfl⟩
  · exact ⟨m.functions, _, _, rfl⟩

/-- A new function is made without a change of levels, calls or allocations. -/
theorem newStub_steady {type : TypeId} {found : Nat × UInt64} {m m₁ m₂ : Machine}
    (h : newStub type m = .ok found m₁) (h' : m₁.Calm m₂) : m.Steady m₂ ∧ m₂.parked = m.parked := by
  obtain ⟨functions, code, addresses, rfl⟩ := newStub_ok h
  exact ⟨⟨h'.heap, h'.owned, h'.frames, h'.control, h'.journal⟩, h'.parked⟩

end Exec

/-- A function that is made once for each place captures nothing, and its key is the place. -/
def ScriptFunction.Keyed (f : ScriptFunction) : Prop :=
  ∀ key, f.key = some key → key = (f.chunk.serial, f.entry) ∧ f.capture = .nothing

/-! ## Laws -/

/-- The relations of a law, and the steps that they allow. -/
structure Law where
  kept : Machine → Machine → Prop
  /-- `d` levels are open, and of the level that was closed last `ids` are still to be released. Only
  the place of the innermost call may be another one. -/
  during (d : Nat) (ids : List AllocId) : Machine → Machine → Prop
  /-- The same on the way back from an error: there may be more than `d` levels. -/
  above (d : Nat) (ids : List AllocId) : Machine → Machine → Prop
  failed : Machine → Machine → Prop
  wild : Machine → Machine → Prop
  kept_trans {a b c} : kept a b → kept b c → kept a c
  during_kept {m m'} : kept m m' → during m.scopes.depth [] m m'
  during_step {d ids m m₁ m₂} :
    during d ids m m₁ → during m₁.scopes.depth [] m₁ m₂ → during d ids m m₂
  failed_during {m m'} : during m.scopes.depth [] m m' → failed m m'
  failed_trans {a b c} : failed a b → failed b c → failed a c
  failed_depth {m m'} : failed m m' → 0 < m.scopes.depth → 0 < m'.scopes.depth
  wild_failed {m m'} : failed m m' → wild m m'
  wild_trans {a b c} : wild a b → wild b c → wild a c
  wild_parked (m e) : wild m { m with parked := e }
  calmly {m m'} : m.Calm m' → kept m m'
  control (m c) : kept m { m with control := c }
  place (m row col) : during m.scopes.depth [] m (m.setPosition row col)
  place_back {m m' row col} : during m.scopes.depth [] (m.setPosition row col) m' →
    kept m (m'.setPosition m.frame.row m.frame.col)
  -- levels
  opened {m m'} : during m.scopes.depth [] m.deeper m' → during m.scopes.depth [] m m'
  opened_failed {m m'} : failed m.deeper m' → failed m m'
  closing {m l} : m.scopes.innermost? = some l →
    during (m.scopes.depth - 1) (m.heap.releaseOrder l.allocs.toList) m m.shallower
  dead {d id ids m m'} : during d (id :: ids) m m' → m'.heap.get? id = none → during d ids m m'
  handedOver {d id ids m m' a} : during d (id :: ids) m m' → m'.heap.get? id = some a →
    during d ids m (m'.handedOver id a)
  closed {d m m₁ m₂} : during (d + 1) [] m m₁ → during (m₁.scopes.depth - 1) [] m₁ m₂ →
    during d [] m m₂
  closed_failed {m m₁ m₂} : failed m.deeper m₁ → during (m₁.scopes.depth - 1) [] m₁ m₂ →
    failed m m₂
  -- the way back
  recovering {d ids m m₁ m₂} : during d ids m m₁ → failed m₁ m₂ →
    above d ids m (m₂.cutTo m₁.frames.size)
  leaving {d m m'} : during (d + 1) [] m m' → above d [] m m'
  above_closed {d ids m m₁ m₂} : above d ids m m₁ → d < m₁.scopes.depth →
    during (m₁.scopes.depth - 1) [] m₁ m₂ → above d ids m m₂
  above_done {d ids m m'} : above d ids m m' → m'.scopes.depth ≤ d → during d ids m m'
  -- calls and texts
  called {m m' f} : f.base = m.scopes.depth → during m.scopes.depth [] (m.entered f) m' →
    kept m m'.left
  called_failed {m m' f} : f.base = m.scopes.depth → failed (m.entered f) m' → failed m m'
  calledNative {m m' addr} : wild (m.noted (.nativeCall addr)) m' →
    m'.parked = none ∨ m'.parked = m.parked → kept m m'
  filed {m m' file} : during m.scopes.depth [] (m.withFile (m.frames.size - 1) file) m' →
    during m.scopes.depth [] m (m'.withFile (m.frames.size - 1) m.frame.file)
  filed_failed {m m' file} : failed (m.withFile (m.frames.size - 1) file) m' →
    failed m (m'.withFile (m.frames.size - 1) m.frame.file)
  -- allocations
  added {m} (size type) (inner : Bool) (cleanup) : 0 < m.scopes.depth →
    let level := if inner then m.topLevel else 0
    kept m (m.allocated level ((m.heap.addBlock size type level cleanup).1,
      (m.heap.addBlock size type level cleanup).2.2))
  created {m m₁ m₂ found} (f : ScriptFunction) (inner : Bool) : Exec.newStub f.type m = .ok found m₁ → m₁.Calm m₂ →
    f.stub = found.2 → f.Keyed → (∀ key, f.key = some key → m.functions.cached? key = none) → 0 < m.scopes.depth →
    let level := if inner then m₂.topLevel else 0
    kept m ((m₂.withFunctions (m₂.functions.insert found.1 f)).allocated level
      (m₂.heap.track f.stub f.type level (.function found.1)))
  released {m id f} : m.functions.get? id = some f → kept m (m.withFunctions (m.functions.remove id f))
  moved {m addr id level} : m.heap.find? addr = some id → level < m.scopes.depth →
    kept m (m.moved id level)
  freed {m id a} : m.heap.get? id = some a → kept m ((m.disowned id a).handedOver id a)

namespace Law

open Exec

/-- After a computation that ended with a value, the machine is as before but for the place. -/
def Obeys (L : Law) (x : Exec α) : Prop :=
  ∀ m : Machine, 0 < m.scopes.depth →
    x.Ends m (fun _ m' => L.during m.scopes.depth [] m m') (fun _ m' => L.failed m m')

def Keeps (L : Law) (x : Exec α) : Prop :=
  ∀ m : Machine, 0 < m.scopes.depth → x.Ends m (fun _ m' => L.kept m m') (fun _ m' => L.failed m m')

/-- The same without a level to begin in, as for calls. -/
def Calls (L : Law) (x : Exec α) : Prop :=
  ∀ m : Machine, x.Ends m (fun _ m' => L.kept m m') (fun _ m' => L.failed m m')

/-- What native code can do: errors in it are kept for later. -/
def Wild (L : Law) (x : Exec α) : Prop :=
  ∀ m : Machine, x.Ends m (fun _ m' => L.wild m m') (fun _ _ => False)

def Closes (L : Law) (x : Exec Unit) : Prop :=
  ∀ m : Machine, 0 < m.scopes.depth →
    x.Ends m (fun _ m' => L.during (m.scopes.depth - 1) [] m m') (fun _ _ => False)

structure Sound (L : Law) (i : Interp) : Prop where
  eval (r) : L.Keeps (i.eval r)
  command (r) : L.Keeps (i.command r)
  call (f args) : L.Calls (i.call f args)
  source (text file) : L.Obeys (i.source text file)

section
variable {L : Law} {α β : Type}

theorem calm {m m' : Machine} (h : m.Calm m') : L.kept m m' := L.calmly h

theorem refl (m : Machine) : L.during m.scopes.depth [] m m := L.during_kept (calm (.refl m))

theorem during_calm {d : Nat} {ids : List AllocId} {m m₁ m₂ : Machine} (h : L.during d ids m m₁)
    (h' : m₁.Calm m₂) : L.during d ids m m₂ :=
  L.during_step h (L.during_kept (calm h'))

theorem failed_kept {m m' : Machine} (h : L.kept m m') : L.failed m m' :=
  L.failed_during (L.during_kept h)

theorem failed_calm {m m₁ m₂ : Machine} (h : L.failed m m₁) (h' : m₁.Calm m₂) : L.failed m m₂ :=
  L.failed_trans h (failed_kept (calm h'))

/-! ## Rules for computations -/

theorem Keeps.obeys {x : Exec α} (h : L.Keeps x) : L.Obeys x :=
  fun m hm => (h m hm).mono (fun _ _ => L.during_kept) (fun _ _ => id)

theorem Calls.keeps {x : Exec α} (h : L.Calls x) : L.Keeps x := fun m _ => h m

theorem Calls.obeys {x : Exec α} (h : L.Calls x) : L.Obeys x := h.keeps.obeys

theorem calls_calm {x : Exec α} (h : Calm true x) : L.Calls x :=
  fun m => (h m).mono (fun _ _ => calm) (fun _ _ h => failed_kept (calm h.1))

theorem obeys_calm {x : Exec α} (h : Calm true x) : L.Obeys x := (calls_calm h).obeys

theorem Obeys.pure (a : α) : L.Obeys (pure a) := obeys_calm (.pure a)

theorem Obeys.raise (c : Cause) : L.Obeys (raise c : Exec α) := obeys_calm (.raiseInternal c fun _ => rfl)

theorem Obeys.bind {x : Exec α} {f : α → Exec β} (hx : L.Obeys x) (hf : ∀ a, L.Obeys (f a)) :
    L.Obeys (x >>= f) := by
  intro m hm
  refine (hx m hm).bind (fun a m₁ h₁ => ?_) (fun _ _ h => h)
  have hf₁ := L.failed_during h₁
  refine (hf a m₁ (L.failed_depth hf₁ hm)).mono (fun _ _ h => ?_) (fun _ _ h => ?_)
  · exact L.during_step h₁ h
  · exact L.failed_trans hf₁ h

theorem Keeps.bind {x : Exec α} {f : α → Exec β} (hx : L.Keeps x) (hf : ∀ a, L.Keeps (f a)) :
    L.Keeps (x >>= f) := by
  intro m hm
  refine (hx m hm).bind (fun a m₁ h₁ => ?_) (fun _ _ h => h)
  have hf₁ := failed_kept h₁
  refine (hf a m₁ (L.failed_depth hf₁ hm)).mono (fun _ _ h => ?_) (fun _ _ h => ?_)
  · exact L.kept_trans h₁ h
  · exact L.failed_trans hf₁ h

theorem Calls.bind {x : Exec α} {f : α → Exec β} (hx : L.Calls x) (hf : ∀ a, L.Calls (f a)) :
    L.Calls (x >>= f) := by
  intro m
  refine (hx m).bind (fun a m₁ h₁ => ?_) (fun _ _ h => h)
  exact (hf a m₁).mono (fun _ _ h => L.kept_trans h₁ h) (fun _ _ h => L.failed_trans (failed_kept h₁) h)

theorem Wild.bind {x : Exec α} {f : α → Exec β} (hx : L.Wild x) (hf : ∀ a, L.Wild (f a)) :
    L.Wild (x >>= f) := by
  intro m
  refine (hx m).bind (fun a m₁ h₁ => ?_) (fun _ _ h => h)
  exact (hf a m₁).mono (fun _ _ h => L.wild_trans h₁ h) (fun _ _ h => h)

theorem wild_calm {m m' : Machine} (h : m.Calm m') : L.wild m m' := L.wild_failed (failed_kept (calm h))

theorem wild_smooth {x : Exec α} (h : Smooth x) : L.Wild x :=
  fun m => (h m).mono (fun _ _ => wild_calm) (fun _ _ h => h)

theorem Calls.attempt {x : Exec α} (h : L.Calls x) : L.Wild (attempt x) := fun m =>
  ends_attempt.mpr ((h m).mono (fun _ _ h => L.wild_failed (failed_kept h)) (fun _ _ => L.wild_failed))

theorem Obeys.map {x : Exec α} (f : α → β) (hx : L.Obeys x) : L.Obeys (f <$> x) :=
  fun m hm => ends_map.mpr (hx m hm)

theorem Obeys.ite {c : Prop} [Decidable c] {x y : Exec α} (hx : L.Obeys x) (hy : L.Obeys y) :
    L.Obeys (if c then x else y) := by
  split
  · exact hx
  · exact hy

theorem Calls.ite {c : Prop} [Decidable c] {x y : Exec α} (hx : L.Calls x) (hy : L.Calls y) :
    L.Calls (if c then x else y) := by
  split
  · exact hx
  · exact hy

theorem Calls.guarded {c : Prop} [Decidable c] {e : Cause} {x : Exec α} (hx : L.Calls x) :
    L.Calls (if c then (Exec.raise e : Exec PUnit) >>= fun _ => x else x) :=
  .ite (.bind (calls_calm (.raiseInternal e fun _ => rfl)) fun _ => hx) hx

theorem Obeys.guarded {c : Prop} [Decidable c] {e : Cause} {x : Exec α} (hx : L.Obeys x) :
    L.Obeys (if c then (Exec.raise e : Exec PUnit) >>= fun _ => x else x) :=
  .ite (.bind (.raise e) fun _ => hx) hx

theorem Obeys.discard {x : Exec α} (hx : L.Obeys x) : L.Obeys (discard x) := hx.map _

/-- A computation at a place comes back to the old one. -/
theorem Obeys.atPlace {x : Exec α} (hx : L.Obeys x) (row col : Int) : L.Keeps (atPlace row col x) := by
  intro m hm
  have hp := L.failed_during (L.place m row col)
  refine (hx (m.setPosition row col) hm).bind (fun a m₁ h₁ => ?_) (fun _ _ h => L.failed_trans hp h)
  exact L.place_back h₁

end

end Law

end LevelScript
