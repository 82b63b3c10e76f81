import LevelScript.Proofs.Cells
import LevelScript.Proofs.Closing
import LevelScript.Proofs.Coded
import LevelScript.Proofs.TypeWalks

/-!
# Entering functions

A function is made with the variables that it captures, and before its body runs, its call declares them in a
new level, with the parameters behind them and then the struct that it was reached through. All that is copied
on the way is copied into new cells.
-/

namespace LevelScript

/-! ## Declaring -/

namespace Level

def addingAll (l : Level) (entries : List (NameId × Variable)) : Level :=
  entries.foldl (fun l e => l.adding e.1 e.2) l

theorem addingAll_cons (l : Level) (name : NameId) (v : Variable) (entries : List (NameId × Variable)) :
    l.addingAll ((name, v) :: entries) = (l.adding name v).addingAll entries := rfl

theorem addingAll_append (l : Level) (es es' : List (NameId × Variable)) :
    l.addingAll (es ++ es') = (l.addingAll es).addingAll es' := List.foldl_append

theorem declares_adding (l : Level) (name n : NameId) (v : Variable) :
    (l.adding name v).declares n = (l.declares n || n == name) := by
  rw [declares, declares, find?_adding, Option.isSome_or]
  cases n == name <;> rfl

/-- Of two variables of a name the first one counts. -/
theorem find?_addingAll (l : Level) (entries : List (NameId × Variable)) (n : NameId) :
    (l.addingAll entries).find? n = (l.find? n).or (entries.lookup n) := by
  induction entries generalizing l with
  | nil => exact (Option.or_none).symm
  | cons e es ih =>
    rw [addingAll_cons, ih, find?_adding, List.lookup_cons, Option.or_assoc]
    cases n == e.1 <;> rfl

theorem find?_addingAll_empty (entries : List (NameId × Variable)) (n : NameId) :
    (({} : Level).addingAll entries).find? n = entries.lookup n := by
  rw [find?_addingAll]
  rfl

end Level

namespace Cell

/-- Where the next cell lies when `n` more have been used. -/
def skip (slot : UInt64) : Nat → UInt64
  | 0 => slot
  | n + 1 => skip (slot + 16) n

theorem Room.toNat_skip {n : Nat} {slot : UInt64} (h : Room n slot) :
    (skip slot n).toNat = slot.toNat + 16 * n := by
  induction n generalizing slot with
  | zero => rfl
  | succ n ih =>
    rw [skip, ih h.next, h.toNat_next]
    omega

theorem Room.skip {n k : Nat} {slot : UInt64} (h : Room (n + k) slot) : Room k (skip slot n) := by
  have hn := (h.mono (Nat.le_add_right n k)).toNat_skip
  have := h.low
  have := h.aligned
  have := h.high
  refine ⟨?_, ?_, ?_⟩ <;> rw [hn] <;> omega

theorem skip_add (slot : UInt64) (n k : Nat) : skip slot (n + k) = skip (skip slot n) k := by
  induction n generalizing slot with
  | zero => rw [Nat.zero_add, skip]
  | succ n ih => rw [Nat.succ_add, skip, skip, ih]

end Cell

namespace Machine

def copied (m : Machine) (cs : List (NameId × Variable)) : Machine :=
  { m with
    memory := m.memory.withCopies m.types m.addresses.slot (cs.map (·.2))
    addresses := { m.addresses with slot := Cell.skip m.addresses.slot cs.length } }

/-- The variable is a value by itself, or lies where it can be read. -/
def Reads (m : Machine) (v : Variable) : Prop :=
  ∀ addr, v.storage = .location addr → canAccess addr (m.types.get v.type).valueSize = true

theorem reads_value (m : Machine) (type : TypeId) (word : UInt64) : m.Reads (.value type word) := nofun

def withFault (m : Machine) (pending : Option UInt64) : Machine := { m with pending }

/-- Two machines that only differ in the invalid access that is still to be raised. -/
def SameButFault (m m' : Machine) : Prop := ∃ pending, m' = m.withFault pending

namespace SameButFault

variable {a b c m m' : Machine}

theorem refl (m : Machine) : SameButFault m m := ⟨m.pending, rfl⟩

theorem trans (h : a.SameButFault b) (h' : b.SameButFault c) : a.SameButFault c := by
  obtain ⟨p, rfl⟩ := h
  obtain ⟨q, rfl⟩ := h'
  exact ⟨q, rfl⟩

theorem copied (h : m.SameButFault m') (cs : List (NameId × Variable)) :
    (m.copied cs).SameButFault (m'.copied cs) := by
  obtain ⟨p, rfl⟩ := h
  exact ⟨p, rfl⟩

theorem addresses (h : m.SameButFault m') : m'.addresses = m.addresses := by
  obtain ⟨p, rfl⟩ := h
  rfl

end SameButFault

def withLevel (m : Machine) (ls : Array Level) (l : Level) : Machine := { m with scopes := ⟨ls.push l⟩ }

end Machine

namespace Exec

variable {m m' : Machine} {ls : Array Level} {l : Level} {captured cs : List (NameId × Variable)}

theorem declare_push (name : NameId) (v : Variable) (m : Machine) (ls : Array Level) (l : Level) :
    declare name v (m.withLevel ls l) = .ok (!l.declares name) (m.withLevel ls (l.adding name v)) := by
  have hfree : (m.withLevel ls l).scopes.isFree name = !l.declares name := by
    simp [Machine.withLevel, Scopes.isFree, Scopes.declaresAt, Scopes.depth]
  have hadd : (m.withLevel ls l).scopes.add name v = ⟨ls.push (l.adding name v)⟩ := by
    simp only [Machine.withLevel, Scopes.add, Scopes.modifyLevel, Scopes.depth, Array.size_push, Nat.add_sub_cancel,
      Scopes.mk.injEq]
    apply Array.ext_getElem?
    intro k
    rw [Array.getElem?_modify, Array.getElem?_push, Array.getElem?_push]
    by_cases hk : ls.size = k
    · simp [hk]
    · simp [hk, Ne.symm hk]
  rw [declare, modifyGet_eq, hfree]
  cases hl : l.declares name with
  | false =>
    rw [hadd]
    rfl
  | true =>
    rw [show l.adding name v = l by rw [Level.adding, dif_pos hl]]
    rfl

theorem bits_reads {v : Variable} {m : Machine} (h : m.Reads v) :
    bits v m = .ok (v.valueIn m.types m.memory) m := by
  cases hs : v.storage with
  | value word =>
    simp only [bits, Variable.valueIn, hs]
    rfl
  | location addr =>
    simp only [bits, peek, Variable.valueIn, hs]
    show ((if Machine.canAccess addr (m.types.get v.type).valueSize then _ else _ : Exec UInt64) >>= _) m = _
    rw [h addr hs]
    rfl

theorem bits_valueIn (v : Variable) (m : Machine) :
    ∃ m', bits v m = .ok (v.valueIn m.types m.memory) m' ∧ m.SameButFault m' := by
  by_cases hr : m.Reads v
  · exact ⟨m, bits_reads hr, .refl m⟩
  · simp only [Machine.Reads, not_forall, Bool.not_eq_true] at hr
    obtain ⟨addr, hs, hc⟩ := hr
    refine ⟨m.noteFault addr, ?_, _, rfl⟩
    simp only [bits, peek, Variable.valueIn, hs]
    show ((if Machine.canAccess addr (m.types.get v.type).valueSize then _ else _ : Exec UInt64) >>= _) m = _
    rw [hc]
    rfl

theorem extend_zero (t : TypeInfo) : extend t 0 = 0 := by
  rw [extend, TypeInfo.valueSize]
  cases t.kind <;> cases t.isSignedInteger <;> rfl

/-- A value that is not zero can be read. -/
theorem reads_of_set {v : Variable} {m : Machine} (h : v.valueIn m.types m.memory ≠ 0) : m.Reads v := by
  intro addr hs
  by_contra hc
  refine h ?_
  rw [Variable.valueIn, hs]
  exact (congrArg (extend _) (if_neg hc)).trans (extend_zero _)

theorem fresh_bits_eq (name : NameId) (v : Variable) (m : Machine) :
    ∃ m', (∀ {α} (f : Variable → Exec α), (bits v >>= fun word => fresh v.type word >>= f) m =
      f (.atAddress v.type m.addresses.slot) m') ∧ (m.copied [(name, v)]).SameButFault m' := by
  obtain ⟨m₁, hb, pending, rfl⟩ := bits_valueIn v m
  exact ⟨_, fun f => (bind_ok hb).trans (bind_ok rfl), pending, rfl⟩

theorem copyCaptured_eq (cs : List (NameId × Variable)) (m : Machine) :
    ∃ m', copyCaptured cs m = .ok (copies m.addresses.slot cs) m' ∧ (m.copied cs).SameButFault m' := by
  induction cs generalizing m with
  | nil => exact ⟨m, rfl, .refl m⟩
  | cons c cs ih =>
    obtain ⟨name, v⟩ := c
    obtain ⟨m₁, hf, hs₁⟩ := fresh_bits_eq name v m
    obtain ⟨m₂, hc, hs₂⟩ := ih m₁
    rw [hs₁.addresses] at hc
    refine ⟨m₂, ?_, (hs₁.copied cs).trans hs₂⟩
    rw [copyCaptured, hf, bind_ok hc]
    rfl

theorem discard_declare (name : NameId) (v : Variable) (m : Machine) (ls : Array Level) (l : Level) :
    discard (declare name v) (m.withLevel ls l) = .ok () (m.withLevel ls (l.adding name v)) := by
  show EStateM.map _ (declare name v) _ = _
  rw [EStateM.map, declare_push]

theorem declareCaptured_same {capture : Capture} (hc : capture ≠ .copyPerCall) (cs : List (NameId × Variable))
    (m : Machine) (ls : Array Level) (l : Level) :
    declareCaptured capture cs (m.withLevel ls l) = .ok () (m.withLevel ls (l.addingAll cs)) := by
  induction cs generalizing l with
  | nil => rfl
  | cons c cs ih =>
    obtain ⟨name, v⟩ := c
    have h := ih (l.adding name v)
    rw [declareCaptured, if_neg hc]
    show (discard (declare name v) >>= fun _ => declareCaptured capture cs) _ = _
    rw [bind_ok (discard_declare name v m ls l), h]
    rfl

theorem declareCaptured_copies (cs : List (NameId × Variable)) (m : Machine) (ls : Array Level) (l : Level) :
    ∃ m', declareCaptured .copyPerCall cs (m.withLevel ls l) = .ok () m' ∧
      ((m.copied cs).withLevel ls (l.addingAll (copies m.addresses.slot cs))).SameButFault m' := by
  induction cs generalizing m l with
  | nil => exact ⟨_, rfl, .refl _⟩
  | cons c cs ih =>
    obtain ⟨name, v⟩ := c
    obtain ⟨m₁, hf, pending, rfl⟩ := fresh_bits_eq name v (m.withLevel ls l)
    obtain ⟨m₂, hc, hs₂⟩ :=
      ih ((m.copied [(name, v)]).withFault pending) (l.adding name (.atAddress v.type m.addresses.slot))
    refine ⟨m₂, ?_, .trans ⟨pending, rfl⟩ hs₂⟩
    have hd :=
      discard_declare name (.atAddress v.type m.addresses.slot) ((m.copied [(name, v)]).withFault pending) ls l
    rw [declareCaptured, if_pos rfl]
    exact (hf _).trans ((bind_ok hd).trans hc)

def named (ps : List (Param × Variable)) : List (NameId × Variable) := ps.filterMap fun p => p.1.name.map (·, p.2)

theorem declareParameters_ok {ps : List (Param × Variable)}
    (h : declareParameters captured ps (m.withLevel ls l) = .ok () m') :
    ((m.copied (named ps)).withLevel ls (l.addingAll (copies m.addresses.slot (named ps)))).SameButFault m' ∧
      (∀ c ∈ named ps, l.declares c.1 = false) ∧ ((named ps).map (·.1)).Nodup := by
  induction ps generalizing m l with
  | nil =>
    cases h
    exact ⟨.refl _, nofun, List.nodup_nil⟩
  | cons p ps ih =>
    obtain ⟨⟨name?, type⟩, v⟩ := p
    rw [declareParameters] at h
    cases name? with
    -- A parameter without a name takes its argument and declares nothing.
    | none =>
      dsimp only at h
      exact ih h
    | some name =>
      dsimp only at h
      split at h
      case isTrue => cases h
      case isFalse =>
        obtain ⟨m₁, hf, pending, rfl⟩ := fresh_bits_eq name v (m.withLevel ls l)
        rw [hf] at h
        have hd :=
          declare_push name (.atAddress v.type m.addresses.slot) ((m.copied [(name, v)]).withFault pending) ls l
        obtain ⟨free, m₂, hfree, h⟩ := bind_eq_ok h
        cases hfree.symm.trans hd
        cases hl : l.declares name with
        | true =>
          rw [hl] at h
          cases h
        | false =>
          rw [hl] at h
          obtain ⟨hm', hfree, hnodup⟩ := ih h
          have hnew (c) (hc : c ∈ named ps) : l.declares c.1 = false ∧ c.1 ≠ name := by
            have := hfree c hc
            rwa [Level.declares_adding, Bool.or_eq_false_iff, beq_eq_false_iff_ne] at this
          refine ⟨.trans ⟨pending, rfl⟩ hm', ?_, ?_⟩
          · show ∀ c ∈ (name, v) :: named ps, l.declares c.1 = false
            exact List.forall_mem_cons.mpr ⟨hl, fun c hc => (hnew c hc).1⟩
          · show (name :: (named ps).map (·.1)).Nodup
            refine List.nodup_cons.mpr ⟨fun hm => ?_, hnodup⟩
            obtain ⟨c, hc, rfl⟩ := List.mem_map.mp hm
            exact (hnew c hc).2 rfl

theorem declareParameters_total {ps : List (Param × Variable)} {l : Level} (m : Machine) (ls : Array Level)
    (hcaptured : ∀ c ∈ named ps, captured.any (·.1 == c.1) = false) (hfree : ∀ c ∈ named ps, l.declares c.1 = false)
    (hnodup : ((named ps).map (·.1)).Nodup) :
    ∃ m', declareParameters captured ps (m.withLevel ls l) = .ok () m' := by
  induction ps generalizing m l with
  | nil => exact ⟨_, rfl⟩
  | cons p ps ih =>
    obtain ⟨⟨name?, type⟩, v⟩ := p
    rw [declareParameters]
    cases name? with
    | none => exact ih m hcaptured hfree hnodup
    | some name =>
      have hcaptured : ∀ c ∈ (name, v) :: named ps, captured.any (·.1 == c.1) = false := hcaptured
      have hfree : ∀ c ∈ (name, v) :: named ps, l.declares c.1 = false := hfree
      have hnodup : (name :: (named ps).map (·.1)).Nodup := hnodup
      rw [List.forall_mem_cons] at hcaptured hfree
      rw [List.nodup_cons] at hnodup
      obtain ⟨m₁, hf, pending, rfl⟩ := fresh_bits_eq name v (m.withLevel ls l)
      have hd :=
        declare_push name (.atAddress v.type m.addresses.slot) ((m.copied [(name, v)]).withFault pending) ls l
      rw [hfree.1] at hd
      have hnew (c) (hc : c ∈ named ps) :
          (l.adding name (.atAddress v.type m.addresses.slot)).declares c.1 = false := by
        rw [Level.declares_adding, hfree.2 c hc, Bool.false_or, beq_eq_false_iff_ne]
        rintro rfl
        exact hnodup.1 (List.mem_map_of_mem hc)
      obtain ⟨m', h⟩ := ih ((m.copied [(name, v)]).withFault pending) hcaptured.2 hnew hnodup.2
      refine ⟨m', ?_⟩
      dsimp only
      rw [if_neg (by rw [hcaptured.1]; exact Bool.false_ne_true)]
      exact (hf _).trans ((bind_ok hd).trans h)

/-! ## Entering -/

def declareReceiver : Option (TypeId × UInt64) → Exec Unit
  | none => return
  | some (type, addr) => do
    let type ← withTypes (·.constant type)
    discard (declare NameId.this (← fresh type addr))

/-- Declares all that the body of a function can see beside the outermost level. -/
def declareVisible (f : ScriptFunction) (call : ScriptCall) (args : List Variable) : Exec Unit := do
  declareCaptured f.capture f.captured
  declareParameters f.captured ((call.params.zip args).take call.fixed)
  declareReceiver (call.origin.bind (·.receiver))

/-- Opens a call and declares what its body can see; the function, and how many levels there were before. -/
def enterScript (call : ScriptCall) (args : List Variable) : Exec (ScriptFunction × Nat) := do
  let m ← get
  if m.settings.maxFrames ≤ m.frames.size then raise (.stackOverflow m.settings.maxFrames)
  match m.functions.get? call.id with
  | none => raise .callUnset
  | some f =>
    let depth ← openFrame ((call.origin.map (·.name)).getD f.name) f.file
    declareVisible f call args
    if call.fixed < call.params.length then
      modify (·.modifyFrame ({ · with varargs := some (args.drop call.fixed).toArray }))
    return (f, depth)

/-- A call is entered, and then its body runs. -/
theorem callScript_eq (i : Interp) (call : ScriptCall) (args : List Variable) :
    i.callScript call args =
      enterScript call args >>= fun p => i.runBody call p.2 (Reader.slice p.1.chunk p.1.entry p.1.len) := by
  rw [Interp.callScript, enterScript]
  simp only [bind_assoc]
  refine congrArg _ (funext fun m => ?_)
  split
  · rfl
  · cases m.functions.get? call.id with
    | none => rfl
    | some f =>
      simp only [declareVisible]
      cases call.origin.bind (·.receiver)
      all_goals
        simp only [bind_assoc]
        split <;> rfl

end Exec

/-- What a function has captured and its calls share. -/
def ScriptFunction.common (f : ScriptFunction) : List (NameId × Variable) :=
  if f.capture = .copyPerCall then [] else f.captured

/-- What a function has captured and each of its calls copies. -/
def ScriptFunction.copied (f : ScriptFunction) : List (NameId × Variable) :=
  if f.capture = .copyPerCall then f.captured else []

namespace ScriptCall

def arguments (call : ScriptCall) (args : List Variable) : List (NameId × Variable) :=
  Exec.named ((call.params.zip args).take call.fixed)

def receiver (call : ScriptCall) : Option (TypeId × UInt64) := call.origin.bind (·.receiver)

end ScriptCall

namespace Machine

def received (m : Machine) : Option (TypeId × UInt64) → Machine
  | none => m
  | some (type, addr) =>
    let (type, types) := m.types.constant type
    { m with
      types
      memory := m.memory.withCell types m.addresses.slot type addr
      addresses := { m.addresses with slot := m.addresses.slot + 16 } }

def receiverAt (m : Machine) : Option (TypeId × UInt64) → List (NameId × Variable)
  | none => []
  | some (type, _) => [(NameId.this, .atAddress (m.types.constant type).1 m.addresses.slot)]

/-- What the level of a call declares, the first variable of a name being the one that counts. -/
def visibleIn (m : Machine) (f : ScriptFunction) (call : ScriptCall) (args : List Variable) :
    List (NameId × Variable) :=
  let cs := f.copied ++ call.arguments args
  f.common ++ copies m.addresses.slot cs ++ (m.copied cs).receiverAt call.receiver

def enteredWith (m : Machine) (f : ScriptFunction) (call : ScriptCall) (args : List Variable)
    (frame : Frame) : Machine :=
  { (m.copied (f.copied ++ call.arguments args)).received call.receiver with
    frames := m.frames.push frame
    scopes := ⟨m.scopes.levels.push (({} : Level).addingAll (m.visibleIn f call args))⟩ }

end Machine

namespace Machine

theorem opened_eq (m : Machine) (f : ScriptFunction) (call : ScriptCall) (args : List Variable) (frame : Frame)
    (pending : Option UInt64) :
    let m₀ : Machine := { m with frames := m.frames.push frame }
    (((m₀.copied (f.copied ++ call.arguments args)).received call.receiver).withLevel m.scopes.levels
      (({} : Level).addingAll (m₀.visibleIn f call args))).withFault pending =
        (m.enteredWith f call args frame).withFault pending := by
  simp only [enteredWith, visibleIn]
  cases call.receiver <;> rfl

theorem modifyFrame_enteredWith (m : Machine) (f : ScriptFunction) (call : ScriptCall) (args : List Variable)
    (frame : Frame) (pending : Option UInt64) (g : Frame → Frame) :
    ((m.enteredWith f call args frame).withFault pending).modifyFrame g =
      (m.enteredWith f call args (g frame)).withFault pending := by
  have hframes : (m.frames.push frame).modify ((m.frames.push frame).size - 1) g = m.frames.push (g frame) := by
    rw [Array.size_push, Nat.add_sub_cancel]
    apply Array.ext_getElem?
    intro k
    rw [Array.getElem?_modify, Array.getElem?_push, Array.getElem?_push]
    by_cases hk : k = m.frames.size
    · simp [hk]
    · simp [hk, Ne.symm hk]
  show { (m.enteredWith f call args frame).withFault pending with
    frames := (m.frames.push frame).modify ((m.frames.push frame).size - 1) g } = _
  rw [hframes]
  rfl

end Machine

theorem copies_append (slot : UInt64) (cs cs' : List (NameId × Variable)) :
    copies slot (cs ++ cs') = copies slot cs ++ copies (Cell.skip slot cs.length) cs' := by
  induction cs generalizing slot with
  | nil => rfl
  | cons c cs ih =>
    obtain ⟨name, v⟩ := c
    rw [List.cons_append, copies, copies, ih]
    rfl

theorem mem_copies {slot : UInt64} {cs : List (NameId × Variable)} {c : NameId × Variable}
    (hs : Cell.Room cs.length slot)
    (h : c ∈ copies slot cs) :
    ∃ type addr, c.2 = .atAddress type addr ∧ slot.toNat ≤ addr.toNat ∧ Cell.Below
    (Cell.skip slot cs.length) addr := by
  induction cs generalizing slot with
  | nil => cases h
  | cons e es ih =>
    have hs : Cell.Room (es.length + 1) slot := hs
    have hn := hs.toNat_next
    obtain ⟨name, v⟩ := e
    rw [copies, List.mem_cons] at h
    obtain rfl | h := h
    · refine ⟨v.type, slot, rfl, Nat.le_refl _, hs.below_next.mono ?_⟩
      show (slot + 16).toNat ≤ (Cell.skip (slot + 16) es.length).toNat
      rw [hs.next.toNat_skip]
      exact Nat.le_add_right ..
    · obtain ⟨type, addr, hc, hlow, hbelow⟩ := ih hs.next h
      exact ⟨type, addr, hc, by omega, hbelow⟩

theorem Memory.withCopies_append (ts : TypeTable) (memory : Memory) (slot : UInt64) (vs vs' : List Variable) :
    memory.withCopies ts slot (vs ++ vs') = (memory.withCopies ts slot vs).withCopies ts
    (Cell.skip slot vs.length) vs' := by
  induction vs generalizing memory slot with
  | nil => rfl
  | cons v vs ih =>
    rw [List.cons_append, withCopies, withCopies, ih]
    rfl

theorem Machine.copied_append (m : Machine) (cs cs' : List (NameId × Variable)) :
    (m.copied cs).copied cs' = m.copied (cs ++ cs') := by
  simp only [copied, List.map_append, Memory.withCopies_append, List.length_map, List.length_append, Cell.skip_add]

namespace Exec

variable {m m' : Machine} {ls : Array Level} {l : Level}

theorem declareCaptured_eq (f : ScriptFunction) (m : Machine) (ls : Array Level) (l : Level) :
    ∃ m', declareCaptured f.capture f.captured (m.withLevel ls l) = .ok () m' ∧
      ((m.copied f.copied).withLevel ls
        (l.addingAll (f.common ++ copies m.addresses.slot f.copied))).SameButFault m' := by
  by_cases hc : f.capture = .copyPerCall
  · rw [ScriptFunction.copied, ScriptFunction.common, if_pos hc, if_pos hc, hc]
    exact declareCaptured_copies f.captured m ls l
  · rw [ScriptFunction.copied, ScriptFunction.common, if_neg hc, if_neg hc]
    refine ⟨_, declareCaptured_same hc f.captured m ls l, ?_⟩
    rw [copies, List.append_nil]
    exact .refl _

theorem declareReceiver_eq (r : Option (TypeId × UInt64)) (m : Machine) (ls : Array Level) (l : Level) :
    declareReceiver r (m.withLevel ls l) = .ok () ((m.received r).withLevel ls (l.addingAll (m.receiverAt r))) := by
  cases r with
  | none => rfl
  | some r =>
    obtain ⟨type, addr⟩ := r
    have hd := discard_declare NameId.this (.atAddress (m.types.constant type).1 m.addresses.slot)
      (m.received (some (type, addr))) ls l
    exact hd

theorem declareVisible_ok {f : ScriptFunction} {call : ScriptCall} {args : List Variable}
    (h : declareVisible f call args (m.withLevel ls {}) = .ok () m') :
    (((m.copied (f.copied ++ call.arguments args)).received call.receiver).withLevel ls
        (({} : Level).addingAll (m.visibleIn f call args))).SameButFault m' ∧
      (∀ c ∈ call.arguments args, (f.common ++ copies m.addresses.slot f.copied).lookup c.1 = none) ∧
      ((call.arguments args).map (·.1)).Nodup := by
  obtain ⟨m₁, hcaptured, p₁, rfl⟩ := declareCaptured_eq f m ls {}
  rw [declareVisible, bind_ok hcaptured] at h
  obtain ⟨⟨⟩, m₂, hparameters, h⟩ := bind_eq_ok h
  obtain ⟨⟨p₂, rfl⟩, hfree, hnodup⟩ := declareParameters_ok (m := (m.copied f.copied).withFault p₁) hparameters
  have hreceiver :=
    declareReceiver_eq call.receiver (((m.copied f.copied).copied (call.arguments args)).withFault p₂) ls
    ((({} : Level).addingAll (f.common ++ copies m.addresses.slot f.copied)).addingAll
      (copies (m.copied f.copied).addresses.slot (call.arguments args)))
  cases h.symm.trans hreceiver
  refine ⟨?_, fun c hc => ?_, hnodup⟩
  · rw [Machine.visibleIn, ← Machine.copied_append, copies_append, ← List.append_assoc, Level.addingAll_append,
      Level.addingAll_append]
    cases call.receiver <;> exact ⟨p₂, rfl⟩
  · have := hfree c hc
    rwa [Level.declares, Level.find?_addingAll_empty, Option.isSome_eq_false_iff, Option.isNone_iff_eq_none] at this

/-- All that a call does before the body of its function runs. -/
theorem enterScript_ok {call : ScriptCall} {args : List Variable} {f : ScriptFunction} {depth : Nat}
    (h : enterScript call args m = .ok (f, depth) m') :
    m.functions.get? call.id = some f ∧ depth = m.scopes.depth ∧
      (∃ frame : Frame, frame.base = depth ∧ (m.enteredWith f call args frame).SameButFault m') ∧
      (∀ c ∈ call.arguments args, (f.common ++ copies m.addresses.slot f.copied).lookup c.1 = none) ∧
      ((call.arguments args).map (·.1)).Nodup := by
  rw [enterScript, get_bind] at h
  split at h
  case isTrue => cases h
  case isFalse =>
    cases hf : m.functions.get? call.id with
    | none =>
      rw [hf] at h
      cases h
    | some g =>
      rw [hf] at h
      dsimp only at h
      generalize hframe :
        (Frame.mk ((call.origin.map (·.name)).getD g.name) g.file 0 0 m.scopes.depth none) = frame at *
      have hopen : openFrame ((call.origin.map (·.name)).getD g.name) g.file m =
          .ok m.scopes.depth ({ m with frames := m.frames.push frame }.withLevel m.scopes.levels {}) := hframe ▸ rfl
      rw [bind_ok hopen] at h
      obtain ⟨⟨⟩, m₁, hvisible, h⟩ := bind_eq_ok h
      obtain ⟨⟨p, rfl⟩, hfree, hnodup⟩ := declareVisible_ok hvisible
      split at h
      case isTrue =>
        cases h
        refine ⟨rfl, rfl, ⟨{ frame with varargs := some (args.drop call.fixed).toArray }, hframe ▸ rfl, p,
          ?_⟩, hfree, hnodup⟩
        rw [Machine.opened_eq]
        exact Machine.modifyFrame_enteredWith ..
      case isFalse =>
        cases h
        refine ⟨rfl, rfl, ⟨frame, hframe ▸ rfl, p, ?_⟩, hfree, hnodup⟩
        exact Machine.opened_eq m f call args frame p

theorem declareVisible_total {f : ScriptFunction} {call : ScriptCall} {args : List Variable} (m : Machine)
    (ls : Array Level)
    (hcaptured : ∀ c ∈ call.arguments args, f.captured.lookup c.1 = none)
    (hnodup : ((call.arguments args).map (·.1)).Nodup) :
    ∃ m', declareVisible f call args (m.withLevel ls {}) = .ok () m' := by
  obtain ⟨m₁, hcapture, p₁, rfl⟩ := declareCaptured_eq f m ls {}
  have hany (c) (hc : c ∈ call.arguments args) : f.captured.any (·.1 == c.1) = false := by
    rw [List.any_eq_false]
    intro e he
    have hne := List.lookup_eq_none_iff.mp (hcaptured c hc) e he
    rw [bne_iff_ne] at hne
    exact fun h => hne (eq_of_beq h).symm
  have hfree (c) (hc : c ∈ call.arguments args) :
      (({} : Level).addingAll (f.common ++ copies m.addresses.slot f.copied)).declares c.1 = false := by
    rw [Level.declares, Level.find?_addingAll_empty, List.lookup_append, ScriptFunction.common,
      ScriptFunction.copied]
    split
    · rw [lookup_copies_eq_none.mpr (hcaptured c hc)]
      rfl
    · rw [hcaptured c hc]
      rfl
  obtain ⟨m₂, hparameters⟩ := declareParameters_total ((m.copied f.copied).withFault p₁) ls hany hfree hnodup
  obtain ⟨⟨p₂, rfl⟩, -, -⟩ := declareParameters_ok (m := (m.copied f.copied).withFault p₁) hparameters
  have hreceiver :=
    declareReceiver_eq call.receiver (((m.copied f.copied).copied (call.arguments args)).withFault p₂) ls
    ((({} : Level).addingAll (f.common ++ copies m.addresses.slot f.copied)).addingAll
      (copies (m.copied f.copied).addresses.slot (call.arguments args)))
  rw [declareVisible, bind_ok hcapture]
  exact ⟨_, (bind_ok hparameters).trans hreceiver⟩

/-- A function that is there can be called if there is room for a frame and its parameters have names that are
neither captured nor repeated. -/
theorem enterScript_total {call : ScriptCall} {f : ScriptFunction} (args : List Variable)
    (hframes : m.frames.size < m.settings.maxFrames) (hf : m.functions.get? call.id = some f)
    (hcaptured : ∀ c ∈ call.arguments args, f.captured.lookup c.1 = none)
    (hnodup : ((call.arguments args).map (·.1)).Nodup) :
    ∃ m', enterScript call args m = .ok (f, m.scopes.depth) m' := by
  rw [enterScript, get_bind, if_neg (Nat.not_le_of_lt hframes), hf]
  dsimp only
  generalize (call.origin.map (·.name)).getD f.name = name
  let m₀ : Machine := { m with frames := m.frames.push ⟨name, f.file, 0, 0, m.scopes.depth, none⟩ }
  have hopen : openFrame name f.file m = .ok m.scopes.depth (m₀.withLevel m.scopes.levels {}) := rfl
  obtain ⟨m₁, h⟩ := declareVisible_total m₀ m.scopes.levels hcaptured hnodup
  show ∃ m', (openFrame name f.file >>= _) m = _
  rw [bind_ok hopen]
  show ∃ m', (declareVisible f call args >>= _) _ = _
  rw [bind_ok h]
  split <;> exact ⟨_, rfl⟩

end Exec

namespace Machine

/-- What a call changes before the body of its function runs. -/
structure Enters (m : Machine) (call : ScriptCall) (args : List Variable) (f : ScriptFunction)
    (m' : Machine) : Prop where
  found : m.functions.get? call.id = some f
  functions : m'.functions = m.functions
  levels : m'.scopes.levels = m.scopes.levels.push (({} : Level).addingAll (m.visibleIn f call args))
  base : m'.base = m.scopes.depth
  types : m'.types = ((m.copied (f.copied ++ call.arguments args)).received call.receiver).types
  memory : m'.memory = ((m.copied (f.copied ++ call.arguments args)).received call.receiver).memory
  slot : m'.addresses.slot = ((m.copied (f.copied ++ call.arguments args)).received call.receiver).addresses.slot
  /-- No parameter has the name of something that was captured. -/
  free : ∀ c ∈ call.arguments args, (f.common ++ copies m.addresses.slot f.copied).lookup c.1 = none
  distinct : ((call.arguments args).map (·.1)).Nodup

/-- A variable in a cell that `m` does not have and `m'` has, with the value of another one. -/
structure CellFor (ts : TypeTable) (m m' : Machine) (v u : Variable) : Prop where
  made : ∃ addr, u = .atAddress v.type addr ∧ m.addresses.slot.toNat ≤ addr.toNat ∧
      Cell.Below m'.addresses.slot addr
  value : u.valueIn ts m'.memory = v.valueIn ts m.memory

section
variable {m m₁ m₂ : Machine} {ts : TypeTable} {cs : List (NameId × Variable)} {name : NameId}
  {v u : Variable} {i : UInt64}

/-- What is written elsewhere does not matter to a cell. -/
theorem CellFor.after (h : CellFor ts m m₁ v u) (hroom : Cell.Room 0 m₁.addresses.slot)
    (hslot : m₁.addresses.slot.toNat ≤ m₂.addresses.slot.toNat)
    (hwords : ∀ i, Cell.Old m₁.addresses.slot i → m₂.memory.word i = m₁.memory.word i) : CellFor ts m m₂ v u := by
  obtain ⟨addr, rfl, hlow, hbelow⟩ := h.made
  refine ⟨⟨addr, rfl, hlow, hbelow.mono hslot⟩, Eq.trans ?_ h.value⟩
  have hplaced : Cell.Placed m₁.addresses.slot (.atAddress v.type addr) := fun a ha => by
    cases ha
    exact .inl hbelow
  exact hplaced.valueIn_congr hroom ts hwords

theorem lookup_copied (hroom : Cell.Room cs.length m.addresses.slot)
    (hplaced : ∀ c ∈ cs, Cell.Placed m.addresses.slot c.2) (h : cs.lookup name = some v)
    (hmemory : m₁.memory = m.memory.withCopies ts m.addresses.slot (cs.map (·.2)))
    (hslot : m₁.addresses.slot = Cell.skip m.addresses.slot cs.length) :
    ∃ u, (copies m.addresses.slot cs).lookup name = some u ∧ CellFor ts m m₁ v u := by
  obtain ⟨addr, hl, hlow, haligned, hhigh, hv⟩ := lookup_copies hroom hplaced h
  have := hroom.low
  refine ⟨_, hl, ⟨addr, rfl, hlow, by omega, haligned, ?_⟩, ?_⟩
  · rw [hslot, hroom.toNat_skip]
    exact hhigh
  · rw [hmemory]
    exact hv

/-- The struct that a function was reached through takes up a cell at most. -/
theorem received_room (hroom : Cell.Room 1 m.addresses.slot) (r : Option (TypeId × UInt64)) :
    Cell.Room 0 (m.received r).addresses.slot ∧ m.addresses.slot.toNat ≤ (m.received r).addresses.slot.toNat := by
  cases r with
  | none => exact ⟨hroom.mono (Nat.zero_le 1), Nat.le_refl _⟩
  | some r => exact ⟨hroom.next, hroom.toNat_next ▸ Nat.le_add_right ..⟩

theorem word_received (hroom : Cell.Room 1 m.addresses.slot) (hi : Cell.Old m.addresses.slot i)
    (r : Option (TypeId × UInt64)) :
    (m.received r).memory.word i = m.memory.word i := by
  cases r with
  | none => rfl
  | some r => exact Memory.word_withCell hroom hi _ _

end

namespace Enters

variable {m m' : Machine} {call : ScriptCall} {args : List Variable} {f : ScriptFunction} {name : NameId}
  {v : Variable} {i : UInt64}

theorem of_enterScript {depth : Nat} (h : Exec.enterScript call args m = .ok (f, depth) m') :
    m.Enters call args f m' := by
  obtain ⟨hfound, hdepth, ⟨frame, hbase, pending, rfl⟩, hfree, hdistinct⟩ := Exec.enterScript_ok h
  refine ⟨hfound, ?_, rfl, ?_, rfl, rfl, rfl, hfree, hdistinct⟩
  · show ((m.copied _).received call.receiver).functions = m.functions
    cases call.receiver <;> rfl
  · show ((m.frames.push frame).back?.getD default).base = m.scopes.depth
    rw [Array.back?_push]
    exact hbase.trans hdepth

section
variable (h : m.Enters call args f m')
  (hroom : Cell.Room ((f.copied ++ call.arguments args).length + 1) m.addresses.slot)
include h hroom

theorem room : Cell.Room 0 m'.addresses.slot := by
  rw [h.slot]
  exact (received_room hroom.skip call.receiver).1

theorem slot_le : m.addresses.slot.toNat ≤ m'.addresses.slot.toNat := by
  have hskip := (hroom.mono (Nat.le_succ _)).toNat_skip
  have hle := (received_room (m := m.copied (f.copied ++ call.arguments args)) hroom.skip call.receiver).2
  rw [h.slot]
  refine Nat.le_trans ?_ hle
  show m.addresses.slot.toNat ≤ (Cell.skip m.addresses.slot _).toNat
  omega

theorem word (hi : Cell.Old m.addresses.slot i) : m'.memory.word i = m.memory.word i := by
  have hcopies : Cell.Room ((f.copied ++ call.arguments args).map (·.2)).length m.addresses.slot := by
    rw [List.length_map]
    exact hroom.mono (Nat.le_succ _)
  have hskip := (hroom.mono (Nat.le_succ _)).toNat_skip
  rw [h.memory, word_received hroom.skip (hi.mono ?_)]
  · exact Memory.word_withCopies hcopies hi
  · show m.addresses.slot.toNat ≤ (Cell.skip m.addresses.slot _).toNat
    omega

/-- What is copied for a call ends up in a cell of its own. -/
theorem lookup_copies (hplaced : ∀ c ∈ f.copied ++ call.arguments args, Cell.Placed m.addresses.slot c.2)
    (hl : (f.copied ++ call.arguments args).lookup name = some v) :
    ∃ u, (copies m.addresses.slot (f.copied ++ call.arguments args)).lookup name = some u ∧
    CellFor m.types m m' v u := by
  obtain ⟨u, hu, hcell⟩ := lookup_copied (hroom.mono (Nat.le_succ _)) hplaced hl
    (rfl : (m.copied (f.copied ++ call.arguments args)).memory = m.memory.withCopies m.types _ _) rfl
  refine ⟨u, hu, hcell.after (hroom.skip.mono (Nat.zero_le 1)) ?_ fun i hi => ?_⟩
  · rw [h.slot]
    exact (received_room hroom.skip call.receiver).2
  · rw [h.memory]
    exact word_received hroom.skip hi call.receiver

end

end Enters

end Machine

/-! ## Making functions -/

namespace Machine

def visible (m : Machine) : List (NameId × Variable) := m.scopes.visibleFrom m.base

def copiedBy (m : Machine) : Capture → List (NameId × Variable)
  | .nothing | .shared => []
  | .copyPerCall | .copyOnce => m.visible

def capturedBy (m : Machine) : Capture → List (NameId × Variable)
  | .nothing => []
  | .shared => m.visible
  | .copyPerCall | .copyOnce => copies m.addresses.slot m.visible

/-- What a new function changes. -/
structure Makes (m : Machine) (capture : Capture) (stub : UInt64) (id : Nat) (f : ScriptFunction)
    (m' : Machine) : Prop where
  classify : m'.functions.classify stub = .script id
  get : m'.functions.get? id = some f
  functions : ∀ k g, m'.functions.get? k = some g → g = f ∨ m.functions.get? k = some g
  captured : f.captured = m.capturedBy capture
  mode : f.capture = capture
  types : m.types.Grows m'.types
  memory : m'.memory = m.memory.withCopies m'.types m.addresses.slot ((m.copiedBy capture).map (·.2))
  slot : m'.addresses.slot = Cell.skip m.addresses.slot (m.copiedBy capture).length
  vars : m'.scopes.levels.map (·.vars) = m.scopes.levels.map (·.vars)
  frames : m'.frames = m.frames
  settings : m'.settings = m.settings

structure SameCells (m m' : Machine) : Prop where
  types : m'.types = m.types
  memory : m'.memory = m.memory
  slot : m'.addresses.slot = m.addresses.slot
  frames : m'.frames = m.frames
  settings : m'.settings = m.settings
  vars : m'.scopes.levels.map (·.vars) = m.scopes.levels.map (·.vars)

namespace SameCells

variable {m m' : Machine}

theorem visible (h : m.SameCells m') : m'.visible = m.visible := by
  have hvars (s : Scopes) (base : Nat) :
      s.visibleFrom base = ((s.levels.map (·.vars)).toList.drop (max base 1)).flatMap List.reverse := by
    rw [Scopes.visibleFrom, Array.toList_map, ← List.map_drop, List.flatMap_map]
    rfl
  rw [Machine.visible, Machine.visible, hvars, hvars, h.vars, base, base, frame, frame, h.frames]

theorem copiedBy (h : m.SameCells m') (capture : Capture) : m'.copiedBy capture = m.copiedBy capture := by
  cases capture <;> simp only [Machine.copiedBy, h.visible]

theorem capturedBy (h : m.SameCells m') (capture : Capture) : m'.capturedBy capture = m.capturedBy capture := by
  cases capture <;> simp only [Machine.capturedBy, h.visible, h.slot]

end SameCells

theorem Makes.after_quiet {m m₁ m' : Machine} {bad : UInt64 → Prop} {capture : Capture} {stub : UInt64} {id : Nat}
    {f : ScriptFunction} (h : m₁.Makes capture stub id f m') (hq : m.Quiet bad m₁) :
    m.Makes capture stub id f m' := by
  obtain ⟨hsame, htypes, -⟩ := hq
  rw [hsame] at h
  exact ⟨h.classify, h.get, h.functions, h.captured, h.mode, htypes.trans h.types, h.memory, h.slot,
    h.vars, h.frames, h.settings⟩

end Machine

theorem Scopes.vars_addAlloc (s : Scopes) (index : Nat) (id : AllocId) :
    (s.addAlloc index id).levels.map (·.vars) = s.levels.map (·.vars) := by
  apply Array.ext_getElem?
  intro k
  rw [addAlloc, modifyLevel, Array.getElem?_map, Array.getElem?_map, Array.getElem?_modify]
  split
  · rw [Option.map_map]
    rfl
  · rfl

namespace TypeTable

/-- A closed type has no deferred names below it. -/
theorem resolve_closed {ts : TypeTable} {id : TypeId} (hc : (ts.get id).flags.closed = true)
    (hp : (ts.get id).containsParent = false) (hk : (ts.get id).kind ≠ .struct) (lookup : Lookup) :
    ts.resolve lookup id = (.ok id, ts) := resolve_of_same (resolveInner_closed rfl hc) hp (validate_of_kind hk)

end TypeTable

namespace Exec

def takeCaptured (visible : List (NameId × Variable)) : Capture → Exec (List (NameId × Variable))
  | .nothing => return []
  | .shared => return visible
  | .copyPerCall | .copyOnce => copyCaptured visible

/-- Puts a function into the table, and its address into the level that owns it. -/
def ownFunction (id : Nat) (f : ScriptFunction) (inner : Bool) : Exec UInt64 := do
  modify fun m =>
    let level := if inner then m.topLevel else 0
    let (owner, heap) := m.heap.track f.stub f.type level (.function id)
    { m with
      functions := m.functions.insert id f
      heap
      scopes := m.scopes.addAlloc level owner
      journal := .placed m.heap.nextSeq level :: m.journal }
  return f.stub

def makeFunction (chunk : Chunk) (entry len : Nat) (capture : Capture) (type : TypeId) (name : NameId)
    (inner : Bool) : Exec UInt64 := do
  let (id, stub) ← newStub type
  let captured ← takeCaptured (← get).visible capture
  let f : ScriptFunction :=
    { name, file := (← get).frame.file, chunk, entry, len, capture, captured, type, stub,
      key := if capture = .nothing then some (chunk.serial, entry) else none }
  ownFunction id f inner

theorem createFunction_eq (chunk : Chunk) (entry len : Nat) (capture : Capture) (type : TypeId)
    (name : NameId) (inner : Bool) :
    createFunction chunk entry len capture type name inner = (do
      let type ← resolveType type
      if (← get).types.kind type ≠ .function then raise .notAFunction
      let cached := (← get).functions.cached? (chunk.serial, entry)
      match if capture = .nothing then cached else none with
      | some stub => return stub
      | none => makeFunction chunk entry len capture type name inner) := by
  rw [createFunction]
  cases capture <;> rfl

theorem newStub_eq (type : TypeId) (m : Machine) :
    ∃ p m', newStub type m = .ok p m' ∧ (∀ k, m'.functions.get? k = m.functions.get? k) ∧ m.SameCells m' := by
  rw [newStub, modifyGet_eq]
  split
  case h_1 found functions h => exact ⟨_, _, rfl, FunctionTable.get?_reuse h, rfl, rfl, rfl, rfl, rfl, rfl⟩
  case h_2 => exact ⟨_, _, rfl, fun _ => rfl, rfl, rfl, rfl, rfl, rfl, rfl⟩

theorem ownFunction_eq (id : Nat) (f : ScriptFunction) (inner : Bool) (m : Machine) :
    ∃ m', ownFunction id f inner m = .ok f.stub m' ∧ m'.functions = m.functions.insert id f ∧ m.SameCells m' :=
  ⟨_, rfl, rfl, rfl, rfl, rfl, rfl, rfl, Scopes.vars_addAlloc ..⟩

theorem takeCaptured_eq (capture : Capture) (m : Machine) :
    ∃ m', takeCaptured m.visible capture m = .ok (m.capturedBy capture) m' ∧
    (m.copied (m.copiedBy capture)).SameButFault m' := by
  cases capture with
  | nothing => exact ⟨m, rfl, .refl m⟩
  | shared => exact ⟨m, rfl, .refl m⟩
  | copyPerCall => exact copyCaptured_eq m.visible m
  | copyOnce => exact copyCaptured_eq m.visible m

theorem makeFunction_ok {chunk : Chunk} {entry len : Nat} {capture : Capture} {type : TypeId}
    {name : NameId} {inner : Bool}
    {stub : UInt64} {m m' : Machine} (h : makeFunction chunk entry len capture type name inner m = .ok stub m') :
    ∃ id f, m.Makes capture stub id f m' := by
  obtain ⟨⟨id, stub'⟩, m₁, hstub, hget, hsame₁⟩ := newStub_eq type m
  rw [makeFunction, bind_ok hstub] at h
  dsimp only at h
  rw [get_bind] at h
  obtain ⟨m₂, htake, pending, rfl⟩ := takeCaptured_eq capture m₁
  rw [bind_ok htake, get_bind] at h
  generalize hf : ScriptFunction.mk name _ chunk entry len capture _ type stub' _ = f at h
  have hmode : f.capture = capture ∧ f.captured = m₁.capturedBy capture := by
    cases hf
    exact ⟨rfl, rfl⟩
  obtain ⟨m₃, hown, hfunctions, hsame⟩ :=
    ownFunction_eq id f inner ((m₁.copied (m₁.copiedBy capture)).withFault pending)
  cases h.symm.trans hown
  refine ⟨id, f, ?_, ?_, fun k g hg => ?_, hsame₁.capturedBy capture ▸ hmode.2, hmode.1, ?_, ?_, ?_, ?_, ?_, ?_⟩
  · rw [hfunctions]
    exact FunctionTable.classify_insert ..
  · rw [hfunctions]
    exact FunctionTable.get?_insert_self ..
  · rw [hfunctions] at hg
    exact (FunctionTable.get?_insert_or hg).imp_right fun hg => hget k ▸ hg
  · rw [hsame.types]
    exact hsame₁.types ▸ .refl _
  · rw [hsame.types, hsame.memory, ← hsame₁.copiedBy capture, ← hsame₁.memory, ← hsame₁.slot]
    rfl
  · rw [hsame.slot, ← hsame₁.copiedBy capture, ← hsame₁.slot]
    rfl
  · exact hsame.vars.trans hsame₁.vars
  · exact hsame.frames.trans hsame₁.frames
  · exact hsame.settings.trans hsame₁.settings

theorem makeFunction_total (chunk : Chunk) (entry len : Nat) (capture : Capture) (type : TypeId)
    (name : NameId) (inner : Bool)
    (m : Machine) : ∃ stub m', makeFunction chunk entry len capture type name inner m = .ok stub m' := by
  obtain ⟨⟨id, stub⟩, m₁, hstub, -, -⟩ := newStub_eq type m
  obtain ⟨m₂, htake, -⟩ := takeCaptured_eq capture m₁
  rw [makeFunction, bind_ok hstub]
  dsimp only
  rw [get_bind, bind_ok htake, get_bind]
  exact ⟨_, _, rfl⟩

/-- Types without deferred names below them are only looked up. -/
theorem resolveType_same {m : Machine} {id : TypeId}
    (h : ∀ lookup, (m.types.constant TypeTable.type).2.resolve lookup id =
      (.ok id, (m.types.constant TypeTable.type).2)) :
    resolveType id m = .ok id { m with types := (m.types.constant TypeTable.type).2 } := by
  have hconst : withTypes (·.constant TypeTable.type) m =
      .ok (m.types.constant TypeTable.type).1 { m with types := (m.types.constant TypeTable.type).2 } := rfl
  rw [resolveType, bind_ok hconst, get_bind]
  generalize (m.types.constant TypeTable.type).2 = ts at *
  have hresolve (lookup : TypeTable.Lookup) :
      withTypes (·.resolve lookup id) { m with types := ts } = .ok (.ok id) { m with types := ts } := by
    rw [withTypes, modifyGet_eq]
    simp only [h lookup]
  rw [bind_ok (hresolve _)]
  rfl

theorem resolveType_closed {m : Machine} {id : TypeId} (hid : id < m.types.size)
    (hc : (m.types.get id).flags.closed = true)
    (hp : (m.types.get id).containsParent = false) (hk : (m.types.get id).kind ≠ .struct) :
    resolveType id m = .ok id { m with types := (m.types.constant TypeTable.type).2 } := by
  have hgrows : m.types.Grows (m.types.constant TypeTable.type).2 := TypeTable.constant_grows _ _
  rw [← TypeTable.Grows.get hgrows hid] at hc hp hk
  exact resolveType_same (TypeTable.resolve_closed hc hp hk)

/-- A function of a type that turns out to be one of functions is made. -/
theorem createFunction_total {chunk : Chunk} {entry len : Nat} {capture : Capture} {type type' : TypeId}
    {name : NameId} {inner : Bool} {m m₁ : Machine} (hresolve : resolveType type m = .ok type' m₁)
    (hkind : m₁.types.kind type' = .function) :
    ∃ stub m', createFunction chunk entry len capture type name inner m = .ok stub m' := by
  rw [createFunction_eq, bind_ok hresolve, get_bind, if_neg fun h => h hkind]
  show ∃ stub m', (match if capture = Capture.nothing then m₁.functions.cached? (chunk.serial, entry) else none with
    | some stub => pure stub
    | none => makeFunction chunk entry len capture type' name inner) m₁ = .ok stub m'
  cases if capture = Capture.nothing then m₁.functions.cached? (chunk.serial, entry) else none with
  | some stub => exact ⟨_, _, rfl⟩
  | none => exact makeFunction_total ..

theorem createFunction_ok {chunk : Chunk} {entry len : Nat} {capture : Capture} {type : TypeId}
    {name : NameId} {inner : Bool}
    {stub : UInt64} {m m' : Machine} (h : createFunction chunk entry len capture type name inner m = .ok stub m') :
    (∃ id f, m.Makes capture stub id f m') ∨
      capture = .nothing ∧ m.functions.cached? (chunk.serial, entry) = some stub ∧ m.Quiet (fun _ => True) m' := by
  rw [createFunction_eq] at h
  obtain ⟨type', m₁, hresolve, h⟩ := bind_eq_ok h
  have hq : m.Quiet (fun _ => True) m₁ := ((resolveType_quiet type) m).ok hresolve |>.1
  rw [get_bind] at h
  split at h
  case isTrue => cases h
  case isFalse =>
    dsimp only at h
    rw [get_bind] at h
    cases hknown : if capture = .nothing then m₁.functions.cached? (chunk.serial, entry) else none with
    | some stub' =>
      rw [hknown] at h
      cases h
      rw [Option.ite_none_right_eq_some] at hknown
      exact .inr ⟨hknown.1, hq.functions ▸ hknown.2, hq⟩
    | none =>
      rw [hknown] at h
      obtain ⟨id, f, hmade⟩ := makeFunction_ok h
      exact .inl ⟨id, f, hmade.after_quiet hq⟩

end Exec

end LevelScript
