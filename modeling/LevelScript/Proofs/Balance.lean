import LevelScript.Proofs.Interpreter

/-!
# Levels and calls are balanced

Levels and calls are opened in many places and stay open after an error, so that an error can be
shown where it arose. Still, what is open when a computation starts is never closed by it; and
without native code, which keeps errors for later and leaves open what they left open, a computation
that ends with a value has closed all that it opened.
-/

namespace LevelScript

def Event.isNativeCall : Event → Bool
  | nativeCall _ => true
  | _ => false

def Machine.nativeCalls (m : Machine) : Nat := m.journal.countP Event.isNativeCall

def Frame.unplaced (f : Frame) : Frame := { f with row := 0, col := 0 }

/-! ## Calls -/

/-- The calls `fs` are the outer ones of `gs`; the innermost of them may have gone on. -/
structure Under (fs gs : Array Frame) : Prop where
  size : fs.size ≤ gs.size
  outer (k : Nat) : k + 1 < fs.size → gs[k]? = fs[k]?
  last (k : Nat) : k < fs.size → gs[k]?.map Frame.unplaced = fs[k]?.map Frame.unplaced

namespace Under

variable {fs gs hs : Array Frame}

theorem refl (fs : Array Frame) : Under fs fs := ⟨Nat.le_refl _, fun _ _ => rfl, fun _ _ => rfl⟩

theorem trans (h : Under fs gs) (h' : Under gs hs) : Under fs hs where
  size := Nat.le_trans h.size h'.size
  outer k hk := (h'.outer k (Nat.lt_of_lt_of_le hk h.size)).trans (h.outer k hk)
  last k hk := (h'.last k (Nat.lt_of_lt_of_le hk h.size)).trans (h.last k hk)

/-- A change of one call, from the innermost of `fs` on, that only moves it. -/
theorem modify (h : Under fs gs) {k : Nat} (hk : fs.size ≤ k + 1) {g : Frame → Frame}
    (hg : ∀ f, (g f).unplaced = f.unplaced) : Under fs (gs.modify k g) where
  size := by rw [Array.size_modify]; exact h.size
  outer j hj := by
    rw [Array.getElem?_modify, if_neg (by omega)]
    exact h.outer j hj
  last j hj := by
    rw [← h.last j hj, Array.getElem?_modify]
    split
    · rw [Option.map_map]
      exact Option.map_congr fun f _ => hg f
    · rfl

theorem base (h : Under fs gs) (k : Nat) (hk : k < fs.size) : gs[k]?.map Frame.base = fs[k]?.map Frame.base := by
  have hl := congrArg (Option.map Frame.base) (h.last k hk)
  rw [Option.map_map, Option.map_map] at hl
  exact hl

theorem congr (h : Under fs gs) (hn : fs.size ≤ hs.size) (he : ∀ k < fs.size, hs[k]? = gs[k]?) :
    Under fs hs :=
  ⟨hn, fun k hk => (he k (by omega)).trans (h.outer k hk), fun k hk => by rw [he k hk, h.last k hk]⟩

theorem take (h : Under fs gs) {n : Nat} (hn : fs.size ≤ n) : Under fs (gs.take n) := by
  have hs := h.size
  refine h.congr ?_ fun k hk => ?_
  · rw [Array.take_eq_extract, Array.size_extract]
    omega
  · rw [Array.take_eq_extract, Array.getElem?_extract, if_pos (by omega), Nat.zero_add]

/-! An entered call hides the place of the one around it. -/

theorem below (f : Frame) (h : Under (fs.push f) gs) (k : Nat) (hk : k < fs.size) : gs[k]? = fs[k]? := by
  rw [h.outer k (by rw [Array.size_push]; omega), Array.getElem?_push_lt hk, Array.getElem?_eq_getElem hk]

theorem around (f : Frame) (h : Under (fs.push f) gs) : Under fs gs := by
  have hs := h.size
  rw [Array.size_push] at hs
  exact (refl fs).congr (by omega) (h.below f)

theorem popped (f : Frame) (h : Under (fs.push f) gs) : Under fs gs.pop := by
  have hs := h.size
  rw [Array.size_push] at hs
  refine (h.around f).congr (by rw [Array.size_pop]; omega) fun k hk => ?_
  rw [Array.getElem?_pop, if_pos (by omega)]

theorem pop_eq (f : Frame) (h : Under (fs.push f) gs) (hs : gs.size = fs.size + 1) : gs.pop = fs := by
  apply Array.ext_getElem?
  intro k
  rw [Array.getElem?_pop, hs, Nat.add_sub_cancel]
  split
  case isTrue hk => exact h.below f k hk
  case isFalse hk => exact (Array.getElem?_eq_none (by omega)).symm

/-! The innermost call can be taken elsewhere, and be put back. -/

theorem placed (h : Under fs gs) (row col : Int) :
    Under fs (gs.modify (gs.size - 1) ({ · with row, col })) :=
  h.modify (by have := h.size; omega) fun _ => rfl

theorem replaced (h : Under fs gs) (hs : gs.size = fs.size) :
    gs.modify (gs.size - 1)
      ({ · with row := (fs.back?.getD default).row, col := (fs.back?.getD default).col }) = fs := by
  apply Array.ext_getElem?
  intro k
  rw [Array.getElem?_modify, hs, Array.back?_eq_getElem?]
  split
  case isTrue hk =>
    subst hk
    by_cases h0 : fs.size = 0
    · rw [Array.getElem?_eq_none (by omega), Array.getElem?_eq_none (by omega)]
      rfl
    · have hl := h.last (fs.size - 1) (by omega)
      generalize gs[fs.size - 1]? = g at hl
      generalize fs[fs.size - 1]? = f at hl
      cases g <;> cases f <;> simp_all [Frame.unplaced]
  case isFalse hk =>
    by_cases hk' : k + 1 < fs.size
    · exact h.outer k hk'
    · rw [Array.getElem?_eq_none (by omega), Array.getElem?_eq_none (by omega)]

theorem refiled {file : NameId} (h : Under (fs.modify (fs.size - 1) ({ · with file })) gs) :
    Under fs (gs.modify (fs.size - 1) ({ · with file := (fs.back?.getD default).file })) := by
  have hs := h.size
  rw [Array.size_modify] at hs
  have same (k : Nat) (hk : k + 1 < fs.size) : gs[k]? = fs[k]? := by
    rw [h.outer k (by rw [Array.size_modify]; omega), Array.getElem?_modify, if_neg (by omega)]
  refine ⟨by rw [Array.size_modify]; exact hs, fun k hk => ?_, fun k hk => ?_⟩
  · rw [Array.getElem?_modify, if_neg (by omega)]
    exact same k hk
  · by_cases hk' : k + 1 < fs.size
    · rw [Array.getElem?_modify, if_neg (by omega), same k hk']
    · have hl := h.last k (by rw [Array.size_modify]; exact hk)
      have he : fs.size - 1 = k := by omega
      rw [Array.getElem?_modify, if_pos he] at hl
      rw [Array.back?_eq_getElem?, Array.getElem?_modify, if_pos he, he]
      generalize gs[k]? = g at hl
      generalize fs[k]? = f at hl
      cases g <;> cases f <;> simp_all [Frame.unplaced]

end Under

@[simp]
theorem Machine.nativeCalls_noted (m : Machine) (e : Event) :
    (m.noted e).nativeCalls = m.nativeCalls + if e.isNativeCall then 1 else 0 :=
  List.countP_cons

theorem Machine.nativeCalls_moved (m : Machine) (id : AllocId) (level : Nat) :
    (m.moved id level).nativeCalls = m.nativeCalls := by
  simp only [moved, nativeCalls]
  cases m.heap.get? id <;> rfl

/-! ## The law -/

/-- At least `d` levels, and all calls that were open. -/
structure Holds (d : Nat) (m m' : Machine) : Prop where
  depth : d ≤ m'.scopes.depth
  frames : Under m.frames m'.frames
  natives : m.nativeCalls ≤ m'.nativeCalls

/-- No native code has been called in between. -/
def Quiet (m m' : Machine) : Prop := m'.nativeCalls = m.nativeCalls ∧ 0 < m.frames.size

def Restored (m m' : Machine) : Prop :=
  Holds m.scopes.depth m m' ∧ (Quiet m m' → m'.scopes.depth = m.scopes.depth ∧ m'.frames = m.frames)

def Balanced (d : Nat) (m m' : Machine) : Prop :=
  Holds d m m' ∧ (Quiet m m' → m'.scopes.depth = d ∧ m'.frames.size = m.frames.size)

section
variable {d : Nat} {a b c m m' : Machine}

theorem Holds.trans (h : Holds d a b) (h' : Holds b.scopes.depth b c) : Holds d a c :=
  ⟨Nat.le_trans h.depth h'.depth, h.frames.trans h'.frames, Nat.le_trans h.natives h'.natives⟩

theorem Quiet.split (h : Holds d a b) (h' : b.nativeCalls ≤ c.nativeCalls) (q : Quiet a c) :
    Quiet a b ∧ Quiet b c := by
  have hn := h.natives
  have hf := h.frames.size
  obtain ⟨hq, hm⟩ := q
  exact ⟨⟨by omega, hm⟩, by omega, by omega⟩

theorem Restored.of_eq (hd : m'.scopes.depth = m.scopes.depth) (hf : m'.frames = m.frames)
    (hn : m'.nativeCalls = m.nativeCalls) : Restored m m' :=
  ⟨⟨Nat.le_of_eq hd.symm, hf ▸ .refl _, Nat.le_of_eq hn.symm⟩, fun _ => ⟨hd, hf⟩⟩

theorem Restored.trans (h : Restored a b) (h' : Restored b c) : Restored a c := by
  refine ⟨h.1.trans h'.1, fun q => ?_⟩
  obtain ⟨q₁, q₂⟩ := q.split h.1 h'.1.natives
  exact ⟨(h'.2 q₂).1.trans (h.2 q₁).1, (h'.2 q₂).2.trans (h.2 q₁).2⟩

theorem Restored.balanced (h : Restored m m') : Balanced m.scopes.depth m m' :=
  ⟨h.1, fun q => ⟨(h.2 q).1, congrArg Array.size (h.2 q).2⟩⟩

theorem Balanced.trans (h : Balanced d a b) (h' : Balanced b.scopes.depth b c) : Balanced d a c := by
  refine ⟨h.1.trans h'.1, fun q => ?_⟩
  obtain ⟨q₁, q₂⟩ := q.split h.1 h'.1.natives
  exact ⟨(h'.2 q₂).1.trans (h.2 q₁).1, (h'.2 q₂).2.trans (h.2 q₁).2⟩

theorem Balanced.closed (h : Balanced (d + 1) a b) (h' : Balanced (b.scopes.depth - 1) b c) :
    Balanced d a c := by
  have hd := h.1.depth
  have hd' := h'.1.depth
  refine ⟨⟨by omega, h.1.frames.trans h'.1.frames, Nat.le_trans h.1.natives h'.1.natives⟩, fun q => ?_⟩
  obtain ⟨q₁, q₂⟩ := q.split h.1 h'.1.natives
  have hb := h.2 q₁
  have hc := h'.2 q₂
  exact ⟨by omega, hc.2.trans hb.2⟩

end

def balance : Law where
  kept := Restored
  during d _ := Balanced d
  above d _ m m' := Holds d m m' ∧ (Quiet m m' → m'.frames.size = m.frames.size)
  failed m m' := Holds m.scopes.depth m m'
  wild m m' := Holds m.scopes.depth m m'
  kept_trans := .trans
  during_kept := Restored.balanced
  during_step := .trans
  failed_during h := h.1
  failed_trans := .trans
  failed_depth h hm := Nat.lt_of_lt_of_le hm h.depth
  wild_failed h := h
  wild_trans := .trans
  wild_parked m e := ⟨Nat.le_refl _, .refl _, Nat.le_refl _⟩
  calmly h := .of_eq h.depth h.frames (congrArg (List.countP _) h.journal)
  control m c := .of_eq rfl rfl rfl
  place m row col :=
    ⟨⟨Nat.le_refl _, (Under.refl _).placed row col, Nat.le_refl _⟩, fun _ => ⟨rfl, Array.size_modify⟩⟩
  place_back {m m' row col} h := by
    have hp : Under m.frames m'.frames := ((Under.refl _).placed row col).trans h.1.frames
    refine ⟨⟨h.1.depth, hp.placed _ _, h.1.natives⟩, fun q => ?_⟩
    have ⟨hd, hf⟩ := h.2 ⟨q.1, by rw [Machine.setPosition, Machine.modifyFrame, Array.size_modify]; exact q.2⟩
    rw [Machine.setPosition, Machine.modifyFrame, Array.size_modify] at hf
    exact ⟨hd, hp.replaced hf⟩
  opened h := ⟨⟨h.1.depth, h.1.frames, h.1.natives⟩, h.2⟩
  opened_failed {m m'} h := by
    have hd := h.depth
    rw [m.depth_deeper] at hd
    exact ⟨by omega, h.frames, h.natives⟩
  closing {m l} _ :=
    ⟨⟨Nat.le_of_eq (Scopes.depth_outer _).symm, .refl _, Nat.le_refl _⟩, fun _ => ⟨Scopes.depth_outer _, rfl⟩⟩
  dead h _ := h
  handedOver {d id ids m m' a} h _ :=
    have hr : Restored m' (m'.handedOver id a) := .of_eq rfl rfl (Machine.nativeCalls_noted _ _)
    h.trans hr.balanced
  closed := .closed
  closed_failed {m m₁ m₂} h h' := by
    have hd := h.depth
    have hd' := h'.1.depth
    rw [m.depth_deeper] at hd
    exact ⟨by omega, h.frames.trans h'.1.frames, Nat.le_trans h.natives h'.1.natives⟩
  recovering {d ids m m₁ m₂} h h' := by
    have hs := h.1.frames.size
    have hs' := h'.frames.size
    refine ⟨⟨Nat.le_trans h.1.depth h'.depth, (h.1.frames.trans h'.frames).take (by omega),
      Nat.le_trans h.1.natives h'.natives⟩, fun q => ?_⟩
    have hf := (h.2 (q.split h.1 h'.natives).1).2
    have hm := q.2
    show (m₂.frames.take (max m₁.frames.size 1)).size = _
    rw [Array.take_eq_extract, Array.size_extract]
    omega
  leaving h := ⟨⟨Nat.le_of_succ_le h.1.depth, h.1.frames, h.1.natives⟩, fun q => (h.2 q).2⟩
  above_closed h hd h' := by
    have hd' := h'.1.depth
    refine ⟨⟨by omega, h.1.frames.trans h'.1.frames, Nat.le_trans h.1.natives h'.1.natives⟩, fun q => ?_⟩
    obtain ⟨q₁, q₂⟩ := q.split h.1 h'.1.natives
    exact (h'.2 q₂).2.trans (h.2 q₁)
  above_done h hd := ⟨h.1, fun q => ⟨Nat.le_antisymm hd h.1.depth, h.2 q⟩⟩
  called {m m' f} _ h := by
    refine ⟨⟨h.1.depth, h.1.frames.popped f, h.1.natives⟩, fun q => ?_⟩
    have ⟨hd, hf⟩ := h.2 ⟨q.1, by rw [Machine.entered, Array.size_push]; omega⟩
    exact ⟨hd, h.1.frames.pop_eq f (hf.trans (Array.size_push _))⟩
  called_failed {m m' f} _ h := by
    have hd : m.scopes.push.depth ≤ _ := h.depth
    rw [Scopes.depth_push] at hd
    exact ⟨by omega, h.frames.around f, h.natives⟩
  calledNative {m m' addr} h _ := by
    have hn := h.natives
    rw [Machine.nativeCalls_noted] at hn
    simp only [Event.isNativeCall, if_true] at hn
    exact ⟨⟨h.depth, h.frames, by omega⟩, fun q => absurd q.1 (by omega)⟩
  filed {m m' file} h := by
    refine ⟨⟨h.1.depth, h.1.frames.refiled, h.1.natives⟩, fun q => ?_⟩
    have ⟨hd, hf⟩ := h.2 ⟨q.1, by rw [Machine.withFile, Array.size_modify]; exact q.2⟩
    rw [Machine.withFile, Array.size_modify] at hf
    exact ⟨hd, Array.size_modify.trans hf⟩
  filed_failed h := ⟨h.depth, h.frames.refiled, h.natives⟩
  added size type inner cleanup _ := .of_eq (Scopes.depth_modifyLevel ..) rfl rfl
  created f inner hs h _ _ _ _ :=
    have h := (Exec.newStub_steady hs h).1
    (Restored.of_eq h.depth h.frames (congrArg (List.countP _) h.journal)).trans
      (.of_eq (Scopes.depth_modifyLevel ..) rfl rfl)
  released _ := .of_eq rfl rfl rfl
  moved {m addr id level} _ _ := .of_eq (m.depth_moved id level) rfl (m.nativeCalls_moved id level)
  freed _ := .of_eq (Scopes.depth_modifyLevel ..) rfl rfl

/-! ## Runs -/

theorem Interp.tryCatch_caught (i : Interp) {r : Reader} {m m₁ m₂ : Machine} {e : RunError}
    (hb : i.levelBlock r.enter.1 m = .error (.raised e) m₁)
    (hu : i.unwind m.scopes.depth m.frames.size m₁ = .ok () m₂) :
    ∃ (h : Option Handler) (r' : Reader),
      i.tryCatch r m = (do return (← i.handle e h, r') : Exec _) { m₂ with control := .running } := by
  obtain ⟨p, hp⟩ := Law.handler?_reads r.enter.2
  refine ⟨p.1, p.2, ?_⟩
  show ((handler? r.enter.2 : Exec _) >>= fun p => _) m = _
  rw [hp, pure_bind]
  show ((liftM (Exec.attempt (i.levelBlock r.enter.1)) : Run _) >>= _) p.2 m = _
  rw [Run.lift_bind]
  have ha : Exec.attempt (i.levelBlock r.enter.1) m = .ok (.error e) m₁ := by rw [Exec.attempt, hb]
  rw [Exec.bind_ok ha]
  dsimp only
  rw [Run.lift_bind, Exec.bind_ok hu]
  rfl

/-- As many levels as in `m` and the same calls at the same places, unless native code was called. -/
def Machine.SameStacks (m m' : Machine) : Prop :=
  m'.nativeCalls = m.nativeCalls → m'.scopes.depth = m.scopes.depth ∧ m'.frames = m.frames

/-- No level and no call of `m` is missing. -/
def Machine.StacksAbove (m m' : Machine) : Prop :=
  m.scopes.depth ≤ m'.scopes.depth ∧ m.frames.size ≤ m'.frames.size

open Exec Law Interp in
/-- Calls, expressions and commands leave the levels and calls as they found them, or add to them
when they fail; and a handler that has caught an error runs with those that were open at its `try`. -/
theorem ofFuel_balanced (n : Nat) (m : Machine) (hf : 0 < m.frames.size) :
    let i := ofFuel n
    (∀ f args, (i.callFunction f args).Ends m (fun _ => m.SameStacks) (fun _ => m.StacksAbove)) ∧
    (0 < m.scopes.depth →
      (∀ r, (i.expression r).Ends m (fun _ => m.SameStacks) (fun _ => m.StacksAbove)) ∧
      (∀ r, (i.oneCommand r).Ends m (fun _ => m.SameStacks) (fun _ => m.StacksAbove)) ∧
      (∀ r e m₁, i.levelBlock r.enter.1 m = .error (.raised e) m₁ →
        (i.unwind m.scopes.depth m.frames.size).Ends m₁
          (fun _ m₂ =>
            (m₂.nativeCalls = m.nativeCalls →
              m₂.scopes.depth = m.scopes.depth ∧ m₂.frames.size = m.frames.size) ∧
            ∃ h r', i.tryCatch r m = (do return (← i.handle e h, r') : Exec _) { m₂ with control := .running })
          (fun _ _ => False))) := by
  intro i
  have hi : balance.Sound i := sound_ofFuel balance n
  have same {m' : Machine} (h : Restored m m') : m.SameStacks m' := fun hn => h.2 ⟨hn, hf⟩
  have above {m' : Machine} (h : Holds m.scopes.depth m m') : m.StacksAbove m' := ⟨h.depth, h.frames.size⟩
  refine ⟨fun f args => ?_, fun hd => ⟨fun r => ?_, fun r => ?_, fun r e m₁ hb => ?_⟩⟩
  · exact (callFunction_calls hi f args m).mono (fun _ _ => same) (fun _ _ => above)
  · exact (expression_restores hi r m hd).mono (fun _ _ => same) (fun _ _ => above)
  · exact (oneCommand_restores hi r m hd).mono (fun _ _ => same) (fun _ _ => above)
  · have h₁ := (levelBlock_obeys hi (block_obeys hi _) m hd).raised hb
    have hu := unwindWith_ends (i := i) (closeLevel_closes hi) (Law.refl m) h₁
    refine ends_iff.mpr ⟨fun _ m₂ h₂ => ?_, fun _ _ h₂ => hu.raised h₂⟩
    exact ⟨fun hn => (hu.ok h₂).2 ⟨hn, hf⟩, i.tryCatch_caught hb h₂⟩

/-- A block with a command that always fails, in a `try` without a handler. -/
def failingTry : Reader :=
  let place : List UInt8 := List.replicate 8 0
  let command := Opcode.code .declare :: place
  Reader.ofChunk { bytes := (Opcode.code .tryCatch :: place ++ [9, 0, 0, 0] ++ command ++ [0]).toArray }

open Interp in
theorem ofFuel_balanced_failingTry :
    ∃ v m', (ofFuel 3).oneCommand failingTry (Machine.start {}) = .ok v m' ∧
      m'.scopes.depth = 1 ∧ m'.frames = (Machine.start {}).frames := by
  have run : (match (ofFuel 3).oneCommand failingTry (Machine.start {}) with
      | .ok _ m' => m'.nativeCalls == 0
      | .error _ _ => false) = true := by decide +kernel
  split at run
  case h_1 v m' hr =>
    have h := ofFuel_balanced 3 (Machine.start {}) (by decide)
    have same := ((h.2 (by decide)).2.1 failingTry).ok hr
    exact ⟨v, m', hr, same (eq_of_beq run)⟩
  case h_2 => cases run

end LevelScript
