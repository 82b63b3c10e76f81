import LevelScript.Proofs.Steady

/-!
# Quiet computations

To look at values, to convert them and to compute with them leaves the memory and all variables as
they are. What can change is the table of types, which grows, and the invalid access that is still to
be raised: there is one afterwards if there was one before, or if an operand lies at an address that is
not valid.
-/

namespace LevelScript

def Variable.Misses (v : Variable) (addr : UInt64) : Prop :=
  v.storage = .location addr ∧ Memory.isValid addr = false

theorem Variable.not_misses_value (type : TypeId) (word addr : UInt64) :
    ¬(Variable.value type word).Misses addr := by
  rintro ⟨h, -⟩
  cases h

namespace Machine

/-- Only the types and the invalid access to raise are other ones; a new one is among `bad`. -/
structure Quiet (bad : UInt64 → Prop) (m m' : Machine) : Prop where
  same : m' = { m with types := m'.types, pending := m'.pending }
  types : m.types.Grows m'.types
  pending : m'.pending = m.pending ∨ m.pending = none ∧ ∃ addr, bad addr ∧ m'.pending = some addr

namespace Quiet

variable {bad : UInt64 → Prop} {a b c m m' : Machine}

theorem refl (m : Machine) : m.Quiet bad m := ⟨rfl, .refl _, .inl rfl⟩

theorem trans (h : a.Quiet bad b) (h' : b.Quiet bad c) : a.Quiet bad c := by
  refine ⟨?_, h.types.trans h'.types, ?_⟩
  · rw [h'.same, h.same]
  · rcases h'.pending with hc | ⟨hb, hc⟩
    · exact hc ▸ h.pending
    · rcases h.pending with ha | ⟨-, addr, -, ha⟩
      · exact .inr ⟨ha ▸ hb, hc⟩
      · rw [hb] at ha
        cases ha

theorem memory (h : m.Quiet bad m') : m'.memory = m.memory := by rw [h.same]

theorem scopes (h : m.Quiet bad m') : m'.scopes = m.scopes := by rw [h.same]

theorem functions (h : m.Quiet bad m') : m'.functions = m.functions := by rw [h.same]

theorem frames (h : m.Quiet bad m') : m'.frames = m.frames := by rw [h.same]

theorem settings (h : m.Quiet bad m') : m'.settings = m.settings := by rw [h.same]

theorem addresses (h : m.Quiet bad m') : m'.addresses = m.addresses := by rw [h.same]

theorem pending_kept (h : m.Quiet bad m') (hp : m.pending ≠ none) : m'.pending ≠ none := by
  rcases h.pending with he | ⟨hn, -⟩
  · rwa [he]
  · exact absurd hn hp

theorem noteFault {addr : UInt64} (h : bad addr) : m.Quiet bad (m.noteFault addr) := by
  refine ⟨rfl, .refl _, ?_⟩
  cases hp : m.pending with
  | some old => exact .inl (by rw [Machine.noteFault, hp]; rfl)
  | none => exact .inr ⟨rfl, addr, h, by rw [Machine.noteFault, hp]; rfl⟩

theorem withTypes {ts : TypeTable} (h : m.types.Grows ts) : m.Quiet bad { m with types := ts } :=
  ⟨rfl, h, .inl rfl⟩

end Quiet

end Machine

namespace Exec

/-- A quiet computation; its value is such as `P` says, and an error in it is no invalid access. -/
def Quiet (bad : UInt64 → Prop) (P : α → Prop) (x : Exec α) : Prop :=
  ∀ m, x.Ends m (fun a m' => m.Quiet bad m' ∧ P a) (fun e m' => m.Quiet bad m' ∧ ∀ addr, e.cause ≠ .fault addr)

namespace Quiet

variable {α β : Type} {bad : UInt64 → Prop} {P : α → Prop} {Q : β → Prop}

protected theorem pure {a : α} (h : P a) : Quiet bad P (pure a) := fun m => ⟨.refl m, h⟩

protected theorem bind {x : Exec α} {f : α → Exec β} (hx : Quiet bad P x) (hf : ∀ a, P a → Quiet bad Q (f a)) :
    Quiet bad Q (x >>= f) := by
  intro m
  refine (hx m).bind (fun a m₁ h₁ => ?_) (fun _ _ h => h)
  exact (hf a h₁.2 m₁).mono (fun _ _ h => ⟨h₁.1.trans h.1, h.2⟩) (fun _ _ h => ⟨h₁.1.trans h.1, h.2⟩)

theorem get : Quiet bad (fun _ => True) get := fun m => ⟨.refl m, trivial⟩

theorem raise {c : Cause} (hc : ∀ addr, c ≠ .fault addr) : Quiet bad P (Exec.raise c : Exec α) :=
  fun m => ⟨.refl m, hc⟩

protected theorem ite {c : Prop} [Decidable c] {x y : Exec α} (hx : Quiet bad P x) (hy : Quiet bad P y) :
    Quiet bad P (if c then x else y) := by
  split
  · exact hx
  · exact hy

theorem withTypes {f : TypeTable → α × TypeTable} (hf : ∀ ts : TypeTable, ts.Grows (f ts).2) :
    Quiet bad (fun _ => True) (Exec.withTypes f) :=
  fun m => ⟨.withTypes (hf m.types), trivial⟩

end Quiet

/-! ## Values -/

section
variable {α : Type} {bad : UInt64 → Prop} {v : Variable}

/-- Whatever is known of an operand, it is missed only where it may be. -/
def Missable (bad : UInt64 → Prop) (v : Variable) : Prop := ∀ addr, v.Misses addr → bad addr

theorem missable_value (type : TypeId) (word : UInt64) : Missable bad (Variable.value type word) :=
  fun addr h => absurd h (Variable.not_misses_value type word addr)

theorem missable_anywhere (v : Variable) : Missable (fun _ => True) v := fun _ _ => trivial

theorem typeInfo_quiet (id : TypeId) : Quiet bad (fun _ => True) (typeInfo id) := fun m => ⟨.refl m, trivial⟩

theorem kindOf_quiet (v : Variable) : Quiet bad (fun _ => True) (kindOf v) := fun m => ⟨.refl m, trivial⟩

theorem peek_quiet {addr : UInt64} (size : Nat) (h : Memory.isValid addr = false → bad addr) :
    Quiet bad (fun _ => True) (peek addr size) := by
  unfold peek
  split
  case isTrue => exact fun m => ⟨.refl m, trivial⟩
  case isFalse hc =>
    rw [Machine.canAccess, Bool.or_eq_true, not_or, Bool.not_eq_true] at hc
    exact fun m => ⟨.noteFault (h (Bool.not_eq_true _ ▸ hc.2)), trivial⟩

theorem bits_quiet (hv : Missable bad v) : Quiet bad (fun _ => True) (bits v) := by
  refine .bind (typeInfo_quiet _) fun t _ => ?_
  cases hs : v.storage with
  | value word => exact .pure trivial
  | location addr => exact .bind (peek_quiet _ fun h => hv addr ⟨hs, h⟩) fun _ _ => .pure trivial

theorem toValue_quiet (hv : Missable bad v) : Quiet bad (Missable bad) (toValue v) :=
  .bind (bits_quiet hv) fun _ _ => .pure fun _ h => by cases h.1

theorem asDouble_quiet (hv : Missable bad v) : Quiet bad (fun _ => True) (asDouble v) :=
  .bind (bits_quiet hv) fun _ _ => .bind (typeInfo_quiet _) fun _ _ => .pure trivial

theorem asType_quiet (hv : Missable bad v) : Quiet bad (fun _ => True) (asType v) :=
  .bind (bits_quiet hv) fun _ _ => .pure trivial

theorem isNegative_quiet (hv : Missable bad v) : Quiet bad (fun _ => True) (isNegative v) :=
  .bind (bits_quiet hv) fun _ _ => .bind (typeInfo_quiet _) fun _ _ => .pure trivial

theorem boolValue_quiet (b : Bool) : Quiet bad (Missable bad) (boolValue b) :=
  .bind (.withTypes fun ts => ts.unsign_grows _) fun _ _ => .pure (missable_value _ _)

/-! ## Conversions -/

theorem resolveType_quiet (id : TypeId) : Quiet bad (fun _ => True) (resolveType id) := by
  refine .bind (.withTypes fun ts => ts.constant_grows _) fun _ _ => .bind .get fun _ _ =>
    .bind (.withTypes fun ts => ts.resolve_grows _ _) fun r _ => ?_
  cases r with
  | ok id => exact .pure trivial
  | error e => exact .raise nofun

theorem truthy_quiet (hv : Missable bad v) : Quiet bad (fun _ => True) (truthy v) := by
  refine .bind (kindOf_quiet v) fun kind _ => ?_
  split
  · exact .bind .get fun _ _ => .bind (asType_quiet hv) fun _ _ => .bind (resolveType_quiet _) fun _ _ =>
      .pure trivial
  · exact .bind (asDouble_quiet hv) fun _ _ => .pure trivial
  · exact .bind (asDouble_quiet hv) fun _ _ => .pure trivial
  · exact .bind (bits_quiet hv) fun _ _ => .pure trivial

theorem cast_quiet (target : TypeId) (hv : Missable bad v) : Quiet bad (Missable bad) (cast target v) :=
  .bind (resolveType_quiet target) fun _ _ => .bind (typeInfo_quiet _) fun _ _ =>
    .bind (bits_quiet hv) fun _ _ => .bind (typeInfo_quiet _) fun _ _ =>
      .bind (asDouble_quiet hv) fun _ _ => .pure (missable_value _ _)

theorem bitcast_quiet (target : TypeId) (hv : Missable bad v) : Quiet bad (Missable bad) (bitcast target v) :=
  .bind (resolveType_quiet target) fun _ _ => .bind (typeInfo_quiet _) fun _ _ =>
    .bind (bits_quiet hv) fun _ _ => .pure (missable_value _ _)

theorem castBits_quiet (target : TypeId) (hv : Missable bad v) : Quiet bad (fun _ => True) (castBits target v) :=
  .bind (cast_quiet target hv) fun _ h => bits_quiet h

/-! ## Operators -/

theorem commonType_quiet (a b : Variable) : Quiet bad (fun _ => True) (commonType a b) := by
  refine .withTypes fun ts => ?_
  dsimp only
  split
  · split
    · exact (ts.primitive_grows _).trans (TypeTable.unsign_grows _ _)
    · exact ts.primitive_grows _
  · exact ts.unsign_grows _

variable {a b : Variable} (ha : Missable bad a) (hb : Missable bad b)
include ha hb

theorem promote_quiet :
    Quiet bad (fun p : TypeId × Variable × Variable => Missable bad p.2.1 ∧ Missable bad p.2.2) (promote a b) :=
  .bind (commonType_quiet a b) fun _ _ => .bind (cast_quiet _ ha) fun _ hx =>
    .bind (cast_quiet _ hb) fun _ hy => .pure ⟨hx, hy⟩

theorem compute_quiet (op : Opcode) (type : TypeId) : Quiet bad (fun _ => True) (compute op type a b) := by
  refine .bind (typeInfo_quiet type) fun t _ => .ite ?_ ?_
  · split
    · exact .bind (asDouble_quiet ha) fun _ _ => .bind (asDouble_quiet hb) fun _ _ => .pure trivial
    · exact .raise nofun
  · refine .bind (bits_quiet ha) fun _ _ => .bind (bits_quiet hb) fun _ _ => ?_
    split
    · exact .pure trivial
    · exact .raise nofun
    · exact .raise nofun

theorem arithmetic_quiet (op : Opcode) : Quiet bad (Missable bad) (arithmetic op a b) :=
  .bind (promote_quiet ha hb) fun _ h => .bind (compute_quiet h.1 h.2 op _) fun _ _ => .pure (missable_value _ _)

theorem ordering?_quiet : Quiet bad (fun _ => True) (ordering? a b) := by
  refine .bind (promote_quiet ha hb) fun _ h => .bind (typeInfo_quiet _) fun _ _ => .ite ?_ ?_
  · exact .bind (asDouble_quiet h.1) fun _ _ => .bind (asDouble_quiet h.2) fun _ _ => .pure trivial
  · refine .bind (isNegative_quiet ha) fun _ _ => .bind (isNegative_quiet hb) fun _ _ => ?_
    split
    · exact .pure trivial
    · exact .pure trivial
    · exact .bind (bits_quiet h.1) fun _ _ => .bind (bits_quiet h.2) fun _ _ => .pure trivial

theorem pointerOffset_quiet (op : Opcode) : Quiet bad (Missable bad) (pointerOffset op a b) := by
  have rest (p i : Variable) (hp : Missable bad p) (hi : Missable bad i) : Quiet bad (Missable bad) (do
      let offset := (← bits i) * stride (← get).types p.type
      let base ← bits p
      return Variable.value p.type (if op = .subtraction then base - offset else base + offset)) :=
    .bind (bits_quiet hi) fun _ _ => .bind .get fun _ _ => .bind (bits_quiet hp) fun _ _ =>
      .pure (missable_value _ _)
  refine .bind (kindOf_quiet a) fun kind _ => ?_
  dsimp only
  split
  · exact rest a b ha hb
  · exact rest b a hb ha

end

end Exec

end LevelScript
