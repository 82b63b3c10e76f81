import LevelScript.Proofs.Interpreter
import LevelScript.Proofs.PlainTypes
import LevelScript.Proofs.Quiet

/-!
# Invalid accesses in operators

An operand that is kept at an address that is not valid gives zero, and the access is raised when the
operator has done its work. So no such node ends with a value; but an assignment has been made by then.
This is the only way in which an assignment that ends with an error changes anything: an error of a
conversion or of the operation, such as a division by zero, comes before it.
-/

namespace LevelScript

def Opcode.assigns (op : Opcode) : Bool := op == .assign || op.compoundBase?.isSome

namespace Operator

theorem action?_assign {ts : TypeTable} {op : Opcode} {stack : List Variable}
    (h : action? ts op stack = some .assign) : op = .assign := by
  obtain ⟨r, hr, hop, ha⟩ := action?_rule h
  have table : ∀ r ∈ rules, r.action = .assign → ∀ op ∈ r.ops, op = .assign := by decide
  exact table r hr ha op hop

theorem action?_compound {ts : TypeTable} {op : Opcode} {stack : List Variable}
    (h : action? ts op stack = some .compound) : op.assigns = true := by
  obtain ⟨r, hr, hop, ha⟩ := action?_rule h
  have table : ∀ r ∈ rules, r.action = .compound → ∀ op ∈ r.ops, op.assigns = true := by decide
  exact table r hr ha op hop

theorem action?_elvis {ts : TypeTable} {op : Opcode} {stack : List Variable}
    (h : action? ts op stack = some .elvis) : op = .elvis := by
  obtain ⟨r, hr, hop, ha⟩ := action?_rule h
  have table : ∀ r ∈ rules, r.action = .elvis → ∀ op ∈ r.ops, op = .elvis := by decide
  exact table r hr ha op hop

theorem action?_compoundBase {ts : TypeTable} {op base : Opcode} {stack : List Variable} {action : Action}
    (hb : op.compoundBase? = some base) (h : action? ts base stack = some action) : action ≠ .assign := by
  rintro rfl
  have hbase := action?_assign h
  subst hbase
  cases op <;> cases hb

end Operator

namespace Machine

def stored (m : Machine) (v : Variable) (word : UInt64) : Machine :=
  match v.storage with
  | .value _ => m
  | .location addr =>
    let size := (m.types.get v.type).valueSize
    if size = 0 then m
    else if Memory.isValid addr then { m with memory := m.memory.write addr size word }
    else m.noteFault addr

/-- The memory is as it was, or a value of `target`'s type has been written at `target`, which lies at a
valid address. -/
def WritesTo (target : Variable) (m m' : Machine) : Prop :=
  m'.memory = m.memory ∨ ∃ addr word, target.storage = .location addr ∧ Memory.isValid addr = true ∧
    m'.memory = m.memory.write addr (m'.types.get target.type).valueSize word

def Unreadable (m : Machine) (v : Variable) : Prop :=
  (∃ addr, v.Misses addr) ∧ ∃ t, m.types.types[v.type]? = some t ∧ t.valueSize ≠ 0

section
variable {m m' s : Machine} {bad : UInt64 → Prop} {v : Variable} {word : UInt64}

theorem Unreadable.grows (h : m.Unreadable v) (hg : m.types.Grows m'.types) : m'.Unreadable v :=
  ⟨h.1, h.2.imp fun t ht => ⟨hg _ t ht.1, ht.2⟩⟩

theorem stored_writesTo (v : Variable) (word : UInt64) : WritesTo v s (s.stored v word) := by
  unfold stored
  split
  case h_1 => exact .inl rfl
  case h_2 addr hs =>
    dsimp only
    split
    · exact .inl rfl
    · split
      case isTrue hv => exact .inr ⟨addr, word, hs, hv, rfl⟩
      case isFalse => exact .inl rfl

theorem WritesTo.after (h : WritesTo v s m') (hq : m.Quiet bad s) : WritesTo v m m' := by
  unfold WritesTo at *
  rwa [hq.memory] at h

theorem stored_pending (v : Variable) (word : UInt64) :
    (s.stored v word).pending = s.pending ∨ (s.stored v word).memory = s.memory ∧
      s.pending = none ∧ ∃ addr, v.Misses addr ∧ (s.stored v word).pending = some addr := by
  unfold stored
  split
  case h_1 => exact .inl rfl
  case h_2 addr hs =>
    dsimp only
    split
    · exact .inl rfl
    · split
      case isTrue => exact .inl rfl
      case isFalse hv =>
        have hq : s.Quiet v.Misses (s.noteFault addr) := .noteFault ⟨hs, Bool.not_eq_true _ ▸ hv⟩
        rcases hq.pending with h | ⟨hn, h⟩
        · exact .inl h
        · exact .inr ⟨rfl, hn, h⟩

theorem stored_settings (v : Variable) (word : UInt64) : (s.stored v word).settings = s.settings := by
  unfold stored
  split
  · rfl
  · dsimp only
    split
    · rfl
    · split <;> rfl

theorem Misses.stored_memory {addr : UInt64} (h : v.Misses addr) (word : UInt64) :
    (s.stored v word).memory = s.memory := by
  rcases s.stored_writesTo v word with hm | ⟨addr', -, hs, hv, -⟩
  · exact hm
  · rw [h.1] at hs
    cases hs
    rw [h.2] at hv
    cases hv

theorem stored_pending_kept (v : Variable) (word : UInt64) (hp : s.pending ≠ none) :
    (s.stored v word).pending ≠ none := by
  rcases s.stored_pending v word with h | ⟨-, hn, -⟩
  · rwa [h]
  · exact absurd hn hp

theorem Unreadable.stored (h : s.Unreadable v) (word : UInt64) : (s.stored v word).pending ≠ none := by
  obtain ⟨⟨addr, hs, hv⟩, t, ht, h0⟩ := h
  have hget := TypeTable.get_eq ht
  rw [Machine.stored, hs]
  dsimp only
  rw [hget, if_neg h0, if_neg (by simp [hv]), noteFault]
  cases s.pending <;> simp

end

end Machine

namespace Exec

section
variable {bad : UInt64 → Prop} {a b v : Variable} {α β : Type}

theorem store_eq (v : Variable) (word : UInt64) (m : Machine) : store v word m = .ok () (m.stored v word) := by
  unfold store Machine.stored
  cases v.storage <;> rfl

/-- An assignment changes nothing if it fails. -/
theorem assign_ends (target : Variable) (hv : Missable bad v) (m : Machine) :
    (assign target v).Ends m (fun x m' => x = target ∧ ∃ s word, m.Quiet bad s ∧ m' = s.stored target word)
      (fun e m' => m.Quiet bad m' ∧ ∀ addr, e.cause ≠ .fault addr) := by
  refine (castBits_quiet target.type hv m).bind (fun word s hs => ?_) (fun _ _ h => h)
  refine (ends_bind_ok (store_eq target word s)).mpr ?_
  exact ⟨rfl, s, word, hs.1, rfl⟩

theorem binary_quiet {op : Opcode} {action : Operator.Action} (hne : action ≠ .assign) (ha : Missable bad a)
    (hb : Missable bad b) : Quiet bad (Missable bad) (Interp.binary op action a b) := by
  unfold Interp.binary
  split
  · exact arithmetic_quiet ha hb op
  · exact pointerOffset_quiet ha hb op
  · exact .bind (truthy_quiet ha) fun _ _ => .ite (.pure ha) (.pure hb)
  · exact .bind (ordering?_quiet ha hb) fun _ _ => boolValue_quiet _
  · exact .bind (truthy_quiet ha) fun _ _ => .bind (truthy_quiet hb) fun _ _ => boolValue_quiet _
  · exact absurd rfl hne
  · exact .bind (asType_quiet hb) fun _ _ => .ite (bitcast_quiet _ ha) (cast_quiet _ ha)
  · exact .raise nofun

theorem compound_ends (op : Opcode) (ha : Missable bad a) (hb : Missable bad b) (m : Machine) :
    (Interp.compound op a b).Ends m (fun _ m' => ∃ s word, m.Quiet bad s ∧ m' = s.stored a word)
      (fun e m' => m.Quiet bad m' ∧ ∀ addr, e.cause ≠ .fault addr) := by
  unfold Interp.compound
  split
  case h_1 => exact ⟨.refl m, nofun⟩
  case h_2 base hbase =>
    refine ends_get.mpr ?_
    split
    case h_1 => exact ⟨.refl m, nofun⟩
    case h_2 action haction =>
      have hne := Operator.action?_compoundBase hbase haction
      refine (binary_quiet hne ha hb m).bind (fun v m₁ h₁ => ?_) (fun _ _ h => h)
      refine (assign_ends a h₁.2 m₁).mono (fun _ m₂ h₂ => ?_) (fun _ _ h => ⟨h₁.1.trans h.1, h.2⟩)
      obtain ⟨-, s, word, hs, rfl⟩ := h₂
      exact ⟨s, word, h₁.1.trans hs, rfl⟩

/-! ## Operands that cannot be read -/

/-- If `v` cannot be read, an access is to be raised after the computation. -/
def LooksAt (v : Variable) (x : Exec α) : Prop :=
  ∀ m : Machine, m.Unreadable v → x.Ends m (fun _ m' => m'.pending ≠ none) (fun _ _ => True)

def KeepsFault (x : Exec α) : Prop :=
  ∀ m : Machine, m.pending ≠ none → x.Ends m (fun _ m' => m'.pending ≠ none) (fun _ _ => True)

theorem Quiet.keepsFault {P : α → Prop} {x : Exec α} (hx : Quiet (fun _ => True) P x) : KeepsFault x :=
  fun m hp => (hx m).mono (fun _ _ h => h.1.pending_kept hp) (fun _ _ _ => trivial)

theorem LooksAt.bind {x : Exec α} {f : α → Exec β} (hx : LooksAt v x) (hf : ∀ a, KeepsFault (f a)) :
    LooksAt v (x >>= f) :=
  fun m hv => (hx m hv).bind (fun a m₁ h₁ => hf a m₁ h₁) (fun _ _ h => h)

theorem LooksAt.after {P : α → Prop} {x : Exec α} {f : α → Exec β} (hx : Quiet (fun _ => True) P x)
    (hf : ∀ a, LooksAt v (f a)) : LooksAt v (x >>= f) :=
  fun m hv => (hx m).bind (fun a m₁ h₁ => hf a m₁ (hv.grows h₁.1.types)) (fun _ _ _ => trivial)

theorem LooksAt.raise (c : Cause) : LooksAt v (Exec.raise c : Exec α) := fun _ _ => trivial

theorem LooksAt.ite {c : Prop} [Decidable c] {x y : Exec α} (hx : LooksAt v x) (hy : LooksAt v y) :
    LooksAt v (if c then x else y) := by
  split
  · exact hx
  · exact hy

theorem KeepsFault.pure (a : α) : KeepsFault (pure a) := fun _ hp => hp

theorem bits_looksAt (v : Variable) : LooksAt v (bits v) := by
  rintro m ⟨⟨addr, hs, hv⟩, t, ht, h0⟩
  have hget : typeInfo v.type m = .ok t m := congrArg (EStateM.Result.ok · m) (TypeTable.get_eq ht)
  have hno : ¬Machine.canAccess addr t.valueSize = true := by simp [Machine.canAccess, h0, hv]
  refine (ends_bind_ok hget).mpr ?_
  rw [hs]
  dsimp only
  rw [peek, if_neg hno]
  show (m.noteFault addr).pending ≠ none
  rw [Machine.noteFault]
  cases m.pending <;> simp

theorem asDouble_looksAt (v : Variable) : LooksAt v (asDouble v) :=
  (bits_looksAt v).bind fun _ => Quiet.keepsFault (P := fun _ => True)
    (.bind (typeInfo_quiet _) fun _ _ => .pure trivial)

theorem asType_looksAt (v : Variable) : LooksAt v (asType v) := (bits_looksAt v).bind fun _ => .pure _

theorem truthy_looksAt (v : Variable) : LooksAt v (truthy v) := by
  refine .after (kindOf_quiet v) fun kind => ?_
  split
  · refine .after .get fun m => (asType_looksAt v).bind fun type => ?_
    exact Quiet.keepsFault (P := fun _ => True) (.bind (resolveType_quiet _) fun _ _ => .pure trivial)
  · exact (asDouble_looksAt v).bind fun _ => .pure _
  · exact (asDouble_looksAt v).bind fun _ => .pure _
  · exact (bits_looksAt v).bind fun _ => .pure _

theorem cast_looksAt (target : TypeId) (v : Variable) : LooksAt v (cast target v) := by
  refine .after (resolveType_quiet target) fun _ => .after (typeInfo_quiet _) fun _ =>
    (bits_looksAt v).bind fun _ => ?_
  exact Quiet.keepsFault (P := fun _ => True) (.bind (typeInfo_quiet _) fun _ _ =>
    .bind (asDouble_quiet (missable_anywhere v)) fun _ _ => .pure trivial)

theorem bitcast_looksAt (target : TypeId) (v : Variable) : LooksAt v (bitcast target v) :=
  .after (resolveType_quiet target) fun _ => .after (typeInfo_quiet _) fun _ =>
    (bits_looksAt v).bind fun _ => .pure _

theorem castBits_looksAt (target : TypeId) (v : Variable) : LooksAt v (castBits target v) :=
  (cast_looksAt target v).bind fun _ => (bits_quiet (missable_anywhere _)).keepsFault

theorem promote_looksAt_left (a b : Variable) : LooksAt a (promote a b) := by
  refine .after (commonType_quiet a b) fun _ => (cast_looksAt _ a).bind fun _ => ?_
  exact Quiet.keepsFault (P := fun _ => True) (.bind (cast_quiet _ (missable_anywhere b)) fun _ _ => .pure trivial)

theorem promote_looksAt_right (a b : Variable) : LooksAt b (promote a b) :=
  .after (commonType_quiet a b) fun _ => .after (cast_quiet _ (missable_anywhere a)) fun _ =>
    (cast_looksAt _ b).bind fun _ => .pure _

/-- Both operands are looked at when they are brought to one type. -/
theorem promote_bind {f : TypeId × Variable × Variable → Exec α} (hf : ∀ p, KeepsFault (f p)) :
    LooksAt a (promote a b >>= f) ∧ LooksAt b (promote a b >>= f) :=
  ⟨(promote_looksAt_left a b).bind hf, (promote_looksAt_right a b).bind hf⟩

theorem arithmetic_looksAt (op : Opcode) (a b : Variable) :
    LooksAt a (arithmetic op a b) ∧ LooksAt b (arithmetic op a b) := by
  refine promote_bind fun p => Quiet.keepsFault (P := fun _ => True) ?_
  exact .bind (compute_quiet (missable_anywhere _) (missable_anywhere _) op _) fun _ _ => .pure trivial

theorem ordering?_looksAt (a b : Variable) : LooksAt a (ordering? a b) ∧ LooksAt b (ordering? a b) := by
  have any (v : Variable) := missable_anywhere v
  refine promote_bind fun p => Quiet.keepsFault (P := fun _ => True) ?_
  refine .bind (typeInfo_quiet _) fun _ _ => .ite ?_ ?_
  · exact .bind (asDouble_quiet (any _)) fun _ _ => .bind (asDouble_quiet (any _)) fun _ _ => .pure trivial
  · refine .bind (isNegative_quiet (any a)) fun _ _ => .bind (isNegative_quiet (any b)) fun _ _ => ?_
    split
    · exact .pure trivial
    · exact .pure trivial
    · exact .bind (bits_quiet (any _)) fun _ _ => .bind (bits_quiet (any _)) fun _ _ => .pure trivial

theorem pointerOffset_looksAt (op : Opcode) (a b : Variable) :
    LooksAt a (pointerOffset op a b) ∧ LooksAt b (pointerOffset op a b) := by
  have rest (p i : Variable) : LooksAt i (do
      let offset := (← bits i) * stride (← get).types p.type
      let base ← bits p
      return Variable.value p.type (if op = .subtraction then base - offset else base + offset)) ∧ LooksAt p (do
      let offset := (← bits i) * stride (← get).types p.type
      let base ← bits p
      return Variable.value p.type (if op = .subtraction then base - offset else base + offset)) := by
    refine ⟨(bits_looksAt i).bind fun _ => Quiet.keepsFault (P := fun _ => True) ?_, ?_⟩
    · exact .bind .get fun _ _ => .bind (bits_quiet (missable_anywhere p)) fun _ _ => .pure trivial
    · exact .after (bits_quiet (missable_anywhere i)) fun _ => .after .get fun _ =>
        (bits_looksAt p).bind fun _ => .pure _
  refine ⟨.after (kindOf_quiet a) fun kind => ?_, .after (kindOf_quiet a) fun kind => ?_⟩
  all_goals
    dsimp only
    split
  · exact (rest a b).2
  · exact (rest b a).1
  · exact (rest a b).1
  · exact (rest b a).2

theorem assign_keepsFault (target v : Variable) : KeepsFault (assign target v) := by
  intro m hp
  refine (assign_ends target (missable_anywhere v) m).mono (fun _ m' h => ?_) (fun _ _ _ => trivial)
  obtain ⟨-, s, word, hs, rfl⟩ := h
  exact s.stored_pending_kept target word (hs.pending_kept hp)

theorem assign_looksAt_target (target v : Variable) : LooksAt target (assign target v) := by
  intro m hu
  refine (assign_ends target (missable_anywhere v) m).mono (fun _ m' h => ?_) (fun _ _ _ => trivial)
  obtain ⟨-, s, word, hs, rfl⟩ := h
  exact (hu.grows hs.types).stored word

theorem assign_looksAt_source (target v : Variable) : LooksAt v (assign target v) := by
  refine (castBits_looksAt target.type v).bind fun word m hp => ?_
  refine (ends_bind_ok (store_eq target word m)).mpr ?_
  exact m.stored_pending_kept target word hp

theorem binary_looksAt_left (op : Opcode) (action : Operator.Action) (a b : Variable) :
    LooksAt a (Interp.binary op action a b) := by
  unfold Interp.binary
  split
  · exact (arithmetic_looksAt op a b).1
  · exact (pointerOffset_looksAt op a b).1
  · refine (truthy_looksAt a).bind fun truth => ?_
    split <;> exact .pure _
  · exact (ordering?_looksAt a b).1.bind fun _ => (boolValue_quiet _).keepsFault
  · refine (truthy_looksAt a).bind fun _ => Quiet.keepsFault (P := Missable fun _ => True) ?_
    exact .bind (truthy_quiet (missable_anywhere b)) fun _ _ => boolValue_quiet _
  · exact assign_looksAt_target a b
  · refine .after (asType_quiet (missable_anywhere b)) fun target => .ite ?_ ?_
    · exact bitcast_looksAt target a
    · exact cast_looksAt target a
  · exact .raise _

theorem binary_looksAt_right {op : Opcode} {action : Operator.Action} (hne : action ≠ .elvis) (a b : Variable) :
    LooksAt b (Interp.binary op action a b) := by
  unfold Interp.binary
  split
  · exact (arithmetic_looksAt op a b).2
  · exact (pointerOffset_looksAt op a b).2
  · exact absurd rfl hne
  · exact (ordering?_looksAt a b).2.bind fun _ => (boolValue_quiet _).keepsFault
  · exact .after (truthy_quiet (missable_anywhere a)) fun _ => (truthy_looksAt b).bind fun _ =>
      (boolValue_quiet _).keepsFault
  · exact assign_looksAt_source a b
  · refine (asType_looksAt b).bind fun target => ?_
    split
    · exact (bitcast_quiet target (missable_anywhere a)).keepsFault
    · exact (cast_quiet target (missable_anywhere a)).keepsFault
  · exact .raise _

theorem compound_looksAt (op : Opcode) (a b : Variable) :
    LooksAt a (Interp.compound op a b) ∧ (op ≠ .elvisAssign → LooksAt b (Interp.compound op a b)) := by
  unfold Interp.compound
  split
  case h_1 => exact ⟨.raise _, fun _ => .raise _⟩
  case h_2 base hbase =>
    refine ⟨.after .get fun m => ?_, fun hop => .after .get fun m => ?_⟩
    · split
      · exact .after .get fun _ => .raise _
      · exact (binary_looksAt_left base _ a b).bind fun v => assign_keepsFault a v
    · split
      case h_1 => exact .after .get fun _ => .raise _
      case h_2 action haction =>
        have hne : action ≠ .elvis := by
          rintro rfl
          have he := Operator.action?_elvis haction
          subst he
          exact hop (by cases op <;> first | rfl | cases hbase)
        exact (binary_looksAt_right hne a b).bind fun v => assign_keepsFault a v

end

end Exec

/-! ## Nodes -/

theorem Exec.checkFault_none {m : Machine} (hp : m.pending = none) : checkFault m = .ok () m := by
  rw [checkFault, get_bind, hp]
  rfl

theorem Exec.checkFault_some {m : Machine} {addr : UInt64} (hp : m.pending = some addr) :
    checkFault.Ends m (fun _ _ => False) (fun e m' => e.cause = .fault addr ∧ m' = { m with pending := none }) := by
  refine ends_get.mpr ?_
  rw [hp]
  exact ⟨rfl, rfl⟩

namespace Interp

open Exec

/-- A node as it is run: with the check for invalid accesses, and for the height of the stack. -/
def checkedNode (i : Interp) (op : Opcode) (stack : List Variable) : Run (List Variable) := do
  let stack ← i.node op stack
  checkFault
  let max := (← getThe Machine).settings.maxStack
  if max < stack.length then raise (.expressionOverflow max)
  return stack

theorem nodes_succ (i : Interp) (n : Nat) (stack : List Variable) :
    i.nodes (n + 1) stack = (do
      let op ← Run.next Reader.opcode
      if op = .endMark then return stack.head?
      let (row, col) ← Run.place
      let stack ← Run.atPlace row col (i.checkedNode op stack)
      i.nodes n stack) := rfl

/-- Operators of two operands that do not need to look at the second. -/
def isLazy (op : Opcode) : Bool := op == .elvis || op == .elvisAssign

section
variable {i : Interp} {op : Opcode} {a b : Variable} {rest : List Variable} {r : Reader}

/-- What an operator of two operands has done before it is checked for invalid accesses. -/
theorem node_ends {bad : UInt64 → Prop} (hop : op.shape? = some .between) (ha : Missable bad a)
    (hb : Missable bad b) (m : Machine) :
    (i.node op (b :: a :: rest) r).Ends m
      (fun p m' => (∃ v, p = (v :: rest, r)) ∧ ∃ s, m.Quiet bad s ∧
        (m' = s ∨ op.assigns = true ∧ ∃ word, m' = s.stored a word))
      (fun e m' => m.Quiet bad m' ∧ ∀ addr, e.cause ≠ .fault addr) := by
  have hnode : op.isOperator = true := by rw [Opcode.isOperator, hop]; rfl
  rw [node, if_pos hnode]
  refine (ends_congr Run.machine_bind).mpr ?_
  cases haction : Operator.action? m.types op (b :: a :: rest) with
  | none => exact ⟨.refl m, nofun⟩
  | some action =>
    dsimp only
    rw [if_pos hop]
    split
    case isTrue hc =>
      subst hc
      rw [Run.lift_bind]
      refine (compound_ends op ha hb m).bind (fun v m' h => ?_) (fun _ _ h => h)
      obtain ⟨s, word, hs, rfl⟩ := h
      exact ⟨⟨v, rfl⟩, s, hs, .inr ⟨Operator.action?_compound haction, word, rfl⟩⟩
    case isFalse hc =>
      rw [Run.lift_bind]
      by_cases hassign : action = .assign
      · subst hassign
        refine (assign_ends a hb m).bind (fun v m' h => ?_) (fun _ _ h => h)
        obtain ⟨-, s, word, hs, rfl⟩ := h
        have he := Operator.action?_assign haction
        exact ⟨⟨v, rfl⟩, s, hs, .inr ⟨by rw [he]; rfl, word, rfl⟩⟩
      · refine (binary_quiet hassign ha hb m).bind (fun v s h => ?_) (fun _ _ h => h)
        exact ⟨⟨v, rfl⟩, s, h.1, .inl rfl⟩

theorem node_looksAt (hop : op.shape? = some .between) (a b : Variable) :
    LooksAt a (i.node op (b :: a :: rest) r) ∧ (isLazy op = false → LooksAt b (i.node op (b :: a :: rest) r)) := by
  have hnode : op.isOperator = true := by rw [Opcode.isOperator, hop]; rfl
  rw [node, if_pos hnode]
  have run {v : Variable} (action : Operator.Action) (hc : LooksAt v (compound op a b))
    (hb : LooksAt v (binary op action a b)) :
      LooksAt v ((if action = .compound then liftM (compound op a b) >>= fun v => pure (v :: rest)
        else liftM (binary op action a b) >>= fun v => pure (v :: rest) : Run (List Variable)) r) := by
    split
    all_goals rw [Run.lift_bind]
    · exact hc.bind fun _ => .pure _
    · exact hb.bind fun _ => .pure _
  refine ⟨fun m hu => (ends_congr Run.machine_bind).mpr ?_, fun hl m hu => (ends_congr Run.machine_bind).mpr ?_⟩
  all_goals cases haction : Operator.action? m.types op (b :: a :: rest)
  case refine_1.none => trivial
  case refine_1.some action =>
    dsimp only
    rw [if_pos hop]
    exact run action (compound_looksAt op a b).1 (binary_looksAt_left op action a b) m hu
  case refine_2.none => trivial
  case refine_2.some action =>
    rw [isLazy, Bool.or_eq_false_iff, beq_eq_false_iff_ne, beq_eq_false_iff_ne] at hl
    dsimp only
    rw [if_pos hop]
    refine run action ((compound_looksAt op a b).2 hl.2) (binary_looksAt_right ?_ a b) m hu
    rintro rfl
    exact hl.1 (Operator.action?_elvis haction)

/-- An operator of two operands ends with a value only if it could read all that it looked at, and has then
written to nothing but the operand that it assigns to. If it ends with an error, the memory is as it was,
but for one case: an assignment whose second operand cannot be read has been made, and ends with that
fault. -/
theorem checkedNode_ends (hop : op.shape? = some .between) (m : Machine) (hp : m.pending = none)
    (hstack : rest.length + 2 ≤ m.settings.maxStack) :
    (i.checkedNode op (b :: a :: rest) r).Ends m
      (fun p m' => (∃ v, p = (v :: rest, r)) ∧ m'.pending = none ∧ ¬m.Unreadable a ∧
        (isLazy op = false → ¬m.Unreadable b) ∧ (op.assigns = false → m'.memory = m.memory) ∧ m.WritesTo a m')
      (fun e m' => m'.memory = m.memory ∨
        op.assigns = true ∧ m.WritesTo a m' ∧ ∃ addr, b.Misses addr ∧ e.cause = .fault addr) := by
  let bad (addr : UInt64) := a.Misses addr ∨ b.Misses addr
  have ha : Missable bad a := fun _ => .inl
  have hb : Missable bad b := fun _ => .inr
  have looks : (i.node op (b :: a :: rest) r).Ends m
      (fun _ m' => (m.Unreadable a → m'.pending ≠ none) ∧ (isLazy op = false → m.Unreadable b → m'.pending ≠ none))
      (fun _ _ => True) := by
    have h : LooksAt a (i.node op (b :: a :: rest) r) ∧
        (isLazy op = false → LooksAt b (i.node op (b :: a :: rest) r)) :=
      node_looksAt hop a b
    exact ends_iff.mpr ⟨fun _ _ hx => ⟨fun hu => (h.1 m hu).ok hx, fun hl hu => (h.2 hl m hu).ok hx⟩,
      fun _ _ _ => trivial⟩
  refine Ends.bind ((node_ends hop ha hb m).and looks) (fun p m₁ h => ?_) (fun e m' h => .inl h.1.1.memory)
  obtain ⟨⟨⟨v, rfl⟩, s, hs, hm₁⟩, hla, hlb⟩ := h
  have hw : m.WritesTo a m₁ := by
    rcases hm₁ with rfl | ⟨-, word, rfl⟩
    · exact .inl hs.memory
    · exact (s.stored_writesTo a word).after hs
  show Ends ((liftM checkFault >>= _ : Run _) r) m₁ _ _
  rw [Run.lift_bind]
  cases hpend : m₁.pending with
  | none =>
    have hsettings : m₁.settings = m.settings := by
      rcases hm₁ with rfl | ⟨-, word, rfl⟩
      · exact hs.settings
      · exact (s.stored_settings a word).trans hs.settings
    refine (ends_bind_ok (checkFault_none hpend)).mpr ((ends_congr Run.machine_bind).mpr ?_)
    dsimp only
    rw [if_neg (by rw [hsettings, List.length_cons]; omega)]
    refine ⟨⟨v, rfl⟩, hpend, fun hu => hla hu hpend, fun hl hu => hlb hl hu hpend, fun hno => ?_, hw⟩
    rcases hm₁ with rfl | ⟨hyes, -⟩
    · exact hs.memory
    · rw [hno] at hyes
      cases hyes
  | some addr =>
    refine (checkFault_some hpend).bind (fun _ _ h => h.elim) (fun e m' h => ?_)
    obtain ⟨he, rfl⟩ := h
    rcases hm₁ with rfl | ⟨hyes, word, rfl⟩
    · exact .inl hs.memory
    · rcases s.stored_pending a word with hsame | ⟨hmem, -⟩
      · obtain hk | ⟨-, x, hx, hp'⟩ := hs.pending
        · rw [hsame, hk, hp] at hpend
          cases hpend
        · rw [hsame, hp'] at hpend
          cases hpend
          rcases hx with hx | hx
          · exact .inl ((Machine.Misses.stored_memory hx word).trans hs.memory)
          · exact .inr ⟨hyes, hw, addr, hx, he⟩
      · exact .inl (hmem.trans hs.memory)

end

/-- A division by zero that is to be assigned leaves the memory as it was. -/
theorem checkedNode_ends_divAssign :
    ((ofFuel 0).checkedNode .divAssign [.value TypeTable.int32 0,
      .atAddress TypeTable.int32 0x200000000000] default).Ends
      (Machine.start {}) (fun _ m' => m'.pending = none) (fun _ m' => m'.memory = (Machine.start {}).memory) := by
  refine (checkedNode_ends rfl (Machine.start {}) rfl (by decide)).mono (fun _ _ h => h.2.1) (fun _ _ h => ?_)
  obtain hm | ⟨-, -, addr, hb, -⟩ := h
  · exact hm
  · exact absurd hb (Variable.not_misses_value _ _ _)

end Interp

end LevelScript
