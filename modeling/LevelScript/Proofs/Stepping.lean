import Mathlib
import LevelScript.Proofs.Entry
import LevelScript.Proofs.IntegerResults
import LevelScript.Proofs.Lockstep
import LevelScript.Proofs.Slots
import LevelScript.Proofs.TypeGraph

/-!
# What code makes of a machine

Parts of the interpreter that succeed on the code of a tree, step by step: which value they give, and what becomes
of the machine. Only the calls are left out, because every node and every command moves the place of the innermost
one.
-/

namespace LevelScript

open Exec

def Exec.Effects {α : Type} (x : Exec α) (m : Machine) (v : α) (m' : Machine) : Prop :=
  ∀ frames : Array Frame, ∃ frames', x { m with frames } = .ok v { m' with frames := frames' }

/-- At the code, the computation consumes exactly it and gives the value, and changes the machine in this way. -/
def Steps {α : Type} (x : Run α) (code : Bytecode) (m : Machine) (v : α) (m' : Machine) : Prop :=
  ∀ (r : Reader) (frames : Array Frame), r.Holds code → ∃ frames',
    x r { m with frames } = .ok (v, r.advance code.bytes.length) { m' with frames := frames' }

namespace Steps

variable {α β : Type} {x : Run α} {f : α → Run β} {a b : Bytecode} {m m₁ m' : Machine} {v : α} {w : β}

protected theorem pure (v : α) (m : Machine) : Steps (pure v) .nil m v m := fun _ frames _ => ⟨frames, rfl⟩

protected theorem bind (hx : Steps x a m v m₁) (hf : Steps (f v) b m₁ w m') : Steps (x >>= f) (a ++ b) m w m' := by
  intro r frames hr
  obtain ⟨frames₁, h₁⟩ := hx r frames hr.left
  obtain ⟨frames₂, h₂⟩ := hf _ frames₁ hr.right
  refine ⟨frames₂, (bind_ok h₁).trans (h₂.trans ?_)⟩
  rw [Reader.advance_append]

protected theorem finish (hx : Steps x a m v m₁) (hf : Steps (f v) .nil m₁ w m') : Steps (x >>= f) a m w m' := by
  have h := hx.bind hf
  rwa [Bytecode.append_nil] at h

theorem given (h : Steps (f v) b m w m') : Steps (pure v >>= f) b m w m' := h

theorem after {x : Exec α} (hx : x.Effects m v m₁) (hf : Steps (f v) b m₁ w m') :
    Steps ((liftM x : Run α) >>= f) b m w m' := by
  intro r frames hr
  obtain ⟨frames₁, h₁⟩ := hx frames
  obtain ⟨frames₂, h₂⟩ := hf r frames₁ hr
  exact ⟨frames₂, (congrFun (Run.lift_bind x f r) _).trans ((bind_ok h₁).trans h₂)⟩

theorem lift {x : Exec α} (hx : x.Effects m v m') : Steps (liftM x : Run α) .nil m v m' := by
  intro r frames _
  obtain ⟨frames', h⟩ := hx frames
  exact ⟨frames', bind_ok h⟩

theorem next {read : Reader → α × Reader} {bs : List UInt8} (h : Reads read bs v) (hf : Steps (f v) b m w m') :
    Steps (Run.next read >>= f) (.raw bs ++ b) m w m' := by
  intro r frames hr
  obtain ⟨frames', hstep⟩ := hf _ frames hr.right
  refine ⟨frames', (congrFun (Run.next_bind h (Reader.sees_left hr.code) f) _).trans (hstep.trans ?_)⟩
  rw [Reader.advance_append]

theorem last {read : Reader → α × Reader} {bs : List UInt8} (h : Reads read bs v) (hf : Steps (f v) .nil m w m') :
    Steps (Run.next read >>= f) (.raw bs) m w m' := by
  have hb := next h hf
  rwa [Bytecode.append_nil] at hb

theorem onMachine {f : Machine → Run β} (hf : ∀ frames, Steps (f { m with frames }) b m w m') :
    Steps (getThe Machine >>= f) b m w m' := fun r frames hr => hf frames r frames hr

theorem enter {f : Reader → Run β} {content : Bytecode}
    (hf : ∀ inner : Reader, inner.Holds content → Steps (f inner) b m w m') :
    Steps (Run.enter >>= f) (.block content ++ b) m w m' := by
  intro r frames hr
  obtain ⟨frames', h⟩ := hf _ hr.left.inner _ frames hr.right
  refine ⟨frames', ?_⟩
  rw [Run.enter_bind, Reader.enter_block hr.left.code hr.left.block_lt]
  refine h.trans ?_
  rw [Reader.advance_append]

theorem atPlace (hx : Steps x a m v m') (row col : Int) : Steps (Run.atPlace row col x) a m v m' := by
  intro r frames hr
  obtain ⟨frames', h⟩ := hx r _ hr
  exact ⟨_, (bind_ok rfl).trans ((bind_ok rfl).trans ((bind_ok h).trans rfl))⟩

theorem head {op : Opcode} {pos : Position} {x : Run β} {f : Opcode → Int × Int → Run β} (hop : op ≠ .endMark)
    (hf : ∀ place, Steps (f op place) b m w m') : Steps (do
      let op ← Run.next Reader.opcode
      if op = .endMark then x else do
        let place ← Run.place
        f op place : Run β) (.op op pos ++ b) m w m' := by
  intro r frames hr
  obtain ⟨row, col, hhead⟩ := Run.head_bind (Reader.sees_left hr.code) hop
  have hright : (r.advance 9).Holds b := hr.right
  obtain ⟨frames', h⟩ := hf (row, col) (r.advance 9) frames hright
  refine ⟨frames', (congrFun (hhead x f) _).trans (h.trans ?_)⟩
  rw [Reader.advance_append]
  rfl

end Steps

/-! ## Effects -/

namespace Machine

def withFresh (m : Machine) (type : TypeId) (word : UInt64) : Machine :=
  { m with
    memory := m.memory.withCell m.types m.addresses.slot type word
    addresses := { m.addresses with slot := m.addresses.slot + 16 } }

def withVariable (m : Machine) (name : NameId) (type : TypeId) (word : UInt64) : Machine :=
  { m.withFresh type word with scopes := m.scopes.add name (.atAddress type m.addresses.slot) }

end Machine

namespace Exec.Effects

variable {α β : Type} {x : Exec α} {f : α → Exec β} {m m₁ m' : Machine} {v : α} {w : β}

/-- What does the same in all calls. -/
theorem of (h : ∀ frames : Array Frame, x { m with frames } = .ok v { m' with frames }) : x.Effects m v m' :=
  fun frames => ⟨frames, h frames⟩

protected theorem bind (hx : x.Effects m v m₁) (hf : (f v).Effects m₁ w m') : (x >>= f).Effects m w m' := by
  intro frames
  obtain ⟨frames₁, h₁⟩ := hx frames
  obtain ⟨frames₂, h₂⟩ := hf frames₁
  exact ⟨frames₂, (bind_ok h₁).trans h₂⟩

protected theorem pure (v : α) (m : Machine) : (pure v : Exec α).Effects m v m := .of fun _ => rfl

theorem kindOf (m : Machine) (v : Variable) : (kindOf v).Effects m (m.types.kind v.type) m := .of fun _ => rfl

theorem typeInfo (m : Machine) (id : TypeId) : (typeInfo id).Effects m (m.types.get id) m := .of fun _ => rfl

theorem bits (m : Machine) (type : TypeId) (word : UInt64) :
    (bits (.value type word)).Effects m (extend (m.types.get type) word) m := .of fun _ => rfl

theorem withTypes (m : Machine) (f : TypeTable → α × TypeTable) :
    (withTypes f).Effects m (f m.types).1 { m with types := (f m.types).2 } := .of fun _ => rfl

theorem fresh (m : Machine) (type : TypeId) (word : UInt64) :
    (fresh type word).Effects m (.atAddress type m.addresses.slot) (m.withFresh type word) := .of fun _ => rfl

theorem declareNew {name : NameId} (h : m.scopes.isFree name = true) (v : Variable) :
    (declareNew name v).Effects m () { m with scopes := m.scopes.add name v } := by
  have hdeclare : (declare name v).Effects m true { m with scopes := m.scopes.add name v } := by
    refine .of fun frames => ?_
    rw [declare, modifyGet_eq, if_pos h]
  exact .bind hdeclare (.pure _ _)

theorem allocate (m : Machine) {size : UInt64} (hs : size ≤ Heap.maxSize) (type : TypeId) (inner : Bool)
    (cleanup : Cleanup) :
    let level := if inner then m.topLevel else 0
    let block := m.heap.addBlock size type level cleanup
    (allocate size type inner cleanup).Effects m m.heap.nextAddr (m.allocated level (block.1, block.2.2)) := by
  intro level block
  refine .of fun frames => ?_
  rw [Exec.allocate, if_neg (UInt64.not_lt.mpr hs)]
  rfl

/-- What is deleted goes, if nothing else has to happen. -/
theorem free {i : Interp} {addr : UInt64} {id : AllocId} {a : Allocation} (hf : m.heap.find? addr = some id)
    (ha : m.heap.get? id = some a) (hc : a.cleanup = .nothing) :
    (i.free addr).Effects m () ((m.disowned id a).handedOver id a) := by
  refine .of fun frames => ?_
  rw [Interp.free, get_bind]
  simp only [hf, ha]
  let m₁ := { m with frames }.disowned id a
  refine (bind_ok (s := m₁) rfl).trans ((bind_ok (takeAllocation_live (m := m₁) ha)).trans ?_)
  refine (get_bind (m := m₁.taken id a)).trans ?_
  rw [Interp.finalize, hc]
  rfl

theorem closeLevel {n : Nat} {l : Level} (hl : m.scopes.innermost? = some l) (ha : l.allocs = #[]) :
    (Interp.ofFuel (n + 2)).closeLevel.Effects m () m.shallower :=
  .of fun frames => Interp.closeLevelWithin_unowned (Interp.ofFuel (n + 2)) n (m := { m with frames }) hl ha

section
variable {kind : Kind} {id : TypeId} (hg : TypeTable.initial.Grows m.types)
include hg

theorem expectType (hid : TypeId.ofBits id.toBits = id) : (expectType (typeValue id)).Effects m id m := by
  have ht : m.types.get TypeTable.type = TypeTable.plainInfo .type {} :=
    TypeTable.get_eq (hg _ _ (TypeTable.stocked_initial.primitive rfl))
  have hk : m.types.kind (typeValue id).type = .type := congrArg TypeInfo.kind ht
  rw [Exec.expectType]
  refine .bind (.kindOf m _) ?_
  rw [if_pos hk]
  refine .bind (.bits m _ _) ?_
  rw [ht]
  exact hid.symm ▸ .pure _ m

theorem resolveType (hi : TypeTable.primitiveKinds.idxOf? kind = some id) (hk : kind ≠ .struct) :
    (resolveType id).Effects m id { m with types := (m.types.constant TypeTable.type).2 } := by
  have ht := TypeTable.constant_grows m.types TypeTable.type _ _ (hg _ _ (TypeTable.stocked_initial.primitive hi))
  exact .of fun frames => resolveType_same (m := { m with frames }) (TypeTable.resolve_plain ht rfl hk)

end

end Exec.Effects

namespace Interp

section
variable {i : Interp} {names : Names} {a b : Bytecode} {m m₁ m₂ m' : Machine} {v v' last : Variable}
  {w : Option Variable} {n k : Nat} {stack stack' : List Variable} {pos : Position}

/-! ## Expressions -/

theorem nodes_end : Steps (i.nodes (n + 1) stack) .endMark m stack.head? m :=
  .last (.opcode .endMark) (.pure _ _)

theorem checked_steps (hp : m.pending = none) (hl : stack.length ≤ m.settings.maxStack) :
    Steps (checked stack) .nil m stack m := by
  have hfault : checkFault.Effects m () m := .of fun _ => checkFault_eq hp
  refine .after hfault (.onMachine fun frames => ?_)
  show Steps (if m.settings.maxStack < stack.length then _ else _) _ _ _ _
  rw [if_neg (Nat.not_lt.mpr hl)]
  exact .pure _ _

theorem nodes_step {op : Opcode} (pos : Position) (hop : op ≠ .endMark) (hx : Steps (i.node op stack) a m stack' m₁)
    (hp : m₁.pending = none) (hl : stack'.length ≤ m₁.settings.maxStack) (hn : Steps (i.nodes n stack') b m₁ w m') :
    Steps (i.nodes (n + 1) stack) (.op op pos ++ (a ++ b)) m w m' :=
  .head hop fun place => .bind (.atPlace (.finish hx (checked_steps hp hl)) place.1 place.2) hn

theorem node_operand {op : Opcode} (ho : op.isOperator = false) (hd : op ≠ .declare)
    (hx : Steps (i.operand op) a m v m') : Steps (i.node op stack) a m (v :: stack) m' := by
  rw [node, if_neg (Bool.eq_false_iff.mp ho), if_neg hd]
  exact .finish hx (.pure _ _)

theorem node_declare (hx : Steps (i.declaration (some v)) a m v' m') :
    Steps (i.node .declare (v :: stack)) a m (v' :: stack) m' :=
  .finish hx (.pure _ _)

/-- An expression of one operand. -/
theorem eval_operand {form : Form} (hop : form.opcode ≠ .endMark) (ho : form.opcode.isOperator = false)
    (hd : form.opcode ≠ .declare)
    (hx : Steps ((ofFuel (n + 3)).operand form.opcode) (form.operands names) m v m') (hp : m'.pending = none)
    (hl : 0 < m'.settings.maxStack) :
    Steps (ofFuel (n + 4)).eval ((Expr.mk [.mk pos form]).encode names) m (some v) m' := by
  have h : Steps (ofFuel (n + 4)).eval _ m (some v) m' :=
    nodes_step (n := n + 1) pos hop (node_operand ho hd hx) hp hl nodes_end
  simpa only [Expr.encode, encodeNodes, Node.encode, Bytecode.append_nil, Bytecode.append_assoc] using h

theorem value_steps (hx : Steps i.eval a m (some v) m') : Steps i.value a m v m' := .finish hx (.pure _ _)

theorem type_steps {id : TypeId} (hx : Steps i.eval a m (some (typeValue id)) m')
    (hg : TypeTable.initial.Grows m'.types) (hid : TypeId.ofBits id.toBits = id) : Steps i.type a m id m' :=
  .finish (value_steps hx) (.lift (.expectType hg hid))

/-! ## Operands -/

theorem integer_steps {k : UInt64} (hk : k < 0x80000000) :
    Steps (i.operand .integer) ((Form.integer k).operands names) m (.value TypeTable.int32 k) m := by
  have htype : (literalType k).Effects m TypeTable.int32 m := by
    rw [literalType, if_pos hk]
    exact .pure _ m
  exact .last (.u64 k) (.after htype (.pure _ m))

theorem baseType_steps {kind : Kind} {id : TypeId} (hi : TypeTable.primitiveKinds.idxOf? kind = some id)
    (hk : kind ≠ .struct) :
    Steps (i.operand .typeLiteral) ((Form.baseType false kind false).operands names) m (typeValue id) m := by
  have hprimitive : m.types.primitive kind = (id, m.types) := by rw [TypeTable.primitive, hi]
  rw [Form.operands, Bytecode.append_assoc]
  refine .finish (.next (.bool false) (.next (.u8 kind.code) ?_)) (.pure _ m)
  dsimp only
  rw [Kind.ofCode?_code]
  split
  case h_1 h => cases h
  case h_2 h => exact absurd (Option.some.inj h) hk
  case h_3 h =>
    cases h
    refine .last (.bool false) (.after (.withTypes m _) ?_)
    simp only [hprimitive]
    exact .pure _ m

/-- What a new value of a type without fields becomes: a block, and a pointer to it. -/
theorem newValue_steps (inner : Bool) {type : Expr} {kind : Kind} {id p : TypeId} {ts : TypeTable}
    (hx : Steps i.eval (type.encode names) m (some (typeValue id)) m₁) (hg : TypeTable.initial.Grows m₁.types)
    (hi : TypeTable.primitiveKinds.idxOf? kind = some id) (hid : TypeId.ofBits id.toBits = id)
    (hk : kind ≠ .struct ∧ kind ≠ .function)
    (hp : (m₁.types.constant TypeTable.type).2.pointer id = (p, ts)) :
    let m₂ : Machine := { m₁ with types := ts }
    let level := if inner then m₂.topLevel else 0
    let block := m₂.heap.addBlock kind.valueSize.toUInt64 id level .nothing
    Steps (i.operand .newValue) ((Form.newValue inner type .bare).operands names) m (.value p m₂.heap.nextAddr)
      (m₂.allocated level (block.1, block.2.2)) := by
  intro m₂ level block
  let m₁' : Machine := { m₁ with types := (m₁.types.constant TypeTable.type).2 }
  have hinfo := TypeTable.stocked_initial.primitive hi
  have hget (ts : TypeTable) (hg : TypeTable.initial.Grows ts) : ts.get id = TypeTable.plainInfo kind {} :=
    TypeTable.get_eq (hg _ _ hinfo)
  have hg' : TypeTable.initial.Grows m₁'.types := hg.trans (TypeTable.constant_grows _ _)
  have hg₂ : TypeTable.initial.Grows m₂.types := by
    have hgrows := hg'.trans (m₁'.types.pointer_grows id)
    rwa [hp] at hgrows
  have hsmall : kind.valueSize.toUInt64 ≤ Heap.maxSize := by
    cases kind <;> decide
  have haddress : Steps (i.newAddress id inner .bare) .nil m₂ m₂.heap.nextAddr
      (m₂.allocated level (block.1, block.2.2)) := by
    refine .after (.typeInfo m₂ id) ?_
    rw [hget _ hg₂]
    split
    case h_1 h => exact absurd h hk.2
    case h_2 h => exact absurd h hk.1
    case h_3 => exact .lift (.allocate m₂ hsmall id inner .nothing)
  have hpointer := Effects.withTypes m₁' (·.pointer id)
  rw [hp] at hpointer
  rw [Form.operands, Bytecode.append_assoc, Init.encode]
  refine .next (.bool inner) (.bind (type_steps hx hg hid) (.after (.resolveType hg hi hk.1) ?_))
  refine .last (.form .bare) ?_
  refine .after (.typeInfo m₁' id) ?_
  rw [hget _ hg']
  dsimp only
  split
  case h_1 h => exact absurd h hk.1
  case h_2 h => exact absurd h hk.2
  case h_3 => exact .after hpointer (.finish haddress (.pure _ _))

theorem move_steps {target level : Expr} {k : UInt64} {id : AllocId} {type : TypeId} {addr : UInt64}
    (hx : Steps i.eval (target.encode names) m (some (.value type addr)) m₁)
    (hlevel : Steps i.eval (level.encode names) m₁ (some (.value TypeTable.int32 k)) m₂)
    (hg : TypeTable.initial.Grows m₂.types) (ht : extend (m₂.types.get type) addr = addr)
    (hf : m₂.heap.find? addr = some id) :
    Steps (i.operand .moveValue) ((Form.moveValue target level).operands names) m (.value type addr)
      (m₂.moved id (clampLevel m₂.scopes.depth (extend (TypeTable.plainInfo .int32 {}) k))) := by
  have hint : m₂.types.get TypeTable.int32 = TypeTable.plainInfo .int32 {} :=
    TypeTable.get_eq (hg _ _ (TypeTable.stocked_initial.primitive rfl))
  refine .bind (value_steps hx) (.finish (value_steps hlevel) (.after (.kindOf m₂ _) ?_))
  rw [show m₂.types.kind (Variable.value TypeTable.int32 k).type = .int32 from congrArg TypeInfo.kind hint]
  refine .onMachine fun frames => .after (.bits m₂ _ _) (.after (.bits m₂ _ _) ?_)
  rw [hint, ht]
  exact .after (.of fun frames => moveAllocation_eq (m := { m₂ with frames }) hf _) (.pure _ _)

theorem delete_steps {target : Expr} {id : AllocId} {type : TypeId} {addr : UInt64} {a : Allocation}
    (hx : Steps i.eval (target.encode names) m (some (.value type addr)) m₁)
    (hk : m₁.types.kind type = .pointer) (ht : extend (m₁.types.get type) addr = addr)
    (hf : m₁.heap.find? addr = some id) (ha : m₁.heap.get? id = some a) (hc : a.cleanup = .nothing) :
    Steps (i.operand .deleteValue) ((Form.deleteValue target).operands names) m voidValue
      ((m₁.disowned id a).handedOver id a) := by
  refine .finish (value_steps hx) (.after (.kindOf m₁ _) ?_)
  rw [show m₁.types.kind (Variable.value type addr).type = .pointer from hk]
  refine .after (.bits m₁ _ _) ?_
  rw [ht]
  exact .after (.free hf ha hc) (.pure _ _)

/-! ## Declarations -/

theorem declaredType_steps {id : TypeId}
    (hx : Steps (do i.bindGenerics i.fuel; resolveType id : Run TypeId) a m.deeper id m₁)
    (hclose : i.closeLevel.Effects m₁ () m') : Steps (i.declaredType id) a m id m' := by
  intro r frames hr
  obtain ⟨frames₁, h₁⟩ := hx r frames hr
  obtain ⟨frames₂, h₂⟩ := hclose frames₁
  refine ⟨frames₂, (bind_ok (s := { m.deeper with frames }) rfl).trans ((bind_ok (attempt_ok h₁)).trans ?_)⟩
  exact (bind_ok h₂).trans rfl

theorem declaration_steps {id : TypeId} (name : String) (hg : TypeTable.initial.Grows m.types)
    (hid : TypeId.ofBits id.toBits = id) (hx : Steps (i.declaredType id) (.bool false) m id m₁)
    (hfree : m₁.scopes.isFree (names.idOf name) = true) :
    Steps (i.declaration (some (typeValue id))) ((Form.declare false name [] .absent).operands names) m
      { Variable.atAddress id m₁.addresses.slot with origin := some { name := names.idOf name } }
      (m₁.withVariable (names.idOf name) id 0) := by
  rw [Form.operands, encodeBindings, BodyTree.encode]
  simp only [Bytecode.append_assoc, Bytecode.nil_append]
  refine .next (.bool false) (.next (.name names name) (.after (.expectType hg hid) ?_))
  dsimp only
  rw [if_neg Bool.false_ne_true]
  refine .given (.bind hx (.onMachine fun frames => ?_))
  refine .after (.fresh m₁ id 0) (.after (.declareNew (m := m₁.withFresh id 0) hfree _) (.last (.bool false) ?_))
  rw [if_neg Bool.false_ne_true]
  exact .pure _ _

/-! ## Commands -/

theorem oneCommand_steps {op : Opcode} (pos : Position) (hop : op ≠ .endMark) (hx : Steps (i.body op) a m v m')
    (hp : m'.pending = none) : Steps i.oneCommand (.op op pos ++ a) m (some v) m' := by
  have hfault : checkFault.Effects m' () m' := .of fun _ => checkFault_eq hp
  exact .head hop fun place => .atPlace (.finish hx (.after hfault (.pure (some v) m'))) place.1 place.2

theorem expression_steps {x : Expr} (hx : Steps (ofFuel n).eval (x.encode names) m (some v) m')
    (hp : m'.pending = none) :
    Steps (ofFuel (n + 1)).command ((Command.mk pos (.expression x)).encode names) m (some v) m' :=
  oneCommand_steps (i := ofFuel n) pos nofun (.finish hx (.pure _ _)) hp

theorem commands_step (hc : m.control = .running) (hx : Steps i.command a m (some v) m₁)
    (hn : Steps (i.commands v n) b m₁ v' m') : Steps (i.commands last (n + 1)) (a ++ b) m v' m' := by
  have hrunning : m.control.isRunning = true := hc ▸ rfl
  refine .onMachine fun frames => ?_
  rw [if_pos hrunning]
  exact .bind hx hn

theorem commands_end (hc : m.control = .running) : Steps ((ofFuel (n + 1)).commands v (k + 1)) .endMark m v m := by
  have hrunning : m.control.isRunning = true := hc ▸ rfl
  have hend : Steps (ofFuel (n + 1)).command .endMark m none m :=
    fun r frames hr => ⟨frames, congrFun (command_endMark hr.code) _⟩
  refine .onMachine fun frames => ?_
  rw [if_pos hrunning]
  exact .finish hend (.pure _ _)

theorem codeblock_steps {commands : List Command}
    (hx : Steps ((ofFuel n).commands voidValue (ofFuel n).fuel) (encodeCommands names commands ++ .endMark)
      m.deeper v m₁)
    (hclose : (ofFuel n).closeLevel.Effects m₁ () m') (hp : m'.pending = none) :
    Steps (ofFuel (n + 1)).command ((Command.mk pos (.codeblock (.mk commands))).encode names) m (some v) m' := by
  refine oneCommand_steps (i := ofFuel n) pos nofun ?_ hp
  rw [CommandForm.operands, Block.encode, ← Bytecode.append_nil (.block _)]
  refine .enter fun inner hinner => .lift fun frames => ?_
  obtain ⟨frames₁, h₁⟩ := hx inner frames hinner
  obtain ⟨frames₂, h₂⟩ := hclose frames₁
  have hblock : (ofFuel n).block inner { m.deeper with frames } = .ok v { m₁ with frames := frames₁ } := by
    show (Prod.fst <$> (ofFuel n).commands voidValue (ofFuel n).fuel inner) _ = _
    rw [map_eq_pure_bind, bind_ok h₁]
    rfl
  refine ⟨frames₂, (bind_ok (s := { m.deeper with frames }) rfl).trans ?_⟩
  exact (bind_ok hblock).trans ((bind_ok h₂).trans rfl)

/-! ## Texts -/

theorem topCommands_steps (hx : Steps (ofFuel (n + 1)).command a m (some v) m') (hc : m'.control = .running)
    {r : Reader} (hr : r.Holds (a ++ .endMark)) (h0 : a.bytes ≠ []) (last : Variable) (frames : Array Frame) :
    ∃ frames', (ofFuel (n + 1)).topCommands (k + 2) r last { m with frames } =
      .ok (v, none) { m' with frames := frames' } := by
  obtain ⟨frames', h⟩ := hx r frames hr.left
  have hmark : Bytecode.endMark.bytes <+: (r.advance a.bytes.length).rest := hr.right.code
  obtain ⟨b, bs, hb⟩ := List.exists_cons_of_ne_nil h0
  have hstart : b :: bs <+: r.rest := hb ▸ hr.left.code
  refine ⟨frames', ?_⟩
  rw [topCommands, not_atEnd hstart, if_neg Bool.false_ne_true]
  refine (bind_ok (attempt_ok h)).trans (get_bind.trans ?_)
  rw [show ({ m' with frames := frames' } : Machine).control = .running from hc]
  dsimp only
  rw [topCommands, not_atEnd hmark, if_neg Bool.false_ne_true]
  exact bind_ok (attempt_ok (congrFun (command_endMark hmark) _))

end

/-- When a text comes to its end its last value becomes the result, and little else changes. -/
structure Concluded (v : Variable) (m m' : Machine) : Prop where
  names : m'.names = m.names
  types : m'.types = m.types
  heap : m'.heap = m.heap
  journal : m'.journal = m.journal
  scopes : m'.scopes = (m.scopes.assign NameId.result 0 (.atAddress v.type m.addresses.slot)).getD m.scopes

section
variable {names : Names} {m m₁ : Machine} {v : Variable} {n : Nat}

theorem keepResult_concludes (m : Machine) (v : Variable) (word : UInt64) :
    ∃ m', keepResult v.type word m = .ok () m' ∧ Concluded v m m' := by
  have hkeep : keepResult v.type word m = .ok () { m.withFresh v.type word with
      scopes := (m.scopes.assign NameId.result 0 (.atAddress v.type m.addresses.slot)).getD m.scopes } := by
    refine (bind_ok (s := m.withFresh v.type word) rfl).trans (modifyGet_eq.trans ?_)
    dsimp only
    rw [show (m.withFresh v.type word).scopes = m.scopes from rfl]
    cases m.scopes.assign NameId.result 0 (.atAddress v.type m.addresses.slot) <;> rfl
  exact ⟨_, hkeep, rfl, rfl, rfl, rfl, rfl⟩

/-- The run of a text of one command. -/
theorem runSource_steps {source file : String} {c : Command} (hparse : parse source file = .ok ⟨file, [c]⟩)
    (hnames : (Program.emit ⟨file, [c]⟩ m.names).2 = names)
    (hshort : ((Program.mk file [c]).encode names).bytes.length < UInt32.size)
    (hx : Steps (ofFuel (n + 3)).command (c.encode names) { m with names, chunks := m.chunks + 1 } (some v) m₁)
    (hc : m₁.control = .running) (hp : m₁.pending = none) (hv : m₁.Reads v) :
    ∃ m', (ofFuel (n + 3)).runSource source file m = .ok () m' ∧ Concluded v m₁ m' := by
  let program : Program := ⟨file, [c]⟩
  let chunk : Chunk := ⟨m.chunks, (program.emit m.names).1⟩
  have hcompile : compile source file m.names = .ok (program.emit m.names) := by
    rw [compile, hparse]
    rfl
  have hbytes : (program.emit m.names).1.toList = (program.encode names).bytes :=
    hnames ▸ program.emit_bytes m.names
  have hsize : (program.emit m.names).1.size < UInt32.size := by
    rw [← Array.length_toList, hbytes]
    exact hshort
  obtain ⟨program', hparse', -, -, hholds⟩ := holds_compiled hcompile hsize
  cases hparse.symm.trans hparse'
  have hr : (Reader.ofChunk chunk).name.2.Holds (c.encode names ++ .endMark) := by
    have hr : (Reader.ofChunk chunk).name.2.Holds (encodeCommands (program.emit m.names).2 [c] ++ .endMark) :=
      hholds m.chunks
    rwa [hnames, encodeCommands, encodeCommands, Bytecode.append_nil] at hr
  have h0 : (c.encode names).bytes ≠ [] := by
    cases c
    exact List.cons_ne_nil _ _
  obtain ⟨frames, hcommands⟩ := topCommands_steps (n := n + 2) (k := n) hx hc hr h0 voidValue
    (m.frames.modify (m.frames.size - 1) ({ · with file := (Reader.ofChunk chunk).name.1 }))
  have htop : (ofFuel (n + 3)).topLevel source file m = .ok (v, none) { m₁ with frames } := by
    have hchunk : compileSource source file m = .ok (.ok chunk) { m with names, chunks := m.chunks + 1 } := by
      rw [compileSource, modifyGet_eq, hcompile]
      dsimp only
      rw [hnames]
    exact (bind_ok hchunk).trans ((bind_ok rfl).trans ((bind_ok rfl).trans hcommands))
  let m₂ : Machine := { m₁ with frames, control := .running }
  obtain ⟨m₃, hkeep, hend⟩ := keepResult_concludes m₂ v (v.valueIn m₁.types m₁.memory)
  refine ⟨{ m₃ with frames := m₃.frames.modify (m.frames.size - 1) ({ · with file := m.frame.file }) }, ?_,
    hend.names, hend.types, hend.heap, hend.journal, hend.scopes⟩
  refine (bind_ok htop).trans ((bind_ok (s := m₂) rfl).trans ((bind_ok (bits_reads (m := m₂) hv)).trans ?_))
  refine (bind_ok (attempt_ok (checkFault_eq (m := m₂) hp))).trans ?_
  show (keepResult v.type _ >>= fun _ => setFile _ _ >>= fun _ => pure ()) m₂ = _
  exact (bind_ok hkeep).trans (bind_ok rfl)

theorem Concluded.depth {m' : Machine} (h : Concluded v m m') : m'.scopes.depth = m.scopes.depth := by
  rw [h.scopes, Scopes.assign]
  cases m.scopes.levelOf NameId.result 0 with
  | none => rfl
  | some index => exact Scopes.depth_modifyLevel ..

theorem finish_steps {source file : String} {c : Command} (hparse : parse source file = .ok ⟨file, [c]⟩)
    (hnames : (Program.emit ⟨file, [c]⟩ m.names).2 = names)
    (hshort : ((Program.mk file [c]).encode names).bytes.length < UInt32.size)
    (hx : Steps (ofFuel (n + 3)).command (c.encode names) { m with names, chunks := m.chunks + 1 } (some v) m₁)
    (hc : m₁.control = .running) (hp : m₁.pending = none) (hv : m₁.Reads v) (hd : m₁.scopes.depth = 1) :
    ∃ m', Session.finish (ofFuel (n + 3)) ((ofFuel (n + 3)).runSource source file) m = .ok () m' ∧
        Concluded v m₁ m' := by
  obtain ⟨m₂, hrun, hend⟩ := runSource_steps hparse hnames hshort hx hc hp hv
  have hreset := reset_eq (i := ofFuel (n + 3)) (Nat.zero_lt_succ _) (hend.depth.trans hd)
  exact ⟨_, (bind_ok (attempt_ok hrun)).trans (bind_ok hreset), hend.names, hend.types, hend.heap,
    hend.journal, hend.scopes⟩

end

end Interp

/-! ## Pointers to integers -/

namespace TypeTable

def constType : TypeInfo := plainInfo .type { isConst := true }

def int32Pointer : TypeInfo := { kind := .pointer, shape := .pointer int32 }

/-- The first types with those that the first pointer to an integer makes. -/
def pointed : TypeTable :=
  let ts := initial.added constType
  ts.added (ts.joined int32Pointer)

theorem initial_grows_pointed : initial.Grows pointed := (added_grows _ _).trans (added_grows _ _)

theorem size_initial : initial.types.size = 9 := congrArg List.length initial_types.2

theorem size_withConst : (initial.added constType).types.size = 10 :=
  (Array.size_push _).trans (congrArg (· + 1) size_initial)

theorem get_pointed : pointed.get 10 = (initial.added constType).joined int32Pointer := by
  have h := (initial.added constType).added_last ((initial.added constType).joined int32Pointer)
  rw [size_withConst] at h
  exact get_eq h

theorem pointer_initial : (initial.constant type).2.pointer int32 = (10, pointed) := by
  have hconst : (initial.constant type).2 = initial.added constType := by
    rw [constant_type (stocked_initial.primitive rfl), register_new (interned_new initial_types.1 ?_) rfl]
    · rfl
    · rw [initial_types.2]
      decide +kernel
  have hnew : (initial.added constType).interned[int32Pointer.computeHash]? = none := by
    refine interned_new (initial_types.1.added _) ?_
    rw [show (initial.added constType).types.toList = _ from Array.toList_push, initial_types.2]
    decide +kernel
  rw [hconst]
  show (initial.added constType).register int32Pointer = _
  rw [register_joins hnew, show (initial.added constType).size = 10 from size_withConst]
  rfl

/-- All later requests find both types. -/
theorem pointer_pointed : (pointed.constant type).2.pointer int32 = (10, pointed) := by
  have hinterned (hash : UInt64) : pointed.interned[hash]? = if int32Pointer.computeHash == hash then some 10
      else if constType.hash == hash then some 9 else initial.interned[hash]? := by
    show ((initial.interned.insert constType.hash initial.types.size).insert int32Pointer.computeHash
      (initial.added constType).types.size)[hash]? = _
    rw [Std.HashMap.getElem?_insert, Std.HashMap.getElem?_insert, size_initial, size_withConst]
  have hconst : (pointed.constant type).2 = pointed := by
    have hfound : pointed.interned[{ plainInfo .type {} with flags := { isConst := true } }.computeHash]? =
        some 9 := by
      rw [hinterned, if_neg (by decide +kernel), if_pos (by decide +kernel)]
    rw [constant_type (initial_grows_pointed _ _ (stocked_initial.primitive rfl)), register_found hfound]
  rw [hconst]
  exact register_found ((hinterned _).trans (if_pos (beq_self_eq_true _)))

end TypeTable

/-! ## Numbers on the heap -/

namespace Heap

/-- The heap with a block in a slot that it did not have. -/
def withBlock (h : Heap) (size : UInt64) (type : TypeId) (level : Nat) (cleanup : Cleanup) : Heap :=
  { h with
    slots := h.slots.push ⟨0, some ⟨h.nextAddr, size, type, level, cleanup, h.nextSeq⟩⟩
    byAddr := h.byAddr.insert h.nextAddr ⟨h.slots.size, 0⟩
    nextSeq := h.nextSeq + 1
    nextAddr := h.nextAddr + blockStep size }

section
variable {h : Heap} {size : UInt64} {type : TypeId} {level : Nat} {cleanup : Cleanup}

theorem addBlock_full (hf : h.free = []) :
    h.addBlock size type level cleanup = (⟨h.slots.size, 0⟩, h.nextAddr, h.withBlock size type level cleanup) := by
  simp only [addBlock, insert, hf, withBlock]

theorem get?_withBlock :
    (h.withBlock size type level cleanup).get? ⟨h.slots.size, 0⟩ =
      some ⟨h.nextAddr, size, type, level, cleanup, h.nextSeq⟩ := by
  simp [get?, withBlock]

theorem get?_withBlock_of_ne {id : AllocId} (hne : id ≠ ⟨h.slots.size, 0⟩) :
    (h.withBlock size type level cleanup).get? id = h.get? id := by
  obtain ⟨index, generation⟩ := id
  grind [get?, withBlock]

theorem find?_withBlock : (h.withBlock size type level cleanup).find? h.nextAddr = some ⟨h.slots.size, 0⟩ :=
  Std.HashMap.getElem?_insert_self

theorem setLevel_withBlock (level' : Nat) :
    (h.withBlock size type level cleanup).setLevel ⟨h.slots.size, 0⟩ level' =
      h.withBlock size type level' cleanup := by
  have hslots (s s' : HeapSlot) : (h.slots.push s).setIfInBounds h.slots.size s' = h.slots.push s' := by
    grind
  rw [setLevel, get?_withBlock]
  exact congrArg (fun slots => { h.withBlock size type level cleanup with slots }) (hslots _ _)

end

end Heap

theorem Scopes.innermost?_modifyLevel (s : Scopes) (index : Nat) (f : Level → Level) :
    (s.modifyLevel index f).innermost? = if index = s.depth - 1 then s.innermost?.map f else s.innermost? := by
  simp only [innermost?, modifyLevel, Array.back?_eq_getElem?, Array.size_modify, Array.getElem?_modify, depth]

namespace Machine

/-- A number is made in the innermost level, and then moved to the outermost one. -/
def movedNew (m : Machine) : Machine :=
  let id : AllocId := ⟨m.heap.slots.size, 0⟩
  { m with
    types := .pointed
    heap := m.heap.withBlock 4 TypeTable.int32 0 .nothing
    scopes := ((m.scopes.addAlloc m.topLevel id).removeAlloc m.topLevel id).addAlloc 0 id
    journal := .placed m.heap.nextSeq 0 :: .placed m.heap.nextSeq m.topLevel :: m.journal }

theorem movedNew_eq (m : Machine) :
    let id : AllocId := ⟨m.heap.slots.size, 0⟩
    let m₁ : Machine := { m with types := .pointed }
    (m₁.allocated m.topLevel (id, m.heap.withBlock 4 TypeTable.int32 m.topLevel .nothing)).moved id 0 =
      m.movedNew := by
  simp only [moved, allocated, Heap.get?_withBlock, Heap.setLevel_withBlock]
  rfl

theorem depth_movedNew (m : Machine) : m.movedNew.scopes.depth = m.scopes.depth := by
  simp only [movedNew, Scopes.addAlloc, Scopes.removeAlloc, Scopes.depth_modifyLevel]

theorem innermost?_movedNew {m : Machine} {l : Level} (hl : m.scopes.innermost? = some l) (ha : l.allocs = #[])
    (hd : 1 < m.scopes.depth) : m.movedNew.scopes.innermost? = some l := by
  have hn : 0 ≠ m.scopes.depth - 1 := by omega
  cases l
  obtain rfl : _ = #[] := ha
  simp [movedNew, topLevel, Scopes.addAlloc, Scopes.removeAlloc, Scopes.innermost?_modifyLevel, hl, hn]

end Machine

namespace Interp

/-- The tree of `move(new scoped [s32]) => [0]`. -/
def moveNew (type new level move : Position) : Expr :=
  .mk [.mk move (.moveValue (.mk [.mk new (.newValue true (.mk [.mk type (.baseType false .int32 false)]) .bare)])
    (.mk [.mk level (.integer 0)]))]

theorem moveNew_steps {m : Machine} {n : Nat} {names : Names} (type new level move : Position)
    (hg : TypeTable.initial.Grows m.types)
    (hpointer : (m.types.constant TypeTable.type).2.pointer TypeTable.int32 = (10, .pointed))
    (hf : m.heap.free = []) (hp : m.pending = none) (hl : 0 < m.settings.maxStack) :
    Steps (ofFuel (n + 6)).eval ((moveNew type new level move).encode names) m
      (some (.value 10 m.heap.nextAddr)) m.movedNew := by
  let m₁ : Machine := ({ m with types := .pointed } : Machine).allocated m.topLevel
    (⟨m.heap.slots.size, 0⟩, m.heap.withBlock 4 TypeTable.int32 m.topLevel .nothing)
  have htype : Steps (ofFuel (n + 4)).eval ((Expr.mk [.mk type (.baseType false .int32 false)]).encode names) m
      (some (typeValue TypeTable.int32)) m := eval_operand nofun rfl nofun (baseType_steps rfl nofun) hp hl
  have hnew : Steps (ofFuel (n + 5)).eval
      ((Expr.mk [.mk new (.newValue true (.mk [.mk type (.baseType false .int32 false)]) .bare)]).encode names) m
      (some (.value 10 m.heap.nextAddr)) m₁ := by
    have hint : TypeTable.primitiveKinds.idxOf? .int32 = some TypeTable.int32 := rfl
    have h := newValue_steps (i := ofFuel (n + 4)) true htype hg hint rfl ⟨nofun, nofun⟩ hpointer
    simp only [Heap.addBlock_full hf] at h
    exact eval_operand nofun rfl nofun h hp hl
  have hlevel : Steps (ofFuel (n + 5)).eval ((Expr.mk [.mk level (.integer 0)]).encode names) m₁
      (some (.value TypeTable.int32 0)) m₁ := eval_operand nofun rfl nofun (integer_steps (by decide)) hp hl
  have hword : extend (m₁.types.get 10) m.heap.nextAddr = m.heap.nextAddr := by
    show extend (TypeTable.pointed.get 10) _ = _
    rw [TypeTable.get_pointed]
    rfl
  have hmove := move_steps hnew hlevel TypeTable.initial_grows_pointed hword Heap.find?_withBlock
  have hzero : clampLevel m₁.scopes.depth (extend (TypeTable.plainInfo .int32 {}) 0) = 0 := Nat.zero_min _
  rw [hzero, m.movedNew_eq] at hmove
  exact eval_operand nofun rfl nofun hmove hp hl

/-! ## A run that moves and deletes -/

def movingText : String := "{ move(new scoped [s32]) => [0]; delete (move(new scoped [s32]) => [0]); }"

def movingBlock : List Command := [
  .mk ⟨1, 3⟩ (.expression (moveNew ⟨1, 20⟩ ⟨1, 8⟩ ⟨1, 30⟩ ⟨1, 3⟩)),
  .mk ⟨1, 34⟩ (.expression (.mk [.mk ⟨1, 34⟩ (.deleteValue (moveNew ⟨1, 59⟩ ⟨1, 47⟩ ⟨1, 69⟩ ⟨1, 42⟩))]))]

def movingCommand : Command := .mk ⟨1, 1⟩ (.codeblock (.mk movingBlock))

theorem parse_moving : parse movingText "" = .ok ⟨"", [movingCommand]⟩ := by
  cbv

def keptNumber : Allocation :=
  { addr := 0x100000000000, size := 4, type := TypeTable.int32, level := 0, cleanup := .nothing, seq := 0 }

def deletedNumber : Allocation := { keptNumber with addr := 0x100000000010, seq := 1 }

def compiledStart (names : Names) : Machine := { Machine.start {} with names, chunks := 1 }

def movedOnce (names : Names) : Machine := (compiledStart names).deeper.movedNew

def movedTwice (names : Names) : Machine := (movedOnce names).movedNew

def movedAndDeleted (names : Names) : Machine :=
  ((movedTwice names).disowned ⟨1, 0⟩ deletedNumber).handedOver ⟨1, 0⟩ deletedNumber

section
variable (names : Names)

theorem get?_movedTwice : (movedTwice names).heap.get? ⟨1, 0⟩ = some deletedNumber := Heap.get?_withBlock

theorem depth_movedOnce : (movedOnce names).scopes.depth = 2 :=
  (compiledStart names).deeper.depth_movedNew.trans (Scopes.depth_push _)

theorem depth_movedTwice : (movedTwice names).scopes.depth = 2 :=
  (movedOnce names).depth_movedNew.trans (depth_movedOnce names)

theorem innermost?_movedAndDeleted : (movedAndDeleted names).scopes.innermost? = some {} := by
  have hinner : (movedOnce names).scopes.innermost? = some {} :=
    Machine.innermost?_movedNew Array.back?_push rfl Nat.one_lt_two
  have hd : 1 < (movedOnce names).scopes.depth := by
    rw [depth_movedOnce]
    decide
  refine (Scopes.innermost?_modifyLevel (movedTwice names).scopes 0 _).trans ?_
  rw [depth_movedTwice, if_neg (by decide)]
  exact Machine.innermost?_movedNew hinner rfl hd

theorem movingBlock_steps :
    Steps ((ofFuel 9).commands voidValue (ofFuel 9).fuel) (encodeCommands names movingBlock ++ .endMark)
      (compiledStart names).deeper voidValue (movedAndDeleted names) := by
  have hl : 0 < ({} : Settings).maxStack := by decide
  have hkept : Steps (ofFuel 8).eval ((moveNew ⟨1, 20⟩ ⟨1, 8⟩ ⟨1, 30⟩ ⟨1, 3⟩).encode names)
      (compiledStart names).deeper (some (.value 10 0x100000000000)) (movedOnce names) :=
    moveNew_steps _ _ _ _ (.refl _) TypeTable.pointer_initial rfl rfl hl
  have hmoved : Steps (ofFuel 7).eval ((moveNew ⟨1, 59⟩ ⟨1, 47⟩ ⟨1, 69⟩ ⟨1, 42⟩).encode names)
      (movedOnce names) (some (.value 10 0x100000000010)) (movedTwice names) :=
    moveNew_steps _ _ _ _ TypeTable.initial_grows_pointed TypeTable.pointer_pointed rfl rfl hl
  have hfound : (movedTwice names).heap.find? 0x100000000010 = some ⟨1, 0⟩ := Heap.find?_withBlock
  have hinfo : (movedTwice names).types.get 10 =
      (TypeTable.initial.added TypeTable.constType).joined TypeTable.int32Pointer := TypeTable.get_pointed
  have hdelete := delete_steps hmoved (by rw [TypeTable.kind, hinfo]; rfl) (by rw [hinfo]; rfl) hfound
    (get?_movedTwice names) rfl
  have hdeleted : Steps (ofFuel 8).eval
      ((Expr.mk [.mk ⟨1, 34⟩ (.deleteValue (moveNew ⟨1, 59⟩ ⟨1, 47⟩ ⟨1, 69⟩ ⟨1, 42⟩))]).encode names)
      (movedOnce names) (some voidValue) (movedAndDeleted names) :=
    eval_operand (by decide) rfl (by decide) hdelete rfl hl
  rw [movingBlock, encodeCommands, encodeCommands, encodeCommands, Bytecode.append_nil, Bytecode.append_assoc]
  refine commands_step rfl (expression_steps hkept rfl) ?_
  refine commands_step rfl (expression_steps hdeleted rfl) ?_
  exact commands_end rfl

end

/-- What the run comes to: the first number is left, in the outermost level. -/
structure MovedAndDeleted (m : Machine) : Prop where
  next : m.heap.nextSeq = 2
  found : m.heap.find? 0x100000000000 = some ⟨0, 0⟩
  kept : m.heap.get? ⟨0, 0⟩ = some keptNumber
  journal : m.journal = [.closed 1, .finalized 1, .deleted 1, .placed 1 0, .placed 1 1, .placed 0 0, .placed 0 1]

theorem moving_runs : ∃ m, MovedAndDeleted m ∧
    Session.finish (ofFuel 10) ((ofFuel 10).runSource movingText "") (Machine.start {}) = .ok () m := by
  let program : Program := ⟨"", [movingCommand]⟩
  obtain ⟨names, hnames⟩ : ∃ names, (program.emit (Machine.start {}).names).2 = names := ⟨_, rfl⟩
  have hlength : (program.encode names).size < UInt32.size := by
    rw [program.size_eq names .initial]
    decide +kernel
  have hblock : Steps (ofFuel 10).command (movingCommand.encode names) (compiledStart names) (some voidValue)
      (movedAndDeleted names).shallower :=
    codeblock_steps (movingBlock_steps names) (.closeLevel (innermost?_movedAndDeleted names) rfl) rfl
  have hdepth : (movedAndDeleted names).shallower.scopes.depth = 1 := by
    show ((movedTwice names).scopes.removeAlloc 0 ⟨1, 0⟩).outer.depth = 1
    rw [Scopes.depth_outer, Scopes.removeAlloc, Scopes.depth_modifyLevel, depth_movedTwice]
  obtain ⟨m, hrun, hend⟩ := finish_steps (n := 7) parse_moving hnames hlength hblock rfl rfl
    (Machine.reads_value _ _ _) hdepth
  refine ⟨m, ⟨?next, ?found, ?kept, ?journal⟩, hrun⟩
  case next =>
    rw [hend.heap]
    rfl
  case found =>
    rw [hend.heap]
    show (((({} : Std.HashMap UInt64 AllocId).insert 0x100000000000 ⟨0, 0⟩).insert 0x100000000010 ⟨1, 0⟩).erase
      0x100000000010)[(0x100000000000 : UInt64)]? = _
    rw [Std.HashMap.getElem?_erase, Std.HashMap.getElem?_insert, Std.HashMap.getElem?_insert]
    rfl
  case kept =>
    have hne : (⟨0, 0⟩ : AllocId) ≠ ⟨1, 0⟩ := nofun
    have hkept : (movedTwice names).heap.get? ⟨0, 0⟩ = some keptNumber :=
      (Heap.get?_withBlock_of_ne hne).trans Heap.get?_withBlock
    rw [hend.heap]
    exact (Heap.get?_remove (get?_movedTwice names) _).mpr ⟨hkept, hne⟩
  case journal =>
    rw [hend.journal]
    show [Event.closed (movedAndDeleted names).shallower.scopes.depth, .finalized 1, .deleted 1, .placed 1 0,
      .placed 1 ((movedOnce names).scopes.depth - 1), .placed 0 0, .placed 0 1] = _
    rw [hdepth, depth_movedOnce]

end Interp

end LevelScript
