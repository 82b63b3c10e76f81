import LevelScript.Proofs.Infix
import LevelScript.Proofs.Lexing
import LevelScript.Proofs.Reading
import LevelScript.Session

/-!
# Runs of trees

The nodes of a tree leave its value on the stack and nothing else, or they divide by zero. With a semicolon
behind it, every text of a tree therefore runs and makes the value the result.
-/

namespace LevelScript

open IntegerTree

/-! ## Heads -/

namespace Run

variable {α β : Type} {r : Reader} {bs : List UInt8}

theorem next_bind {read : Reader → α × Reader} {a : α} (h : LevelScript.Reads read bs a) (hr : bs <+: r.rest)
    (f : α → Run β) : (next read >>= f) r = f a (r.advance bs.length) := by
  show f (read r).1 (read r).2 = _
  rw [h r hr]

theorem place_bind {pos : Position} (hr : Bytecode.int32 pos.row ++ Bytecode.int32 pos.col <+: r.rest) :
    ∃ row col, ∀ f : Int × Int → Run β, (place >>= f) r = f (row, col) (r.advance 8) := by
  refine ⟨(pos.row : Int).bmod UInt32.size, (pos.col : Int).bmod UInt32.size, fun f => ?_⟩
  have hcol := Reader.sees_right hr
  rw [show place >>= f = next Reader.i32 >>= fun row => next Reader.i32 >>= fun col => f (row, col) from rfl,
    next_bind (.i32 pos.row) (Reader.sees_left hr), next_bind (.i32 pos.col) hcol, Reader.advance_advance]
  rfl

theorem head_bind {op : Opcode} {pos : Position} (hr : (Bytecode.op op pos).bytes <+: r.rest)
    (hop : op ≠ .endMark) :
    ∃ row col, ∀ (x : Run β) (f : Opcode → Int × Int → Run β), (do
      let op ← next Reader.opcode
      if op = .endMark then x else do
        let place ← place
        f op place : Run β) r = f op (row, col) (r.advance 9) := by
  have hplace : Bytecode.int32 pos.row ++ Bytecode.int32 pos.col <+: (r.advance 1).rest :=
    Reader.sees_right (a := [op.code]) hr
  obtain ⟨row, col, h⟩ := place_bind hplace
  refine ⟨row, col, fun x f => ?_⟩
  rw [next_bind (.opcode op) (Reader.sees_left (a := [op.code]) hr), if_neg hop]
  exact (h _).trans (congrArg _ (Reader.advance_advance ..))

end Run

/-! ## Places -/

theorem Machine.setPosition_frame (m : Machine) (row col : Int) :
    (m.setPosition row col).setPosition m.frame.row m.frame.col = m := by
  have h : ∀ f g : Frame → Frame, (∀ frame ∈ m.frames.back?, g (f frame) = frame) →
      ((m.frames.modify (m.frames.size - 1) f).modify ((m.frames.modify (m.frames.size - 1) f).size - 1) g) =
        m.frames := by
    intro f g hfg
    apply Array.ext_getElem?
    intro k
    rw [Array.size_modify, Array.getElem?_modify]
    split
    case isTrue hk =>
      rw [Array.getElem?_modify, if_pos hk, ← hk, ← Array.back?_eq_getElem?]
      cases hb : m.frames.back? with
      | none => rfl
      | some frame => exact congrArg some (hfg frame hb)
    case isFalse hk => rw [Array.getElem?_modify, if_neg hk]
  have hf := h ({ · with row, col }) ({ · with row := m.frame.row, col := m.frame.col }) fun frame hb => by
    rw [Machine.frame, Option.mem_def.mp hb]
    rfl
  exact congrArg (fun frames => { m with frames }) hf

namespace Exec

section
variable {α β γ : Type} {x : Exec α} {f : α → Exec γ} {m : Machine} {o : Option β} {Q : β → α → TypeTable → Prop}

theorem Yields.atPlace {row col : Int} (h : Yields x (m.setPosition row col) o Q) :
    Yields (atPlace row col x) m o Q := by
  cases o with
  | none => exact .after rfl rfl (.after rfl rfl (.bind h))
  | some b =>
    obtain ⟨a, ts, hx, hs, hg, hq⟩ := h
    refine ⟨a, ts, ?_, hs, hg, hq⟩
    refine (bind_ok (s := m) rfl).trans ((bind_ok (s := m.setPosition row col) rfl).trans ((bind_ok hx).trans ?_))
    exact congrArg (EStateM.Result.ok a) (congrArg (Machine.retyped · ts) (m.setPosition_frame row col))

/-- What follows a part cannot fail. -/
theorem Yields.bind (h : Yields x m o Q) {R : β → γ → TypeTable → Prop} (hf : ∀ b a ts, o = some b → ts.Stocked →
    m.types.Grows ts → Q b a ts → Computes (f a) (m.retyped ts) (R b)) : Yields (x >>= f) m o R := by
  cases o with
  | none => exact DividesByZero.bind h
  | some b => exact Computes.bind h fun a ts => hf b a ts rfl

end

theorem checkFault_eq {m : Machine} (h : m.pending = none) : checkFault m = .ok () m := by
  rw [checkFault, get_bind, h]
  rfl

theorem literalType_computes {m : Machine} (hm : m.types.Stocked) (n : UInt64) :
    Computes (literalType n) m (fun id ts => ts.types[id]? = some (IntegerType.ofLiteral n).info) := by
  have hw : m.types.Gives (TypeTable.plainInfo .int64 { unsigned := true }) (m.types.unsign TypeTable.int64) :=
    hm.unsign (by simp) (hm.primitive rfl)
  have h32 : (n < 0x80000000) = (n.toNat < 2 ^ 31) := rfl
  have h64 : (n < 0x8000000000000000) = (n.toNat < 2 ^ 63) := rfl
  simp only [literalType, IntegerType.ofLiteral, h32, h64]
  split_ifs
  · exact .pure hm (hm.primitive rfl)
  · exact .pure hm (hm.primitive rfl)
  · exact .withTypes hw

end Exec

/-! ## Nodes -/

structure Machine.Ready (m : Machine) : Prop where
  types : m.types.Stocked
  pending : m.pending = none
  room : 12 ≤ m.settings.maxStack

theorem Machine.Ready.retyped {m : Machine} (h : m.Ready) {ts : TypeTable} (hs : ts.Stocked) :
    (m.retyped ts).Ready :=
  ⟨hs, h.pending, h.room⟩

theorem Machine.Ready.placed {m : Machine} (h : m.Ready) (row col : Int) : (m.setPosition row col).Ready :=
  ⟨h.types, h.pending, h.room⟩

namespace Interp

open Exec

section
variable {i : Interp} {o : Option IntegerValue} {count : Nat} {stack below : List Variable}
  {r r' : Reader} {m : Machine}

def checked (stack : List Variable) : Run (List Variable) := do
  checkFault
  let max := (← getThe Machine).settings.maxStack
  if max < stack.length then raise (.expressionOverflow max)
  return stack

theorem checked_eq (hm : m.Ready) (hl : stack.length ≤ m.settings.maxStack) (r : Reader) :
    checked stack r m = .ok (stack, r) m := by
  refine (congrFun (Run.lift_bind checkFault _ r) m).trans ((bind_ok (checkFault_eq hm.pending)).trans ?_)
  show (if m.settings.maxStack < stack.length then _ else _ : Run (List Variable)) r m = _
  rw [if_neg (Nat.not_lt.mpr hl)]
  rfl

/-- The next `count` nodes, up to `r'`, leave a value on what is below of the stack, or they divide by zero. -/
def Pushes (i : Interp) (o : Option IntegerValue) (count : Nat) (stack below : List Variable) (r r' : Reader)
    (m : Machine) : Prop :=
  match o with
  | some v => ∃ x ts, ts.Stocked ∧ m.types.Grows ts ∧ x.Represents ts v ∧
      ∀ k, i.nodes (count + k) stack r m = i.nodes k (x :: below) r' (m.retyped ts)
  | none => ∀ k, DividesByZero (i.nodes (count + k) stack r) m

theorem Pushes.step {op : Opcode} {pos : Position} (hr : (Bytecode.op op pos).bytes <+: r.rest)
    (hop : op ≠ .endMark) (hm : m.Ready) (hl : below.length < m.settings.maxStack)
    (h : ∀ m' : Machine, m'.Ready → m'.types = m.types → Yields (i.node op stack (r.advance 9)) m' o
      (fun v p ts => p.2 = r' ∧ ∃ x, p.1 = x :: below ∧ x.Represents ts v)) : i.Pushes o 1 stack below r r' m := by
  obtain ⟨row, col, hhead⟩ := Run.head_bind hr hop
  have hnode := h _ (hm.placed row col) rfl
  have hstep : Yields (Exec.atPlace row col (i.node op stack (r.advance 9) >>= fun p => checked p.1 p.2)) m o
      (fun v p ts => p.2 = r' ∧ ∃ x, p.1 = x :: below ∧ x.Represents ts v) := by
    refine .atPlace (hnode.bind fun v p ts _ hs _ hp => ?_)
    obtain ⟨hr', x, hp, hx⟩ := hp
    rw [hp]
    have hready := (hm.placed row col).retyped hs
    have hroom : (x :: below).length ≤ ((m.setPosition row col).retyped ts).settings.maxStack := hl
    exact ⟨_, ts, checked_eq hready hroom _, hs, .refl ts, hr', x, rfl, hx⟩
  have hnodes (k : Nat) : i.nodes (1 + k) stack r =
      Exec.atPlace row col (i.node op stack (r.advance 9) >>= fun p => checked p.1 p.2) >>= fun p =>
          i.nodes k p.1 p.2 := by
    rw [Nat.add_comm, nodes]
    exact hhead _ _
  cases o with
  | none =>
    intro k
    rw [hnodes]
    exact .bind hstep
  | some v =>
    obtain ⟨p, ts, heq, hs, hg, rfl, x, hp, hx⟩ := hstep
    refine ⟨x, ts, hs, hg, hx, fun k => ?_⟩
    rw [hnodes, bind_ok heq, hp]

theorem Pushes.bind {f : IntegerValue → Option IntegerValue} {count' : Nat} {below' : List Variable} {r'' : Reader}
    (h : i.Pushes o count stack below r r' m) (hf : ∀ v x ts, ts.Stocked → m.types.Grows ts → x.Represents ts v →
      i.Pushes (f v) count' (x :: below) below' r' r'' (m.retyped ts)) :
    i.Pushes (o.bind f) (count + count') stack below' r r'' m := by
  cases o with
  | none =>
    intro k
    rw [Nat.add_assoc]
    exact h _
  | some v =>
    obtain ⟨x, ts, hs, hg, hx, heq⟩ := h
    have hf := hf v x ts hs hg hx
    have hstart (k : Nat) : i.nodes (count + count' + k) stack r m =
        i.nodes (count' + k) (x :: below) r' (m.retyped ts) := by
      rw [Nat.add_assoc]
      exact heq _
    cases hv : f v with
    | none =>
      rw [hv] at hf
      rw [Option.bind_some, hv]
      intro k
      obtain ⟨e, m', he, h⟩ := hf k
      exact ⟨e, m', (hstart k).trans he, h⟩
    | some u =>
      rw [hv] at hf
      rw [Option.bind_some, hv]
      obtain ⟨y, ts', hs', hg', hy, heq'⟩ := hf
      exact ⟨y, ts', hs', hg.trans hg', hy, fun k => (hstart k).trans (heq' k)⟩

theorem Pushes.expression (h : i.Pushes o count [] [] r r' m) (hf : count < i.fuel)
    (hr : Bytecode.endMark.bytes <+: r'.rest) :
    Yields (i.expression r) m o (fun v p ts => p.2 = r'.advance 1 ∧ ∃ x, p.1 = some x ∧ x.Represents ts v) := by
  obtain ⟨k, hk⟩ : ∃ k, i.fuel = count + (k + 1) := ⟨i.fuel - count - 1, by omega⟩
  have hend (stack : List Variable) : i.nodes (k + 1) stack r' = pure (stack.head?, r'.advance 1) := by
    rw [nodes]
    exact Run.next_bind (.opcode .endMark) hr _
  rw [Interp.expression, hk]
  cases o with
  | none => exact h _
  | some v =>
    obtain ⟨x, ts, hs, hg, hx, heq⟩ := h
    refine ⟨(some x, r'.advance 1), ts, (heq _).trans ?_, hs, hg, rfl, x, rfl, hx⟩
    rw [hend]
    rfl

theorem Pushes.value {n : Nat} (h : (ofFuel n).Pushes o count [] [] r r' m) (hf : count < (ofFuel n).fuel)
    (hr : Bytecode.endMark.bytes <+: r'.rest) :
    Yields ((ofFuel (n + 1)).value r) m o (fun v p ts => p.2 = r'.advance 1 ∧ p.1.Represents ts v) := by
  refine (h.expression hf hr).bind fun v p ts _ hs _ hp => ?_
  obtain ⟨y, r''⟩ := p
  obtain ⟨hr', x, rfl, hx⟩ := hp
  exact ⟨_, ts, rfl, hs, .refl ts, hr', hx⟩

section
variable {pos : Position} (hm : m.Ready) (hl : stack.length < m.settings.maxStack)
include hm hl

theorem Pushes.operand {op : Opcode} (hr : (Bytecode.op op pos).bytes <+: r.rest) (hop : op ≠ .endMark)
    (hoperator : op.isOperator = false) (hdeclare : op ≠ .declare)
    (h : ∀ m' : Machine, m'.Ready → Yields (i.operand op (r.advance 9)) m' o
      (fun v p ts => p.2 = r' ∧ p.1.Represents ts v)) : i.Pushes o 1 stack stack r r' m := by
  refine .step hr hop hm hl fun m' hm' _ => ?_
  rw [node, if_neg (Bool.eq_false_iff.mp hoperator), if_neg hdeclare]
  refine (h m' hm').bind fun v p ts _ hs _ hp => ?_
  exact .pure hs ⟨hp.1, p.1, rfl, hp.2⟩

theorem Pushes.literal {n : UInt64} (hr : (Bytecode.op .integer pos ++ .u64 n).bytes <+: r.rest) :
    i.Pushes (some (.literal n)) 1 stack stack r ((r.advance 9).advance (Bytecode.u64 n).bytes.length) m := by
  refine .operand hm hl (Reader.sees_left hr) nofun rfl nofun fun m' hm' => ?_
  have hn : (Bytecode.u64 n).bytes <+: (r.advance 9).rest := Reader.sees_right hr
  rw [show i.operand .integer (r.advance 9) = _ from Run.next_bind (.u64 n) hn _, Run.lift_bind]
  refine Computes.bind (literalType_computes hm'.types n) fun id ts hs _ hid => .pure hs ⟨rfl, ?_, hid⟩
  exact congrArg Storage.value (eq_ofInt rfl)

theorem Pushes.unary {x : Variable} {v : IntegerValue} (hx : x.Represents m.types v) (op : UnaryOperator)
    (hr : (Bytecode.op op.opcode pos).bytes <+: r.rest) :
    i.Pushes (some (op.result v)) 1 (x :: stack) stack r (r.advance 9) m := by
  have hop : op.opcode.isOperator = true := by cases op <;> rfl
  refine .step hr (fun h => by rw [h] at hop; cases hop) hm hl fun m' hm' ht => ?_
  rw [node, if_pos hop]
  exact applyUnary_computes (ht ▸ hx) hm'.types i op stack _

theorem Pushes.binary {x y : Variable} {v w : IntegerValue} (hx : x.Represents m.types v)
    (hy : y.Represents m.types w) (op : BinaryOperator)
    (hr : (Bytecode.op op.opcode pos).bytes <+: r.rest) :
    i.Pushes (op.result v w) 1 (y :: x :: stack) stack r (r.advance 9) m := by
  have hop : op.opcode.isOperator = true := by
    cases op with
    | arithmetic op => cases op <;> rfl
    | comparison op => cases op <;> rfl
    | both | either | elvis => rfl
  refine .step hr (fun h => by rw [h] at hop; cases hop) hm hl fun m' hm' ht => ?_
  rw [node, if_pos hop]
  exact applyBinary_yields (ht ▸ hx) (ht ▸ hy) hm'.types i op stack _

theorem Pushes.parens {n : Nat} (hr : (Bytecode.op .paren pos).bytes <+: r.rest)
    (h : ∀ m' : Machine, m'.Ready → (ofFuel n).Pushes o count [] [] (r.advance 9) r' m')
    (hf : count < (ofFuel n).fuel) (hr' : Bytecode.endMark.bytes <+: r'.rest) :
    (ofFuel (n + 1)).Pushes o 1 stack stack r (r'.advance 1) m := by
  exact .operand hm hl hr nofun rfl nofun fun m' hm' => (h m' hm').value hf hr'

end

end

end Interp

open Interp Exec

namespace Postfix

theorem length_le {p size : Nat} {e : IntegerTree} {ns : List Node} (h : Postfix p size e ns) :
    ns.length ≤ size := by
  induction h with
  | literal => exact Nat.le_refl _
  | unary => simpa
  | binary => simp; omega
  | parens => simp

/-- The nodes of a tree push its value. -/
theorem pushes {p size : Nat} {e : IntegerTree} {ns : List Node} (h : Postfix p size e ns) (names : Names) :
    ∀ (n : Nat) (stack : List Variable) (r : Reader) (m : Machine), size < n →
    (encodeNodes names ns).bytes <+: r.rest →
      m.Ready → p ≤ 13 → stack.length + 14 ≤ m.settings.maxStack + max p 2 →
      (ofFuel n).Pushes e.eval ns.length stack stack r (r.advance (encodeNodes names ns).bytes.length) m := by
  induction h with
  | literal p pos k =>
    intro n stack r m hn hr hm hp hs
    rw [encodeNodes_singleton] at hr ⊢
    rw [Reader.advance_append]
    exact .literal hm (by omega) hr
  | @unary p pos op size a ns h ih =>
    intro n stack r m hn hr hm hp hs
    have hl : stack.length < m.settings.maxStack := by omega
    rw [encodeNodes_append, encodeNodes_operator] at hr ⊢
    rw [Reader.advance_append, List.length_append, IntegerTree.eval, Option.map_eq_bind]
    have ha := ih n stack r m (by omega) (Reader.sees_left hr) hm (Nat.le_refl _) (by omega)
    exact ha.bind fun v x ts hs _ hx => .unary (hm.retyped hs) hl hx op (Reader.sees_right hr)
  | @binary pos p size size' op a b ns ns' hop ha hb iha ihb =>
    intro n stack r m hn hr hm hp hs
    obtain ⟨hlow, hhigh⟩ := op.precedence_bounds
    have hl : stack.length < m.settings.maxStack := by omega
    rw [List.append_assoc, encodeNodes_append, encodeNodes_append, encodeNodes_operator] at hr ⊢
    rw [Reader.advance_append, Reader.advance_append, List.length_append, List.length_append, IntegerTree.eval]
    have ha := iha n stack r m (by omega) (Reader.sees_left hr) hm (by omega) (by omega)
    have hr' := Reader.sees_right hr
    refine ha.bind fun v x ts hs' _ hx => ?_
    have hroom : (x :: stack).length + 14 ≤ m.settings.maxStack + max (op.precedence + 1) 2 := by
      rw [List.length_cons]
      omega
    have hb :=
      ihb n (x :: stack) _ (m.retyped ts) (by omega) (Reader.sees_left hr') (hm.retyped hs') (by omega) hroom
    exact hb.bind fun w y ts' hs'' hg hy => .binary (hm.retyped hs'') hl (hx.mono hg) hy op (Reader.sees_right hr')
  | @parens p pos size e ns h ih =>
    intro n stack r m hn hr hm hp hs
    obtain ⟨n, rfl⟩ : ∃ k, n = k + 1 + 1 := ⟨n - 2, by omega⟩
    have hl : stack.length < m.settings.maxStack := by omega
    rw [encodeNodes_singleton] at hr ⊢
    have hr' : (encodeNodes names ns ++ .endMark).bytes <+: (r.advance 9).rest := Reader.sees_right hr
    have hfuel : ns.length < (ofFuel (n + 1)).fuel := by
      have := h.length_le
      show ns.length < n
      omega
    -- What is inside has a stack of its own.
    have hinner (m' : Machine) (hm' : m'.Ready) :=
      ih (n + 1) [] (r.advance 9) m' (by omega) (Reader.sees_left hr') hm'
      (by decide) (show 14 ≤ m'.settings.maxStack + 2 by have := hm'.room; omega)
    have := Pushes.parens hm hl (Reader.sees_left hr) hinner hfuel (Reader.sees_right hr')
    rwa [Reader.advance_append,
      show Form.operands names (.paren (.mk ns)) = encodeNodes names ns ++ .endMark from rfl,
      Reader.advance_append]

end Postfix

/-! ## Texts -/

theorem Spaced.length_le {ts : List Token} {cs : List Char} (h : Spaced ts cs) : ts.length ≤ cs.length := by
  induction h with
  | nil => exact Nat.zero_le _
  | cons hb ht hr h0 ih =>
    obtain ⟨c, cs, rfl, -⟩ := Lexer.spelled_cons ht
    simp
    omega

/-- A text with a semicolon is a program of one command. -/
theorem IntegerTree.Text.parse {e : IntegerTree} {source : String} (h : e.Text source) (file : String) :
    ∃ size ns pos, Postfix 0 size e ns ∧ size ≤ source.length ∧
      parse (source ++ ";") file = .ok ⟨file, [.mk pos (.expression (.mk ns))]⟩ := by
  obtain ⟨ts, hr, hs⟩ := h
  obtain ⟨ls, semicolon, eof, ht, hls, hsemicolon, heof⟩ := tokenize_spaced hs file
  obtain ⟨pos, ns, hp, hparse⟩ := (hr.splits ls hls).parseTokens hsemicolon heof file
  refine ⟨_, ns, pos, hp, ?_, ?_⟩
  · have := hs.length_le
    rwa [← hls, List.length_map, String.length_toList] at this
  · rw [LevelScript.parse, ht]
    exact hparse

/-! ## Commands -/

namespace Interp

section
variable {o : Option IntegerValue} {count n : Nat} {r r' : Reader} {m m₁ : Machine} {pos : Position}

theorem Pushes.command (hr : (Bytecode.op .expression pos).bytes <+: r.rest) (hm : m.Ready)
    (h : ∀ m' : Machine, m'.Ready → (ofFuel n).Pushes o count [] [] (r.advance 9) r' m')
    (hf : count < (ofFuel n).fuel) (hr' : Bytecode.endMark.bytes <+: r'.rest) :
    Yields ((ofFuel (n + 1 + 1)).command r) m o
      (fun v p ts => p.2 = r'.advance 1 ∧ ∃ x, p.1 = some x ∧ x.Represents ts v) := by
  obtain ⟨row, col, hhead⟩ := Run.head_bind hr nofun
  have hm' := hm.placed row col
  have hbody : Yields ((ofFuel (n + 1)).body .expression (r.advance 9)) (m.setPosition row col) o
      (fun v p ts => p.2 = r'.advance 1 ∧ p.1.Represents ts v) := by
    refine ((h _ hm').expression hf hr').bind fun v p ts _ hs _ hp => ?_
    obtain ⟨y, r''⟩ := p
    obtain ⟨hr', x, rfl, hx⟩ := hp
    exact .pure hs ⟨hr', hx⟩
  rw [show (ofFuel (n + 1 + 1)).command r = _ from hhead _ _]
  refine .atPlace (hbody.bind fun v p ts _ hs _ hp => ?_)
  have hfault := checkFault_eq (hm'.retyped hs).pending
  obtain ⟨y, r''⟩ := p
  refine ⟨(some y, r''), ts, ?_, hs, .refl ts, hp.1, y, rfl, hp.2⟩
  exact (congrFun (Run.lift_bind checkFault _ r'') _).trans (bind_ok hfault)

theorem command_endMark (hr : Bytecode.endMark.bytes <+: r.rest) :
    (ofFuel (n + 1)).command r = pure (none, r.advance 1) :=
  Run.next_bind (.opcode .endMark) hr _

theorem not_atEnd {b : UInt8} {bs : List UInt8} (hr : b :: bs <+: r.rest) : r.atEnd = false :=
  decide_eq_false (Nat.not_le.mpr (Reader.sees_byte hr).1)

/-- The value is the last one, or a division by zero ends the run. -/
def Leaves (x : Exec (Variable × Option RunError)) (m m₁ : Machine) (o : Option IntegerValue) : Prop :=
  match o with
  | some v => ∃ y ts, ts.Stocked ∧ y.Represents ts v ∧ x m = .ok (y, none) (m₁.retyped ts)
  | none => ∃ e m', x m = .ok (voidValue, some e) m' ∧ e.cause = .divisionByZero ∧ m'.scopes = m₁.scopes

theorem topCommands_leaves (hr : (Bytecode.op .expression pos).bytes <+: r.rest) (hm : m.Ready)
    (hc : m.control = .running)
    (h : ∀ m' : Machine, m'.Ready → (ofFuel n).Pushes o count [] [] (r.advance 9) r' m')
    (hf : count < (ofFuel n).fuel) (hr' : (Bytecode.endMark ++ .endMark).bytes <+: r'.rest) (k : Nat) :
    Leaves ((ofFuel (n + 1 + 1)).topCommands (k + 1 + 1) r voidValue) m m o := by
  have hx := Pushes.command hr hm h hf (Reader.sees_left hr')
  rw [topCommands, not_atEnd hr, if_neg Bool.false_ne_true]
  cases o with
  | none =>
    obtain ⟨e, m', hx, he⟩ := hx
    exact ⟨e, m', bind_ok (attempt_raised hx), he⟩
  | some v =>
    obtain ⟨⟨y, r''⟩, ts, hx, hs, hg, rfl, y, rfl, hy⟩ := hx
    have hend : (ofFuel (n + 1 + 1)).topCommands (k + 1) (r'.advance 1) y (m.retyped ts) =
        .ok (y, none) (m.retyped ts) := by
      have hmark : Bytecode.endMark.bytes <+: (r'.advance 1).rest :=
        Reader.sees_right (a := Bytecode.endMark.bytes) hr'
      rw [topCommands, not_atEnd hmark, if_neg Bool.false_ne_true]
      refine (bind_ok (s := m.retyped ts) (a := .ok (none, (r'.advance 1).advance 1)) (attempt_ok ?_)).trans rfl
      exact congrFun (command_endMark hmark) (m.retyped ts)
    refine ⟨y, ts, hs, hy, (bind_ok (attempt_ok hx)).trans ?_⟩
    refine get_bind.trans ?_
    rw [show (m.retyped ts).control = .running from hc]
    exact hend

end

end Interp

end LevelScript
