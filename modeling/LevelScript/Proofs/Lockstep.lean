import LevelScript.Proofs.Coded
import LevelScript.Session

/-!
# The interpreter in step with the code

Code says nowhere where its parts begin: every part of the interpreter finds its place because the parts
before it have consumed exactly what was written for them. On the code of a tree they do, whatever values
they compute and wherever the control goes.
-/

namespace LevelScript

open Exec

namespace Parses

variable {α β : Type} {x : Run α} {f : α → Run β} {a b : Bytecode} {P : α → Prop} {Q : β → Prop}

protected theorem pure {v : α} (h : P v) : Parses (pure v) .nil P := fun _ _ _ hm => ⟨h, rfl, hm⟩

protected theorem bind (hx : Parses x a P) (hf : ∀ v, P v → Parses (f v) b Q) : Parses (x >>= f) (a ++ b) Q := by
  intro r hr m hm
  refine (hx r hr.left m hm).bind (fun p m₁ h₁ => ?_) (fun _ _ h => h)
  obtain ⟨v, r₁⟩ := p
  obtain ⟨hv, rfl, hm₁⟩ := h₁
  refine (hf v hv _ hr.right m₁ hm₁).mono (fun p m' h => ⟨h.1, h.2.1.trans ?_, h.2.2⟩) (fun _ _ h => h)
  rw [Reader.advance_append]

protected theorem finish (hx : Parses x a P) (hf : ∀ v, P v → Parses (f v) .nil Q) : Parses (x >>= f) a Q := by
  have h := hx.bind hf
  rwa [Bytecode.append_nil] at h

theorem after {x : Exec α} (hx : ∀ m : Machine, m.Coded →
    x.Ends m (fun v m' => P v ∧ m'.Coded) (fun e m' => m'.Coded ∧ e.cause.isInternal = false))
    (hf : ∀ v, P v → Parses (f v) b Q) : Parses ((liftM x : Run α) >>= f) b Q := by
  intro r hr m hm
  rw [Run.lift_bind]
  exact (hx m hm).bind (fun v m₁ h₁ => hf v h₁.1 r hr m₁ h₁.2) (fun _ _ h => h)

theorem first {x : Exec α} (hx : Tame x) (hf : ∀ v, Parses (f v) b Q) : Parses ((liftM x : Run α) >>= f) b Q :=
  after (P := fun _ => True) (fun m hm => (hx m hm).mono (fun _ _ h => ⟨trivial, h⟩) (fun _ _ h => h))
    fun v _ => hf v

theorem caught {x : Exec α} {f : Except RunError α → Run β} (hx : Tame x) (hok : ∀ a, Parses (f (.ok a)) b Q)
    (herr : ∀ e : RunError, e.cause.isInternal = false → Parses (f (.error e)) b Q) :
    Parses ((liftM (attempt x) : Run _) >>= f) b Q := by
  refine after (P := fun o => ∀ e, o = .error e → e.cause.isInternal = false) (fun m hm => ?_) fun o ho => ?_
  · exact ends_attempt.mpr ((hx m hm).mono (fun _ _ h => ⟨nofun, h⟩)
      (fun e _ h => ⟨fun _ he => Except.error.inj he ▸ h.2, h.1⟩))
  · cases o with
    | ok a => exact hok a
    | error e => exact herr e (ho e rfl)

theorem lift {x : Exec α} (hx : Tame x) : Parses (liftM x : Run α) .nil (fun _ => True) :=
  fun _ _ m hm => Ends.bind (hx m hm) (fun _ _ h => ⟨trivial, rfl, h⟩) (fun _ _ h => h)

theorem calm {x : Exec α} (hx : Calm false x) (hf : ∀ v, Parses (f v) b Q) : Parses ((liftM x : Run α) >>= f) b Q :=
  first (.calm hx) hf

theorem raise {c : Cause} (hc : c.isInternal = false) : Parses (liftM (Exec.raise c : Exec α) : Run α) a P :=
  fun _ _ _ hm => ⟨hm, hc⟩

theorem outOfFuel : Parses (liftM (Exec.outOfFuel : Exec α) : Run α) a P := fun _ _ _ _ => trivial

theorem next {read : Reader → α × Reader} {bs : List UInt8} {v : α} (h : Reads read bs v) (hf : Parses (f v) b Q) :
    Parses (Run.next read >>= f) (.raw bs ++ b) Q := by
  intro r hr m hm
  show (f (read r).1 (read r).2).Ends m _ _
  rw [h r (Reader.sees_left hr.code)]
  refine (hf _ hr.right m hm).mono (fun p m' h => ⟨h.1, h.2.1.trans ?_, h.2.2⟩) (fun _ _ h => h)
  rw [Reader.advance_append]

theorem last {read : Reader → α × Reader} {bs : List UInt8} {v : α} (h : Reads read bs v)
    (hf : Parses (f v) .nil Q) :
    Parses (Run.next read >>= f) (.raw bs) Q := by
  have hb := next h hf
  rwa [Bytecode.append_nil] at hb

theorem onMachine {f : Machine → Run β} (hf : ∀ m, Parses (f m) b Q) : Parses (getThe Machine >>= f) b Q :=
  fun r hr m hm => hf m r hr m hm

protected theorem ite {c : Prop} [Decidable c] {x y : Run α} (hx : Parses x a P) (hy : Parses y a P) :
    Parses (if c then x else y) a P := by
  split
  · exact hx
  · exact hy

theorem given {v : α} (h : Parses (f v) b Q) : Parses (pure v >>= f) b Q := h

theorem branch {c : Prop} [Decidable c] {γ : Type} {x : Exec α} {g : α → γ} {v : γ} {f : γ → Run β} (hx : Tame x)
    (hf : ∀ v, Parses (f v) b Q) :
    Parses (if c then (g <$> (liftM x : Run α)) >>= f else (pure v : Run γ) >>= f) b Q := by
  refine .ite ?_ (hf v)
  rw [bind_map_left]
  exact .first hx fun a => hf (g a)

theorem guarded {c : Prop} [Decidable c] {e : Cause} (he : e.isInternal = false) {x : Run α} (hx : Parses x a P) :
    Parses (if c then (liftM (Exec.raise e : Exec PUnit) : Run PUnit) >>= fun _ => x else x) a P :=
  .ite (.first (.raise he) fun _ => hx) hx

theorem enter {f : Reader → Run β} {content : Bytecode}
    (hf : ∀ inner : Reader, inner.Holds content → Parses (f inner) b Q) :
    Parses (Run.enter >>= f) (.block content ++ b) Q := by
  intro r hr m hm
  rw [Run.enter_bind, Reader.enter_block hr.left.code hr.left.block_lt]
  dsimp only
  refine (hf _ hr.left.inner _ hr.right m hm).mono (fun p m' h => ⟨h.1, h.2.1.trans ?_, h.2.2⟩)
    (fun _ _ h => h)
  rw [Reader.advance_append]

theorem head {f : Opcode → Run β} (op : Opcode) (pos : Position)
    (hf : Parses (f op) (.raw (Bytecode.int32 pos.row ++ Bytecode.int32 pos.col) ++ b) Q) :
    Parses (Run.next Reader.opcode >>= f) (.op op pos ++ b) Q :=
  fun r hr => next (.opcode op) hf r ⟨hr.short, hr.code⟩

theorem atPlace (hx : Parses x a P) (row col : Int) : Parses (Run.atPlace row col x) a P := by
  intro r hr m hm
  refine ends_bind.mpr (ends_bind.mpr ?_)
  show Ends _ (m.setPosition row col) _ _
  refine (hx r hr (m.setPosition row col) (hm.same ⟨rfl, rfl, rfl⟩)).bind (fun p m₁ h₁ => ?_) (fun _ _ h => h)
  exact ⟨h₁.1, h₁.2.1, h₁.2.2.same ⟨rfl, rfl, rfl⟩⟩

theorem run' {r : Reader} (hx : Parses x a P) (hr : r.Holds a) : Tame (x.run' r) := fun m hm =>
  ends_map.mpr ((hx r hr m hm).mono (fun _ _ h => h.2.2) (fun _ _ h => h))

protected theorem map {x : Run α} {γ : Type} {g : α → γ} {f : γ → Run β} (h : Parses (x >>= fun v => f (g v)) b Q) :
    Parses ((g <$> x) >>= f) b Q := by
  rw [bind_map_left]
  exact h

theorem name? (names : Names) (name : Option String) :
    Parses Run.name? (.optName names name) (fun v => v = name.map names.idOf) := by
  cases name with
  | none => exact last (.bool false) (.pure rfl)
  | some name => exact next (.bool true) (last (.name names name) (.pure rfl))

theorem place {f : Int × Int → Run β} (pos : Position) (hf : ∀ place, Parses (f place) b Q) :
    Parses (Run.place >>= f) (.raw (Bytecode.int32 pos.row ++ Bytecode.int32 pos.col) ++ b) Q := by
  have h : Parses Run.place (.raw (Bytecode.int32 pos.row) ++ .raw (Bytecode.int32 pos.col)) (fun _ => True) :=
    next (.i32 pos.row) (last (.i32 pos.col) (.pure trivial))
  exact .bind h fun place _ => hf place

end Parses

/-- The code of a text can be followed from its first command on. -/
theorem holds_compiled {source file : String} {before names : Names} {bytes : Array UInt8}
    (h : compile source file before = .ok (bytes, names)) (hs : bytes.size < UInt32.size) :
    ∃ program, parse source file = .ok program ∧ CommandsWellFormed program.commands ∧
      bytes.toList = (program.encode names).bytes ∧
      ∀ serial, (Reader.ofChunk ⟨serial, bytes⟩).name.2.Holds
      (encodeCommands names program.commands ++ .endMark) := by
  obtain ⟨program, hp, hw, hb⟩ := compile_encodes h
  refine ⟨program, hp, hw, hb, fun serial => ?_⟩
  have hr : (Reader.ofChunk ⟨serial, bytes⟩).Holds
      (.name names program.file ++ (encodeCommands names program.commands ++ .endMark)) := by
    refine ⟨hs, ?_⟩
    rw [Reader.rest_ofChunk, ← Bytecode.append_assoc, hb]
    exact List.prefix_rfl
  rw [Reads.name names program.file _ hr.left.code]
  exact hr.right

def Operator.Action.isPlain : Operator.Action → Bool
  | step | address | dereference | dereferenceType | sign | logicNot | bitNot | modifyType | allocationInfo => true
  | _ => false

theorem Operator.action?_one {ts : TypeTable} {op : Opcode} {stack : List Variable} {action : Operator.Action}
    (hs : op.shape? ≠ some .between) (h : action? ts op stack = some action) :
    action.isPlain = true ∧ op ≠ .call ∧ op ≠ .index ∧ op ≠ .member ∧ op ≠ .functionType ∨
      op = .call ∧ action = .call ∨ op = .index ∧ (action = .indexPointer ∨ action = .indexStruct) ∨
      op = .member ∧ (action = .member ∨ action = .memberType) ∨ op = .functionType ∧ action = .functionType := by
  obtain ⟨r, hr, hop, rfl⟩ := action?_rule h
  have table : ∀ r ∈ rules, ∀ op ∈ r.ops, op.shape? ≠ some .between →
      r.action.isPlain = true ∧ op ≠ .call ∧ op ≠ .index ∧ op ≠ .member ∧ op ≠ .functionType ∨
        op = .call ∧ r.action = .call ∨ op = .index ∧ (r.action = .indexPointer ∨ r.action = .indexStruct) ∨
        op = .member ∧ (r.action = .member ∨ r.action = .memberType) ∨
        op = .functionType ∧ r.action = .functionType := by
    decide
  exact table r hr op hop hs

theorem Form.between (names : Names) {form : Form} (h : form.WellFormed) (hs : form.opcode.shape? = some .between) :
    form.takes = 2 ∧ form.operands names = .nil := by
  cases form with
  | operator op => exact ⟨if_pos hs, rfl⟩
  | query op name => exact absurd (hs.symm.trans h) (by decide)
  | _ => cases hs

theorem Form.takes_one {form : Form} (ho : form.opcode.isOperator = true)
    (hs : form.opcode.shape? ≠ some .between) :
    form.takes = 1 := by
  cases form with
  | operator op => exact if_neg hs
  | query op name => rfl
  | _ => first | rfl | cases ho

theorem Form.takes_none {form : Form} (ho : form.opcode.isOperator = false) (hd : form.opcode ≠ .declare)
    (h : form.WellFormed) : form.takes = 0 := by
  cases form with
  | operator op =>
    rw [WellFormed, Opcode.standsAlone] at h
    rw [opcode, Opcode.isOperator] at ho
    cases hs : op.shape? <;> simp [hs] at h ho
  | query op name =>
    rw [WellFormed] at h
    rw [opcode, Opcode.isOperator, h] at ho
    cases ho
  | declare => exact absurd rfl hd
  | _ => first | rfl | cases ho

/-- The operands of an operator that stands alone are all in front of it. -/
theorem Form.operands_plain (names : Names) {form : Form} (h : form.WellFormed) (ho : form.opcode.isOperator = true)
    (hc : form.opcode ≠ .call ∧ form.opcode ≠ .index ∧ form.opcode ≠ .member ∧ form.opcode ≠ .functionType) :
    form.operands names = .nil := by
  cases form with
  | operator op => rfl
  | query op name => rfl
  | call args => exact absurd rfl hc.1
  | index inner => exact absurd rfl hc.2.1
  | member name => exact absurd rfl hc.2.2.1
  | functionType assignable params => exact absurd rfl hc.2.2.2
  | _ => cases ho

namespace Interp

variable {i : Interp} {names : Names}

section
variable (hi : i.InStep)
include hi

/-! ## Sequences -/

theorem value_parses {x : Expr} (hx : x.WellFormed) : Parses i.value (x.encode names) (fun _ => True) := by
  refine .finish (hi.eval names x hx) fun v hv => ?_
  cases v with
  | none => cases hv
  | some v => exact .pure trivial

theorem type_parses {x : Expr} (hx : x.WellFormed) : Parses i.type (x.encode names) (fun _ => True) :=
  .finish (value_parses hi hx) fun v _ => .lift (.calm (expectType_calm v))

theorem values_parses : ∀ (n : Nat) (xs : List Expr), ExprsWellFormed xs →
    Parses (i.values n) (encodeExprs names xs ++ .endMark) (fun _ => True)
  | 0, _, _ => .outOfFuel
  | n + 1, [], _ => .finish hi.evalEnd fun v hv => by
    subst hv
    exact .pure trivial
  | n + 1, x :: xs, hx => by
    rw [encodeExprs, Bytecode.append_assoc]
    refine .bind (hi.eval names x hx.1) fun v hv => ?_
    cases v with
    | none => cases hv
    | some v => exact .finish (values_parses n xs hx.2) fun _ _ => .pure trivial

/-! ## Functions -/

omit hi in
theorem readFunction_parses {b : Block} (hb : b.WellFormed) (capture : Capture) (type : TypeId) (name : NameId)
    (inner : Bool) :
    Parses (readFunction type name inner) (.byte capture.code ++ b.encode names) (fun _ => True) := by
  refine .next (.capture capture) fun r hr m hm => ?_
  rw [Block.encode_eq] at hr ⊢
  have hbody : r.chunk.HoldsBody (r.pos + 4) (b.content names).bytes.length := by
    refine ⟨names, b, hb, hr.short, rfl, ?_⟩
    rw [Reader.slice_block hr.code, Reader.rest_part (Reader.block_content hr.code)]
  show ((liftM (createFunction r.chunk r.skip.1.1 r.skip.1.2 capture type name inner) : Run UInt64)
    r.skip.2).Ends m _ _
  rw [Reader.skip_block hr.code hr.block_lt]
  exact (createFunction_tame hbody capture type name inner m hm).bind (fun _ _ h => ⟨trivial, rfl, h⟩)
    (fun _ _ h => h)

/-! ## Struct types -/

theorem inlineCount_parses {inlined : Inlined} (h : inlined.WellFormed) :
    Parses i.inlineCount (inlined.encode names) (fun _ => True) := by
  cases inlined with
  | no => exact .last (.bool false) (.pure trivial)
  | once => exact .next (.bool true) (.last (.bool false) (.pure trivial))
  | times count =>
    rw [Inlined.encode, Bytecode.append_assoc]
    refine .next (.bool true) (.next (.bool true) (.finish (value_parses hi h) fun v _ => ?_))
    exact .calm (kindOf_calm v) fun _ => .ite (.calm (bits_calm v) fun _ => .pure trivial) (.raise rfl)

theorem fieldValue_parses {value : FieldValue} (h : value.WellFormed) (type : TypeId) (name : Option NameId) :
    Parses (i.fieldValue type name) (value.encode names) (fun _ => True) := by
  cases value with
  | absent => exact .last (.bool false) (.pure trivial)
  | value init =>
    rw [FieldValue.encode, Bytecode.append_assoc]
    refine .next (.bool true) (.next (.bool false) (.finish (value_parses hi h) fun v _ => .onMachine fun m => ?_))
    split
    · exact .lift (.calm (bits_calm v))
    · exact .lift (.calm (bits_calm v))
    · exact .lift (.calm (castBits_calm type v))
  | method capture body =>
    rw [FieldValue.encode, Bytecode.append_assoc, Bytecode.append_assoc]
    exact .next (.bool true) (.next (.bool true) (readFunction_parses h capture _ _ _))

theorem fieldPlace_parses {placement : Placement} (h : placement.WellFormed) :
    Parses i.fieldPlace (placement.encode names) (fun _ => True) := by
  have rest (relative : Bool) {offset : Expr} (ho : offset.WellFormed) : Parses (do
      let offset ← i.value
      if !(← kindOf offset).isInteger then raise .offsetNotInteger
      let offset ← bits offset
      return if relative then .relative offset else .absolute offset : Run FieldPlace) (offset.encode names)
      (fun _ => True) := by
    refine .finish (value_parses hi ho) fun offset _ => .calm (kindOf_calm offset) fun _ => .guarded rfl ?_
    exact .calm (bits_calm offset) fun _ => .pure trivial
  cases placement with
  | auto => exact .last (.bool false) (.pure trivial)
  | absolute offset =>
    rw [Placement.encode, Bytecode.append_assoc]
    exact .next (.bool true) (.next (.bool false) (rest false h))
  | relative offset =>
    rw [Placement.encode, Bytecode.append_assoc]
    exact .next (.bool true) (.next (.bool true) (rest true h))

theorem fields_parses : ∀ (n : Nat) (fs : List FieldTree), FieldsWellFormed fs →
    Parses (i.fields n) (encodeFields names fs ++ .bool false) (fun _ => True)
  | 0, _, _ => .outOfFuel
  | n + 1, [], _ => .last (.bool false) (.pure trivial)
  | n + 1, .mk pos inlined type name value placement :: fs, h => by
    obtain ⟨⟨hi', ht, hv, hp⟩, hfs⟩ := h
    simp only [encodeFields, FieldTree.encode, Bytecode.append_assoc]
    refine .next (.bool true) (.place pos fun place => .first (.modify fun _ => ⟨rfl, rfl, rfl⟩) fun _ => ?_)
    have field : Parses i.field (inlined.encode names ++ (type.encode names ++ (.optName names name ++
        (value.encode names ++ placement.encode names)))) (fun _ => True) := by
      refine .bind (inlineCount_parses hi hi') fun _ _ => .bind (type_parses hi ht) fun type _ => ?_
      refine .bind (.name? names name) fun name _ => .bind (fieldValue_parses hi hv type name) fun _ _ => ?_
      exact .finish (fieldPlace_parses hi hp) fun _ _ => .pure trivial
    have all : Parses (do return (← i.field) :: (← i.fields n))
        (_ ++ (encodeFields names fs ++ .bool false)) (fun _ => True) :=
      .bind field fun _ _ => .finish (fields_parses n fs hfs) fun _ _ => .pure trivial
    simpa only [Bytecode.append_assoc] using all

theorem structType_parses (isConst : Bool) {base : Option Expr} {fs : List FieldTree}
    (h : (Form.structType isConst base fs).WellFormed) :
    Parses i.structType ((match base with
      | none => .bool false
      | some base => .bool true ++ base.encode names) ++ (encodeFields names fs ++ .bool false))
      (fun _ => True) := by
  have hfs : FieldsWellFormed fs := by
    cases base with
    | none => exact h
    | some _ => exact h.2
  cases base
  case' none => refine .next (.bool false) (.given ?_)
  case' some base =>
    rw [Bytecode.append_assoc]
    refine .next (.bool true) (.map (.bind (type_parses hi h.1) fun base _ => ?_))
  all_goals
    refine .finish (fields_parses hi _ fs hfs) fun fields _ r hr m hm => (ends_congr Run.machine_bind).mpr ?_
    generalize m.types.struct fields _ = result
    cases result with
    | ok p => exact ⟨trivial, rfl, hm.same ⟨rfl, rfl, rfl⟩⟩
    | error e => exact ⟨hm, rfl⟩

theorem typeLiteral_parses {form : Form} (h : form.WellFormed) (hop : form.opcode = .typeLiteral) :
    Parses i.typeLiteral (form.operands names) (fun _ => True) := by
  have rest (isConst : Bool) (type : TypeId) :
      Parses (if isConst then liftM (withTypes (·.constant type)) else pure type : Run TypeId) .nil
        (fun _ => True) :=
    .ite (.lift (.calm (constant_calm _))) (.pure trivial)
  cases form with
  | baseType isConst kind unsigned =>
    rw [Form.operands, Bytecode.append_assoc]
    refine .next (.bool isConst) (.next (.u8 kind.code) ?_)
    dsimp only
    rw [Kind.ofCode?_code]
    split
    case h_1 hk => cases hk
    case h_2 hk => exact absurd (Option.some.inj hk) h
    case h_3 => exact .last (.bool unsigned) (.calm (primitiveType_calm _ unsigned) (rest isConst))
  | structType isConst base fs =>
    have hs : Parses i.structType _ _ := @structType_parses i names hi isConst base fs h
    have all : Parses (i.structType >>= fun type =>
        if isConst then liftM (withTypes (·.constant type)) else pure type : Run TypeId) _ (fun _ => True) :=
      .finish hs fun type _ => rest isConst type
    cases base with
    | none =>
      simp only [Form.operands, Bytecode.append_assoc] at all ⊢
      refine .next (.bool isConst) (.next (.u8 Kind.struct.code) ?_)
      dsimp only
      rw [Kind.ofCode?_code]
      exact all
    | some base =>
      simp only [Form.operands, Bytecode.append_assoc] at all ⊢
      refine .next (.bool isConst) (.next (.u8 Kind.struct.code) ?_)
      dsimp only
      rw [Kind.ofCode?_code]
      exact all
  | operator op =>
    subst hop
    cases h
  | query op name =>
    subst hop
    cases h
  | _ => cases hop

/-! ## Operands -/

theorem vararg_parses {index : Expr} (h : index.WellFormed) :
    Parses i.vararg (index.encode names) (fun _ => True) := by
  refine .finish (value_parses hi h) fun index _ => .onMachine fun m => ?_
  split
  · exact .raise rfl
  · refine .calm (checkIndex_calm index) fun _ => .calm (bits_calm index) fun bits => .guarded rfl ?_
    split
    · exact .pure trivial
    · exact .raise rfl

theorem sizeOf_parses {form : Form} (h : form.WellFormed) (hop : form.opcode = .sizeOf) :
    Parses i.sizeOf (form.operands names) (fun _ => True) := by
  have rest (type : TypeId) : Parses (do wordValue (← typeInfo type).size : Run Variable) .nil (fun _ => True) :=
    .calm (typeInfo_calm type) fun _ => .lift (.calm (wordValue_calm _))
  cases form with
  | varargCount =>
    refine .last (.bool true) (.onMachine fun m => ?_)
    split
    · exact .raise rfl
    · exact .lift (.calm (wordValue_calm _))
  | sizeOf inner =>
    refine .next (.bool false) (.finish (value_parses hi h) fun v _ => .calm (kindOf_calm v) fun _ => .ite ?_ ?_)
    · exact .calm (asType_calm v) fun _ => .calm (resolveType_calm _) rest
    · exact rest v.type
  | operator op =>
    subst hop
    cases h
  | query op name =>
    subst hop
    cases h
  | _ => cases hop

theorem delete_parses {inner : Expr} (h : inner.WellFormed) :
    Parses i.delete (inner.encode names) (fun _ => True) := by
  have rest (v : Variable) : Parses (do i.free (← bits v); return voidValue : Run Variable) .nil (fun _ => True) :=
    .calm (bits_calm v) fun addr => .first (free_tame hi addr) fun _ => .pure trivial
  refine .finish (value_parses hi h) fun v _ => .calm (kindOf_calm v) fun _ => ?_
  split
  · exact rest v
  · exact rest v
  · exact rest v
  · exact .raise rfl

theorem move_parses {target level : Expr} (ht : target.WellFormed) (hl : level.WellFormed) :
    Parses i.move (target.encode names ++ level.encode names) (fun _ => True) := by
  refine .bind (value_parses hi ht) fun v _ => .finish (value_parses hi hl) fun level _ => ?_
  refine .calm (kindOf_calm level) fun _ => .guarded rfl (.onMachine fun m => ?_)
  refine .calm (bits_calm level) fun _ => .calm (bits_calm v) fun addr => ?_
  exact .first (moveAllocation_tame addr _) fun _ => .pure trivial

theorem ternary_parses {condition yes no : Expr} (hc : condition.WellFormed) (hy : yes.WellFormed)
    (hn : no.WellFormed) :
    Parses i.ternary (condition.encode names ++ .block (yes.encode names) ++ .block (no.encode names))
    (fun _ => True) := by
  rw [Bytecode.append_assoc]
  refine .bind (value_parses hi hc) fun v _ => .calm (truthy_calm v) fun truth => ?_
  rw [← Bytecode.append_nil (.block (no.encode names))]
  refine .enter fun left hleft => .enter fun right hright => .lift ?_
  cases truth with
  | true => exact (value_parses hi hy).run' hleft
  | false => exact (value_parses hi hn).run' hright

theorem includeFile_parses (path : String) : Parses i.includeFile (.name names path) (fun _ => True) := by
  rw [includeFile]
  refine .last (.name names path) ?_
  refine .calm (nameText_calm _) fun text => ?_
  have load (m : Machine) (hm : m.Coded) : (loadSource text).Ends m (fun p m' => ShortCode p.2 ∧ m'.Coded)
      (fun e m' => m'.Coded ∧ e.cause.isInternal = false) := by
    refine ends_get.mpr ?_
    dsimp only
    split
    case h_1 source hs => exact ⟨hm.sources _ source hs, hm⟩
    case h_2 => exact ⟨hm, rfl⟩
  refine .after (x := loadSource text) (P := fun p => ShortCode p.2) ?_ ?_
  · exact load
  rintro ⟨path, source⟩ hp
  exact .first (hi.source source path hp) fun _ => .lift (.calm resultValue_calm)

/-! ## Declarations -/

theorem bindGenerics_parses : ∀ (n : Nat) (bs : List Binding), BindingsWellFormed bs →
    Parses (i.bindGenerics n) (encodeBindings names bs ++ .bool false) (fun _ => True)
  | 0, _, _ => .outOfFuel
  | n + 1, [], _ => .last (.bool false) (.pure trivial)
  | n + 1, .mk name value :: bs, h => by
    have more := bindGenerics_parses n bs h.2
    simp only [encodeBindings, Bytecode.append_assoc]
    refine .next (.bool true) (.next (.name names name) (.bind (value_parses hi h.1) fun v _ => ?_))
    have rest (name : NameId) : Parses (do
        declareNew name (← fresh v.type (← bits v))
        i.bindGenerics n : Run Unit) (encodeBindings names bs ++ .bool false) (fun _ => True) :=
      .calm (bits_calm v) fun _ => .calm (fresh_calm _ _) fun _ => .calm (declareNew_calm _ _) fun _ => more
    refine .calm (kindOf_calm v) fun _ => .ite ?_ (rest _)
    exact .calm (nameText_calm _) fun _ => .first (.raise rfl) fun _ => rest _

theorem declaredType_parses {bs : List Binding} (h : BindingsWellFormed bs) (type : TypeId) :
    Parses (i.declaredType type) (encodeBindings names bs ++ .bool false) (fun _ => True) := by
  intro r hr m hm
  have inside : Parses (do i.bindGenerics i.fuel; resolveType type : Run TypeId)
      (encodeBindings names bs ++ .bool false) (fun _ => True) :=
    .finish (bindGenerics_parses hi i.fuel bs h) fun _ _ => .lift (.calm (resolveType_calm type))
  refine (pushLevel_tame m hm).bind (fun _ m₁ h₁ => ?_) (fun _ _ h => h)
  refine ends_bind.mpr (ends_attempt.mpr ((inside r hr m₁ h₁).mono (fun p m₂ h₂ => ?_) (fun e m₂ h₂ => ?_)))
  · refine (closeLevel_tame hi m₂ h₂.2.2).bind (fun _ m₃ h₃ => ?_) (fun _ _ h => h)
    exact ⟨trivial, h₂.2.1, h₃⟩
  · refine (closeLevel_tame hi m₂ h₂.1).bind (fun _ m₃ h₃ => ?_) (fun _ _ h => h)
    exact ⟨h₃, h₂.2⟩

theorem declaration_parses (external : Bool) (name : String) {bs : List Binding} (body : BodyTree)
    (hb : BindingsWellFormed bs) (hc : body.WellFormed) (type : Variable) :
    Parses (i.declaration (some type)) ((Form.declare external name bs body).operands names) (fun _ => True) := by
  simp only [Form.operands, Bytecode.append_assoc]
  refine .next (.bool external) (.next (.name names name) (.calm (expectType_calm type) fun declared => ?_))
  -- the body of a function comes last
  have code (v : Variable) (type : TypeId) (kind : Kind) : Parses (do
      declareNew (names.idOf name) v
      if ← Run.bool then
        if kind ≠ .function then raise .codeOnNonFunction
        store v (← readFunction type (names.idOf name) true)
      return { v with origin := some { name := names.idOf name } } : Run Variable) (body.encode names)
          (fun _ => True) := by
    refine .calm (declareNew_calm _ v) fun _ => ?_
    cases body with
    | absent => exact .last (.bool false) (.pure trivial)
    | code capture body =>
      rw [BodyTree.encode, Bytecode.append_assoc]
      refine .next (.bool true) (.guarded rfl (.finish (readFunction_parses hc capture _ _ _) fun _ _ => ?_))
      exact .calm (store_calm v _) fun _ => .pure trivial
  refine .branch (.calm (symbolAddress_calm _)) fun symbol => ?_
  rw [← Bytecode.append_assoc]
  refine .bind (declaredType_parses hi hb declared) fun type _ => .onMachine fun m => ?_
  cases symbol with
  | none => exact .calm (fresh_calm _ _) fun v => code v type _
  | some addr => exact .ite (.calm (fresh_calm _ _) fun v => code v type _) (code _ type _)

/-! ## Allocations -/

theorem elements_parses (type : TypeId) (addr stride count : UInt64) :
    ∀ (n : Nat) (index : UInt64) (xs : List Expr),
    ExprsWellFormed xs → Parses (i.elements type addr stride count n index)
    (encodeExprs names xs ++ .endMark) (fun _ => True)
  | 0, _, _, _ => .outOfFuel
  | n + 1, _, [], _ => .finish hi.evalEnd fun v hv => by
    subst hv
    exact .pure trivial
  | n + 1, index, x :: xs, h => by
    have rest := elements_parses type addr stride count n (index + 1) xs h.2
    rw [encodeExprs, Bytecode.append_assoc]
    refine .bind (hi.eval names x h.1) fun v hv => ?_
    cases v with
    | none => cases hv
    | some v =>
      refine .ite (.calm (typeInfo_calm type) fun t => .ite ?_ ?_) rest
      · exact .calm (bits_calm v) fun _ => .calm (copyStruct_calm _ _ _) fun _ => rest
      · exact .calm (castBits_calm type v) fun _ => .calm (poke_calm _ _ _) fun _ => rest

theorem overrides_parses (type : TypeId) (addr : UInt64) : ∀ (n : Nat) (bs : List Binding), BindingsWellFormed bs →
    Parses (i.overrides type addr n) (encodeBindings names bs ++ .bool false) (fun _ => True)
  | 0, _, _ => .outOfFuel
  | n + 1, [], _ => .last (.bool false) (.pure trivial)
  | n + 1, .mk name value :: bs, h => by
    simp only [encodeBindings, Bytecode.append_assoc]
    refine .next (.bool true) (.next (.name names name) (.bind (value_parses hi h.1) fun v _ => ?_))
    exact .calm (overrideField_calm type addr _ v) fun _ => overrides_parses type addr n bs h.2

theorem newArray_parses (type : TypeId) (inner : Bool) {count : Expr} {xs : List Expr} (hc : count.WellFormed)
    (hx : ExprsWellFormed xs) :
    Parses (i.newArray type inner) (count.encode names ++ (encodeExprs names xs ++ .endMark)) (fun _ => True) := by
  refine .bind (value_parses hi hc) fun count _ => .calm (kindOf_calm count) fun _ => .guarded rfl ?_
  refine .calm (bits_calm count) fun _ => .calm (typeInfo_calm type) fun t => .guarded rfl ?_
  exact .first (allocate_tame _ _ _ _) fun addr =>
    .finish (elements_parses hi _ _ _ _ _ _ xs hx) fun _ _ => .pure trivial

theorem newAddress_parses (type : TypeId) (inner : Bool) {init : Init} (h : init.WellFormed) : Parses (do
      let form ← Run.next Reader.form
      let result ← match (← typeInfo type).kind with
        | .struct | .function => pure type
        | _ => withTypes (·.pointer type)
      return Variable.value result (← i.newAddress type inner form)) (init.encode names) (fun _ => True) := by
  have rest {form : AllocForm} {code : Bytecode} (hf : Parses (i.newAddress type inner form) code (fun _ => True)) :
      Parses (do
        let result ← match (← typeInfo type).kind with
          | .struct | .function => pure type
          | _ => withTypes (·.pointer type)
        return Variable.value result (← i.newAddress type inner form) : Run Variable) code (fun _ => True) := by
    refine .calm (typeInfo_calm type) fun t => ?_
    have last (result : TypeId) : Parses
      (do return Variable.value result (← i.newAddress type inner form) : Run Variable)
        code (fun _ => True) := .finish hf fun _ _ => .pure trivial
    split
    · exact last type
    · exact last type
    · exact .calm (pointer_calm _) last
  cases init with
  | bare =>
    refine .last (.form .bare) (rest (.calm (typeInfo_calm type) fun t => ?_))
    split
    · exact .raise rfl
    · exact .lift (newStruct_tame type inner)
    · exact .lift (allocate_tame _ _ _ _)
  | scalar value =>
    refine .next (.form .scalar) (rest ?_)
    refine .finish (value_parses hi h) fun v _ => .calm (typeInfo_calm type) fun t => ?_
    split
    · exact .raise rfl
    · refine .first (allocate_tame _ _ _ _) fun _ => .calm (bits_calm v) fun _ => ?_
      exact .calm (copyStruct_calm _ _ _) fun _ => .pure trivial
    · refine .first (allocate_tame _ _ _ _) fun _ => .calm (castBits_calm type v) fun _ => ?_
      exact .calm (poke_calm _ _ _) fun _ => .pure trivial
  | struct overrides =>
    rw [Init.encode, Bytecode.append_assoc]
    refine .next (.form .struct) (rest (.calm (typeInfo_calm type) fun _ => .guarded rfl ?_))
    refine .first (newStruct_tame type inner) fun addr =>
      .finish (overrides_parses hi type addr _ overrides h) fun _ _ => ?_
    exact .first (callMethod_tame hi type addr _) fun _ => .pure trivial
  | function capture body =>
    rw [Init.encode, Bytecode.append_assoc]
    refine .next (.form .function) (rest (.calm (typeInfo_calm type) fun _ => .guarded rfl ?_))
    exact readFunction_parses h capture _ _ _
  | array count xs =>
    simp only [Init.encode, Bytecode.append_assoc]
    exact .next (.form .array) (rest (newArray_parses hi type inner h.1 h.2))

theorem newValue_parses (scope : Bool) {type : Expr} {init : Init} (ht : type.WellFormed) (h : init.WellFormed) :
    Parses i.newValue (.bool scope ++ type.encode names ++ init.encode names) (fun _ => True) := by
  rw [Bytecode.append_assoc]
  refine .next (.bool scope) (.bind (type_parses hi ht) fun type _ => .calm (resolveType_calm type) fun type => ?_)
  exact newAddress_parses hi type scope h

/-! ## Operators -/

theorem parameters_parses : ∀ (n : Nat) (ps : List ParamTree), ParamsWellFormed ps →
    Parses (i.parameters n) (encodeParams names ps ++ .endMark) (fun _ => True)
  | 0, _, _ => .outOfFuel
  | n + 1, [], _ => .finish hi.evalEnd fun v hv => by
    subst hv
    exact .pure trivial
  | n + 1, .mk type name :: ps, h => by
    simp only [encodeParams, Bytecode.append_assoc]
    refine .bind (hi.eval names type h.1) fun v hv => ?_
    cases v with
    | none => cases hv
    | some v =>
      refine .calm (expectType_calm v) fun _ => .bind (.name? names name) fun _ _ => ?_
      exact .finish (parameters_parses n ps h.2) fun _ _ => .pure trivial

theorem indexPointer_parses (v : Variable) {index : Expr} (h : index.WellFormed) :
    Parses (i.indexPointer v) (index.encode names) (fun _ => True) := by
  refine .finish (value_parses hi h) fun index _ => .calm (checkIndex_calm index) fun _ => ?_
  refine .calm (bits_calm v) fun addr => .guarded rfl (.onMachine fun m => ?_)
  exact .calm (bits_calm index) fun _ => .lift (.calm (elementAt_calm _ _))

theorem indexStruct_parses (v : Variable) {index : Expr} (h : index.WellFormed) :
    Parses (i.indexStruct v) (index.encode names) (fun _ => True) := by
  refine .finish (value_parses hi h) fun index _ => .calm (checkIndex_calm index) fun _ => ?_
  refine .calm (bits_calm v) fun addr => .guarded rfl ?_
  exact .calm (bits_calm index) fun _ => .calm (typeInfo_calm _) fun _ => .pure trivial

omit hi in
theorem unaryPlain_parses {op : Opcode} {action : Operator.Action} (h : action.isPlain = true) (v : Variable) :
    Parses (i.unary op action v) .nil (fun _ => True) := by
  cases action with
  | step => exact .lift (.calm (step_calm op v))
  | address => exact .lift (.calm (addressOf_calm v))
  | dereference => exact .lift (.calm (dereference_calm v))
  | dereferenceType => exact .lift (.calm (dereferenceType_calm v))
  | sign => exact .lift (.calm (mapBits_calm _ v))
  | logicNot => exact .calm (truthy_calm v) fun _ => .lift (.calm (boolValue_calm _))
  | bitNot => exact .lift (.calm (mapBits_calm _ v))
  | modifyType => exact .calm (asType_calm v) fun type => .calm (modifiedType_calm op type) fun _ => .pure trivial
  | allocationInfo => exact .lift (.calm (allocationInfo_calm op v))
  | _ => cases h

theorem unary_parses {form : Form} (hf : form.WellFormed) (ho : form.opcode.isOperator = true)
    (hs : form.opcode.shape? ≠ some .between) {ts : TypeTable} {stack : List Variable} {action : Operator.Action}
    (ha : Operator.action? ts form.opcode stack = some action) (v : Variable) :
    Parses (i.unary form.opcode action v) (form.operands names) (fun _ => True) := by
  obtain ⟨hp, hne⟩ | ha := Operator.action?_one hs ha
  · rw [Form.operands_plain names hf ho hne]
    exact unaryPlain_parses hp v
  cases form with
  | operator op =>
    rw [Form.WellFormed] at hf
    obtain ⟨h, -⟩ | ⟨h, -⟩ | ⟨h, -⟩ | ⟨h, -⟩ := ha <;> cases h <;> cases hf
  | query op name =>
    rw [Form.WellFormed] at hf
    obtain ⟨h, -⟩ | ⟨h, -⟩ | ⟨h, -⟩ | ⟨h, -⟩ := ha <;> cases h <;> cases hf
  | call args =>
    obtain ⟨-, rfl⟩ | ⟨h, -⟩ | ⟨h, -⟩ | ⟨h, -⟩ := ha
    · exact .finish (values_parses hi _ args hf) fun args _ => .lift (hi.call v args)
    all_goals cases h
  | index inner =>
    obtain ⟨h, -⟩ | ⟨-, rfl | rfl⟩ | ⟨h, -⟩ | ⟨h, -⟩ := ha
    · cases h
    · exact indexPointer_parses hi v hf
    · exact indexStruct_parses hi v hf
    all_goals cases h
  | member name =>
    obtain ⟨h, -⟩ | ⟨h, -⟩ | ⟨-, rfl | rfl⟩ | ⟨h, -⟩ := ha
    · cases h
    · cases h
    · exact .last (.name names name) (.lift (.calm (member_calm v _)))
    · exact .last (.name names name) (.calm (asType_calm v) fun type => .lift (.calm (memberType_calm type _)))
    · cases h
  | functionType assignable params =>
    obtain ⟨h, -⟩ | ⟨h, -⟩ | ⟨h, -⟩ | ⟨-, rfl⟩ := ha
    · cases h
    · cases h
    · cases h
    · rw [Form.operands, Bytecode.append_assoc]
      refine .calm (asType_calm v) fun _ => .next (.bool assignable) ?_
      exact .finish (parameters_parses hi _ params hf) fun _ _ =>
        .calm (withTypes_calm fun ts => ts.function_grows _ _ _) fun _ => .pure trivial
  | _ => cases ho

theorem applyOperator_parses {form : Form} (hf : form.WellFormed) (ho : form.opcode.isOperator = true)
    {stack : List Variable} (ht : form.takes ≤ stack.length) :
    Parses (i.applyOperator form.opcode stack) (form.operands names)
      (fun stack' => stack'.length = stack.length - form.takes + 1) := by
  refine .onMachine fun m => ?_
  cases ha : Operator.action? m.types form.opcode stack with
  | none => exact fun _ _ _ hm => ⟨hm, rfl⟩
  | some action =>
    by_cases hs : form.opcode.shape? = some .between
    · dsimp only
      obtain ⟨htakes, hnil⟩ := Form.between names hf hs
      rw [htakes] at ht ⊢
      rw [if_pos hs, hnil]
      match stack, ht with
      | b :: a :: rest, _ =>
        obtain ⟨hb, hne⟩ | ⟨rfl, hb⟩ := Operator.isBinary_or_compound hs ha
        · dsimp only
          rw [if_neg hne]
          exact .calm (binary_calm (.inl hb) a b) fun _ => .pure rfl
        · exact .calm (compound_calm (.inl hb) a b) fun _ => .pure rfl
      | [v], ht => exact absurd ht (Nat.not_succ_le_self 1)
    · dsimp only
      rw [Form.takes_one ho hs] at ht ⊢
      rw [if_neg hs]
      match stack, ht with
      | v :: rest, _ => exact .finish (unary_parses hi hf ho hs ha v) fun _ _ => .pure rfl

theorem operand_parses {form : Form} (hf : form.WellFormed) (ho : form.opcode.isOperator = false)
    (hd : form.opcode ≠ .declare) : Parses (i.operand form.opcode) (form.operands names) (fun _ => True) := by
  cases form with
  | integer n => exact .last (.u64 n) (.calm (literalType_calm n) fun _ => .pure trivial)
  | float n => exact .last (.u64 n) (.pure trivial)
  | text name => exact .last (.name names name) (.lift (.calm (textValue_calm _)))
  | baseType isConst kind unsigned =>
    exact .finish (typeLiteral_parses hi hf rfl) fun _ _ => .pure trivial
  | structType isConst base fields => exact .finish (typeLiteral_parses hi hf rfl) fun _ _ => .pure trivial
  | truth value => exact .last (.bool value) (.lift (.calm (boolValue_calm value)))
  | null => exact .calm (pointer_calm _) fun _ => .pure trivial
  | variableRef name => exact .last (.name names name) (.lift (.calm (load_calm _)))
  | paren inner => exact value_parses hi hf
  | deferName name =>
    exact .last (.name names name) (.calm (withTypes_calm fun ts => ts.deferred_grows _) fun _ => .pure trivial)
  | varargs index => exact vararg_parses hi hf
  | varargCount => exact sizeOf_parses hi hf rfl
  | sizeOf inner => exact sizeOf_parses hi hf rfl
  | typeOf inner => exact .finish (value_parses hi hf) fun _ _ => .pure trivial
  | scopeHere => exact .finish (.name? names none) fun _ _ => .lift (.calm (scopeOf_calm _))
  | scopeOf name => exact .finish (.name? names (some name)) fun _ _ => .lift (.calm (scopeOf_calm _))
  | newValue scope type init => exact newValue_parses hi scope hf.1 hf.2
  | deleteValue inner => exact delete_parses hi hf
  | moveValue target level => exact move_parses hi hf.1 hf.2
  | ternary condition yes no => exact ternary_parses hi hf.1 hf.2.1 hf.2.2
  | includeFile path => exact includeFile_parses hi path
  | declare external name generics body => exact absurd rfl hd
  | operator op =>
    rw [Form.WellFormed, Opcode.standsAlone] at hf
    rw [Form.opcode, Opcode.isOperator] at ho
    cases hs : op.shape? <;> simp [hs] at hf ho
  | query op name =>
    rw [Form.WellFormed] at hf
    rw [Form.opcode, Opcode.isOperator, hf] at ho
    cases ho
  | _ => cases ho

/-- A node takes its operands from the stack and puts one value on it. -/
theorem node_parses {form : Form} (hf : form.WellFormed) {stack : List Variable} (ht : form.takes ≤ stack.length) :
    Parses (i.node form.opcode stack) (form.operands names)
    (fun stack' => stack'.length = stack.length - form.takes + 1) := by
  unfold node
  cases ho : form.opcode.isOperator with
  | true => exact applyOperator_parses hi hf ho ht
  | false =>
    by_cases hd : form.opcode = .declare
    · cases form with
      | declare external name generics body =>
        match stack, ht with
        | v :: rest, _ => exact .finish (declaration_parses hi external name body hf.1 hf.2 v) fun _ _ => .pure rfl
      | operator op =>
        subst hd
        cases hf
      | query op name =>
        subst hd
        cases hf
      | _ => cases hd
    · rw [if_neg Bool.false_ne_true, if_neg hd, Form.takes_none ho hd hf]
      exact .finish (operand_parses hi hf ho hd) fun _ _ => .pure rfl

end

/-! ## Expressions -/

/-- The whole stack at the end mark of an expression, from a stack at one of its nodes. -/
def finalStack (i : Interp) : Nat → List Variable → Run (List Variable)
  | 0, _ => outOfFuel
  | n + 1, stack => do
    let op ← Run.next Reader.opcode
    if op = .endMark then return stack
    let (row, col) ← Run.place
    let stack ← Run.atPlace row col do
      let stack ← i.node op stack
      checkFault
      let max := (← getThe Machine).settings.maxStack
      if max < stack.length then raise (.expressionOverflow max)
      return stack
    finalStack i n stack

/-- The value of an expression is what is on top of the stack in the end. -/
theorem nodes_eq (i : Interp) :
    ∀ (n : Nat) (stack : List Variable), i.nodes n stack = List.head? <$> i.finalStack n stack
  | 0, _ => rfl
  | n + 1, stack => by
    rw [nodes, finalStack, map_bind]
    refine bind_congr fun op => ?_
    split
    · rw [map_pure]
    · simp only [map_bind, nodes_eq i n]

section
variable (hi : i.InStep)
include hi

/-- Nodes that come to one value leave just this on the stack. -/
theorem finalStack_parses : ∀ (n : Nat) (ns : List Node) (stack : List Variable), NodesWellFormed ns →
    stackAfter ns stack.length = some 1 →
    Parses (i.finalStack n stack) (encodeNodes names ns ++ .endMark) (fun stack' => stack'.length = 1)
  | 0, _, _, _, _ => .outOfFuel
  | n + 1, [], stack, _, hs => by
    rw [finalStack]
    exact .last (.opcode .endMark) (.pure (Option.some.inj hs))
  | n + 1, .mk pos form :: ns, stack, hw, hs => by
    rw [stackAfter] at hs
    split at hs
    case isFalse => cases hs
    case isTrue ht =>
      rw [encodeNodes, Node.encode, Bytecode.append_assoc, Bytecode.append_assoc, finalStack]
      refine .head form.opcode pos ?_
      rw [if_neg (Form.opcode_ne_endMark hw.1)]
      refine .place pos fun place => ?_
      refine .bind (.atPlace (.finish (node_parses hi hw.1 ht) fun stack' hl => .calm checkFault_calm fun _ =>
        .onMachine fun m => .guarded rfl (.pure hl)) _ _) fun stack' hl => ?_
      exact finalStack_parses n ns stack' hw.2 (hl ▸ hs)

theorem expression_parses {x : Expr} (hx : x.WellFormed) :
    Parses i.expression (x.encode names) (fun v => v.isSome = true) := by
  obtain ⟨ns⟩ := x
  rw [expression, nodes_eq, Expr.encode]
  refine .finish (finalStack_parses hi i.fuel ns [] hx.2 hx.1) fun stack hl => .pure ?_
  obtain ⟨v, rfl⟩ := List.length_eq_one_iff.mp hl
  rfl

omit hi in
theorem expression_endMark : Parses i.expression .endMark (fun v => v = none) := by
  rw [expression]
  cases i.fuel with
  | zero => exact .outOfFuel
  | succ n => exact .last (.opcode .endMark) (.pure rfl)

/-! ## Commands -/

theorem ifElse_parses {condition : Expr} {yes : Block} {no : Option Block}
    (h : (CommandForm.ifElse condition yes no).WellFormed) :
    Parses i.ifElse ((CommandForm.ifElse condition yes no).operands names) (fun _ => True) := by
  cases no with
  | none =>
    simp only [CommandForm.operands, Block.encode_eq, Bytecode.append_assoc]
    refine .bind (value_parses hi h.1) fun v _ => .calm (truthy_calm v) fun truth => .enter fun left hl => ?_
    exact .last (.bool false) (.given (.ite (.lift (levelBlock_tame hi h.2 hl)) (.pure trivial)))
  | some no =>
    simp only [CommandForm.operands, Block.encode_eq, Bytecode.append_assoc]
    refine .bind (value_parses hi h.1) fun v _ => .calm (truthy_calm v) fun truth => .enter fun left hl => ?_
    rw [← Bytecode.append_nil (.block (no.content names))]
    refine .next (.bool true) (.map (.enter fun right hr => .ite (.lift (levelBlock_tame hi h.2.1 hl)) ?_))
    exact .lift (levelBlock_tame hi h.2.2 hr)

omit hi in
theorem loopControl_tame : Tame loopControl := by
  refine .onMachine fun m _ => ?_
  split
  · exact .pure _
  · exact .bind (.modify fun _ => ⟨rfl, rfl, rfl⟩) fun _ => .pure _
  · exact .bind (.modify fun _ => ⟨rfl, rfl, rfl⟩) fun _ => .pure _
  · exact .pure _

def whileRound (i : Interp) : Run (Bool × Reader) := do
  let truth ← truthy (← i.value)
  return (truth, ← Run.enter)

omit hi in
theorem whileFrom_eq (start n : Nat) (last : Variable) (r : Reader) :
    i.whileFrom start (n + 1) last r = (i.whileRound >>= fun p => do
      if !p.1 then return last
      let last ← i.levelBlock p.2
      if ← loopControl then i.whileFrom start n last else return last : Run Variable) (r.seek start) := by
  rw [whileFrom, whileRound]
  simp only [bind_assoc, pure_bind]
  rfl

theorem whileRound_parses {condition : Expr} {body : Block} (hc : condition.WellFormed) :
    Parses i.whileRound (condition.encode names ++ body.encode names)
    (fun p => p.2.Holds (body.content names)) := by
  rw [Block.encode_eq]
  refine .bind (value_parses hi hc) fun v _ => .calm (truthy_calm v) fun truth => ?_
  rw [← Bytecode.append_nil (.block (body.content names))]
  exact .enter fun inner h => .pure h

/-- Each round starts at the condition again and, whatever has been run, ends behind the body. -/
theorem whileFrom_ends {condition : Expr} {body : Block} (hc : condition.WellFormed)
    (hb : body.WellFormed) {r : Reader} (hr : r.Holds (condition.encode names ++ body.encode names)) :
    ∀ (n : Nat) (last : Variable) (r' : Reader), r'.seek r.pos = r → ∀ m : Machine, m.Coded →
      (i.whileFrom r.pos n last r').Ends m
        (fun p m' => p.2 = r.advance (condition.encode names ++ body.encode names).bytes.length ∧ m'.Coded)
        (fun e m' => m'.Coded ∧ e.cause.isInternal = false)
  | 0, _, _, _, _, _ => trivial
  | n + 1, last, r', hseek, m, hm => by
    rw [whileFrom_eq, hseek]
    refine (whileRound_parses hi hc r hr m hm).bind (fun p m₁ h₁ => ?_) (fun _ _ h => h)
    obtain ⟨⟨truth, inner⟩, r₁⟩ := p
    obtain ⟨hin, rfl, hm₁⟩ := h₁
    cases truth with
    | false => exact ⟨rfl, hm₁⟩
    | true =>
      show Ends (((liftM (i.levelBlock inner) : Run Variable) >>= _) _) m₁ _ _
      rw [Run.lift_bind]
      refine (levelBlock_tame hi hb hin m₁ hm₁).bind (fun last m₂ hm₂ => ?_) (fun _ _ h => h)
      rw [Run.lift_bind]
      refine (loopControl_tame m₂ hm₂).bind (fun goes m₃ hm₃ => ?_) (fun _ _ h => h)
      cases goes with
      | false => exact ⟨rfl, hm₃⟩
      | true => exact whileFrom_ends hc hb hr n last (r.advance _) rfl m₃ hm₃

theorem forRounds_tame (l : LoopRange) (type : TypeId) (name : NameId) (step : UInt64) {body : Block} {r : Reader}
    (hb : body.WellFormed) (hr : r.Holds (body.content names)) :
    ∀ n x last, Tame (i.forRounds l type name step r n x last)
  | 0, _, _ => .outOfFuel
  | n + 1, x, last => by
    have again (x : UInt64) (last : Variable) : Tame (i.nextRound l type name step x last fun next =>
        forRounds i l type name step r n next last) := by
      have goOn (x : UInt64) : Tame (do
          let next := extend (← typeInfo type) (x + step)
          i.closeLevel
          if l.advances x next then forRounds i l type name step r n next last else return last) :=
        .bind (.calm (typeInfo_calm type)) fun _ => .bind (closeLevel_tame hi) fun _ =>
          .ite (forRounds_tame l type name step hb hr n _ _) (.pure _)
      refine .onMachine fun m _ => ?_
      cases m.scopes.lookup name m.base with
      | some v => exact .bind (.calm (bits_calm v)) goOn
      | none => exact goOn x
    refine .ite (.pure _) (.bind pushLevel_tame fun _ => .bind (.calm (fresh_calm type x)) fun v => ?_)
    refine .bind (.calm (.discard (declare_calm name v))) fun _ => .bind (block_tame hi hb hr) fun last => ?_
    exact .bind loopControl_tame fun _ => .ite (again x last) (.bind (closeLevel_tame hi) fun _ => .pure _)

theorem forLoop_parses {type low high : Expr} {name : String} {lowExcluded highExcluded : Bool} {step : Option Expr}
    {body : Block} (h : (CommandForm.forLoop type name low lowExcluded high highExcluded step body).WellFormed) :
    Parses i.forLoop ((CommandForm.forLoop type name low lowExcluded high highExcluded step body).operands names)
      (fun _ => True) := by
  obtain ⟨ht, hl, hh, hs, hb⟩ := CommandForm.wellFormed_forLoop h
  simp only [CommandForm.operands_forLoop, Bytecode.append_assoc]
  refine .bind (type_parses hi ht) fun type _ => .calm (resolveType_calm type) fun type => ?_
  refine .calm (typeInfo_calm type) fun t => .guarded rfl (.next (.name names name) ?_)
  refine .bind (value_parses hi hl) fun low _ => .calm (castBits_calm type low) fun low =>
    .next (.bool lowExcluded) ?_
  refine .bind (value_parses hi hh) fun high _ => .calm (castBits_calm type high) fun high =>
    .next (.bool highExcluded) ?_
  have rounds (step : UInt64) : Parses (do
      let body ← Run.enter
      let l : LoopRange :=
        { signed := t.isSignedInteger, down := step.toInt64 < 0, low, lowExcluded, high, highExcluded }
      let start := if l.firstExcluded then extend t (l.first + step) else l.first
      i.forRounds l type (names.idOf name) step body i.fuel start voidValue : Run Variable) (body.encode names)
      (fun _ => True) := by
    rw [Block.encode_eq, ← Bytecode.append_nil (.block _)]
    exact .enter fun inner hr => .lift (forRounds_tame hi _ type _ step hb hr _ _ _)
  cases step with
  | none => exact .next (.bool false) (rounds 1)
  | some step =>
    rw [optExpr, Bytecode.append_assoc]
    refine .next (.bool true) (.bind (value_parses hi (hs step rfl)) fun v _ => ?_)
    exact .calm (castBits_calm _ v) rounds

/-! ## Errors -/

omit hi in
/-- A handler knows the reader inside its block. -/
theorem handler?_parses {handler : LevelScript.Handler} (h : handler.WellFormed) :
    Parses handler? (handler.encode names)
      (fun found => ∀ f ∈ found, ∃ b : Block, b.WellFormed ∧ f.body.Holds (b.content names)) := by
  cases handler with
  | absent => exact .last (.bool false) (.pure nofun)
  | handle silently name body =>
    simp only [Handler.encode, Block.encode_eq, Bytecode.append_assoc]
    refine .next (.bool true) (.next (.bool silently) (.bind (.name? names name) fun bound _ => ?_))
    rw [← Bytecode.append_nil (.block _)]
    refine .enter fun inner hr => .pure fun f hf => ⟨body, h, ?_⟩
    exact Option.mem_some.mp hf ▸ hr

theorem handle_tame (e : RunError) {handler : Option Interp.Handler}
    (hh : ∀ f ∈ handler, ∃ b : Block, b.WellFormed ∧ f.body.Holds (b.content names)) :
    Tame (i.handle e handler) := by
  refine .onMachine fun m _ => ?_
  cases handler with
  | none => exact .ite (.bind (.calm (logError_calm e)) fun _ => .pure _) (.pure _)
  | some f =>
    obtain ⟨b, hb, hr⟩ := hh f rfl
    have run : Tame (do let v ← i.block f.body; i.closeLevel; return v) :=
      .bind (block_tame hi hb hr) fun _ => .bind (closeLevel_tame hi) fun _ => .pure _
    refine .ite (.bind (.calm (logError_calm e)) fun _ => ?_) ?_
    all_goals
      refine .bind pushLevel_tame fun _ => ?_
      cases f.bound with
      | none => exact run
      | some name =>
        exact .bind (.calm (caughtValue_calm e)) fun v =>
          .bind (.calm (.discard (declare_calm name v))) fun _ => run

theorem tryCatch_parses {body : Block} {handler : LevelScript.Handler} (hb : body.WellFormed)
    (hh : handler.WellFormed) :
    Parses i.tryCatch (body.encode names ++ handler.encode names) (fun _ => True) := by
  rw [Block.encode_eq]
  refine .onMachine fun m => .enter fun inner hr => .finish (handler?_parses hh) fun handler hf => ?_
  refine .caught (levelBlock_tame hi hb hr) (fun _ => .pure trivial) fun e _ => ?_
  refine .first (unwind_tame hi _ _) fun _ => .first (.modify fun _ => ⟨rfl, rfl, rfl⟩) fun _ => ?_
  exact .lift (handle_tame hi e hf)

theorem throwValue_parses {value : Expr} (h : value.WellFormed) (message : Option String) :
    Parses i.throwValue (value.encode names ++ .optName names message) (fun _ => True) := by
  refine .bind (value_parses hi h) fun v _ => ?_
  have rest (text : String) : Parses (do
      let frames := (← getThe Machine).trace
      throw (.raised ⟨.thrown (← toValue v) text, frames⟩) : Run Variable) .nil (fun _ => True) :=
    .onMachine fun m => .calm (toValue_calm v) fun v => fun _ _ _ hm => ⟨hm, rfl⟩
  cases message with
  | none => exact .last (.bool false) (.calm (renderVariable_calm _ v) rest)
  | some message => exact .next (.bool true) (.last (.name names message) (.calm (nameText_calm _) rest))

theorem returnValue_parses {value : Option Expr} (h : ∀ x ∈ value, x.WellFormed) :
    Parses i.returnValue (optExpr names value) (fun _ => True) := by
  have rest (v : Variable) : Parses (do setControl (.returning v); return v : Run Variable) .nil (fun _ => True) :=
    .first (.modify fun _ => ⟨rfl, rfl, rfl⟩) fun _ => .pure trivial
  cases value with
  | none => exact .last (.bool false) (rest voidValue)
  | some value => exact .next (.bool true) (.finish (value_parses hi (h value rfl)) fun v _ => rest v)

theorem body_parses {form : CommandForm} (h : form.WellFormed) :
    Parses (i.body form.opcode) (form.operands names) (fun _ => True) := by
  cases form with
  | ifElse condition yes no => exact ifElse_parses hi h
  | whileLoop condition body =>
    rw [CommandForm.operands]
    exact fun r hr m hm =>
      (whileFrom_ends hi h.1 h.2 hr i.fuel voidValue r rfl m hm).mono (fun _ _ h => ⟨trivial, h⟩) (fun _ _ h => h)
  | forLoop type name low lowExcluded high highExcluded step body => exact forLoop_parses hi h
  | returnValue value =>
    rw [CommandForm.operands_returnValue]
    refine returnValue_parses hi fun x hx => ?_
    obtain rfl := Option.mem_def.mp hx
    exact h
  | continueLoop => exact .first (.modify fun _ => ⟨rfl, rfl, rfl⟩) fun _ => .pure trivial
  | breakLoop => exact .first (.modify fun _ => ⟨rfl, rfl, rfl⟩) fun _ => .pure trivial
  | tryCatch body handler =>
    rw [CommandForm.operands]
    exact tryCatch_parses hi h.1 h.2
  | throwValue value message =>
    rw [CommandForm.operands]
    exact throwValue_parses hi h message
  | codeblock body =>
    rw [CommandForm.operands, Block.encode_eq, ← Bytecode.append_nil (.block _)]
    exact .enter fun inner hr => .lift (levelBlock_tame hi h hr)
  | expression value =>
    rw [CommandForm.operands]
    exact .finish (hi.eval names value h) fun _ _ => .pure trivial

theorem oneCommand_parses {c : Command} (h : c.WellFormed) :
    Parses i.oneCommand (c.encode names) (fun v => v.isSome = true) := by
  obtain ⟨pos, form⟩ := c
  rw [Command.encode]
  refine .head form.opcode pos ?_
  rw [if_neg form.opcode_ne_endMark]
  refine .place pos fun place => .atPlace (.finish (body_parses hi h) fun v _ => ?_) _ _
  exact .calm checkFault_calm fun _ => .pure rfl

omit hi in
theorem oneCommand_endMark : Parses i.oneCommand .endMark (fun v => v = none) :=
  .last (.opcode .endMark) (.pure rfl)

/-! ## Texts -/

omit hi in
theorem noError (e : RunError) : none = some e → e.cause.isInternal = false := by rintro ⟨⟩

theorem topCommands_ends : ∀ (n : Nat) (cs : List Command) (last : Variable) (r : Reader) (m : Machine),
    CommandsWellFormed cs → r.Holds (encodeCommands names cs ++ .endMark) → m.Coded →
    (i.topCommands n r last).Ends m
      (fun p m' => m'.Coded ∧ ∀ e, p.2 = some e → e.cause.isInternal = false) (fun _ _ => False)
  | 0, _, _, _, _, _, _, _ => trivial
  | n + 1, cs, last, r, m, hc, hr, hm => by
    rw [topCommands]
    split
    · exact ⟨hm, noError⟩
    refine ends_bind.mpr (ends_attempt.mpr ?_)
    cases cs with
    | nil =>
      refine (hi.commandEnd r hr m hm).mono (fun p m₁ h₁ => ?_) (fun e m₁ h₁ => ?_)
      · obtain ⟨v, r₁⟩ := p
        obtain ⟨rfl, -, hm₁⟩ := h₁
        exact ⟨hm₁, noError⟩
      · exact ⟨h₁.1, fun e' he => Option.some.inj he ▸ h₁.2⟩
    | cons c cs =>
      rw [encodeCommands, Bytecode.append_assoc] at hr
      refine (hi.command names c hc.1 r hr.left m hm).mono (fun p m₁ h₁ => ?_) (fun e m₁ h₁ => ?_)
      · obtain ⟨v, r₁⟩ := p
        obtain ⟨hv, rfl, hm₁⟩ := h₁
        cases v with
        | none => cases hv
        | some v =>
          refine ends_get.mpr ?_
          cases m₁.control with
          | running => exact topCommands_ends n cs v _ m₁ hc.2 hr.right hm₁
          | returning v => exact ⟨hm₁, noError⟩
          | continuing => exact ⟨hm₁, fun e he => Option.some.inj he ▸ rfl⟩
          | breaking => exact ⟨hm₁, fun e he => Option.some.inj he ▸ rfl⟩
      · exact ⟨h₁.1, fun e' he => Option.some.inj he ▸ h₁.2⟩

omit hi in
theorem compileSource_eq {source : String} (hs : ShortCode source) (file : String) (m : Machine) :
    ∃ r m₁, compileSource source file m = .ok r m₁ ∧ m.SameCode m₁ ∧
      (∀ e, r = .error e → e.cause.isInternal = false) ∧
      ∀ chunk, r = .ok chunk → ∃ names cs, CommandsWellFormed cs ∧
        (Reader.ofChunk chunk).name.2.Holds (encodeCommands names cs ++ .endMark) := by
  cases hc : compile source file m.names with
  | error e =>
    refine ⟨.error (.ofSyntax e), m, ?_, ⟨rfl, rfl, rfl⟩, fun e' he => Except.error.inj he ▸ rfl, nofun⟩
    rw [compileSource, modifyGet_eq, hc]
  | ok p =>
    obtain ⟨bytes, names⟩ := p
    refine ⟨.ok { serial := m.chunks, bytes }, { m with names, chunks := m.chunks + 1 }, ?_,
      ⟨rfl, rfl, rfl⟩, nofun, ?_⟩
    · rw [compileSource, modifyGet_eq, hc]
    · intro chunk hchunk
      obtain ⟨program, -, hw, -, hr⟩ := holds_compiled hc (hs file m.names bytes names hc)
      exact ⟨names, program.commands, hw, Except.ok.inj hchunk ▸ hr m.chunks⟩

theorem topLevel_ends {source : String} (hs : ShortCode source) (file : String) {m : Machine} (hm : m.Coded) :
    (i.topLevel source file).Ends m
      (fun p m' => m'.Coded ∧ ∀ e, p.2 = some e → e.cause.isInternal = false) (fun _ _ => False) := by
  obtain ⟨r, m₁, hr, hsame, herr, hok⟩ := compileSource_eq hs file m
  refine (ends_bind_ok hr).mpr ?_
  have hm₁ := hm.same hsame
  cases r with
  | error e => exact ⟨hm₁, fun e' he => Option.some.inj he ▸ herr e rfl⟩
  | ok chunk =>
    obtain ⟨names, cs, hw, hh⟩ := hok chunk rfl
    refine ends_bind.mpr (ends_bind.mpr ?_)
    exact topCommands_ends hi i.fuel cs voidValue _ _ hw hh (hm₁.same ⟨rfl, rfl, rfl⟩)

theorem runSource_tame {source : String} (hs : ShortCode source) (file : String) :
    Tame (i.runSource source file) := by
  refine .onMachine fun m₀ _ => .onMachine fun m _ => fun m₁ hm => ?_
  refine (topLevel_ends hi hs file hm).bind (fun p m₂ h₂ => ?_) (fun _ _ h => h.elim)
  obtain ⟨last, error⟩ := p
  have kept {x : Exec Unit} (value : UInt64) (hx : Tame x) : Tame (do
      keepResult last.type value
      setFile (m₀.frames.size - 1) m.frame.file
      x) :=
    .bind (.calm (keepResult_smooth _ _).calm) fun _ => .bind (.modify fun _ => ⟨rfl, rfl, rfl⟩) fun _ => hx
  refine (show Tame _ from ?_) m₂ h₂.1
  refine .bind (.modify fun _ => ⟨rfl, rfl, rfl⟩) fun _ => .bind (.calm (bits_calm last)) fun value => ?_
  cases error with
  | some e => exact kept value (.throw (h₂.2 e rfl))
  | none => exact .caught (.calm checkFault_calm) (fun _ => kept value (.pure _)) fun e he => kept value (.throw he)

/-! ## The whole interpreter -/

omit hi in
def outer (i : Interp) (fuel : Nat) : Interp where
  fuel
  eval := i.expression
  command := i.oneCommand
  call := i.callFunction
  source := i.runSource

theorem InStep.outer (fuel : Nat) : (i.outer fuel).InStep where
  eval _ _ hx := expression_parses hi hx
  evalEnd := expression_endMark
  command _ _ hc := oneCommand_parses hi hc
  commandEnd := oneCommand_endMark
  call := callFunction_tame hi
  source _ file hs := runSource_tame hi hs file

end

theorem inStep_ofFuel : ∀ n, (ofFuel n).InStep
  | 0 =>
    { eval := fun _ _ _ _ _ _ _ => trivial
      evalEnd := fun _ _ _ _ => trivial
      command := fun _ _ _ _ _ _ _ => trivial
      commandEnd := fun _ _ _ _ => trivial
      call := fun _ _ => .outOfFuel
      source := fun _ _ _ => .outOfFuel }
  | n + 1 => (inStep_ofFuel n).outer n

theorem reset_tame (hi : i.InStep) : Tame i.reset :=
  .bind (unwind_tame hi 1 1) fun _ _ hm => ⟨hm.functions, hm.sources, nofun⟩

theorem runAs_tame (hi : i.InStep) {source : String} (hs : ShortCode source) (file : String) :
    Tame (Session.runAs i source file) := by
  refine .caught (runSource_tame hi hs file) (fun _ => ?_) fun e he => ?_
  · exact .bind (reset_tame hi) fun _ => .pure _
  · exact .bind (reset_tame hi) fun _ => .throw he

theorem callCode_tame (hi : i.InStep) (addr : UInt64) (args : List NativeArg) :
    Tame (Session.callCode i addr args) := by
  refine .ite (.pure _) (.bind (enterCode_tame hi _ addr args) fun outcome => ?_)
  cases outcome <;> exact .pure _

/-- An expression has one value on the stack when its end mark is reached. -/
def LeavesOneValue (i : Interp) : Prop := ∀ (names : Names) (x : Expr) (n : Nat), x.WellFormed →
  Parses (i.finalStack n []) (x.encode names) (fun stack => stack.length = 1)

/-- The body of a function is a block of well-formed commands, and a call runs them on exactly the bytes
of this block. -/
def RunsBodies (i : Interp) : Prop := ∀ (m : Machine) (id : Nat) (f : ScriptFunction), m.Coded →
  m.functions.get? id = some f →
    let body := Reader.slice f.chunk f.entry f.len
    ∃ names commands, CommandsWellFormed commands ∧ (encodeCommands names commands ++ .endMark).size = f.len ∧
      body.rest = (encodeCommands names commands ++ .endMark).bytes ∧
      (i.commands voidValue i.fuel body).Ends m (fun p m' => m'.Coded ∧ StopsIn names commands body p.2 m')
        (fun e m' => m'.Coded ∧ e.cause.isInternal = false)

theorem InStep.leavesOneValue (hi : i.InStep) : i.LeavesOneValue := by
  rintro names ⟨ns⟩ n hx
  rw [Expr.encode]
  exact finalStack_parses hi n ns [] hx.2 hx.1

theorem InStep.runsBodies (hi : i.InStep) : i.RunsBodies := by
  intro m id f hm hf
  obtain ⟨names, ⟨commands⟩, hb, hs, hl, hr⟩ := hm.functions id f hf
  have hh : (Reader.slice f.chunk f.entry f.len).Holds (encodeCommands names commands ++ .endMark) :=
    ⟨hs, hr ▸ List.prefix_rfl⟩
  exact ⟨names, commands, hb, hl, hr, commands_ends hi names i.fuel commands voidValue _ m hb hh hm⟩

end Interp

/-- Before the first run no function is there. -/
theorem Machine.coded_start {m : Machine} (hf : m.functions = {}) (hp : m.parked = none)
    (hs : ∀ path source, m.sources path = some source → ShortCode source) : m.start.Coded := by
  refine ⟨fun id f h => ?_, hs, fun e h => ?_⟩
  · rw [show m.start.functions = {} from hf] at h
    cases h
  · rw [show m.start.parked = none from hp] at h
    cases h

open Interp

/-- The interpreter stays in step with compiled code. Whatever the fuel, expressions and commands consume
exactly their own code, the end mark included, an expression leaves one value on its stack, calls run
exactly the bytes of a body, and no error tells of bytes which are no code. A part asks all that it runs
inside itself for just the same, so that no part ever starts elsewhere than at code: nothing takes back
what an interpreter would do to the machine there. -/
theorem compiled_code_in_step {source file : String} {before names : Names} {bytes : Array UInt8}
    (h : compile source file before = .ok (bytes, names)) (hs : bytes.size < UInt32.size) :
    (∀ (i : Interp) (fuel : Nat), i.InStep → (i.outer fuel).InStep ∧ i.LeavesOneValue ∧ i.RunsBodies) ∧
    (∀ m : Machine, m.functions = {} → m.parked = none →
      (∀ path text, m.sources path = some text → ShortCode text) → m.start.Coded) ∧
    ∃ program, parse source file = .ok program ∧ CommandsWellFormed program.commands ∧
      bytes.toList = (program.encode names).bytes ∧
      ∀ n : Nat, (ofFuel n).InStep ∧
        (∀ text name, ShortCode text → Tame (Session.runAs (ofFuel n) text name)) ∧
        (∀ addr args, Tame (Session.callCode (ofFuel n) addr args)) ∧
        ∀ (serial k : Nat) (last : Variable) (m : Machine), m.Coded →
          ((ofFuel n).topCommands k (Reader.ofChunk ⟨serial, bytes⟩).name.2 last).Ends m
            (fun p m' => m'.Coded ∧ ∀ e, p.2 = some e → e.cause.isInternal = false) (fun _ _ => False) := by
  refine ⟨fun i fuel hi => ⟨hi.outer fuel, hi.leavesOneValue, hi.runsBodies⟩, fun m => Machine.coded_start, ?_⟩
  obtain ⟨program, hp, hw, hb, hr⟩ := holds_compiled h hs
  refine ⟨program, hp, hw, hb, fun n => ?_⟩
  have hi := inStep_ofFuel n
  refine ⟨hi, fun text name ht => runAs_tame hi ht name, callCode_tame hi, fun serial k last m hm => ?_⟩
  exact topCommands_ends hi k program.commands last _ m hw (hr serial) hm

theorem compiled_code_in_step_nested :
    let source := "while 1 < 2 => \x7b if (3 + 4) * 5 => return 6; else \x7b null[7](8, 9); \x7d; \x7d;"
    ∃ bytes names, compile source "" .empty = .ok (bytes, names) ∧ bytes.size < UInt32.size ∧
      (Machine.start {}).Coded ∧
      ((ofFuel 9).topCommands 9 (Reader.ofChunk ⟨0, bytes⟩).name.2 voidValue).Ends (Machine.start {})
        (fun p m' => m'.Coded ∧ ∀ e, p.2 = some e → e.cause.isInternal = false) (fun _ _ => False) := by
  intro source
  have run : (compile source "" .empty).toOption.any (fun p => p.1.size < UInt32.size) = true := by decide +kernel
  cases h : compile source "" .empty with
  | error e =>
    rw [h] at run
    cases run
  | ok p =>
    obtain ⟨bytes, names⟩ := p
    rw [h] at run
    have hs : bytes.size < UInt32.size := of_decide_eq_true run
    obtain ⟨-, start, program, -, -, -, runs⟩ := compiled_code_in_step h hs
    have hm : (Machine.start {}).Coded := start {} rfl rfl (by rintro _ _ ⟨⟩)
    exact ⟨bytes, names, rfl, hs, hm, (runs 9).2.2.2 0 9 voidValue _ hm⟩

end LevelScript
