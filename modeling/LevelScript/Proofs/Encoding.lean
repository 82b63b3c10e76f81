import LevelScript.Tree.Emit

/-!
# The bytes of a tree

Bytecode is written in one pass: a block's length is filled in when the block is closed, and a name
joins the pool when it is written first. Here the bytes of every part of a tree are given as a function
of the finished pool. Writing a part appends exactly these bytes.
-/

namespace LevelScript

/-! ## Bytecode -/

/-- Bytes, and the heads of the nodes in them. -/
@[ext]
structure Bytecode where
  bytes : List UInt8
  heads : List (Opcode × Position)

namespace Bytecode

instance : Append Bytecode := ⟨fun a b => ⟨a.bytes ++ b.bytes, a.heads ++ b.heads⟩⟩

@[simp]
theorem bytes_append (a b : Bytecode) : (a ++ b).bytes = a.bytes ++ b.bytes := rfl

@[simp]
theorem heads_append (a b : Bytecode) : (a ++ b).heads = a.heads ++ b.heads := rfl

protected theorem append_assoc (a b c : Bytecode) : a ++ b ++ c = a ++ (b ++ c) :=
  Bytecode.ext (List.append_assoc ..) (List.append_assoc ..)

def raw (bytes : List UInt8) : Bytecode := ⟨bytes, []⟩

theorem raw_append (a b : List UInt8) : raw (a ++ b) = raw a ++ raw b := rfl

def nil : Bytecode := raw []

@[simp]
theorem nil_append (a : Bytecode) : nil ++ a = a := rfl

@[simp]
theorem append_nil (a : Bytecode) : a ++ nil = a := Bytecode.ext (List.append_nil _) (List.append_nil _)

def byte (n : UInt8) : Bytecode := raw [n]

def bool (b : Bool) : Bytecode := byte (if b then 1 else 0)

def endMark : Bytecode := byte Opcode.endMark.code

/-- The lowest 32 bits of a number, the lowest byte first. -/
def int32 (n : Int) : List UInt8 := bytesLE 4 (n.emod UInt32.size).toNat

def op (op : Opcode) (pos : Position) : Bytecode :=
  ⟨op.code :: (int32 pos.row ++ int32 pos.col), [(op, pos)]⟩

def u64 (n : UInt64) : Bytecode := raw (bytesLE 8 n.toNat)

def block (content : Bytecode) : Bytecode :=
  ⟨bytesLE 4 content.bytes.length ++ content.bytes, content.heads⟩

end Bytecode

def Names.idOf (names : Names) (text : String) : NameId := (names.get? text).getD 0

namespace Bytecode

def name (names : Names) (text : String) : Bytecode := raw (bytesLE 4 (names.idOf text).toNat)

def optName (names : Names) : Option String → Bytecode
  | none => bool false
  | some text => bool true ++ name names text

end Bytecode

namespace Bytecode

def size (c : Bytecode) : Nat := c.bytes.length

@[simp]
theorem size_append (a b : Bytecode) : (a ++ b).size = a.size + b.size := List.length_append

@[simp]
theorem size_raw (bytes : List UInt8) : (raw bytes).size = bytes.length := rfl

@[simp]
theorem size_nil : nil.size = 0 := rfl

@[simp]
theorem size_byte (n : UInt8) : (byte n).size = 1 := rfl

@[simp]
theorem size_bool (b : Bool) : (bool b).size = 1 := rfl

@[simp]
theorem size_endMark : endMark.size = 1 := rfl

@[simp]
theorem length_int32 (n : Int) : (int32 n).length = 4 := length_bytesLE 4 _

@[simp]
theorem size_op (o : Opcode) (pos : Position) : (op o pos).size = 9 := by simp [size, op]

@[simp]
theorem size_name (names : Names) (text : String) : (name names text).size = 4 := length_bytesLE 4 _

@[simp]
theorem size_block (content : Bytecode) : content.block.size = 4 + content.size := by
  rw [size, block, List.length_append, length_bytesLE]
  rfl

end Bytecode

/-! ## The code of trees -/

def Form.opcode : Form → Opcode
  | .integer _ => .integer
  | .float _ => .float
  | .text _ => .text
  | .variableRef _ => .variableRef
  | .truth _ => .truth
  | .null => .null
  | .paren _ => .paren
  | .deferName _ => .deferName
  | .varargs _ => .varargs
  | .varargCount | .sizeOf _ => .sizeOf
  | .typeOf _ => .typeOf
  | .deleteValue _ => .deleteValue
  | .scopeHere | .scopeOf _ => .scopeOf
  | .newValue .. => .newValue
  | .moveValue .. => .moveValue
  | .ternary .. => .ternary
  | .includeFile _ => .includeFile
  | .baseType .. | .structType .. => .typeLiteral
  | .declare .. => .declare
  | .operator op | .query op _ => op
  | .call _ => .call
  | .index _ => .index
  | .member _ => .member
  | .functionType .. => .functionType

def CommandForm.opcode : CommandForm → Opcode
  | .ifElse .. => .ifElse
  | .whileLoop .. => .whileLoop
  | .forLoop .. => .forLoop
  | .returnValue _ => .returnValue
  | .continueLoop => .continueLoop
  | .breakLoop => .breakLoop
  | .tryCatch .. => .tryCatch
  | .throwValue .. => .throwValue
  | .codeblock _ => .codeblock
  | .expression _ => .expression

mutual

def Expr.encode (names : Names) : Expr → Bytecode
  | .mk nodes => encodeNodes names nodes ++ .endMark

def encodeNodes (names : Names) : List Node → Bytecode
  | [] => .nil
  | node :: nodes => node.encode names ++ encodeNodes names nodes

def Node.encode (names : Names) : Node → Bytecode
  | .mk pos form => .op form.opcode pos ++ form.operands names

def Form.operands (names : Names) : Form → Bytecode
  | .integer n | .float n => .u64 n
  | .text name | .variableRef name | .deferName name | .includeFile name | .member name => .name names name
  | .truth value => .bool value
  | .null | .operator _ | .query .. => .nil
  | .paren inner | .varargs inner | .typeOf inner | .deleteValue inner | .index inner => inner.encode names
  | .varargCount => .bool true
  | .sizeOf inner => .bool false ++ inner.encode names
  | .scopeHere => .bool false
  | .scopeOf name => .bool true ++ .name names name
  | .newValue scope type init => .bool scope ++ type.encode names ++ init.encode names
  | .moveValue target level => target.encode names ++ level.encode names
  | .ternary condition yes no =>
    condition.encode names ++ .block (yes.encode names) ++ .block (no.encode names)
  | .baseType isConst kind unsigned => .bool isConst ++ .byte kind.code ++ .bool unsigned
  | .structType isConst none fields =>
    .bool isConst ++ .byte Kind.struct.code ++ .bool false ++ encodeFields names fields ++ .bool false
  | .structType isConst (some base) fields =>
    .bool isConst ++ .byte Kind.struct.code ++ .bool true ++ base.encode names
      ++ encodeFields names fields ++ .bool false
  | .declare external name generics body =>
    .bool external ++ .name names name ++ encodeBindings names generics ++ .bool false ++ body.encode names
  | .call args => encodeExprs names args ++ .endMark
  | .functionType assignable params => .bool assignable ++ encodeParams names params ++ .endMark

def encodeExprs (names : Names) : List Expr → Bytecode
  | [] => .nil
  | x :: xs => x.encode names ++ encodeExprs names xs

def Init.encode (names : Names) : Init → Bytecode
  | .bare => .byte AllocForm.bare.code
  | .scalar value => .byte AllocForm.scalar.code ++ value.encode names
  | .struct overrides => .byte AllocForm.struct.code ++ encodeBindings names overrides ++ .bool false
  | .function capture body => .byte AllocForm.function.code ++ .byte capture.code ++ body.encode names
  | .array count elements =>
    .byte AllocForm.array.code ++ count.encode names ++ encodeExprs names elements ++ .endMark

def encodeBindings (names : Names) : List Binding → Bytecode
  | [] => .nil
  | .mk name value :: more =>
    .bool true ++ .name names name ++ value.encode names ++ encodeBindings names more

def encodeParams (names : Names) : List ParamTree → Bytecode
  | [] => .nil
  | .mk type name :: more => type.encode names ++ .optName names name ++ encodeParams names more

def BodyTree.encode (names : Names) : BodyTree → Bytecode
  | .absent => .bool false
  | .code capture body => .bool true ++ .byte capture.code ++ body.encode names

def encodeFields (names : Names) : List FieldTree → Bytecode
  | [] => .nil
  | field :: more => field.encode names ++ encodeFields names more

def FieldTree.encode (names : Names) : FieldTree → Bytecode
  | .mk pos inlined type name value placement =>
    .bool true ++ .raw (Bytecode.int32 pos.row ++ Bytecode.int32 pos.col) ++ inlined.encode names
      ++ type.encode names ++ .optName names name ++ value.encode names ++ placement.encode names

def Inlined.encode (names : Names) : Inlined → Bytecode
  | .no => .bool false
  | .once => .bool true ++ .bool false
  | .times count => .bool true ++ .bool true ++ count.encode names

def FieldValue.encode (names : Names) : FieldValue → Bytecode
  | .absent => .bool false
  | .value init => .bool true ++ .bool false ++ init.encode names
  | .method capture body => .bool true ++ .bool true ++ .byte capture.code ++ body.encode names

def Placement.encode (names : Names) : Placement → Bytecode
  | .auto => .bool false
  | .absolute offset => .bool true ++ .bool false ++ offset.encode names
  | .relative offset => .bool true ++ .bool true ++ offset.encode names

def Block.encode (names : Names) : Block → Bytecode
  | .mk commands => .block (encodeCommands names commands ++ .endMark)

def encodeCommands (names : Names) : List Command → Bytecode
  | [] => .nil
  | command :: commands => command.encode names ++ encodeCommands names commands

def Command.encode (names : Names) : Command → Bytecode
  | .mk pos form => .op form.opcode pos ++ form.operands names

def CommandForm.operands (names : Names) : CommandForm → Bytecode
  | .ifElse condition yes none => condition.encode names ++ yes.encode names ++ .bool false
  | .ifElse condition yes (some no) =>
    condition.encode names ++ yes.encode names ++ .bool true ++ no.encode names
  | .whileLoop condition body => condition.encode names ++ body.encode names
  | .forLoop type name low lowExcluded high highExcluded none body =>
    type.encode names ++ .name names name ++ low.encode names ++ .bool lowExcluded
      ++ high.encode names ++ .bool highExcluded ++ .bool false ++ body.encode names
  | .forLoop type name low lowExcluded high highExcluded (some step) body =>
    type.encode names ++ .name names name ++ low.encode names ++ .bool lowExcluded
      ++ high.encode names ++ .bool highExcluded ++ .bool true ++ step.encode names ++ body.encode names
  | .returnValue none => .bool false
  | .returnValue (some value) => .bool true ++ value.encode names
  | .continueLoop | .breakLoop => .nil
  | .tryCatch body handler => body.encode names ++ handler.encode names
  | .throwValue value message => value.encode names ++ .optName names message
  | .codeblock body => body.encode names
  | .expression value => value.encode names

def Handler.encode (names : Names) : Handler → Bytecode
  | .absent => .bool false
  | .handle silently name body =>
    .bool true ++ .bool silently ++ .optName names name ++ body.encode names

end

theorem encodeNodes_append (names : Names) (ns ns' : List Node) :
    encodeNodes names (ns ++ ns') = encodeNodes names ns ++ encodeNodes names ns' := by
  induction ns with
  | nil => rfl
  | cons node ns ih =>
    rw [List.cons_append, encodeNodes, ih, encodeNodes, Bytecode.append_assoc]

theorem encodeNodes_singleton (names : Names) (pos : Position) (form : Form) :
    encodeNodes names [.mk pos form] = .op form.opcode pos ++ form.operands names := by
  rw [encodeNodes, encodeNodes, Node.encode, Bytecode.append_nil]

theorem encodeNodes_operator (names : Names) (pos : Position) (op : Opcode) :
    encodeNodes names [.mk pos (.operator op)] = .op op pos :=
  (encodeNodes_singleton names pos _).trans (Bytecode.append_nil _)

def optExpr (names : Names) : Option Expr → Bytecode
  | none => .bool false
  | some x => .bool true ++ x.encode names

theorem CommandForm.operands_forLoop (names : Names) (type low high : Expr) (name : String)
    (lowExcluded highExcluded : Bool) (step : Option Expr) (body : Block) :
    (CommandForm.forLoop type name low lowExcluded high highExcluded step body).operands names =
      type.encode names ++ .name names name ++ low.encode names ++ .bool lowExcluded ++ high.encode names
        ++ .bool highExcluded ++ optExpr names step ++ body.encode names := by
  cases step <;> simp only [CommandForm.operands, optExpr, Bytecode.append_assoc]

theorem CommandForm.operands_returnValue (names : Names) (value : Option Expr) :
    (CommandForm.returnValue value).operands names = optExpr names value := by
  cases value <;> simp only [CommandForm.operands, optExpr]

def Block.content (names : Names) : Block → Bytecode
  | .mk commands => encodeCommands names commands ++ .endMark

theorem Block.encode_eq (names : Names) (b : Block) : b.encode names = .block (b.content names) := by
  cases b
  rw [Block.encode, Block.content]

theorem Expr.size_pos (names : Names) : ∀ x : Expr, 0 < (x.encode names).size
  | .mk nodes => by
    rw [Expr.encode, Bytecode.size_append]
    exact Nat.succ_pos _

/-- The code of a whole text: its file name, its commands and an end mark. -/
def Program.encode (names : Names) (program : Program) : Bytecode :=
  .name names program.file ++ encodeCommands names program.commands ++ .endMark

/-! ## The pool -/

/-- Every name of `a` has the same number in `b`. -/
def Names.Within (a b : Names) : Prop := ∀ text id, a.get? text = some id → b.get? text = some id

namespace Names.Within

theorem refl (a : Names) : a.Within a := fun _ _ h => h

theorem trans {a b c : Names} (h : a.Within b) (h' : b.Within c) : a.Within c :=
  fun text id ht => h' text id (h text id ht)

end Names.Within

theorem Names.intern_within (a : Names) (text : String) : a.Within (a.intern text).2 := by
  intro other id h
  unfold intern
  split
  · exact h
  case h_2 hn =>
    rw [get?, Std.HashMap.getElem?_insert]
    split
    case isTrue he =>
      rw [get?, ← eq_of_beq he, hn] at h
      cases h
    case isFalse => exact h

theorem Names.get?_intern (a : Names) (text : String) : (a.intern text).2.get? text = some (a.intern text).1 := by
  unfold intern
  split
  case h_1 id h => exact h
  case h_2 => exact Std.HashMap.getElem?_insert_self

theorem Names.idOf_intern {a b : Names} {text : String} (h : (a.intern text).2.Within b) :
    b.idOf text = (a.intern text).1 := by
  rw [idOf, h text _ (a.get?_intern text)]
  rfl

/-! ## Writing -/

namespace Writer

theorem bytes_patch (w : Writer) (pre old bs post : List UInt8) (h : w.bytes.toList = pre ++ old ++ post)
    (hl : old.length = bs.length) : (w.patch pre.length bs).bytes.toList = pre ++ bs ++ post := by
  induction bs generalizing w pre old with
  | nil =>
    rw [List.length_nil, List.length_eq_zero_iff] at hl
    rw [patch, h, hl]
  | cons b bs ih =>
    cases old with
    | nil => cases hl
    | cons a old =>
      rw [List.length_cons, List.length_cons, Nat.add_right_cancel_iff] at hl
      have hs : (w.bytes.setIfInBounds pre.length b).toList = (pre ++ [b]) ++ old ++ post := by
        rw [Array.toList_setIfInBounds, h]
        simp
      have hp := ih { w with bytes := w.bytes.setIfInBounds pre.length b } (pre ++ [b]) old hs hl
      rw [List.length_append, List.length_singleton] at hp
      rw [patch, hp]
      simp

theorem marks_patch (w : Writer) (at_ : Nat) (bs : List UInt8) : (w.patch at_ bs).marks = w.marks := by
  induction bs generalizing w at_ with
  | nil => rfl
  | cons b bs ih => exact ih _ _

end Writer

/-- From `e` on, code has been written up to `e'`. The finished pool determines it, and the blocks that
were open still are. -/
structure Wrote (e e' : Emitter) (code : Names → Bytecode) : Prop where
  marks : e'.writer.marks = e.writer.marks
  names : e.names.Within e'.names
  bytes (names : Names) : e'.names.Within names →
      e'.writer.bytes.toList = e.writer.bytes.toList ++ (code names).bytes

namespace Wrote

variable {e e₁ e' : Emitter} {a b : Names → Bytecode}

theorem trans (h : Wrote e e₁ a) (h' : Wrote e₁ e' b) : Wrote e e' (fun names => a names ++ b names) := by
  refine ⟨h'.marks.trans h.marks, h.names.trans h'.names, fun names hn => ?_⟩
  rw [h'.bytes names hn, h.bytes names (h'.names.trans hn), Bytecode.bytes_append, List.append_assoc]

theorem block (h : Wrote e.push e' a) : Wrote e e'.pop (fun names => .block (a names)) := by
  have hm : e'.writer.marks = e.writer.bytes.size :: e.writer.marks := h.marks
  have hp : e'.pop.writer = Writer.patch ⟨e'.writer.bytes, e.writer.marks⟩
      e.writer.bytes.size (bytesLE 4 (e'.writer.bytes.size - e.writer.bytes.size - 4)) := by
    rw [Emitter.pop, Emitter.write, Writer.pop, hm]
  refine ⟨by rw [hp, Writer.marks_patch], h.names, fun names hn => ?_⟩
  have hb : e'.writer.bytes.toList = e.writer.bytes.toList ++ bytesLE 4 0 ++ (a names).bytes := by
    rw [h.bytes names hn]
    simp [Emitter.push, Emitter.write, Writer.push, Writer.u32, Writer.append]
  have hs : e'.writer.bytes.size - e.writer.bytes.size - 4 = (a names).bytes.length := by
    rw [← Array.length_toList, hb, List.length_append, List.length_append, length_bytesLE, Array.length_toList]
    omega
  rw [hp, hs, ← Array.length_toList]
  refine (Writer.bytes_patch ⟨e'.writer.bytes, e.writer.marks⟩ _ _ _ _ hb ?_).trans ?_
  · simp only [length_bytesLE]
  · simp only [Bytecode.block, List.append_assoc]

theorem nil (e : Emitter) : Wrote e e (fun _ => .nil) := ⟨rfl, .refl _, fun _ _ => (List.append_nil _).symm⟩

theorem raw {bs : List UInt8} (hm : e'.writer.marks = e.writer.marks) (hn : e'.names = e.names)
    (hb : e'.writer.bytes.toList = e.writer.bytes.toList ++ bs) : Wrote e e' (fun _ => .raw bs) :=
  ⟨hm, hn ▸ .refl _, fun _ _ => hb⟩

theorem u8 (e : Emitter) (n : UInt8) : Wrote e (e.u8 n) (fun _ => .byte n) :=
  raw rfl rfl (by simp [Emitter.u8, Emitter.write, Writer.u8])

theorem bool (e : Emitter) (b : Bool) : Wrote e (e.bool b) (fun _ => .bool b) := u8 e _

theorem u64 (e : Emitter) (n : UInt64) : Wrote e (e.u64 n) (fun _ => .u64 n) :=
  raw rfl rfl (by simp [Emitter.u64, Emitter.write, Writer.u64, Writer.append])

theorem place (e : Emitter) (pos : Position) : Wrote e (e.write fun w => (w.i32 pos.row).i32 pos.col)
    (fun _ => .raw (Bytecode.int32 pos.row ++ Bytecode.int32 pos.col)) :=
  raw rfl rfl (by simp [Emitter.write, Writer.i32, Writer.u32, Writer.append, Bytecode.int32])

theorem op (e : Emitter) (op : Opcode) (pos : Position) : Wrote e (e.op op pos) (fun _ => .op op pos) := by
  refine ⟨rfl, .refl _, fun _ _ => ?_⟩
  simp [Emitter.op, Emitter.write, Writer.op, Writer.u8, Writer.i32, Writer.u32, Writer.append,
    Bytecode.int32, Bytecode.op]

theorem name (e : Emitter) (text : String) : Wrote e (e.name text) (fun names => .name names text) := by
  refine ⟨rfl, e.names.intern_within text, fun names h => ?_⟩
  simp [Emitter.name, Writer.name, Writer.u32, Writer.append, Bytecode.name, Bytecode.raw, Names.idOf_intern h]

theorem know (e : Emitter) (text : String) (h : Wrote (e.know text) e' a) : Wrote e e' a :=
  ⟨h.marks, (e.names.intern_within text).trans h.names, h.bytes⟩

end Wrote

/-- From `e` on, code is written up to `e'`, one item after the other. -/
inductive Writes : Emitter → Emitter → (Names → Bytecode) → Prop where
  | nil (e) : Writes e e (fun _ => .nil)
  | u8 (e n) : Writes e (e.u8 n) (fun _ => .byte n)
  | u64 (e n) : Writes e (e.u64 n) (fun _ => .u64 n)
  | place (e) (pos : Position) : Writes e (e.write fun w => (w.i32 pos.row).i32 pos.col)
      (fun _ => .raw (Bytecode.int32 pos.row ++ Bytecode.int32 pos.col))
  | op (e op pos) : Writes e (e.op op pos) (fun _ => .op op pos)
  | name (e text) : Writes e (e.name text) (fun names => .name names text)
  | query (e text op pos) : Writes e ((e.know text).op op pos) (fun _ => .op op pos)
  | block {e e' a} : Writes e.push e' a → Writes e e'.pop (fun names => .block (a names))
  | trans {e e₁ e' a b} : Writes e e₁ a → Writes e₁ e' b → Writes e e' (fun names => a names ++ b names)

namespace Writes

variable {e e' : Emitter} {code : Names → Bytecode}

theorem bool (e : Emitter) (b : Bool) : Writes e (e.bool b) (fun _ => .bool b) := u8 e _

theorem endMark (e : Emitter) : Writes e e.endMark (fun _ => .endMark) := u8 e _

theorem optName (e : Emitter) (text : Option String) :
    Writes e (e.optName text) (fun names => .optName names text) := by
  cases text with
  | none => exact bool e false
  | some text => exact (bool e true).trans (name _ text)

theorem wrote (h : Writes e e' code) : Wrote e e' code := by
  induction h with
  | nil e => exact .nil e
  | u8 e n => exact .u8 e n
  | u64 e n => exact .u64 e n
  | place e pos => exact .place e pos
  | op e op pos => exact .op e op pos
  | name e text => exact .name e text
  | query e text op pos => exact .know e text (.op _ op pos)
  | block _ ih => exact ih.block
  | trans _ _ ih ih' => exact ih.trans ih'

/-- However the names are numbered, the code is as long. -/
theorem size_eq (h : Writes e e' code) (a b : Names) : (code a).size = (code b).size := by
  induction h with
  | name e text => rw [Bytecode.size_name, Bytecode.size_name]
  | block _ ih => rw [Bytecode.size_block, Bytecode.size_block, ih]
  | trans _ _ ih ih' => rw [Bytecode.size_append, Bytecode.size_append, ih, ih']
  | _ => rfl

/-- The code depends on no other names than those that are in the pool afterwards. -/
theorem eq_of_agree (h : Writes e e' code) {a b : Names}
    (hab : ∀ text id, e'.names.get? text = some id → a.idOf text = b.idOf text) : code a = code b := by
  induction h with
  | name e text =>
    dsimp only
    rw [Bytecode.name, Bytecode.name, hab text _ (e.names.get?_intern text)]
  | block _ ih => exact congrArg Bytecode.block (ih hab)
  | trans _ h' ih ih' =>
    dsimp only
    rw [ih fun text id ht => hab text id (h'.wrote.names text id ht), ih' hab]
  | _ => rfl

end Writes

mutual

theorem Expr.writes (e : Emitter) : ∀ x : Expr, Writes e (x.emit e) x.encode
  | .mk nodes => (writesNodes e nodes).trans (.endMark _)

theorem writesNodes (e : Emitter) : ∀ nodes, Writes e (emitNodes nodes e) (encodeNodes · nodes)
  | [] => .nil e
  | node :: nodes => (node.writes e).trans (writesNodes _ nodes)

theorem Node.writes (e : Emitter) : ∀ node : Node, Writes e (node.emit e) node.encode
  | .mk pos form => form.writes e pos

theorem Form.writes (e : Emitter) (pos : Position) :
    ∀ form : Form, Writes e (form.emit pos e) (fun names => .op form.opcode pos ++ form.operands names)
  | .integer value => (Writes.op e .integer pos).trans (.u64 _ value)
  | .float bits => (Writes.op e .float pos).trans (.u64 _ bits)
  | .text value => (Writes.op e .text pos).trans (.name _ value)
  | .variableRef name => (Writes.op e .variableRef pos).trans (.name _ name)
  | .truth value => (Writes.op e .truth pos).trans (.bool _ value)
  | .null => (Writes.op e .null pos).trans (.nil _)
  | .paren inner => (Writes.op e .paren pos).trans (inner.writes _)
  | .deferName name => (Writes.op e .deferName pos).trans (.name _ name)
  | .varargs index => (Writes.op e .varargs pos).trans (index.writes _)
  | .varargCount => (Writes.op e .sizeOf pos).trans (.bool _ true)
  | .sizeOf inner => (Writes.op e .sizeOf pos).trans ((Writes.bool _ false).trans (inner.writes _))
  | .typeOf inner => (Writes.op e .typeOf pos).trans (inner.writes _)
  | .deleteValue inner => (Writes.op e .deleteValue pos).trans (inner.writes _)
  | .scopeHere => (Writes.op e .scopeOf pos).trans (.bool _ false)
  | .scopeOf name => (Writes.op e .scopeOf pos).trans ((Writes.bool _ true).trans (.name _ name))
  | .newValue scope type init =>
    (Writes.op e .newValue pos).trans (((Writes.bool _ scope).trans (type.writes _)).trans (init.writes _))
  | .moveValue target level => (Writes.op e .moveValue pos).trans ((target.writes _).trans (level.writes _))
  | .ternary condition yes no =>
    (Writes.op e .ternary pos).trans
      (((condition.writes _).trans (.block (yes.writes _))).trans (.block (no.writes _)))
  | .includeFile path => (Writes.op e .includeFile pos).trans (.name _ path)
  | .baseType isConst kind unsigned =>
    (Writes.op e .typeLiteral pos).trans
      (((Writes.bool _ isConst).trans (.u8 _ kind.code)).trans (.bool _ unsigned))
  | .structType isConst none fields =>
    (Writes.op e .typeLiteral pos).trans (((((Writes.bool _ isConst).trans (.u8 _ Kind.struct.code)).trans
      (.bool _ false)).trans (writesFields _ fields)).trans (.bool _ false))
  | .structType isConst (some base) fields =>
    (Writes.op e .typeLiteral pos).trans ((((((Writes.bool _ isConst).trans (.u8 _ Kind.struct.code)).trans
      (.bool _ true)).trans (base.writes _)).trans (writesFields _ fields)).trans (.bool _ false))
  | .declare external name generics body =>
    (Writes.op e .declare pos).trans (((((Writes.bool _ external).trans (.name _ name)).trans
      (writesBindings _ generics)).trans (.bool _ false)).trans (body.writes _))
  | .operator op => (Writes.op e op pos).trans (.nil _)
  | .query op name => (Writes.query e name op pos).trans (.nil _)
  | .call args => (Writes.op e .call pos).trans ((writesExprs _ args).trans (.endMark _))
  | .index inner => (Writes.op e .index pos).trans (inner.writes _)
  | .member name => (Writes.op e .member pos).trans (.name _ name)
  | .functionType assignable params =>
    (Writes.op e .functionType pos).trans
      (((Writes.bool _ assignable).trans (writesParams _ params)).trans (.endMark _))

theorem writesExprs (e : Emitter) : ∀ xs, Writes e (emitExprs xs e) (encodeExprs · xs)
  | [] => .nil e
  | x :: xs => (x.writes e).trans (writesExprs _ xs)

theorem Init.writes (e : Emitter) : ∀ init : Init, Writes e (init.emit e) init.encode
  | .bare => .u8 e _
  | .scalar value => (Writes.u8 e _).trans (value.writes _)
  | .struct overrides => ((Writes.u8 e _).trans (writesBindings _ overrides)).trans (.bool _ false)
  | .function capture body => ((Writes.u8 e _).trans (.u8 _ capture.code)).trans (body.writes _)
  | .array count elements =>
    (((Writes.u8 e _).trans (count.writes _)).trans (writesExprs _ elements)).trans (.endMark _)

theorem writesBindings (e : Emitter) : ∀ bindings, Writes e (emitBindings bindings e) (encodeBindings · bindings)
  | [] => .nil e
  | .mk name value :: more =>
    (((Writes.bool e true).trans (.name _ name)).trans (value.writes _)).trans (writesBindings _ more)

theorem writesParams (e : Emitter) : ∀ params, Writes e (emitParams params e) (encodeParams · params)
  | [] => .nil e
  | .mk type name :: more => ((type.writes e).trans (.optName _ name)).trans (writesParams _ more)

theorem BodyTree.writes (e : Emitter) : ∀ body : BodyTree, Writes e (body.emit e) body.encode
  | .absent => .bool e false
  | .code capture body => ((Writes.bool e true).trans (.u8 _ capture.code)).trans (body.writes _)

theorem writesFields (e : Emitter) : ∀ fields, Writes e (emitFields fields e) (encodeFields · fields)
  | [] => .nil e
  | field :: more => (field.writes e).trans (writesFields _ more)

theorem FieldTree.writes (e : Emitter) : ∀ field : FieldTree, Writes e (field.emit e) field.encode
  | .mk pos inlined type name value placement =>
    ((((((Writes.bool e true).trans (.place _ pos)).trans (inlined.writes _)).trans (type.writes _)).trans
      (.optName _ name)).trans (value.writes _)).trans (placement.writes _)

theorem Inlined.writes (e : Emitter) : ∀ inlined : Inlined, Writes e (inlined.emit e) inlined.encode
  | .no => .bool e false
  | .once => (Writes.bool e true).trans (.bool _ false)
  | .times count => ((Writes.bool e true).trans (.bool _ true)).trans (count.writes _)

theorem FieldValue.writes (e : Emitter) : ∀ value : FieldValue, Writes e (value.emit e) value.encode
  | .absent => .bool e false
  | .value init => ((Writes.bool e true).trans (.bool _ false)).trans (init.writes _)
  | .method capture body =>
    (((Writes.bool e true).trans (.bool _ true)).trans (.u8 _ capture.code)).trans (body.writes _)

theorem Placement.writes (e : Emitter) : ∀ placement : Placement, Writes e (placement.emit e) placement.encode
  | .auto => .bool e false
  | .absolute offset => ((Writes.bool e true).trans (.bool _ false)).trans (offset.writes _)
  | .relative offset => ((Writes.bool e true).trans (.bool _ true)).trans (offset.writes _)

theorem Block.writes (e : Emitter) : ∀ block : Block, Writes e (block.emit e) block.encode
  | .mk commands => .block ((writesCommands _ commands).trans (.endMark _))

theorem writesCommands (e : Emitter) : ∀ commands, Writes e (emitCommands commands e) (encodeCommands · commands)
  | [] => .nil e
  | command :: commands => (command.writes e).trans (writesCommands _ commands)

theorem Command.writes (e : Emitter) : ∀ command : Command, Writes e (command.emit e) command.encode
  | .mk pos form => form.writes e pos

theorem CommandForm.writes (e : Emitter) (pos : Position) :
    ∀ form : CommandForm, Writes e (form.emit pos e) (fun names => .op form.opcode pos ++ form.operands names)
  | .ifElse condition yes none =>
    (Writes.op e .ifElse pos).trans (((condition.writes _).trans (yes.writes _)).trans (.bool _ false))
  | .ifElse condition yes (some no) =>
    (Writes.op e .ifElse pos).trans
      ((((condition.writes _).trans (yes.writes _)).trans (.bool _ true)).trans (no.writes _))
  | .whileLoop condition body => (Writes.op e .whileLoop pos).trans ((condition.writes _).trans (body.writes _))
  | .forLoop type name low lowExcluded high highExcluded none body =>
    (Writes.op e .forLoop pos).trans ((((((((type.writes _).trans (.name _ name)).trans (low.writes _)).trans
      (.bool _ lowExcluded)).trans (high.writes _)).trans (.bool _ highExcluded)).trans (.bool _ false)).trans
      (body.writes _))
  | .forLoop type name low lowExcluded high highExcluded (some step) body =>
    (Writes.op e .forLoop pos).trans (((((((((type.writes _).trans (.name _ name)).trans (low.writes _)).trans
      (.bool _ lowExcluded)).trans (high.writes _)).trans (.bool _ highExcluded)).trans (.bool _ true)).trans
      (step.writes _)).trans (body.writes _))
  | .returnValue none => (Writes.op e .returnValue pos).trans (.bool _ false)
  | .returnValue (some value) => (Writes.op e .returnValue pos).trans ((Writes.bool _ true).trans (value.writes _))
  | .continueLoop => (Writes.op e .continueLoop pos).trans (.nil _)
  | .breakLoop => (Writes.op e .breakLoop pos).trans (.nil _)
  | .tryCatch body handler => (Writes.op e .tryCatch pos).trans ((body.writes _).trans (handler.writes _))
  | .throwValue value message => (Writes.op e .throwValue pos).trans ((value.writes _).trans (.optName _ message))
  | .codeblock body => (Writes.op e .codeblock pos).trans (body.writes _)
  | .expression value => (Writes.op e .expression pos).trans (value.writes _)

theorem Handler.writes (e : Emitter) : ∀ handler : Handler, Writes e (handler.emit e) handler.encode
  | .absent => .bool e false
  | .handle silently name body =>
    (((Writes.bool e true).trans (.bool _ silently)).trans (.optName _ name)).trans (body.writes _)

end

theorem wroteNodes (e : Emitter) (nodes : List Node) : Wrote e (emitNodes nodes e) (encodeNodes · nodes) :=
  (writesNodes e nodes).wrote

theorem Program.writes (program : Program) (names : Names) :
    Writes { names } (emitCommands program.commands (Emitter.name { names } program.file)).endMark
      (fun names => program.encode names) :=
  ((Writes.name { names } program.file).trans (writesCommands _ program.commands)).trans (.endMark _)

/-- A program's bytes are its code under the pool that comes with them. -/
theorem Program.emit_bytes (program : Program) (names : Names) :
    (program.emit names).1.toList = (program.encode (program.emit names).2).bytes :=
  ((program.writes names).wrote.bytes _ (.refl _)).trans (List.nil_append _)

/-- The length of a program's code is the same under every pool. -/
theorem Program.size_eq (program : Program) (a b : Names) : (program.encode a).size = (program.encode b).size :=
  (program.writes a).size_eq a b

/-- A program's code depends on no other names than those that are in the pool after it was written. -/
theorem Program.encode_eq (program : Program) (start : Names) {a b : Names}
    (h : ∀ text id, (program.emit start).2.get? text = some id → a.idOf text = b.idOf text) :
    program.encode a = program.encode b :=
  (program.writes start).eq_of_agree h

end LevelScript
