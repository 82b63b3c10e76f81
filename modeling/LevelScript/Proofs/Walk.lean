import LevelScript.Listing
import LevelScript.Proofs.Reading
import LevelScript.Proofs.WellFormed

/-!
# Listings cover the code

A listing walks over bytes and knows of trees only what the bytes tell it. On the code of a tree it
reads every byte once, from the first to the last, leaves every block at its end, and writes a line for
every node in the order of the code. The numbers of the names may be others: pools in which the names read
alike give the same lines.
-/

namespace LevelScript

/-- Parts that lead from one position to another, each beginning where the one before it ends. -/
def Consecutive : Nat → List (Nat × Nat) → Nat → Prop
  | start, [], stop => start = stop
  | start, part :: parts, stop => part.1 = start ∧ start ≤ part.2 ∧ Consecutive part.2 parts stop

theorem Consecutive.concat {parts : List (Nat × Nat)} {start middle stop : Nat} (h : Consecutive start parts middle)
    (hs : middle ≤ stop) : Consecutive start (parts ++ [(middle, stop)]) stop := by
  induction parts generalizing start with
  | nil =>
    cases h
    exact ⟨rfl, hs, rfl⟩
  | cons part parts ih => exact ⟨h.1, h.2.1, ih h.2.2⟩

/-- A head as it is shown, with the row and the column in 32 bits. -/
def shownHead (head : Opcode × Position) : Opcode × Int × Int :=
  (head.1, (head.2.row : Int).bmod UInt32.size, (head.2.col : Int).bmod UInt32.size)

def ListingLine.head? (line : ListingLine) : Option (Opcode × Int × Int) :=
  match line.content with
  | .node op _ row col => some (op, row, col)
  | .note _ => none

def ListingLine.Named (line : ListingLine) : Prop :=
  match line.content with
  | .node op head _ _ => ∃ details, head = op.name ++ details
  | .note _ => True

def Form.onLine (pool : Names) : Form → Bytecode
  | .integer n | .float n => .u64 n
  | .text name | .variableRef name | .deferName name | .includeFile name | .member name => .name pool name
  | .truth value => .bool value
  | .baseType isConst kind unsigned => .bool isConst ++ .byte kind.code ++ .bool unsigned
  | .structType isConst .. => .bool isConst ++ .byte Kind.struct.code
  | .declare external name .. => .bool external ++ .name pool name
  | .newValue scope .. => .bool scope
  | _ => .nil

def Form.underLine (pool : Names) : Form → Bytecode
  | .paren inner | .varargs inner | .typeOf inner | .deleteValue inner | .index inner => inner.encode pool
  | .varargCount => .bool true
  | .sizeOf inner => .bool false ++ inner.encode pool
  | .scopeHere => .bool false
  | .scopeOf name => .bool true ++ .name pool name
  | .newValue _ type init => type.encode pool ++ init.encode pool
  | .moveValue target level => target.encode pool ++ level.encode pool
  | .ternary condition yes no => condition.encode pool ++ .block (yes.encode pool) ++ .block (no.encode pool)
  | .structType _ none fields => .bool false ++ encodeFields pool fields ++ .bool false
  | .structType _ (some base) fields => .bool true ++ base.encode pool ++ encodeFields pool fields ++ .bool false
  | .declare _ _ generics body => encodeBindings pool generics ++ .bool false ++ body.encode pool
  | .call args => encodeExprs pool args ++ .endMark
  | .functionType assignable params => .bool assignable ++ encodeParams pool params ++ .endMark
  | _ => .nil

def Form.isStruct : Form → Bool
  | .structType .. => true
  | _ => false

theorem Form.isStruct_eq {form : Form} (h : form.isStruct = true) :
    ∃ isConst base fields, form = .structType isConst base fields := by
  cases form <;> first | exact ⟨_, _, _, rfl⟩ | cases h

theorem Form.operands_eq (pool : Names) (form : Form) :
    form.operands pool = form.onLine pool ++ form.underLine pool := by
  cases form with
  | structType isConst base fields =>
    cases base <;> simp only [Form.operands, Form.onLine, Form.underLine, Bytecode.append_assoc]
  | _ => simp only [Form.operands, Form.onLine, Form.underLine, Bytecode.append_assoc,
    Bytecode.nil_append, Bytecode.append_nil]

theorem Form.heads_onLine (pool : Names) (form : Form) : (form.onLine pool).heads = [] := by
  cases form <;> rfl

namespace Listing

def heads (s : Listing) : List (Opcode × Int × Int) := s.lines.toList.filterMap ListingLine.head?

/-- All bytes in front of the reader have been read once, in order, blocks were left at their ends, and
the lines of nodes start with their names. -/
structure Covered (s : Listing) : Prop where
  reads : Consecutive 0 s.reads.toList s.reader.pos
  blocks : ∀ b ∈ s.blocks.toList, b.1 = b.2
  named : ∀ line ∈ s.lines.toList, line.Named

structure Over (code : Bytecode) (s s' : Listing) : Prop where
  reader : s'.reader = s.reader.advance code.bytes.length
  heads : s'.heads = s.heads ++ code.heads.map shownHead
  covered : s.Covered → s'.Covered

theorem Over.trans {a b : Bytecode} {s s₁ s' : Listing} (h : Over a s s₁) (h' : Over b s₁ s') :
    Over (a ++ b) s s' := by
  refine ⟨?_, ?_, fun hc => h'.covered (h.covered hc)⟩
  · rw [h'.reader, h.reader, Reader.advance_append]
  · rw [h'.heads, h.heads, Bytecode.heads_append, List.map_append, List.append_assoc]

theorem take_eq {α : Type} {read : Reader → α × Reader} {s : Listing} {v : α} {r : Reader}
    (h : read s.reader = (v, r)) :
    take read s = (v, { s with reader := r, reads := s.reads.push (s.reader.pos, r.pos) }) := by
  have he : take read s = ((read s.reader).1, { s with
      reader := (read s.reader).2
      reads := s.reads.push (s.reader.pos, (read s.reader).2.pos) }) := rfl
  rw [he, h]

def inside (s : Listing) (r : Reader) (len : Nat) : Listing :=
  { s with
    reader := ⟨r.chunk, min (r.pos + len) r.stop, r.pos⟩
    reads := s.reads.push (s.reader.pos, r.pos) }

theorem within_eq {x : Lister Unit} {s : Listing} {len : Nat} {r : Reader} (h : s.reader.u32 = (len, r)) :
    within x s = ((), { (x (s.inside r len)).2 with
      reader := r.seek (r.pos + len)
      blocks := (x (s.inside r len)).2.blocks.push ((x (s.inside r len)).2.reader.pos, r.pos + len) }) := by
  have he : within x s = (fun p : Nat × Reader => ((), { (x (s.inside p.2 p.1)).2 with
      reader := p.2.seek (p.2.pos + p.1)
      blocks := (x (s.inside p.2 p.1)).2.blocks.push ((x (s.inside p.2 p.1)).2.reader.pos, p.2.pos + p.1) }))
        s.reader.u32 := rfl
  rw [he, h]

/-- A pool that is shown, and the pool that code is written with, where every text reads as it should. -/
structure View (res : String → String) where
  shown : Names
  pool : Names
  reads (text) : shown.text (pool.idOf text) = res text

structure Abreast (s t : Listing) : Prop where
  pos : s.reader.pos = t.reader.pos
  lines : s.lines = t.lines

/-- The code follows, in a chunk that is not too long. -/
structure At (code : Bytecode) (s : Listing) : Prop where
  short : s.reader.chunk.bytes.size < UInt32.size
  sees : code.bytes <+: s.reader.rest

theorem At.left {a b : Bytecode} {s : Listing} (h : s.At (a ++ b)) : s.At a := ⟨h.short, Reader.sees_left h.sees⟩

theorem At.right {a b : Bytecode} {s s' : Listing} (h : s.At (a ++ b)) (ho : Over a s s') : s'.At b := by
  refine ⟨by rw [ho.reader]; exact h.short, ?_⟩
  rw [ho.reader]
  exact Reader.sees_right h.sees

def past (s : Listing) (n : Nat) : Listing :=
  { s with reader := s.reader.advance n, reads := s.reads.push (s.reader.pos, s.reader.pos + n) }

theorem Over.past (s : Listing) (bs : List UInt8) : Over (.raw bs) s (s.past bs.length) := by
  refine ⟨rfl, (List.append_nil _).symm, fun hc => ⟨?_, hc.blocks, hc.named⟩⟩
  rw [Listing.past, Array.toList_push]
  exact hc.reads.concat (Nat.le_add_right _ _)

def content (s : Listing) (code : Bytecode) : Listing := s.inside (s.reader.advance 4) code.bytes.length

theorem At.content {code : Bytecode} {s : Listing} (h : s.At (.block code)) :
    (s.content code).reader = (s.reader.advance 4).part code.bytes.length ∧ (s.content code).At code := by
  have hb := Reader.block_ends h.sees
  have hm : min (s.reader.pos + 4 + code.bytes.length) s.reader.stop =
    s.reader.pos + 4 + code.bytes.length := by omega
  have hi : (s.content code).reader = (s.reader.advance 4).part code.bytes.length := congrArg (Reader.mk _ · _) hm
  exact ⟨hi, h.short, [], by rw [List.append_nil, hi, Reader.rest_part (Reader.block_content h.sees)]⟩

theorem At.within_eq {code : Bytecode} {s : Listing} (h : s.At (.block code)) (x : Lister Unit) :
    let s₁ := (x (s.content code)).2
    within x s = ((), { s₁ with
      reader := s.reader.advance (4 + code.bytes.length)
      blocks := s₁.blocks.push (s₁.reader.pos, s.reader.pos + 4 + code.bytes.length) }) := by
  have hb := (Reader.block_ends h.sees).2
  have hs := h.short
  rw [Listing.within_eq (Reader.block_length h.sees (by omega)), ← Reader.advance_advance]
  rfl

theorem Over.block {code : Bytecode} {s s₁ : Listing} (h : s.At (.block code))
    (ho : Over code (s.content code) s₁) :
    Over (.block code) s { s₁ with
      reader := s.reader.advance (4 + code.bytes.length)
      blocks := s₁.blocks.push (s₁.reader.pos, s.reader.pos + 4 + code.bytes.length) } := by
  refine ⟨congrArg s.reader.advance (Reader.length_block code).symm, ho.heads, fun hv => ?_⟩
  have hp : s₁.reader.pos = s.reader.pos + 4 + code.bytes.length := by
    rw [ho.reader, h.content.1]
    rfl
  have hv₁ : (s.content code).Covered := by
    refine ⟨?_, hv.blocks, hv.named⟩
    show Consecutive 0 (s.reads.push (s.reader.pos, s.reader.pos + 4)).toList (s.reader.pos + 4)
    rw [Array.toList_push]
    exact hv.reads.concat (by omega)
  obtain ⟨hr, hbs, hl₁⟩ := ho.covered hv₁
  refine ⟨?_, fun b hm => ?_, hl₁⟩
  · show Consecutive 0 s₁.reads.toList (s.reader.pos + (4 + code.bytes.length))
    rwa [← Nat.add_assoc, ← hp]
  · rw [Array.toList_push, List.mem_append, List.mem_singleton] at hm
    obtain hm | rfl := hm
    · exact hbs b hm
    · exact hp

/-- At the code and what follows it, the computation walks over the code and gives a value with the
property. In all views the value and the lines are the same. -/
structure Lists {α : Type} {res : String → String} (next : View res → Bytecode) (x : View res → Lister α)
    (code : View res → Bytecode) (Q : α → Prop) : Prop where
  covers (i s) : s.At (code i ++ next i) → Q (x i s).1 ∧ Over (code i) s (x i s).2
  alike (i j s t) : s.At (code i ++ next i) → t.At (code j ++ next j) → s.Abreast t →
    (x i s).1 = (x j t).1 ∧ (x i s).2.Abreast (x j t).2

namespace Lists

variable {α β : Type} {res : String → String} {next : View res → Bytecode}
variable {x : View res → Lister α} {f : View res → α → Lister β}
variable {a b : View res → Bytecode} {P : α → Prop} {Q : β → Prop}

protected theorem pure {v : α} (h : P v) : Lists next (fun _ => pure v) (fun _ => .nil) P :=
  ⟨fun _ _ _ => ⟨h, rfl, (List.append_nil _).symm, id⟩, fun _ _ _ _ _ _ h => ⟨rfl, h⟩⟩

protected theorem bind (hx : Lists (fun i => b i ++ next i) x a P) (hf : ∀ v, P v → Lists next (f · v) b Q) :
    Lists next (fun i => x i >>= f i) (fun i => a i ++ b i) Q where
  covers i s h := by
    rw [Bytecode.append_assoc] at h
    obtain ⟨hp, h₁⟩ := hx.covers i s h
    obtain ⟨hq, h₂⟩ := (hf _ hp).covers i _ (h.right h₁)
    exact ⟨hq, h₁.trans h₂⟩
  alike i j s t hs ht h := by
    rw [Bytecode.append_assoc] at hs ht
    obtain ⟨hp, hs₁⟩ := hx.covers i s hs
    obtain ⟨-, ht₁⟩ := hx.covers j t ht
    obtain ⟨hv, h₁⟩ := hx.alike i j s t hs ht h
    have h₂ := (hf _ hp).alike i j _ _ (hs.right hs₁) (ht.right ht₁) h₁
    show (f i (x i s).1 (x i s).2).1 = (f j (x j t).1 (x j t).2).1 ∧
      Abreast (f i (x i s).1 (x i s).2).2 (f j (x j t).1 (x j t).2).2
    rwa [← hv]

protected theorem step (hx : Lists (fun i => b i ++ next i) x (fun _ => .nil) P)
    (hf : ∀ v, P v → Lists next (f · v) b Q) :
    Lists next (fun i => x i >>= f i) b Q := hx.bind hf

protected theorem finish (hx : Lists next x a P) (hf : ∀ v, P v → Lists next (f · v) (fun _ => .nil) Q) :
    Lists next (fun i => x i >>= f i) a Q := by
  have h := Lists.bind (b := fun _ => .nil) hx hf
  simpa only [Bytecode.append_nil] using h

/-- The next item, whose value is known; its bytes may be others in each view. -/
theorem item {read : Reader → α × Reader} {n : Nat} {bs : View res → List UInt8} {v : View res → α}
    (h : ∀ i, Reads read (bs i) (v i)) (hl : ∀ i, (bs i).length = n) (hf : Lists next (fun i => f i (v i)) b Q) :
    Lists next (fun i => Listing.take read >>= f i) (fun i => .raw (bs i) ++ b i) Q := by
  have eq {i : View res} {s : Listing} (hs : s.At (.raw (bs i) ++ (b i ++ next i))) :
      (Listing.take read >>= f i) s = f i (v i) (s.past n) := by
    show f i (Listing.take read s).1 (Listing.take read s).2 = _
    rw [take_eq (h i s.reader hs.left.sees), hl]
    rfl
  have past (i : View res) (s : Listing) : Over (.raw (bs i)) s (s.past n) := hl i ▸ .past s (bs i)
  refine ⟨fun i s hs => ?_, fun i j s t hs ht hst => ?_⟩
  · rw [Bytecode.append_assoc] at hs
    rw [eq hs]
    obtain ⟨hq, ho⟩ := hf.covers i _ (hs.right (past i s))
    exact ⟨hq, (past i s).trans ho⟩
  · rw [Bytecode.append_assoc] at hs ht
    rw [eq hs, eq ht]
    exact hf.alike i j _ _ (hs.right (past i s)) (ht.right (past j t)) ⟨congrArg (· + n) hst.pos, hst.lines⟩

protected theorem next {read : Reader → α × Reader} {bs : List UInt8} {v : α} (h : Reads read bs v)
    (hf : Lists next (f · v) b Q) : Lists next (fun i => Listing.take read >>= f i) (fun i => .raw bs ++ b i) Q :=
  item (fun _ => h) (fun _ => rfl) hf

theorem last {read : Reader → α × Reader} {bs : List UInt8} {v : α} (h : Reads read bs v)
    (hf : Lists next (f · v) (fun _ => .nil) Q) :
    Lists next (fun i => Listing.take read >>= f i) (fun _ => .raw bs) Q := by
  have hb := hf.next h
  simpa only [Bytecode.append_nil] using hb

theorem name {f : View res → NameId → Lister β} (text : String)
    (hf : Lists next (fun i => f i (i.pool.idOf text)) b Q) :
    Lists next (fun i => Listing.take Reader.name >>= f i) (fun i => .name i.pool text ++ b i) Q :=
  item (fun i => .name i.pool text) (fun _ => length_bytesLE 4 _) hf

theorem lastName {f : View res → NameId → Lister β} (text : String)
    (hf : Lists next (fun i => f i (i.pool.idOf text)) (fun _ => .nil) Q) :
    Lists next (fun i => Listing.take Reader.name >>= f i) (fun i => .name i.pool text) Q := by
  have hb := hf.name text
  simpa only [Bytecode.append_nil] using hb

theorem pos : Lists next (fun _ => pos) (fun _ => .nil) (fun _ => True) :=
  ⟨fun _ _ _ => ⟨trivial, rfl, (List.append_nil _).symm, id⟩, fun _ _ _ _ _ _ h => ⟨h.pos, h⟩⟩

theorem line (offset depth : Nat) (content : LineContent) (heads : List (Opcode × Position))
    (h : (ListingLine.head? ⟨offset, depth, content⟩).toList = heads.map shownHead)
    (hl : ListingLine.Named ⟨offset, depth, content⟩) :
    Lists next (fun _ => lineAt offset depth content) (fun _ => ⟨[], heads⟩) (fun _ => True) := by
  refine ⟨fun i s _ => ⟨trivial, rfl, ?_, fun hc => ⟨hc.reads, hc.blocks, ?_⟩⟩,
    fun _ _ s t _ _ hst => ⟨rfl, hst.pos, ?_⟩⟩
  · show (s.lines.push ⟨offset, depth, content⟩).toList.filterMap ListingLine.head? = _
    rw [Array.toList_push, List.filterMap_append, ← h, List.filterMap_cons]
    cases ListingLine.head? ⟨offset, depth, content⟩ <;> rfl
  · intro line hm
    change line ∈ (s.lines.push ⟨offset, depth, content⟩).toList at hm
    rw [Array.toList_push, List.mem_append, List.mem_singleton] at hm
    obtain hm | rfl := hm
    · exact hc.named line hm
    · exact hl
  · exact congrArg (Array.push · _) hst.lines

theorem note (depth : Nat) (text : String) :
    Lists next (fun _ => note depth text) (fun _ => .nil) (fun _ => True) :=
  .step pos fun offset _ => line offset depth (.note text) [] rfl trivial

/-- What follows tells what the computation does. -/
theorem congr {x y : View res → Lister β} (h : ∀ i s, s.At (b i ++ next i) → x i s = y i s)
    (hy : Lists next y b Q) :
    Lists next x b Q := by
  refine ⟨fun i s hs => ?_, fun i j s t hs ht hst => ?_⟩
  · rw [h i s hs]
    exact hy.covers i s hs
  · rw [h i s hs, h j t ht]
    exact hy.alike i j s t hs ht hst

theorem more {f : View res → Bool → Lister β} (h0 : ∀ i, 0 < (b i).size) (hf : Lists next (f · false) b Q) :
    Lists next (fun i => atEnd >>= f i) b Q := by
  refine congr (fun i s h => ?_) hf
  have h0 := h0 i
  have hp := (Reader.sees_length h.left.sees (List.length_pos_iff.mp h0)).1
  have he : s.reader.atEnd = false := decide_eq_false (by rw [Bytecode.size] at h0; omega)
  show f i s.reader.atEnd s = _
  rw [he]

theorem noMore {f : View res → Bool → Lister β}
    (hf : Lists (fun i => .endMark ++ next i) (f · false) (fun _ => .nil) Q) :
    Lists (fun i => .endMark ++ next i) (fun i => hasMore >>= f i) (fun _ => .nil) Q := by
  refine congr (fun i s h => ?_) hf
  have hm : (!s.reader.atEnd && s.reader.opcode.1 != .endMark) = false := by
    rw [Reads.opcode .endMark s.reader (Reader.sees_left h.sees)]
    simp
  show f i (!s.reader.atEnd && s.reader.opcode.1 != .endMark) s = _
  rw [hm]

theorem oneMore {f : View res → Bool → Lister β} {type : Expr} (ht : type.WellFormed)
    (hf : Lists next (f · true) (fun i => type.encode i.pool ++ a i) Q) :
    Lists next (fun i => hasMore >>= f i) (fun i => type.encode i.pool ++ a i) Q := by
  refine congr (fun i s h => ?_) hf
  obtain ⟨op, pos, code, hop, he⟩ := Expr.encode_head i.pool ht
  have ho : [op.code] <+: s.reader.rest := by
    have hs := h.left.left.sees
    rw [he] at hs
    exact Reader.sees_left (b := Bytecode.int32 pos.row ++ Bytecode.int32 pos.col) (Reader.sees_left hs)
  have hm : (!s.reader.atEnd && s.reader.opcode.1 != .endMark) = true := by
    rw [Reads.opcode op s.reader ho, Reader.atEnd]
    simpa using ⟨(Reader.sees_byte ho).1, hop⟩
  show f i (!s.reader.atEnd && s.reader.opcode.1 != .endMark) s = _
  rw [hm]

theorem within {x : View res → Lister Unit} (hx : Lists (fun _ => .nil) x a (fun _ => True)) :
    Lists next (fun i => Listing.within (x i)) (fun i => .block (a i)) (fun _ => True) := by
  have inner {i : View res} {s : Listing} (h : s.At (.block (a i) ++ next i)) :
      (s.content (a i)).At (a i ++ .nil) := by
    rw [Bytecode.append_nil]
    exact h.left.content.2
  refine ⟨fun i s h => ?_, fun i j s t hs ht hst => ?_⟩
  · rw [h.left.within_eq]
    exact ⟨trivial, .block h.left (hx.covers i _ (inner h)).2⟩
  · rw [hs.left.within_eq, ht.left.within_eq]
    obtain ⟨-, hi⟩ := hx.covers i _ (inner hs)
    obtain ⟨-, hj⟩ := hx.covers j _ (inner ht)
    obtain ⟨-, hp, hl⟩ := hx.alike i j _ _ (inner hs) (inner ht) ⟨congrArg (· + 4) hst.pos, hst.lines⟩
    -- where the walks inside end tells that the blocks are as long
    rw [hi.reader, hj.reader, hs.left.content.1, ht.left.content.1] at hp
    refine ⟨rfl, ?_, hl⟩
    show s.reader.pos + (4 + (a i).bytes.length) = t.reader.pos + (4 + (a j).bytes.length)
    rw [← Nat.add_assoc, ← Nat.add_assoc]
    exact hp

end Lists

/-! ## Heads of nodes -/

variable {res : String → String} {next : View res → Bytecode} {pool : Names}

def Heads (op : Opcode) (isStruct : Bool) (p : String × Bool) : Prop :=
  p.2 = isStruct ∧ ∃ details, p.1 = op.name ++ details

theorem Heads.more {op : Opcode} {isStruct : Bool} {text : String} (details : String)
    (h : text = op.name ++ details) (more : String) : Heads op isStruct (text ++ more, isStruct) :=
  ⟨rfl, details ++ more, by rw [h, String.append_assoc]⟩

theorem head_plain {op : Opcode} (h : op.standsAlone = true ∨ op.shape? = some .query) :
    Lists next (fun i => head i.shown op) (fun _ => .nil) (Heads op false) := by
  cases op <;> first | exact .pure ⟨rfl, "", rfl⟩ | exact absurd h (by decide)

theorem node_plain {op : Opcode} {depth n : Nat} (h : op.standsAlone = true ∨ op.shape? = some .query) :
    Lists next (fun i => node i.shown op depth (n + 1)) (fun _ => .nil) (fun _ => True) := by
  cases op <;> first | exact .pure trivial | exact absurd h (by decide)

theorem head_lists {form : Form} (h : form.WellFormed) :
    Lists next (fun i => head i.shown form.opcode) (fun i => form.onLine i.pool)
    (Heads form.opcode form.isStruct) := by
  have named (op : Opcode) (name : String) (text : String → String) (ht : ∀ s, Heads op false (text s, false)) :
      Lists next (fun i => do
        return (← (do return text (i.shown.text (← take Reader.name)) : Lister String), false))
        (fun i => .name i.pool name) (Heads op false) := by
    refine .finish (P := fun t => Heads op false (t, false)) (.lastName name ?_) fun _ hd => .pure hd
    simp only [View.reads]
    exact .pure (ht _)
  cases form with
  | integer n => exact .last (.u64 n) (.pure (.more " " rfl _))
  | float n => exact .last (.u64 n) (.pure (.more " " rfl _))
  | text name =>
    refine named .text name (fun s => "String \"" ++ Text.ascii s ++ "\"") fun s => ?_
    rw [String.append_assoc]
    exact .more " \"" rfl _
  | variableRef name =>
    exact named .variableRef name (fun s => Opcode.variableRef.name ++ " " ++ s) fun _ => .more " " rfl _
  | deferName name =>
    exact named .deferName name (fun s => Opcode.deferName.name ++ " " ++ s) fun _ => .more " " rfl _
  | includeFile name =>
    exact named .includeFile name (fun s => Opcode.includeFile.name ++ " " ++ s) fun _ => .more " " rfl _
  | member name =>
    exact named .member name (fun s => "WalkStruct ." ++ s) fun _ => .more " ." rfl _
  | operator op => exact head_plain (.inl h)
  | query op name => exact head_plain (.inr h)
  | truth value => exact .last (.bool value) (.pure (.more " " rfl _))
  | newValue scope type init =>
    refine .last (.bool scope) (.pure ⟨rfl, if scope then " scoped" else "", ?_⟩)
    cases scope <;> rfl
  | declare external name generics body =>
    refine .next (.bool external) (.lastName name ?_)
    simp only [View.reads]
    refine .pure (.more (if external then " extern " else " ") ?_ _)
    cases external <;> rfl
  | structType isConst base fields =>
    refine .next (.bool isConst) (.last (.u8 Kind.struct.code) ?_)
    rw [Kind.ofCode?_code]
    refine .pure ?_
    rw [String.append_assoc]
    exact .more " " rfl _
  | baseType isConst kind unsigned =>
    simp only [Form.onLine, Bytecode.append_assoc]
    refine .next (.bool isConst) (.next (.u8 kind.code) ?_)
    rw [Kind.ofCode?_code]
    cases kind with
    | struct => exact absurd rfl h
    | _ =>
      refine .last (.bool unsigned) (.pure ?_)
      rw [String.append_assoc, String.append_assoc]
      exact .more " " rfl _
  | _ => exact .pure ⟨rfl, "", rfl⟩

/-- A head is read in three steps, and its line follows the operands on it. -/
theorem head_code (op : Opcode) (pos : Position) {a : Bytecode} (ha : a.heads = []) (b : Bytecode) :
    Bytecode.op op pos ++ (a ++ b) = .raw [op.code] ++ (.raw (Bytecode.int32 pos.row) ++
      (.raw (Bytecode.int32 pos.col) ++ (a ++ (⟨[], [(op, pos)]⟩ ++ b)))) := by
  ext1
  · simp [Bytecode.op, Bytecode.raw]
  · simp [Bytecode.op, Bytecode.raw, ha]

theorem excluded_lists (depth : Nat) (b : Bool) :
    Lists next (fun _ => excluded depth) (fun _ => .bool b) (fun _ => True) := by
  refine .step .pos fun offset _ => .last (.bool b) ?_
  cases b with
  | false => exact .pure trivial
  | true => exact .line offset depth _ [] rfl trivial

/-! ## The walk -/

/-- Walks of this fuel go over all code that is not too long; the length is the same under every pool. -/
structure Walks (res : String → String) (pool : Names) (n : Nat) : Prop where
  commands {next : View res → Bytecode} (depth cs) : CommandsWellFormed cs → (encodeCommands pool cs).size + 1 ≤ n →
    Lists next (fun i => commands i.shown depth n) (fun i => encodeCommands i.pool cs ++ .endMark) (fun _ => True)
  command {next : View res → Bytecode} (form depth) : CommandForm.WellFormed form →
      (form.operands pool).size + 1 ≤ n →
    Lists next (fun i => command i.shown form.opcode depth n) (fun i => form.operands i.pool) (fun _ => True)
  block {next : View res → Bytecode} (label depth b) : Block.WellFormed b → (b.encode pool).size ≤ n →
    Lists next (fun i => block i.shown label depth n) (fun i => b.encode i.pool) (fun _ => True)
  branch {next : View res → Bytecode} (label depth x) : Expr.WellFormed x → (x.encode pool).size + 1 ≤ n →
    Lists next (fun i => branch i.shown label depth n) (fun i => .block (x.encode i.pool)) (fun _ => True)
  nodes {next : View res → Bytecode} (depth ns) : NodesWellFormed ns → (encodeNodes pool ns).size + 1 ≤ n →
    Lists next (fun i => expression i.shown depth n) (fun i => encodeNodes i.pool ns ++ .endMark) (fun _ => True)
  node {next : View res → Bytecode} (form depth) : Form.WellFormed form → form.isStruct = false →
      (form.underLine pool).size + 3 ≤ n →
    Lists next (fun i => node i.shown form.opcode depth n) (fun i => form.underLine i.pool) (fun _ => True)
  labelled {next : View res → Bytecode} (label depth x) : Expr.WellFormed x → (x.encode pool).size + 1 ≤ n →
    Lists next (fun i => labelled i.shown label depth n) (fun i => x.encode i.pool) (fun _ => True)
  arguments {next : View res → Bytecode} (count depth xs) : ExprsWellFormed xs →
      (encodeExprs pool xs).size + 2 ≤ n →
    Lists (fun i => .endMark ++ next i) (fun i => arguments i.shown count depth n)
        (fun i => encodeExprs i.pool xs) (fun _ => True)
  params {next : View res → Bytecode} (depth ps) : ParamsWellFormed ps → (encodeParams pool ps).size + 2 ≤ n →
    Lists (fun i => .endMark ++ next i) (fun i => params i.shown depth n)
        (fun i => encodeParams i.pool ps) (fun _ => True)
  elements {next : View res → Bytecode} (depth xs) : ExprsWellFormed xs → (encodeExprs pool xs).size + 2 ≤ n →
    Lists (fun i => .endMark ++ next i) (fun i => elements i.shown depth n)
        (fun i => encodeExprs i.pool xs) (fun _ => True)
  generics {next : View res → Bytecode} (depth bs) : BindingsWellFormed bs → (encodeBindings pool bs).size + 1 ≤ n →
    Lists next (fun i => generics i.shown depth n) (fun i => encodeBindings i.pool bs ++ .bool false)
        (fun _ => True)
  overrides {next : View res → Bytecode} (depth bs) : BindingsWellFormed bs →
      (encodeBindings pool bs).size + 1 ≤ n →
    Lists next (fun i => overrides i.shown depth n) (fun i => encodeBindings i.pool bs ++ .bool false)
        (fun _ => True)
  field {next : View res → Bytecode} (depth type name value placement) :
    Expr.WellFormed type ∧ FieldValue.WellFormed value ∧ Placement.WellFormed placement →
    (type.encode pool ++ .optName pool name ++ value.encode pool ++ placement.encode pool).size + 3 ≤ n →
    Lists next (fun i => field i.shown depth n)
      (fun i => type.encode i.pool ++ .optName i.pool name ++ value.encode i.pool ++
          placement.encode i.pool) (fun _ => True)
  fields {next : View res → Bytecode} (depth fs) : FieldsWellFormed fs → (encodeFields pool fs).size + 1 ≤ n →
    Lists next (fun i => fields i.shown depth n) (fun i => encodeFields i.pool fs ++ .bool false) (fun _ => True)
  struct {next : View res → Bytecode} (depth isConst base fs) : Form.WellFormed (.structType isConst base fs) →
    ((Form.structType isConst base fs).underLine pool).size + 1 ≤ n →
    Lists next (fun i => struct i.shown depth n)
        (fun i => (Form.structType isConst base fs).underLine i.pool) (fun _ => True)
  allocation {next : View res → Bytecode} (depth type init) : Expr.WellFormed type → Init.WellFormed init →
    (type.encode pool ++ init.encode pool).size ≤ n →
    Lists next (fun i => allocation i.shown depth n) (fun i => type.encode i.pool ++ init.encode i.pool)
        (fun _ => True)

variable {n : Nat} (h : Walks res pool n)
include h

theorem expression_lists (depth : Nat) (x : Expr) (hx : x.WellFormed) (hn : (x.encode pool).size ≤ n) :
    Lists next (fun i => expression i.shown depth n) (fun i => x.encode i.pool) (fun _ => True) := by
  cases x with
  | mk ns =>
    simp only [Expr.encode] at hn ⊢
    exact h.nodes depth ns hx.2 (by simpa using hn)

theorem commands_lists (depth : Nat) (cs : List Command) (hc : CommandsWellFormed cs)
    (hn : (encodeCommands pool cs).size + 1 ≤ n + 1) :
    Lists next (fun i => commands i.shown depth (n + 1)) (fun i => encodeCommands i.pool cs ++ .endMark)
    (fun _ => True) := by
  simp only [commands]
  refine .more (by simp) (.step .pos fun offset _ => ?_)
  cases cs with
  | nil =>
    refine .last (.opcode .endMark) ?_
    simp only [reduceIte]
    exact .pure trivial
  | cons c cs =>
    obtain ⟨pos, form⟩ := c
    simp only [encodeCommands, Command.encode, Bytecode.size_append, Bytecode.size_op] at hn
    have hcode (b : Bytecode) : Bytecode.op form.opcode pos ++ b = _ := head_code form.opcode pos (a := .nil) rfl b
    simp only [encodeCommands, Command.encode, Bytecode.append_assoc, hcode]
    refine .next (.opcode form.opcode) ?_
    simp only [if_neg form.opcode_ne_endMark]
    refine .next (.i32 pos.row) (.next (.i32 pos.col) ?_)
    simp only [Bytecode.nil_append]
    refine .bind (.line _ _ _ _ rfl ⟨"", String.append_empty.symm⟩) fun _ _ => ?_
    exact .bind (h.command form _ hc.1 (by omega)) fun _ _ => h.commands depth cs hc.2 (by omega)

theorem command_lists (form : CommandForm) (depth : Nat) (hf : form.WellFormed)
    (hn : (form.operands pool).size + 1 ≤ n + 1) :
    Lists next (fun i => command i.shown form.opcode depth (n + 1)) (fun i => form.operands i.pool)
    (fun _ => True) := by
  cases form with
  | ifElse condition yes no =>
    simp only [CommandForm.opcode, command]
    cases no with
    | none =>
      simp only [CommandForm.operands, Bytecode.append_assoc, Bytecode.size_append] at hn ⊢
      refine .bind (expression_lists h depth condition hf.1 (by omega)) fun _ _ => ?_
      refine .bind (h.block _ depth yes hf.2 (by omega)) fun _ _ => ?_
      exact .last (.bool false) (.pure trivial)
    | some no =>
      simp only [CommandForm.operands, Bytecode.append_assoc, Bytecode.size_append] at hn ⊢
      refine .bind (expression_lists h depth condition hf.1 (by omega)) fun _ _ => ?_
      refine .bind (h.block _ depth yes hf.2.1 (by omega)) fun _ _ => ?_
      exact .next (.bool true) (h.block _ depth no hf.2.2 (by omega))
  | whileLoop condition body =>
    simp only [CommandForm.opcode, command]
    simp only [CommandForm.operands, Bytecode.size_append] at hn ⊢
    exact .bind (expression_lists h depth condition hf.1 (by omega)) fun _ _ => h.block _ depth body hf.2 (by omega)
  | forLoop type name low lowExcluded high highExcluded step body =>
    obtain ⟨ht, hl, hh, hs, hb⟩ := CommandForm.wellFormed_forLoop hf
    simp only [CommandForm.opcode, command]
    simp only [CommandForm.operands_forLoop, Bytecode.append_assoc, Bytecode.size_append] at hn ⊢
    refine .bind (expression_lists h depth type ht (by omega)) fun _ _ => ?_
    refine .name name ?_
    simp only [View.reads]
    refine .step (.note _ _) fun _ _ => ?_
    refine .bind (expression_lists h depth low hl (by omega)) fun _ _ => ?_
    refine .bind (excluded_lists depth lowExcluded) fun _ _ => ?_
    refine .bind (expression_lists h depth high hh (by omega)) fun _ _ => ?_
    refine .bind (excluded_lists depth highExcluded) fun _ _ => ?_
    have hbody : Lists next _ _ _ := h.block "body" depth body hb (by omega)
    cases step with
    | none => exact .next (.bool false) hbody
    | some step =>
      simp only [optExpr, Bytecode.append_assoc, Bytecode.size_append] at hn ⊢
      exact .next (.bool true) (.bind (expression_lists h depth step (hs step rfl) (by omega)) fun _ _ => hbody)
  | returnValue value =>
    simp only [CommandForm.opcode, command]
    cases value with
    | none => exact .last (.bool false) (.pure trivial)
    | some value =>
      simp only [CommandForm.operands, Bytecode.size_append] at hn ⊢
      exact .next (.bool true) (expression_lists h depth value hf (by omega))
  | tryCatch body handler =>
    simp only [CommandForm.opcode, command]
    simp only [CommandForm.operands, Bytecode.size_append] at hn ⊢
    refine .bind (h.block _ depth body hf.1 (by omega)) fun _ _ => ?_
    cases handler with
    | absent => exact .last (.bool false) (.pure trivial)
    | handle silently name handler =>
      simp only [Handler.encode, Bytecode.append_assoc, Bytecode.size_append] at hn ⊢
      refine .next (.bool true) (.next (.bool silently) ?_)
      cases name with
      | none => exact .next (.bool false) (h.block _ depth handler hf.2 (by omega))
      | some name =>
        simp only [Bytecode.optName, Bytecode.append_assoc]
        refine .next (.bool true) (.name name ?_)
        simp only [View.reads]
        exact h.block _ depth handler hf.2 (by omega)
  | throwValue value message =>
    simp only [CommandForm.opcode, command]
    simp only [CommandForm.operands, Bytecode.size_append] at hn ⊢
    refine .bind (expression_lists h depth value hf (by omega)) fun _ _ => ?_
    cases message with
    | none => exact .last (.bool false) (.pure trivial)
    | some message =>
      refine .next (.bool true) (.lastName message ?_)
      simp only [View.reads]
      exact .note _ _
  | codeblock body =>
    simp only [CommandForm.opcode, command]
    simp only [CommandForm.operands] at hn ⊢
    exact h.block _ depth body hf (by omega)
  | expression value =>
    simp only [CommandForm.opcode, command]
    simp only [CommandForm.operands] at hn ⊢
    exact expression_lists h depth value hf (by omega)
  | continueLoop => exact .pure trivial
  | breakLoop => exact .pure trivial

theorem block_lists (label : String) (depth : Nat) (b : Block) (hb : b.WellFormed)
    (hn : (b.encode pool).size ≤ n + 1) :
    Lists next (fun i => block i.shown label depth (n + 1)) (fun i => b.encode i.pool) (fun _ => True) := by
  cases b with
  | mk cs =>
    simp only [block, Block.encode]
    rw [Block.encode, Bytecode.size_block, Bytecode.size_append, Bytecode.size_endMark] at hn
    exact .step (.note _ _) fun _ _ => .within (h.commands _ cs hb (by omega))

theorem branch_lists (label : String) (depth : Nat) (x : Expr) (hx : x.WellFormed)
    (hn : (x.encode pool).size + 1 ≤ n + 1) :
    Lists next (fun i => branch i.shown label depth (n + 1)) (fun i => .block (x.encode i.pool))
    (fun _ => True) := by
  simp only [branch]
  exact .step (.note _ _) fun _ _ => .within (expression_lists h _ x hx (by omega))

theorem labelled_lists (label : String) (depth : Nat) (x : Expr) (hx : x.WellFormed)
    (hn : (x.encode pool).size + 1 ≤ n + 1) :
    Lists next (fun i => labelled i.shown label depth (n + 1)) (fun i => x.encode i.pool) (fun _ => True) := by
  simp only [labelled]
  exact .step (.note _ _) fun _ _ => expression_lists h _ x hx (by omega)

theorem nodes_lists (depth : Nat) (ns : List Node) (hw : NodesWellFormed ns)
    (hn : (encodeNodes pool ns).size + 1 ≤ n + 1) :
    Lists next (fun i => expression i.shown depth (n + 1)) (fun i => encodeNodes i.pool ns ++ .endMark)
    (fun _ => True) := by
  simp only [expression]
  refine .step .pos fun offset _ => ?_
  cases ns with
  | nil =>
    refine .last (.opcode .endMark) ?_
    simp only [reduceIte]
    exact .pure trivial
  | cons node ns =>
    obtain ⟨pos, form⟩ := node
    simp only [encodeNodes, Node.encode, Form.operands_eq, Bytecode.size_append, Bytecode.size_op] at hn
    simp only [encodeNodes, Node.encode, Form.operands_eq, Bytecode.append_assoc,
      head_code form.opcode pos (Form.heads_onLine _ form)]
    refine .next (.opcode form.opcode) ?_
    simp only [if_neg (Form.opcode_ne_endMark hw.1)]
    refine .more (by simp only [Bytecode.size_append, Bytecode.size_raw, Bytecode.length_int32]; omega) ?_
    refine .next (.i32 pos.row) (.next (.i32 pos.col) (.bind (head_lists hw.1) fun p hp => ?_))
    refine .bind (.line _ _ _ _ rfl hp.2) fun _ _ => ?_
    simp only [hp.1]
    have hmore : Lists next _ _ _ := h.nodes depth ns hw.2 (by omega)
    cases hs : form.isStruct with
    | false => exact .bind (h.node form _ hw.1 hs (by omega)) fun _ _ => hmore
    | true =>
      obtain ⟨isConst, base, fields, rfl⟩ := Form.isStruct_eq hs
      exact .bind (h.struct _ isConst base fields hw.1 (by omega)) fun _ _ => hmore

theorem arguments_lists (count depth : Nat) (xs : List Expr) (hx : ExprsWellFormed xs)
    (hn : (encodeExprs pool xs).size + 2 ≤ n + 1) :
    Lists (fun i => .endMark ++ next i) (fun i => arguments i.shown count depth (n + 1))
    (fun i => encodeExprs i.pool xs)
      (fun _ => True) := by
  simp only [arguments]
  cases xs with
  | nil => exact .noMore (.pure trivial)
  | cons x xs =>
    have hs := x.size_pos pool
    simp only [encodeExprs, Bytecode.size_append] at hn ⊢
    refine .oneMore hx.1 ?_
    exact .bind (h.labelled _ depth x hx.1 (by omega)) fun _ _ => (h.arguments _ depth xs hx.2 (by omega))

theorem elements_lists (depth : Nat) (xs : List Expr) (hx : ExprsWellFormed xs)
    (hn : (encodeExprs pool xs).size + 2 ≤ n + 1) :
    Lists (fun i => .endMark ++ next i) (fun i => elements i.shown depth (n + 1))
    (fun i => encodeExprs i.pool xs) (fun _ => True) := by
  simp only [elements]
  cases xs with
  | nil => exact .noMore (.pure trivial)
  | cons x xs =>
    have hs := x.size_pos pool
    simp only [encodeExprs, Bytecode.size_append] at hn ⊢
    refine .oneMore hx.1 ?_
    exact .bind (h.labelled _ depth x hx.1 (by omega)) fun _ _ => (h.elements depth xs hx.2 (by omega))

theorem params_lists (depth : Nat) (ps : List ParamTree) (hp : ParamsWellFormed ps)
    (hn : (encodeParams pool ps).size + 2 ≤ n + 1) :
    Lists (fun i => .endMark ++ next i) (fun i => params i.shown depth (n + 1))
    (fun i => encodeParams i.pool ps) (fun _ => True) := by
  simp only [params]
  cases ps with
  | nil => exact .noMore (.pure trivial)
  | cons p ps =>
    obtain ⟨type, name⟩ := p
    have hs := type.size_pos pool
    simp only [encodeParams, Bytecode.append_assoc, Bytecode.size_append] at hn ⊢
    refine .oneMore hp.1 ?_
    refine .bind (h.labelled _ depth type hp.1 (by omega)) fun _ _ => ?_
    have hmore : Lists (fun i => .endMark ++ next i) _ _ _ := h.params depth ps hp.2 (by omega)
    cases name with
    | none => exact .next (.bool false) hmore
    | some name =>
      simp only [Bytecode.optName, Bytecode.append_assoc]
      refine .next (.bool true) (.name name ?_)
      simp only [View.reads]
      exact .step (.note _ _) fun _ _ => hmore

theorem bindings_list (walk : Names → Nat → Lister Unit) (label : String → String) (depth : Nat)
    (hw : ∀ names, walk names (n + 1) = (take Reader.bool >>= fun b => if b then take Reader.name >>= fun name =>
      labelled names (label (names.text name)) depth n >>= fun _ => walk names n else pure ()))
    (ih : ∀ bs, BindingsWellFormed bs → (encodeBindings pool bs).size + 1 ≤ n →
      Lists next (fun i => walk i.shown n) (fun i => encodeBindings i.pool bs ++ .bool false) (fun _ => True))
    (bs : List Binding) (hb : BindingsWellFormed bs) (hn : (encodeBindings pool bs).size + 1 ≤ n + 1) :
    Lists next (fun i => walk i.shown (n + 1)) (fun i => encodeBindings i.pool bs ++ .bool false)
    (fun _ => True) := by
  simp only [hw]
  cases bs with
  | nil => exact .last (.bool false) (.pure trivial)
  | cons b bs =>
    obtain ⟨name, value⟩ := b
    simp only [encodeBindings, Bytecode.append_assoc, Bytecode.size_append, Bytecode.size_bool] at hn ⊢
    refine .next (.bool true) (.name name ?_)
    simp only [View.reads]
    exact .bind (h.labelled _ depth value hb.1 (by omega)) fun _ _ => ih bs hb.2 (by omega)

theorem struct_lists (depth : Nat) (isConst : Bool) (base : Option Expr) (fs : List FieldTree)
    (hf : (Form.structType isConst base fs).WellFormed)
    (hn : ((Form.structType isConst base fs).underLine pool).size + 1 ≤ n + 1) :
    Lists next (fun i => struct i.shown depth (n + 1))
    (fun i => (Form.structType isConst base fs).underLine i.pool) (fun _ => True) := by
  simp only [struct]
  cases base with
  | none =>
    simp only [Form.underLine, Bytecode.append_assoc, Bytecode.size_append, Bytecode.size_bool] at hn ⊢
    exact .next (.bool false) (h.fields depth fs hf (by omega))
  | some base =>
    simp only [Form.underLine, Bytecode.append_assoc, Bytecode.size_append, Bytecode.size_bool] at hn ⊢
    refine .next (.bool true) (.bind (h.labelled _ depth base hf.1 (by omega)) fun _ _ => ?_)
    exact h.fields depth fs hf.2 (by omega)

theorem fields_lists (depth : Nat) (fs : List FieldTree) (hf : FieldsWellFormed fs)
    (hn : (encodeFields pool fs).size + 1 ≤ n + 1) :
    Lists next (fun i => fields i.shown depth (n + 1)) (fun i => encodeFields i.pool fs ++ .bool false)
    (fun _ => True) := by
  simp only [fields]
  cases fs with
  | nil => exact .last (.bool false) (.pure trivial)
  | cons f fs =>
    obtain ⟨pos, inlined, type, name, value, placement⟩ := f
    obtain ⟨⟨hi, hr⟩, hfs⟩ := hf
    simp only [encodeFields, FieldTree.encode, Bytecode.append_assoc, Bytecode.size_append,
      Bytecode.size_bool, Bytecode.size_raw,
      List.length_append, Bytecode.length_int32] at hn ⊢
    simp only [Bytecode.raw_append, Bytecode.append_assoc]
    refine .next (.bool true) (.next (.i32 pos.row) (.next (.i32 pos.col) (.step .pos fun offset _ => ?_)))
    have hmore : Lists next _ _ _ :=
      .bind (h.field (depth + 1) type name value placement hr (by simp only [Bytecode.size_append]; omega))
      fun _ _ => h.fields depth fs hfs (by omega)
    simp only [Bytecode.append_assoc] at hmore
    cases inlined with
    | no => exact .next (.bool false) (.step (.line _ _ _ [] rfl trivial) fun _ _ => hmore)
    | once =>
      simp only [Inlined.encode, Bytecode.append_assoc]
      exact .next (.bool true) (.next (.bool false) (.step (.line _ _ _ [] rfl trivial) fun _ _ => hmore))
    | times count =>
      simp only [Inlined.encode, Bytecode.append_assoc, Bytecode.size_append, Bytecode.size_bool] at hn ⊢
      refine .next (.bool true) (.next (.bool true) (.step (.line _ _ _ [] rfl trivial) fun _ _ => ?_))
      exact .bind (expression_lists h _ count hi (by omega)) fun _ _ => hmore

theorem placement_lists (depth : Nat) (placement : Placement) (hp : placement.WellFormed)
    (hn : (placement.encode pool).size + 2 ≤ n) :
    Lists next (fun i => do
      if ← take Reader.bool then
        let label := if ← take Reader.bool then "offset +@" else "offset @"
        labelled i.shown label depth n) (fun i => placement.encode i.pool) (fun _ => True) := by
  cases placement with
  | auto => exact .last (.bool false) (.pure trivial)
  | absolute offset =>
    simp only [Placement.encode, Bytecode.append_assoc, Bytecode.size_append] at hn ⊢
    exact .next (.bool true) (.next (.bool false) (h.labelled _ depth offset hp (by omega)))
  | relative offset =>
    simp only [Placement.encode, Bytecode.append_assoc, Bytecode.size_append] at hn ⊢
    exact .next (.bool true) (.next (.bool true) (h.labelled _ depth offset hp (by omega)))

theorem fieldValue_lists (depth : Nat) (value : FieldValue) (hv : value.WellFormed)
    (hn : (value.encode pool).size + 2 ≤ n)
    {place : View res → Lister Unit} {code : View res → Bytecode} (hp : Lists next place code (fun _ => True)) :
    Lists next (fun i => do
      if ← take Reader.bool then
        if ← take Reader.bool then
          let mode ← take Reader.capture
          block i.shown ("body [" ++ mode.name ++ "]") depth n
        else labelled i.shown "default:" depth n
      place i) (fun i => value.encode i.pool ++ code i) (fun _ => True) := by
  cases value with
  | absent => exact .next (.bool false) hp
  | value init =>
    simp only [FieldValue.encode, Bytecode.append_assoc, Bytecode.size_append] at hn ⊢
    exact .next (.bool true) (.next (.bool false) (.bind (h.labelled _ depth init hv (by omega)) fun _ _ => hp))
  | method capture body =>
    simp only [FieldValue.encode, Bytecode.append_assoc, Bytecode.size_append] at hn ⊢
    refine .next (.bool true) (.next (.bool true) (.next (.capture capture) ?_))
    exact .bind (h.block _ depth body hv (by omega)) fun _ _ => hp

theorem field_lists (depth : Nat) (type : Expr) (name : Option String) (value : FieldValue) (placement : Placement)
    (hf : type.WellFormed ∧ value.WellFormed ∧ placement.WellFormed)
    (hn : (type.encode pool ++ .optName pool name ++ value.encode pool ++ placement.encode pool).size + 3 ≤ n + 1) :
    Lists next (fun i => field i.shown depth (n + 1))
      (fun i => type.encode i.pool ++ .optName i.pool name ++ value.encode i.pool ++
        placement.encode i.pool) (fun _ => True) := by
  obtain ⟨ht, hv, hp⟩ := hf
  simp only [field]
  simp only [Bytecode.append_assoc, Bytecode.size_append] at hn ⊢
  refine .bind (expression_lists h depth type ht (by omega)) fun _ _ => ?_
  have hplace : Lists next _ _ _ := placement_lists h depth placement hp (by omega)
  have hvalue := fieldValue_lists h depth value hv (by omega) hplace
  cases name with
  | none => exact .next (.bool false) hvalue
  | some name =>
    simp only [Bytecode.optName, Bytecode.append_assoc]
    refine .next (.bool true) (.name name ?_)
    simp only [View.reads]
    exact .step (.note _ _) fun _ _ => hvalue

theorem allocation_lists (depth : Nat) (type : Expr) (init : Init) (ht : type.WellFormed) (hi : init.WellFormed)
    (hn : (type.encode pool ++ init.encode pool).size ≤ n + 1) :
    Lists next (fun i => allocation i.shown depth (n + 1))
    (fun i => type.encode i.pool ++ init.encode i.pool) (fun _ => True) := by
  simp only [allocation]
  have hp := type.size_pos pool
  rw [Bytecode.size_append] at hn
  cases init with
  | bare =>
    rw [Init.encode, Bytecode.size_byte] at hn
    refine .bind (expression_lists h depth type ht (by omega)) fun _ _ => ?_
    exact .last (.form .bare) (.step (.note _ _) fun _ _ => .pure trivial)
  | scalar value =>
    simp only [Init.encode, Bytecode.size_append, Bytecode.size_byte] at hn ⊢
    refine .bind (expression_lists h depth type ht (by omega)) fun _ _ => ?_
    refine .next (.form .scalar) (.step (.note _ _) fun _ _ => ?_)
    exact expression_lists h depth value hi (by omega)
  | struct overrides =>
    simp only [Init.encode, Bytecode.append_assoc, Bytecode.size_append, Bytecode.size_byte] at hn ⊢
    refine .bind (expression_lists h depth type ht (by omega)) fun _ _ => ?_
    refine .next (.form .struct) (.step (.note _ _) fun _ _ => ?_)
    exact h.overrides depth overrides hi (by omega)
  | function capture body =>
    simp only [Init.encode, Bytecode.append_assoc, Bytecode.size_append, Bytecode.size_byte] at hn ⊢
    refine .bind (expression_lists h depth type ht (by omega)) fun _ _ => ?_
    refine .next (.form .function) (.step (.note _ _) fun _ _ => ?_)
    exact .next (.capture capture) (h.block _ depth body hi (by omega))
  | array count elements =>
    have hc := count.size_pos pool
    simp only [Init.encode, Bytecode.append_assoc, Bytecode.size_append, Bytecode.size_byte,
      Bytecode.size_endMark] at hn ⊢
    refine .bind (expression_lists h depth type ht (by omega)) fun _ _ => ?_
    refine .next (.form .array) (.step (.note _ _) fun _ _ => ?_)
    refine .bind (expression_lists h depth count hi.1 (by omega)) fun _ _ => ?_
    exact Lists.bind (h.elements depth elements hi.2 (by omega)) fun _ _ => .last (.u8 _) (.pure trivial)

theorem node_lists (form : Form) (depth : Nat) (hf : form.WellFormed) (hs : form.isStruct = false)
    (hn : (form.underLine pool).size + 3 ≤ n + 1) :
    Lists next (fun i => node i.shown form.opcode depth (n + 1)) (fun i => form.underLine i.pool)
    (fun _ => True) := by
  cases form with
  | paren inner => exact expression_lists h depth inner hf (by rw [Form.underLine] at hn; omega)
  | varargs inner => exact expression_lists h depth inner hf (by rw [Form.underLine] at hn; omega)
  | typeOf inner => exact expression_lists h depth inner hf (by rw [Form.underLine] at hn; omega)
  | deleteValue inner => exact expression_lists h depth inner hf (by rw [Form.underLine] at hn; omega)
  | index inner => exact expression_lists h depth inner hf (by rw [Form.underLine] at hn; omega)
  | varargCount => exact .last (.bool true) (.note _ _)
  | sizeOf inner =>
    rw [Form.underLine, Bytecode.size_append] at hn
    exact .next (.bool false) (expression_lists h depth inner hf (by omega))
  | scopeHere => exact .last (.bool false) (.pure trivial)
  | scopeOf name =>
    refine .next (.bool true) (.lastName name ?_)
    simp only [View.reads]
    exact .note _ _
  | newValue scope type init =>
    rw [Form.underLine] at hn
    exact h.allocation depth type init hf.1 hf.2 (by omega)
  | moveValue target level =>
    rw [Form.underLine, Bytecode.size_append] at hn
    exact .bind (expression_lists h depth target hf.1 (by omega)) fun _ _ =>
      expression_lists h depth level hf.2 (by omega)
  | ternary condition yes no =>
    simp only [Form.opcode, node]
    simp only [Form.underLine, Bytecode.append_assoc, Bytecode.size_append, Bytecode.size_block] at hn ⊢
    refine .bind (expression_lists h depth condition hf.1 (by omega)) fun _ _ => ?_
    exact .bind (h.branch _ depth yes hf.2.1 (by omega)) fun _ _ => h.branch _ depth no hf.2.2 (by omega)
  | declare external name generics body =>
    simp only [Form.opcode, node]
    simp only [Form.underLine, Bytecode.size_append, Bytecode.size_bool] at hn ⊢
    refine .bind (h.generics depth generics hf.1 (by omega)) fun _ _ => ?_
    cases body with
    | absent => exact .last (.bool false) (.pure trivial)
    | code capture body =>
      simp only [BodyTree.encode, Bytecode.append_assoc, Bytecode.size_append] at hn ⊢
      exact .next (.bool true) (.next (.capture capture) (h.block _ depth body hf.2 (by omega)))
  | call args =>
    simp only [Form.opcode, node]
    simp only [Form.underLine, Bytecode.size_append, Bytecode.size_endMark] at hn ⊢
    exact Lists.bind (h.arguments 0 depth args hf (by omega)) fun _ _ => .last (.u8 _) (.pure trivial)
  | functionType assignable params =>
    simp only [Form.opcode, node]
    simp only [Form.underLine, Bytecode.append_assoc, Bytecode.size_append, Bytecode.size_endMark,
      Bytecode.size_bool] at hn ⊢
    have hp : Lists next (fun i => Listing.params i.shown depth n >>= fun _ => take Reader.u8 >>= fun _ => pure ())
        (fun i => encodeParams i.pool params ++ .endMark) (fun _ => True) :=
      Lists.bind (h.params depth params hf (by omega)) fun _ _ => .last (.u8 _) (.pure trivial)
    refine .next (.bool assignable) ?_
    cases assignable with
    | false => exact hp
    | true => exact .step (.note _ _) fun _ _ => hp
  | structType isConst base fields => cases hs
  | operator op => exact node_plain (.inl hf)
  | query op name => exact node_plain (.inr hf)
  | _ => exact .pure trivial

omit h in
/-- Every walk with enough fuel goes over all of the code. -/
theorem walks (res : String → String) (pool : Names) : ∀ n, Walks res pool n := by
  intro n
  induction n with
  | zero =>
    constructor
    case block =>
      intro _ _ _ b _ hn
      obtain ⟨cs⟩ := b
      rw [Block.encode, Bytecode.size_block] at hn
      omega
    case allocation =>
      intro _ _ type _ _ _ hn
      have hp := type.size_pos pool
      rw [Bytecode.size_append] at hn
      omega
    all_goals
      intros
      omega
  | succ n ih =>
    exact {
      commands := commands_lists ih
      command := command_lists ih
      block := block_lists ih
      branch := branch_lists ih
      nodes := nodes_lists ih
      node := node_lists ih
      labelled := labelled_lists ih
      arguments := arguments_lists ih
      params := params_lists ih
      elements := elements_lists ih
      generics := fun depth => bindings_list ih (fun names => generics names depth)
        (fun name => "generic " ++ name ++ ":") depth (fun _ => by rw [generics]) (ih.generics depth)
      overrides := fun depth => bindings_list ih (fun names => overrides names depth)
        (fun name => "." ++ name ++ " =") depth (fun _ => by rw [overrides]) (ih.overrides depth)
      field := field_lists ih
      fields := fields_lists ih
      struct := struct_lists ih
      allocation := allocation_lists ih }

omit h in
/-- The walk over the whole of a program, which gives the name of its file. -/
theorem program_lists {program : Program} (hw : CommandsWellFormed program.commands) {n : Nat}
    (hn : (program.encode pool).size ≤ n) :
    Lists next
    (fun i => take Reader.name >>= fun file => commands i.shown 0 n >>= fun _ => pure (i.shown.text file))
      (fun i => program.encode i.pool) (fun _ => True) := by
  simp only [Program.encode, Bytecode.append_assoc, Bytecode.size_append, Bytecode.size_name] at hn ⊢
  refine .name program.file ?_
  simp only [View.reads]
  exact .finish ((walks res pool n).commands 0 program.commands hw (by omega)) fun _ _ => .pure trivial

omit h in
theorem at_program {bytes : Array UInt8} {program : Program} (hb : bytes.toList = (program.encode pool).bytes)
    (hs : bytes.size < UInt32.size) : At (program.encode pool ++ .nil) { reader := Reader.ofChunk { bytes } } := by
  rw [Bytecode.append_nil]
  exact ⟨hs, Reader.rest_ofChunk _ ▸ hb ▸ List.prefix_rfl⟩

omit h in
/-- The walk goes over the whole of a program. -/
theorem walk_over (shown : Names) {bytes : Array UInt8} {program : Program}
    (hw : CommandsWellFormed program.commands) (hb : bytes.toList = (program.encode pool).bytes)
    (hs : bytes.size < UInt32.size) :
    Over (program.encode pool) { reader := Reader.ofChunk { bytes } } (walk shown bytes).2 := by
  have hn : bytes.size = (program.encode pool).size := by rw [Bytecode.size, ← hb, Array.length_toList]
  have hl : Lists (fun _ : View fun text => shown.text (pool.idOf text) => .nil) _ _ _ :=
    program_lists hw (show (program.encode pool).size ≤ 8 * bytes.size + 8 by omega)
  exact (hl.covers ⟨shown, pool, fun _ => rfl⟩ _ (at_program hb hs)).2

omit h in
/-- In views where the names read alike, the walks over a program write the same lines. -/
theorem walk_alike {i j : View res} {bytes bytes' : Array UInt8} {program : Program}
    (hw : CommandsWellFormed program.commands)
    (hb : bytes.toList = (program.encode i.pool).bytes) (hb' : bytes'.toList = (program.encode j.pool).bytes)
    (hs : bytes.size < UInt32.size) :
    i.shown.text (walk i.shown bytes).1 = j.shown.text (walk j.shown bytes').1 ∧
      (walk i.shown bytes).2.lines = (walk j.shown bytes').2.lines := by
  have hn : bytes.size = (program.encode i.pool).size := by rw [Bytecode.size, ← hb, Array.length_toList]
  have hn' : bytes'.size = bytes.size := by
    rw [hn, program.size_eq i.pool j.pool, Bytecode.size, ← hb', Array.length_toList]
  have hl : Lists (fun _ : View res => .nil) _ _ _ :=
    program_lists hw (show (program.encode i.pool).size ≤ 8 * bytes.size + 8 by omega)
  have halike := hl.alike i j _ _ (at_program hb hs) (at_program hb' (hn'.symm ▸ hs)) ⟨rfl, rfl⟩
  rw [walk, walk, hn']
  exact ⟨halike.1, halike.2.lines⟩

end Listing

/-- The listing of compiled code reads every byte once, from the first to the last and none behind it,
leaves every block at its end, and has one line for each node of the program, in order. -/
theorem listing_covers_code {source file : String} {before names : Names} {bytes : Array UInt8}
    (h : compile source file before = .ok (bytes, names)) (hs : bytes.size < UInt32.size) (shown : Names) :
    let listing := (Listing.walk shown bytes).2
    listing.reader.pos = bytes.size ∧ Consecutive 0 listing.reads.toList bytes.size ∧
      (∀ b ∈ listing.blocks.toList, b.1 = b.2) ∧ (∀ line ∈ listing.lines.toList, line.Named) ∧
      ∃ program, parse source file = .ok program ∧ bytes.toList = (program.encode names).bytes ∧
        listing.heads = (program.encode names).heads.map shownHead := by
  obtain ⟨program, hp, hw, hb⟩ := compile_encodes h
  have ho := Listing.walk_over shown hw hb hs
  have hpos : (Listing.walk shown bytes).2.reader.pos = bytes.size := by
    rw [ho.reader, ← hb, Array.length_toList]
    exact Nat.zero_add _
  obtain ⟨hr, hbs, hl⟩ := ho.covered ⟨rfl, nofun, nofun⟩
  exact ⟨hpos, hpos ▸ hr, hbs, hl, program, hp, hb, ho.heads⟩

theorem listing_covers_code_nested :
    let source := "while 1 < 2 => \x7b if (3 + 4) * 5 => return 6; else \x7b null[7](8, 9); \x7d; \x7d;"
    ∃ bytes names, compile source "" .empty = .ok (bytes, names) ∧ bytes.size < UInt32.size ∧
      (Listing.walk names bytes).2.reader.pos = bytes.size ∧
      Consecutive 0 (Listing.walk names bytes).2.reads.toList bytes.size := by
  intro source
  have run : (match compile source "" .empty with
      | .ok (bytes, _) => bytes.size < UInt32.size
      | .error _ => false) = true := by decide +kernel
  split at run
  case h_1 bytes names h =>
    have hs := of_decide_eq_true run
    obtain ⟨hpos, hr, -⟩ := listing_covers_code h hs names
    exact ⟨bytes, names, h, hs, hpos, hr⟩
  case h_2 => cases run

end LevelScript
