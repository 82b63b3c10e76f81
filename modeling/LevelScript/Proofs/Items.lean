import LevelScript.Proofs.Reading
import Mathlib.Algebra.Group.Int.Defs
import Mathlib.Algebra.Group.Nat.Defs

/-!
# Reading undoes writing

What a chunk consists of, whoever wrote it: data and blocks of them. The data may come from several
writers, each merged into another one between two blocks or inside a block. A reader that makes the calls
for the items in their order gets these items, and stands at the end just when there are no more.
-/

namespace LevelScript

/-! ## Items -/

/-- What a writer writes at once, and a reader reads at once. A float is written as its bits. -/
inductive Datum where
  | u8 (n : UInt8)
  | bool (b : Bool)
  | i32 (n : Int)
  | u32 (n : Nat)
  | u64 (n : UInt64)
  | name (id : NameId)
  | code (op : Opcode)
  | head (op : Opcode) (row col : Int)
  | capture (c : Capture)
  | form (f : AllocForm)

inductive Item where
  | datum (d : Datum)
  | block (content : List Item)

/-- What is done with a writer. A part has a writer of its own, which is merged when it is done. -/
inductive Piece where
  | datum (d : Datum)
  | block (content : List Piece)
  | part (content : List Piece)

namespace Datum

def write : Datum → Writer → Writer
  | u8 n, w => w.u8 n
  | bool b, w => w.bool b
  | i32 n, w => w.i32 n
  | u32 n, w => w.u32 n
  | u64 n, w => w.u64 n
  | name id, w => w.name id
  | code op, w => w.u8 op.code
  | head op row col, w => w.op op row col
  | capture c, w => w.u8 c.code
  | form f, w => w.u8 f.code

def encode : Datum → Bytecode
  | u8 n => .byte n
  | bool b => .bool b
  | i32 n => .raw (Bytecode.int32 n)
  | u32 n => .raw (bytesLE 4 n)
  | u64 n => .u64 n
  | name id => .raw (bytesLE 4 id.toNat)
  | code op => .byte op.code
  | head op row col => .raw ([op.code] ++ (Bytecode.int32 row ++ Bytecode.int32 col))
  | capture c => .byte c.code
  | form f => .byte f.code

def Fits : Datum → Prop
  | i32 n => -2 ^ 31 ≤ n ∧ n < 2 ^ 31
  | u32 n => n < 2 ^ 32
  | head _ row col => (-2 ^ 31 ≤ row ∧ row < 2 ^ 31) ∧ -2 ^ 31 ≤ col ∧ col < 2 ^ 31
  | _ => True

end Datum

mutual

def Piece.write : Piece → Writer → Writer
  | .datum d, w => d.write w
  | .block content, w => (writePieces content w.push).pop
  | .part content, w => w.merge (writePieces content {})

def writePieces : List Piece → Writer → Writer
  | [], w => w
  | piece :: pieces, w => writePieces pieces (piece.write w)

end

mutual

def Piece.items : Piece → List Item
  | .datum d => [.datum d]
  | .block content => [.block (itemsOf content)]
  | .part content => itemsOf content

def itemsOf : List Piece → List Item
  | [] => []
  | piece :: pieces => piece.items ++ itemsOf pieces

end

mutual

def Item.encode : Item → Bytecode
  | .datum d => d.encode
  | .block content => .block (encodeItems content)

def encodeItems : List Item → Bytecode
  | [] => .nil
  | item :: items => item.encode ++ encodeItems items

end

mutual

def Item.Fits : Item → Prop
  | .datum d => d.Fits
  | .block content => (encodeItems content).size < 2 ^ 32 ∧ ItemsFit content

def ItemsFit : List Item → Prop
  | [] => True
  | item :: items => item.Fits ∧ ItemsFit items

end

/-! ## Writing -/

theorem encodeItems_append (items more : List Item) :
    encodeItems (items ++ more) = encodeItems items ++ encodeItems more := by
  induction items with
  | nil => exact (Bytecode.nil_append _).symm
  | cons item items ih => rw [List.cons_append, encodeItems, ih, encodeItems, Bytecode.append_assoc]

theorem encodeItems_singleton (item : Item) : encodeItems [item] = item.encode := by
  rw [encodeItems, encodeItems, Bytecode.append_nil]

theorem Datum.wrote (d : Datum) (e : Emitter) : Wrote e (e.write d.write) (fun _ => d.encode) := by
  cases d with
  | u8 n => exact .u8 e n
  | bool b => exact .bool e b
  | u64 n => exact .u64 e n
  | code op => exact .u8 e op.code
  | capture c => exact .u8 e c.code
  | form f => exact .u8 e f.code
  | i32 | u32 | name | head =>
    refine Wrote.raw (e := e) rfl rfl ?_
    simp [Emitter.write, write, Writer.i32, Writer.u32, Writer.name, Writer.op, Writer.u8, Writer.append,
      Bytecode.int32]

/-- The other writer starts with nothing, so it ends with the bytes of its own items. -/
theorem Wrote.merge {e : Emitter} {f : Writer → Writer} {a : Bytecode}
    (h : Wrote { names := e.names } (Emitter.write { names := e.names } f) fun _ => a) :
    Wrote e (e.write (·.merge (f {}))) fun _ => a := by
  refine ⟨rfl, .refl _, fun names hn => ?_⟩
  have := h.bytes names hn
  simp only [Emitter.write, Writer.merge] at this ⊢
  simp [this]

mutual

theorem Piece.wrote (e : Emitter) :
    ∀ piece : Piece, Wrote e (e.write piece.write) (fun _ => encodeItems piece.items)
  | .datum d => by
    rw [Piece.items, encodeItems_singleton]
    exact d.wrote e
  | .block content => by
    rw [Piece.items, encodeItems_singleton]
    exact .block (wrotePieces e.push content)
  | .part content => .merge (wrotePieces _ content)

theorem wrotePieces (e : Emitter) :
    ∀ pieces, Wrote e (e.write (writePieces pieces)) (fun _ => encodeItems (itemsOf pieces))
  | [] => .nil e
  | piece :: pieces => by
    rw [itemsOf, encodeItems_append]
    exact (piece.wrote e).trans (wrotePieces _ pieces)

end

/-! ## Reading -/

inductive ReaderCall where
  | u8 | bool | i32 | u32 | u64 | name | code | head | capture | form

namespace ReaderCall

def read : ReaderCall → Reader → Datum × Reader
  | u8, r => r.u8.map .u8 id
  | bool, r => r.bool.map .bool id
  | i32, r => r.i32.map .i32 id
  | u32, r => r.u32.map .u32 id
  | u64, r => r.u64.map .u64 id
  | name, r => r.name.map .name id
  | code, r => r.opcode.map .code id
  | head, r =>
    let (op, r) := r.opcode
    let (row, r) := r.i32
    let (col, r) := r.i32
    (.head op row col, r)
  | capture, r => r.capture.map .capture id
  | form, r => r.form.map .form id

end ReaderCall

def Datum.call : Datum → ReaderCall
  | u8 _ => .u8
  | bool _ => .bool
  | i32 _ => .i32
  | u32 _ => .u32
  | u64 _ => .u64
  | name _ => .name
  | code _ => .code
  | head .. => .head
  | capture _ => .capture
  | form _ => .form

/-- The calls for some items. A block is entered, and read with a reader of its own. -/
inductive Layout where
  | datum (call : ReaderCall)
  | block (content : List Layout)

mutual

def Layout.read : Layout → Reader → Item × Reader
  | .datum call, r => (call.read r).map .datum id
  | .block content, r =>
    let (inner, outer) := r.enter
    (.block (readAll content inner).1, outer)

def readAll : List Layout → Reader → List Item × Reader
  | [], r => ([], r)
  | layout :: layouts, r =>
    let (item, r) := layout.read r
    let (items, r) := readAll layouts r
    (item :: items, r)

end

mutual

def Item.layout : Item → Layout
  | .datum d => .datum d.call
  | .block content => .block (layoutsOf content)

def layoutsOf : List Item → List Layout
  | [] => []
  | item :: items => item.layout :: layoutsOf items

end

namespace Reads

variable {α β : Type} {read : Reader → α × Reader} {bs : List UInt8} {a : α}

theorem map (f : α → β) (h : Reads read bs a) : Reads (fun r => (read r).map f id) bs (f a) := by
  intro r hr
  simp only [h r hr]
  rfl

theorem i32_of_fits {n : Int} (h : -2 ^ 31 ≤ n ∧ n < 2 ^ 31) : Reads Reader.i32 (Bytecode.int32 n) n := by
  have := Reads.i32 n
  rwa [Int.bmod_eq_of_le h.1 h.2] at this

theorem head {op : Opcode} {row col : Int} (hrow : -2 ^ 31 ≤ row ∧ row < 2 ^ 31)
    (hcol : -2 ^ 31 ≤ col ∧ col < 2 ^ 31) :
    Reads ReaderCall.head.read (op.code :: (Bytecode.int32 row ++ Bytecode.int32 col)) (.head op row col) := by
  intro r h
  have hop := Reader.sees_left (a := [op.code]) h
  have hplace : Bytecode.int32 row ++ Bytecode.int32 col <+: _ := Reader.sees_right (a := [op.code]) h
  simp only [ReaderCall.read, opcode op r hop, i32_of_fits hrow _ (Reader.sees_left hplace),
    i32_of_fits hcol _ (Reader.sees_right hplace)]
  simp

end Reads

theorem Datum.reads {d : Datum} (h : d.Fits) : Reads d.call.read d.encode.bytes d := by
  cases d with
  | u8 n => exact (Reads.u8 n).map _
  | bool b => exact (Reads.bool b).map _
  | i32 n => exact (Reads.i32_of_fits h).map _
  | u32 n =>
    have hn : n % UInt32.size = n := Nat.mod_eq_of_lt h
    have hread := (Reads.u32 n).map Datum.u32
    rwa [hn] at hread
  | u64 n => exact (Reads.u64 n).map _
  | name id => exact (Reads.nameId id).map _
  | code op => exact (Reads.opcode op).map _
  | head op row col => exact Reads.head h.1 h.2
  | capture c => exact (Reads.capture c).map _
  | form f => exact (Reads.form f).map _

mutual

theorem Item.reads : ∀ item : Item, item.Fits → Reads item.layout.read item.encode.bytes item
  | .datum d, h => (Datum.reads h).map Item.datum
  | .block content, h => by
    intro r hr
    have hin := Reader.block_content hr
    rw [Item.layout, Layout.read, Reader.enter_block hr h.1]
    dsimp only
    have hcontent := (Reader.rest_part hin).symm
    rw [reads_items content h.2 _ (hcontent ▸ List.prefix_refl _)]
    rfl

theorem reads_items : ∀ items, ItemsFit items → Reads (readAll (layoutsOf items)) (encodeItems items).bytes items
  | [], _ => fun r _ => rfl
  | item :: items, h => by
    intro r hr
    rw [layoutsOf, readAll, item.reads h.1 r (Reader.sees_left hr)]
    dsimp only
    rw [reads_items items h.2 _ (Reader.sees_right hr), Reader.advance_advance, encodeItems, Bytecode.bytes_append,
      List.length_append]

end

/-! ## Where a reader stands -/

/-- Exactly these bytes are left, up to where the reader stops. -/
structure Reader.Has (r : Reader) (bs : List UInt8) : Prop where
  rest : r.rest = bs
  stop : r.stop = r.pos + bs.length

namespace Reader.Has

variable {r : Reader} {a b : List UInt8}

theorem ofChunk (chunk : Chunk) : (Reader.ofChunk chunk).Has chunk.bytes.toList := by
  refine ⟨rest_ofChunk chunk, ?_⟩
  simp [Reader.ofChunk]

theorem sees (h : r.Has a) : a <+: r.rest := h.rest ▸ List.prefix_refl a

theorem advance (h : r.Has (a ++ b)) : (r.advance a.length).Has b := by
  refine ⟨?_, ?_⟩
  · rw [rest_advance, h.rest, List.drop_left]
  · rw [Reader.advance, h.stop, List.length_append, Nat.add_assoc]

theorem part (h : a <+: r.rest) : (r.part a.length).Has a := ⟨rest_part h, rfl⟩

theorem atEnd_iff (h : r.Has a) : r.atEnd = true ↔ a = [] := by
  rw [atEnd, h.stop, decide_eq_true_iff, ← List.length_eq_zero_iff]
  omega

theorem finish (h : r.Has a) : r.advance a.length = r.finish := by
  rw [Reader.advance, Reader.finish, h.stop]

end Reader.Has

/-- The reader stands in front of exactly these items. It is at the end only if there are none. The first is
read by its call, or it is a block: the block can be entered, skipped, or cut out where skipping says it is,
and another reader then stands in front of what is in it. -/
inductive Stands : Reader → List Item → Prop
  | nil {r : Reader} (hr : r.atEnd = true) : Stands r []
  | datum {r r' : Reader} {d : Datum} {items : List Item} (hr : r.atEnd = false) (hd : d.call.read r = (d, r'))
    (h : Stands r' items) : Stands r (.datum d :: items)
  | block {r inner outer : Reader} {content items : List Item} (hr : r.atEnd = false)
      (enter : r.enter = (inner, outer))
    (skip : r.skip = ((r.pos + 4, (encodeItems content).size), outer))
    (slice : Reader.slice r.chunk (r.pos + 4) (encodeItems content).size = inner)
    (h : Stands inner content) (h' : Stands outer items) : Stands r (.block content :: items)

theorem Datum.encode_ne_nil (d : Datum) : d.encode.bytes ≠ [] := by
  cases d <;> exact List.cons_ne_nil _ _

theorem Item.encode_ne_nil : ∀ item : Item, item.encode.bytes ≠ []
  | .datum d => d.encode_ne_nil
  | .block _ => List.cons_ne_nil _ _

theorem Reader.Has.not_atEnd {r : Reader} {item : Item} {items : List Item}
    (h : r.Has (encodeItems (item :: items)).bytes) :
    r.atEnd = false := by
  rw [Bool.eq_false_iff, ne_eq, h.atEnd_iff, encodeItems, Bytecode.bytes_append, List.append_eq_nil_iff]
  exact fun h => item.encode_ne_nil h.1

theorem Reader.Has.stands {r : Reader} : ∀ {items : List Item}, r.Has (encodeItems items).bytes →
    ItemsFit items → Stands r items
  | [], h, _ => .nil (h.atEnd_iff.mpr rfl)
  | .datum d :: items, h, hf => by
    have hrest : r.Has (d.encode.bytes ++ (encodeItems items).bytes) := h
    exact .datum h.not_atEnd (Datum.reads hf.1 r (sees_left hrest.sees)) (hrest.advance.stands hf.2)
  | .block content :: items, h, hf => by
    have hrest : r.Has ((encodeItems content).block.bytes ++ (encodeItems items).bytes) := h
    have hblock := sees_left hrest.sees
    have hin := Has.part (block_content hblock)
    exact .block h.not_atEnd (enter_block hblock hf.1.1) (skip_block hblock hf.1.1) (slice_block hblock)
      (hin.stands hf.1.2) (hrest.advance.stands hf.2)

/-- Items that are written and merged piece by piece leave no block open, and are read again, however they
came to the writer. -/
theorem readAll_writePieces (pieces : List Piece) (h : ItemsFit (itemsOf pieces)) (serial : Nat) :
    (writePieces pieces {}).marks = [] ∧
      (let r := Reader.ofChunk ⟨serial, (writePieces pieces {}).bytes⟩
       readAll (layoutsOf (itemsOf pieces)) r = (itemsOf pieces, r.finish) ∧ Stands r (itemsOf pieces)) := by
  have hw := wrotePieces { names := default } pieces
  have hb : (writePieces pieces {}).bytes.toList = (encodeItems (itemsOf pieces)).bytes := hw.bytes _ (.refl _)
  have hr := Reader.Has.ofChunk ⟨serial, (writePieces pieces {}).bytes⟩
  rw [hb] at hr
  refine ⟨hw.marks, ?_, hr.stands h⟩
  rw [reads_items _ h _ hr.sees, hr.finish]

/-- A part merged inside a block, which has a block of its own. -/
theorem readAll_writePieces_merged :
    let pieces : List Piece :=
    [.block [.datum (.u8 7), .part [.block [.datum (.i32 (-5))], .datum (.bool true)]], .part [.block []]]
    ItemsFit (itemsOf pieces) ∧ Stands (Reader.ofChunk ⟨0, (writePieces pieces {}).bytes⟩)
      [.block [.datum (.u8 7), .block [.datum (.i32 (-5))], .datum (.bool true)], .block []] := by
  have hf : ItemsFit [.block [.datum (.u8 7), .block [.datum (.i32 (-5))], .datum (.bool true)], .block []] := by
    simp only [ItemsFit, Item.Fits, Datum.Fits]
    decide
  exact ⟨hf, (readAll_writePieces
    [.block [.datum (.u8 7), .part [.block [.datum (.i32 (-5))], .datum (.bool true)]], .part [.block []]]
    hf 0).2.2⟩

end LevelScript
