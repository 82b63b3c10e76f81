import LevelScript.Bytecode.Reader
import LevelScript.Proofs.Encoding

/-!
# Reading what was written

A reader at the bytes of an item gives the item back and moves behind it. What follows the bytes does
not matter.
-/

namespace LevelScript

namespace Reader

def rest (r : Reader) : List UInt8 := (r.chunk.bytes.toList.take r.stop).drop r.pos

def advance (r : Reader) (n : Nat) : Reader := { r with pos := r.pos + n }

@[simp]
theorem advance_advance (r : Reader) (m n : Nat) : (r.advance m).advance n = r.advance (m + n) := by
  simp only [advance, Nat.add_assoc]

theorem advance_append (r : Reader) (a b : Bytecode) :
    r.advance (a ++ b).bytes.length = (r.advance a.bytes.length).advance b.bytes.length := by
  rw [advance_advance, Bytecode.bytes_append, List.length_append]

@[simp]
theorem rest_advance (r : Reader) (n : Nat) : (r.advance n).rest = r.rest.drop n := by
  simp only [rest, advance, List.drop_drop]

theorem rest_ofChunk (chunk : Chunk) : (ofChunk chunk).rest = chunk.bytes.toList := by
  rw [rest, ofChunk, ← Array.length_toList, List.take_length]
  rfl

variable {r : Reader} {a b : List UInt8}

theorem sees_left (h : a ++ b <+: r.rest) : a <+: r.rest := (List.prefix_append a b).trans h

theorem sees_right (h : a ++ b <+: r.rest) : b <+: (r.advance a.length).rest := by
  obtain ⟨c, hc⟩ := h
  refine ⟨c, ?_⟩
  rw [rest_advance, ← hc, List.append_assoc, List.drop_left]

theorem rest_getElem? (r : Reader) (k : Nat) :
    r.rest[k]? = if r.pos + k < r.stop then r.chunk.bytes[r.pos + k]? else none := by
  rw [rest, List.getElem?_drop, List.getElem?_take, Array.getElem?_toList]

theorem sees_byte {n : UInt8} {bs : List UInt8} (h : n :: bs <+: r.rest) :
    r.pos < r.stop ∧ r.chunk.bytes[r.pos]? = some n := by
  have h0 : r.rest[0]? = some n := by
    obtain ⟨c, hc⟩ := h
    rw [← hc]
    rfl
  rw [rest_getElem?, Nat.add_zero] at h0
  split at h0
  case isTrue hp => exact ⟨hp, h0⟩
  case isFalse => cases h0

theorem sees_length {bs : List UInt8} (h : bs <+: r.rest) (h0 : bs ≠ []) :
    r.pos + bs.length ≤ r.stop ∧ r.pos + bs.length ≤ r.chunk.bytes.size := by
  have hl := h.length_le
  have hs : r.chunk.bytes.toList.length = r.chunk.bytes.size := Array.length_toList
  rw [rest, List.length_drop, List.length_take, hs] at hl
  have : 0 < bs.length := List.length_pos_iff.mpr h0
  omega

def part (r : Reader) (len : Nat) : Reader := ⟨r.chunk, r.pos + len, r.pos⟩

theorem rest_part {bs : List UInt8} (h : bs <+: r.rest) : (r.part bs.length).rest = bs := by
  by_cases h0 : bs = []
  · subst h0
    simp [rest, part]
  · have hl := (sees_length h h0).1
    calc (r.chunk.bytes.toList.take (r.pos + bs.length)).drop r.pos
      _ = (r.chunk.bytes.toList.take (min (r.pos + bs.length) r.stop)).drop r.pos := by rw [Nat.min_eq_left hl]
      _ = r.rest.take bs.length := by rw [rest, List.take_drop, List.take_take]
      _ = bs := (List.prefix_iff_eq_take.mp h).symm

theorem numberAt_eq {bs : List UInt8} (h : bs <+: r.rest) :
    numberAt r.chunk r.pos bs.length = ofBytesLE bs := by
  induction bs generalizing r with
  | nil => rfl
  | cons n bs ih =>
    have hr : bs <+: (r.advance 1).rest := sees_right (a := [n]) h
    rw [List.length_cons, numberAt, (sees_byte h).2, show r.pos + 1 = (r.advance 1).pos from rfl,
      show r.chunk = (r.advance 1).chunk from rfl, ih hr]
    rfl

end Reader

/-- At these bytes, `read` gives `a` and moves behind them. -/
def Reads {α : Type} (read : Reader → α × Reader) (bs : List UInt8) (a : α) : Prop :=
  ∀ r : Reader, bs <+: r.rest → read r = (a, r.advance bs.length)

namespace Reads

open Reader

theorem u8 (n : UInt8) : Reads Reader.u8 [n] n := by
  intro r h
  obtain ⟨hp, hb⟩ := sees_byte h
  rw [Reader.u8, if_pos hp, hb]
  rfl

theorem bool (b : Bool) : Reads Reader.bool (Bytecode.bool b).bytes b := by
  intro r h
  rw [Reader.bool, u8 _ r h]
  cases b <;> rfl

theorem opcode (op : Opcode) : Reads Reader.opcode [op.code] op := by
  intro r h
  rw [Reader.opcode, u8 _ r h]
  dsimp only
  rw [Opcode.ofCode?_code]
  rfl

theorem capture (c : Capture) : Reads Reader.capture (Bytecode.byte c.code).bytes c := by
  intro r h
  rw [Reader.capture, u8 _ r h]
  cases c <;> rfl

theorem form (f : AllocForm) : Reads Reader.form (Bytecode.byte f.code).bytes f := by
  intro r h
  rw [Reader.form, u8 _ r h]
  cases f <;> rfl

theorem number (count n : Nat) (hc : 0 < count) :
    Reads (Reader.number count) (bytesLE count n) (n % Nat.pow 256 count) := by
  intro r h
  have hl := length_bytesLE count n
  have h0 : bytesLE count n ≠ [] := List.length_pos_iff.mp (by omega)
  have hs := (sees_length h h0).1
  have hn := numberAt_eq h
  rw [hl] at hs hn
  rw [Reader.number, if_pos hs, hn, ofBytesLE_bytesLE, hl]
  rfl

theorem u32 (n : Nat) : Reads Reader.u32 (bytesLE 4 n) (n % UInt32.size) := number 4 n (by decide)

theorem u64 (n : UInt64) : Reads Reader.u64 (Bytecode.u64 n).bytes n := by
  intro r h
  rw [Reader.u64, number 8 _ (by decide) r h]
  dsimp only
  rw [Nat.mod_eq_of_lt n.toNat_lt]
  exact congrArg (·, _) UInt64.ofNat_toNat

theorem nameId (id : NameId) : Reads Reader.name (bytesLE 4 id.toNat) id := by
  intro r h
  rw [Reader.name, u32 _ r h]
  dsimp only
  rw [Nat.mod_eq_of_lt id.toNat_lt]
  exact congrArg (·, _) UInt32.ofNat_toNat

theorem name (names : Names) (text : String) :
    Reads Reader.name (Bytecode.name names text).bytes (names.idOf text) := nameId (names.idOf text)

/-- Rows and columns are kept in 32 bits. -/
theorem i32 (n : Int) : Reads Reader.i32 (Bytecode.int32 n) (n.bmod UInt32.size) := by
  intro r h
  have h0 : 0 ≤ n % (UInt32.size : Int) := Int.emod_nonneg _ (by decide)
  have hn : n % (UInt32.size : Int) < UInt32.size := Int.emod_lt_of_pos _ (by decide)
  have hm : (n % (UInt32.size : Int)).toNat % Nat.pow 256 4 = (n % (UInt32.size : Int)).toNat :=
    Nat.mod_eq_of_lt (by change _ < UInt32.size; omega)
  rw [Reader.i32, number 4 _ (by decide) r h]
  dsimp only
  rw [show n.emod UInt32.size = n % (UInt32.size : Int) from rfl, hm, Int.bmod_def]
  congr 1
  simp only [UInt32.size] at *
  split <;> split <;> omega

end Reads

namespace Reader

variable {r : Reader} {content : Bytecode}

theorem length_block (content : Bytecode) : content.block.bytes.length = 4 + content.bytes.length :=
  content.size_block

theorem block_ends (h : content.block.bytes <+: r.rest) :
    r.pos + (4 + content.bytes.length) ≤ r.stop ∧ r.pos + (4 + content.bytes.length) ≤ r.chunk.bytes.size := by
  have hl := length_block content
  have h0 : content.block.bytes ≠ [] := List.length_pos_iff.mp (by omega)
  exact hl ▸ sees_length h h0

theorem block_content (h : content.block.bytes <+: r.rest) : content.bytes <+: (r.advance 4).rest := by
  have := sees_right h
  rwa [length_bytesLE] at this

theorem block_length (h : content.block.bytes <+: r.rest) (hl : content.bytes.length < UInt32.size) :
    r.u32 = (content.bytes.length, r.advance 4) := by
  have := Reads.u32 _ r (sees_left h)
  rwa [Nat.mod_eq_of_lt hl, length_bytesLE] at this

theorem enter_block (h : content.block.bytes <+: r.rest) (hl : content.bytes.length < UInt32.size) :
    r.enter = ((r.advance 4).part content.bytes.length, r.advance content.block.bytes.length) := by
  have hs := (block_ends h).1
  rw [enter, block_length h hl, length_block]
  simp only [part, advance, Prod.mk.injEq, Reader.mk.injEq, and_true, true_and]
  omega

theorem skip_block (h : content.block.bytes <+: r.rest) (hl : content.bytes.length < UInt32.size) :
    r.skip = ((r.pos + 4, content.bytes.length), r.advance content.block.bytes.length) := by
  rw [skip, block_length h hl, length_block]
  simp [advance, Nat.add_assoc]

theorem slice_block (h : content.block.bytes <+: r.rest) :
    slice r.chunk (r.pos + 4) content.bytes.length = (r.advance 4).part content.bytes.length := by
  have hs := (block_ends h).2
  simp only [slice, part, advance, Reader.mk.injEq, and_true, true_and]
  omega

end Reader

end LevelScript
