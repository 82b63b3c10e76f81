import LevelScript.Bytecode.Opcode
import LevelScript.Names

/-!
# Writing bytecode

Numbers are little-endian. A block is its length in four bytes and then its content; the length is
filled in when the block is closed.
-/

namespace LevelScript

/-- The lowest `count` bytes of `n`, the lowest first. -/
def bytesLE : Nat → Nat → List UInt8
  | 0, _ => []
  | count + 1, n => n.toUInt8 :: bytesLE count (n / 256)

/-- The number with these bytes, the lowest first. -/
def ofBytesLE : List UInt8 → Nat
  | [] => 0
  | b :: bs => b.toNat + 256 * ofBytesLE bs

theorem length_bytesLE (count n : Nat) : (bytesLE count n).length = count := by
  induction count generalizing n with
  | zero => rfl
  | succ count ih => simp [bytesLE, ih]

theorem ofBytesLE_bytesLE (count n : Nat) :
    ofBytesLE (bytesLE count n) = n % Nat.pow 256 count := by
  induction count generalizing n with
  | zero => simp [bytesLE, ofBytesLE, Nat.mod_one]
  | succ count ih =>
    have h : n.toUInt8.toNat = n % 256 := rfl
    rw [bytesLE, ofBytesLE, ih, h, Nat.pow, Nat.mul_eq, Nat.mul_comm (Nat.pow 256 count),
      Nat.mod_mul]

structure Writer where
  bytes : Array UInt8 := #[]
  /-- Where the open blocks' lengths stand, the innermost first. -/
  marks : List Nat := []
  deriving Inhabited

namespace Writer

def size (w : Writer) : Nat := w.bytes.size

def append (w : Writer) (bs : List UInt8) : Writer := { w with bytes := w.bytes ++ bs }

def u8 (w : Writer) (n : UInt8) : Writer := { w with bytes := w.bytes.push n }

def bool (w : Writer) (b : Bool) : Writer := w.u8 (if b then 1 else 0)

/-- The lowest 32 bits of `n`. -/
def u32 (w : Writer) (n : Nat) : Writer := w.append (bytesLE 4 n)

def i32 (w : Writer) (n : Int) : Writer := w.u32 (n.emod UInt32.size).toNat

def u64 (w : Writer) (n : UInt64) : Writer := w.append (bytesLE 8 n.toNat)

def name (w : Writer) (id : NameId) : Writer := w.u32 id.toNat

/-- The head of a node: its opcode and where it was written. -/
def op (w : Writer) (op : Opcode) (row col : Int) : Writer := ((w.u8 op.code).i32 row).i32 col

def endMark (w : Writer) : Writer := w.u8 Opcode.endMark.code

def patch (w : Writer) (at_ : Nat) : List UInt8 → Writer
  | [] => w
  | b :: bs => patch { w with bytes := w.bytes.setIfInBounds at_ b } (at_ + 1) bs

def push (w : Writer) : Writer := { w with marks := w.bytes.size :: w.marks }.u32 0

def pop (w : Writer) : Writer :=
  match w.marks with
  | [] => w
  | mark :: marks => { w with marks := marks }.patch mark (bytesLE 4 (w.bytes.size - mark - 4))

def merge (w other : Writer) : Writer := { w with bytes := w.bytes ++ other.bytes }

end Writer

end LevelScript
