import LevelScript.Bytecode.Writer

/-!
# Reading bytecode

A reader is a position in a part of a chunk. Reading beyond the end of the part gives zeros, which
read as end marks, and still moves the position.
-/

namespace LevelScript

/-- The bytecode of one compiled text. Every compilation has a number of its own. -/
structure Chunk where
  serial : Nat := 0
  bytes : Array UInt8 := #[]
  deriving Inhabited

structure Reader where
  chunk : Chunk
  stop : Nat
  pos : Nat
  deriving Inhabited

namespace Reader

def ofChunk (chunk : Chunk) : Reader := ⟨chunk, chunk.bytes.size, 0⟩

/-- A reader of the `len` bytes from `start`, as far as the chunk has them. -/
def slice (chunk : Chunk) (start len : Nat) : Reader :=
  ⟨chunk, min (start + len) chunk.bytes.size, start⟩

def seek (r : Reader) (pos : Nat) : Reader := { r with pos }

def atEnd (r : Reader) : Bool := r.stop ≤ r.pos

def finish (r : Reader) : Reader := { r with pos := r.stop }

/-- The number in the `n` bytes of the chunk from `pos` on, the lowest byte first. -/
def numberAt (chunk : Chunk) (pos : Nat) : Nat → Nat
  | 0 => 0
  | n + 1 => (chunk.bytes[pos]?.getD 0).toNat + 256 * numberAt chunk (pos + 1) n

def number (n : Nat) (r : Reader) : Nat × Reader :=
  (if r.pos + n ≤ r.stop then numberAt r.chunk r.pos n else 0, { r with pos := r.pos + n })

def u8 (r : Reader) : UInt8 × Reader :=
  (if r.pos < r.stop then r.chunk.bytes[r.pos]?.getD 0 else 0, { r with pos := r.pos + 1 })

def bool (r : Reader) : Bool × Reader :=
  let (n, r) := r.u8
  (n != 0, r)

def u32 (r : Reader) : Nat × Reader := r.number 4

def i32 (r : Reader) : Int × Reader :=
  let (n, r) := r.number 4
  (if n < UInt32.size / 2 then n else (n : Int) - UInt32.size, r)

def u64 (r : Reader) : UInt64 × Reader :=
  let (n, r) := r.number 8
  (n.toUInt64, r)

def name (r : Reader) : NameId × Reader :=
  let (n, r) := r.u32
  (n.toUInt32, r)

/-- Unknown codes read as the end mark. -/
def opcode (r : Reader) : Opcode × Reader :=
  let (n, r) := r.u8
  ((Opcode.ofCode? n).getD .endMark, r)

def capture (r : Reader) : Capture × Reader :=
  let (n, r) := r.u8
  (Capture.ofCode n, r)

def form (r : Reader) : AllocForm × Reader :=
  let (n, r) := r.u8
  (AllocForm.ofCode n, r)

/-- A reader inside the next block, and the position behind it. -/
def enter (r : Reader) : Reader × Reader :=
  let (len, r) := r.u32
  (⟨r.chunk, min (r.pos + len) r.stop, r.pos⟩, { r with pos := r.pos + len })

/-- Where the next block starts and how long it is, and the position behind it. -/
def skip (r : Reader) : (Nat × Nat) × Reader :=
  let (len, r) := r.u32
  ((r.pos, len), { r with pos := r.pos + len })

end Reader

end LevelScript
