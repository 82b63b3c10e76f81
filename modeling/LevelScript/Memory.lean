import Std.Data.HashMap

/-!
# Memory

Script memory is a sequence of bytes, kept in 64-bit words with the lowest byte first. Only the
addresses from `lowLimit` up to `highLimit` are valid; a byte is zero until it is written.
-/

namespace LevelScript

structure Memory where
  /-- Words at addresses divided by eight; an absent word is zero. -/
  words : Std.HashMap UInt64 UInt64 := ∅

namespace Memory

def lowLimit : UInt64 := 0x010000000000

def highLimit : UInt64 := 0x800000000000

def isValid (addr : UInt64) : Bool := lowLimit ≤ addr && addr < highLimit

def word (m : Memory) (index : UInt64) : UInt64 := (m.words[index]?).getD 0

def mask (size : Nat) : UInt64 :=
  if 8 ≤ size then 0xFFFFFFFFFFFFFFFF else (1 <<< (8 * size).toUInt64) - 1

def byte (m : Memory) (addr : UInt64) : UInt8 :=
  (m.word (addr / 8) >>> (addr % 8 * 8)).toUInt8

def setByte (m : Memory) (addr : UInt64) (b : UInt8) : Memory :=
  let index := addr / 8
  let shift := addr % 8 * 8
  let kept := m.word index &&& ~~~((0xFF : UInt64) <<< shift)
  ⟨m.words.insert index (kept ||| (b.toUInt64 <<< shift))⟩

def readBytes (m : Memory) (addr : UInt64) : Nat → UInt64
  | 0 => 0
  | n + 1 => (m.byte addr).toUInt64 ||| (readBytes m (addr + 1) n <<< 8)

def read (m : Memory) (addr : UInt64) (size : Nat) : UInt64 :=
  if addr % 8 = 0 then m.word (addr / 8) &&& mask size else m.readBytes addr size

/-- Writes the lowest `size` bytes of a number, byte by byte. -/
def writeBytes (m : Memory) (addr : UInt64) (bits : UInt64) : Nat → Memory
  | 0 => m
  | n + 1 => writeBytes (m.setByte addr bits.toUInt8) (addr + 1) (bits >>> 8) n

def write (m : Memory) (addr : UInt64) (size : Nat) (bits : UInt64) : Memory :=
  if addr % 8 = 0 then
    let index := addr / 8
    let kept := m.word index &&& ~~~(mask size)
    ⟨m.words.insert index (kept ||| (bits &&& mask size))⟩
  else m.writeBytes addr bits size

/-- Copies `n` bytes, the lowest address first. -/
def copy (m : Memory) (source target : UInt64) : Nat → Memory
  | 0 => m
  | n + 1 => copy (m.setByte target (m.byte source)) (source + 1) (target + 1) n

def writeAll (m : Memory) (addr : UInt64) : List UInt8 → Memory
  | [] => m
  | b :: bs => writeAll (m.setByte addr b) (addr + 1) bs

/-- The bytes up to the first zero, at most `n`. -/
def textBytes (m : Memory) (addr : UInt64) : Nat → List UInt8
  | 0 => []
  | n + 1 =>
    let b := m.byte addr
    if b = 0 then [] else b :: textBytes m (addr + 1) n

end Memory

end LevelScript
