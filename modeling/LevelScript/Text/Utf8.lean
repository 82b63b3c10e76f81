/-!
# Bytes as text

Reads UTF-8. Every longest start of a character that cannot be completed becomes one replacement
character.
-/

namespace LevelScript

namespace Text

def replacement : Char := Char.ofNat 0xFFFD

/-- The bits of a lead byte, how many bytes follow it, and the range of the first of those. -/
def leadInfo? (b : Nat) : Option (Nat × Nat × Nat × Nat) :=
  if 0xC2 ≤ b ∧ b ≤ 0xDF then some (b - 0xC0, 1, 0x80, 0xBF)
  else if b = 0xE0 then some (0, 2, 0xA0, 0xBF)
  else if b = 0xED then some (0xD, 2, 0x80, 0x9F)
  else if 0xE1 ≤ b ∧ b ≤ 0xEF then some (b - 0xE0, 2, 0x80, 0xBF)
  else if b = 0xF0 then some (0, 3, 0x90, 0xBF)
  else if 0xF1 ≤ b ∧ b ≤ 0xF3 then some (b - 0xF0, 3, 0x80, 0xBF)
  else if b = 0xF4 then some (4, 3, 0x80, 0x8F)
  else none

def continuation (value low high : Nat) : Nat → List UInt8 → Char × List UInt8
  | 0, bs => (Char.ofNat value, bs)
  | _ + 1, [] => (replacement, [])
  | n + 1, b :: bs =>
    if low ≤ b.toNat ∧ b.toNat ≤ high then
      continuation (value * 64 + (b.toNat - 0x80)) 0x80 0xBF n bs
    else (replacement, b :: bs)

/-- The character at the start of some bytes. -/
def decodeFirst (b : UInt8) (bs : List UInt8) : Char × List UInt8 :=
  if b.toNat < 0x80 then (Char.ofNat b.toNat, bs)
  else match leadInfo? b.toNat with
    | some (value, count, low, high) => continuation value low high count bs
    | none => (replacement, bs)

theorem length_continuation (value low high n : Nat) (bs : List UInt8) :
    (continuation value low high n bs).2.length ≤ bs.length := by
  induction n generalizing value low high bs with
  | zero => simp [continuation]
  | succ n ih =>
    cases bs with
    | nil => simp [continuation]
    | cons b bs =>
      rw [continuation]
      split
      · exact Nat.le_succ_of_le (ih ..)
      · simp

theorem length_decodeFirst (b : UInt8) (bs : List UInt8) :
    (decodeFirst b bs).2.length ≤ bs.length := by
  rw [decodeFirst]
  split
  · exact Nat.le_refl _
  · split
    · exact length_continuation ..
    · exact Nat.le_refl _

def decodeLossy (bs : List UInt8) : List Char :=
  match bs with
  | [] => []
  | b :: rest =>
    have := length_decodeFirst b rest
    (decodeFirst b rest).1 :: decodeLossy (decodeFirst b rest).2
termination_by bs.length

/-- The text in some bytes, with replacement characters where they are no UTF-8. -/
def ofBytesLossy (bs : List UInt8) : String := String.ofList (decodeLossy bs)

/-- The bytes of a text, and a zero behind them. -/
def toBytesNul (s : String) : List UInt8 := s.toUTF8.toList ++ [0]

end Text

end LevelScript
