import LevelScript.Proofs.Cells

/-!
# Bytes in memory

A number is written at any address byte by byte, into at most two words. It is read back as it was written,
but for what does not fit.
-/

namespace LevelScript

namespace Memory

theorem toNat_byteShift (addr : UInt64) : (addr % 8 * 8).toBitVec.toNat % 64 = addr.toNat % 8 * 8 := by
  have h : (addr % 8 * 8).toNat = addr.toNat % 8 * 8 := by
    rw [UInt64.toNat_mul, UInt64.toNat_mod]
    refine Nat.mod_eq_of_lt ?_
    show addr.toNat % 8 * 8 < 2 ^ 64
    omega
  show (addr % 8 * 8).toNat % 64 = _
  rw [h]
  omega

theorem byte_getLsbD (m : Memory) (addr : UInt64) (k : Nat) :
    (m.byte addr).toBitVec.getLsbD k = (decide (k < 8) &&
      (m.word (addr / 8)).toBitVec.getLsbD (addr.toNat % 8 * 8 + k)) := by
  rw [byte, UInt64.toBitVec_toUInt8, UInt64.toBitVec_shiftRight, BitVec.getLsbD_setWidth,
    BitVec.ushiftRight_eq', BitVec.getLsbD_ushiftRight]
  rw [show (BitVec.toNat ((addr % 8 * 8).toBitVec % 64)) = addr.toNat % 8 * 8 from toNat_byteShift addr]

theorem word_setByte_getLsbD (m : Memory) (addr : UInt64) (b : UInt8) (k : Nat) (hk : k < 64) :
    ((m.setByte addr b).word (addr / 8)).toBitVec.getLsbD k =
      if addr.toNat % 8 * 8 ≤ k ∧ k < addr.toNat % 8 * 8 + 8 then b.toBitVec.getLsbD (k - addr.toNat % 8 * 8)
      else (m.word (addr / 8)).toBitVec.getLsbD k := by
  have hs : BitVec.toNat ((addr % 8 * 8).toBitVec % 64) = addr.toNat % 8 * 8 := toNat_byteShift addr
  rw [setByte, word_insert, if_pos rfl]
  simp only [UInt64.toBitVec_or, UInt64.toBitVec_and, UInt64.toBitVec_not, UInt64.toBitVec_shiftLeft,
    BitVec.getLsbD_or, BitVec.getLsbD_and, BitVec.getLsbD_not, BitVec.shiftLeft_eq', BitVec.getLsbD_shiftLeft, hs,
    UInt8.toBitVec_toUInt64, BitVec.getLsbD_setWidth]
  have h255 (j : Nat) : (255 : UInt64).toBitVec.getLsbD j = decide (j < 8) := by
    by_cases hj : j < 64
    · revert j
      decide
    · rw [BitVec.getLsbD_of_ge _ _ (by omega), decide_eq_false (by omega)]
  rw [h255]
  split <;> grind

theorem byte_setByte (m : Memory) (addr : UInt64) (b : UInt8) : (m.setByte addr b).byte addr = b := by
  refine UInt8.eq_of_toBitVec_eq (BitVec.eq_of_getLsbD_eq fun k hk => ?_)
  rw [byte_getLsbD, word_setByte_getLsbD _ _ _ _ (by omega), if_pos (by omega), decide_eq_true hk, Bool.true_and]
  congr 1
  omega

theorem byte_setByte_of_ne (m : Memory) {addr addr' : UInt64} (h : addr ≠ addr') (b : UInt8) :
    (m.setByte addr b).byte addr' = m.byte addr' := by
  refine UInt8.eq_of_toBitVec_eq (BitVec.eq_of_getLsbD_eq fun k hk => ?_)
  rw [byte_getLsbD, byte_getLsbD]
  by_cases hw : addr / 8 = addr' / 8
  · have hq : addr.toNat / 8 = addr'.toNat / 8 := by
      have := congrArg UInt64.toNat hw
      rwa [UInt64.toNat_div, UInt64.toNat_div] at this
    have hn : addr.toNat % 8 ≠ addr'.toNat % 8 := fun he => h (UInt64.toNat_inj.mp (by omega))
    rw [← hw, word_setByte_getLsbD _ _ _ _ (by omega), if_neg (by omega)]
  · rw [word_setByte hw]

theorem byte_writeBytes_of_outside (n : Nat) :
    ∀ (m : Memory) (addr bits : UInt64) {addr' : UInt64}, ¬(addr' - addr).toNat < n →
    (m.writeBytes addr bits n).byte addr' = m.byte addr' := by
  induction n with
  | zero => exact fun _ _ _ _ _ => rfl
  | succ n ih =>
    intro m addr bits addr' h
    have hne : addr ≠ addr' := fun he => h (by rw [he, UInt64.sub_self]; exact Nat.succ_pos n)
    have hs : (addr' - (addr + 1)).toNat + 1 = (addr' - addr).toNat := by
      have h1 : (1 : UInt64) ≤ addr' - addr := UInt64.le_iff_toNat_le.mpr (by show 1 ≤ _; omega)
      have hsub := UInt64.toNat_sub_of_le _ _ h1
      rw [show addr' - (addr + 1) = addr' - addr - 1 by grind, hsub]
      show _ - 1 + 1 = _
      omega
    rw [writeBytes, ih _ _ _ (by omega), byte_setByte_of_ne m hne]

theorem mask_getLsbD {n k : Nat} (hn : n ≤ 8) (hk : k < 64) : (mask n).toBitVec.getLsbD k = decide (k < 8 * n) := by
  have h : ∀ n < 9, ∀ k < 64, (mask n).toBitVec.getLsbD k = decide (k < 8 * n) := by decide +kernel
  exact h n (by omega) k hk

theorem readBytes_writeBytes (n : Nat) : ∀ (m : Memory) (addr bits : UInt64), n ≤ 8 →
    (m.writeBytes addr bits n).readBytes addr n = bits &&& mask n := by
  induction n with
  | zero => exact fun m addr bits _ => (UInt64.and_zero).symm
  | succ n ih =>
    intro m addr bits hn
    have hbyte : (m.writeBytes addr bits (n + 1)).byte addr = bits.toUInt8 := by
      rw [writeBytes, byte_writeBytes_of_outside n _ _ _ ?_, byte_setByte]
      rw [show addr - (addr + 1) = -1 by grind]
      show ¬2 ^ 64 - 1 < n
      omega
    rw [readBytes, hbyte, writeBytes, ih _ _ _ (by omega)]
    have h8 : BitVec.toNat ((8 : UInt64).toBitVec % 64) = 8 := rfl
    refine UInt64.eq_of_toBitVec_eq (BitVec.eq_of_getLsbD_eq fun k hk => ?_)
    simp only [UInt64.toBitVec_or, UInt64.toBitVec_and, UInt64.toBitVec_shiftLeft,
      UInt64.toBitVec_shiftRight, BitVec.getLsbD_or,
      BitVec.getLsbD_and, BitVec.shiftLeft_eq', BitVec.ushiftRight_eq', BitVec.getLsbD_shiftLeft,
        BitVec.getLsbD_ushiftRight,
      UInt8.toBitVec_toUInt64, UInt64.toBitVec_toUInt8, BitVec.getLsbD_setWidth, h8]
    rw [mask_getLsbD (by omega) hk, mask_getLsbD (n := n) (k := k - 8) (by omega) (by omega)]
    grind

/-- Just the bytes of the number are written. -/
theorem byte_write_of_outside (m : Memory) {addr addr' : UInt64} {size : Nat} (hs : size ≤ 8)
    (h : ¬(addr' - addr).toNat < size)
    (bits : UInt64) : (m.write addr size bits).byte addr' = m.byte addr' := by
  rw [write]
  split
  case isFalse => exact byte_writeBytes_of_outside size m addr bits h
  case isTrue ha =>
    refine UInt8.eq_of_toBitVec_eq (BitVec.eq_of_getLsbD_eq fun k hk => ?_)
    rw [byte_getLsbD, byte_getLsbD, word_insert]
    split
    case isFalse => rfl
    case isTrue hw =>
      -- in the word of the number, but behind it
      have ha : addr.toNat % 8 = 0 := (UInt64.toNat_mod ..).symm.trans (congrArg UInt64.toNat ha)
      have hq : addr.toNat / 8 = addr'.toNat / 8 := by
        have := congrArg UInt64.toNat hw
        rwa [UInt64.toNat_div, UInt64.toNat_div] at this
      have hle : addr ≤ addr' := UInt64.le_iff_toNat_le.mpr (by omega)
      rw [UInt64.toNat_sub_of_le _ _ hle] at h
      rw [← hw]
      simp only [UInt64.toBitVec_or, UInt64.toBitVec_and, UInt64.toBitVec_not, BitVec.getLsbD_or,
        BitVec.getLsbD_and, BitVec.getLsbD_not]
      rw [mask_getLsbD hs (by omega), decide_eq_false (show ¬addr'.toNat % 8 * 8 + k < 8 * size by omega)]
      simp only [Bool.and_false, Bool.or_false, Bool.not_false, Bool.and_true,
        show addr'.toNat % 8 * 8 + k < 64 by omega, decide_true]

/-- What was written at any address is read there. -/
theorem read_write_eq (m : Memory) (addr : UInt64) {size : Nat} (h : size ≤ 8) (bits : UInt64) :
    (m.write addr size bits).read addr size = bits &&& mask size := by
  by_cases ha : addr % 8 = 0
  · exact m.read_write ha size bits
  · rw [write, read, if_neg ha, if_neg ha, readBytes_writeBytes size m addr bits h]

end Memory

end LevelScript
