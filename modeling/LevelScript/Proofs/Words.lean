import LevelScript.Machine.Operator
import LevelScript.Proofs.IntegerTree

/-!
# Numbers as words

The machine keeps a number of any integer type as the 64-bit word that differs from it by a multiple of two
to the 64th. Its operations on words, cut to the width of a type, are those on numbers.
-/

namespace LevelScript

namespace Width

def kind : Width → Kind
  | w8 => .int8
  | w16 => .int16
  | w32 => .int32
  | w64 => .int64

end Width

/-! ## Words -/

theorem toNat_ofInt (z : Int) : ((UInt64.ofInt z).toNat : Int) = z % 2 ^ 64 := by
  have h : (z % 2 ^ 64).toNat % 2 ^ 64 = (z % 2 ^ 64).toNat := Nat.mod_eq_of_lt (by omega)
  rw [UInt64.ofInt, UInt64.toNat_ofNat', h]
  omega

theorem ofInt_eq {a b : Int} (h : a % 2 ^ 64 = b % 2 ^ 64) : UInt64.ofInt a = UInt64.ofInt b := by
  rw [UInt64.ofInt, h, ← UInt64.ofInt]

theorem eq_ofInt {n : UInt64} {z : Int} (h : (n.toNat : Int) % 2 ^ 64 = z % 2 ^ 64) : n = UInt64.ofInt z := by
  refine UInt64.toNat_inj.mp ?_
  have := toNat_ofInt z
  have := n.toNat_lt
  omega

theorem toInt_toInt64 (n : UInt64) : n.toInt64.toInt = (n.toNat : Int).bmod (2 ^ 64) := by
  rw [← Int64.toInt_toBitVec, BitVec.toInt_eq_toNat_bmod]
  rfl

theorem toInt_ofInt (z : Int) : (UInt64.ofInt z).toInt64.toInt = z.bmod (2 ^ 64) := by
  rw [toInt_toInt64, toNat_ofInt]
  exact Int.emod_bmod ..

theorem toUInt64_eq_ofInt (n : Int64) : n.toUInt64 = UInt64.ofInt n.toInt := by
  refine eq_ofInt ?_
  have h := toInt_toInt64 n.toUInt64
  rw [show n.toUInt64.toInt64 = n from rfl] at h
  rw [h]
  simp [Int.bmod_def]
  omega

theorem ofInt_bmod (z : Int) : UInt64.ofInt (z.bmod (2 ^ 64)) = UInt64.ofInt z :=
  ofInt_eq (by simp [Int.bmod_def]; omega)

theorem ofInt_sub (a b : Int) : UInt64.ofInt (a - b) = UInt64.ofInt a - UInt64.ofInt b := by
  rw [Int.sub_eq_add_neg, UInt64.ofInt_add, UInt64.ofInt_neg, UInt64.sub_eq_add_neg]

theorem toBitVec_ofInt (z : Int) : (UInt64.ofInt z).toBitVec = BitVec.ofInt 64 z := by
  refine BitVec.eq_of_toNat_eq ?_
  have := toNat_ofInt z
  rw [BitVec.toNat_ofInt]
  change (UInt64.ofInt z).toNat = _
  omega

theorem toInt_shiftRight (a b : Int64) : (a >>> b).toInt = a.toInt / 2 ^ (b.toInt % 64).toNat := by
  have hb : (b.toBitVec.smod 64).toInt = b.toInt % 64 := by
    rw [BitVec.toInt_smod]
    exact Int.fmod_eq_emod_of_nonneg _ (by decide)
  have hn : (b.toBitVec.smod 64).toNat = (b.toInt % 64).toNat := by
    rw [BitVec.toInt_eq_toNat_bmod, Int.bmod_def] at hb
    have := (b.toBitVec.smod 64).isLt
    split at hb <;> omega
  change (a.toBitVec.sshiftRight (b.toBitVec.smod 64).toNat).toInt = _
  rw [BitVec.toInt_sshiftRight, Int.shiftRight_eq_div_pow, hn]
  push_cast
  rfl

theorem shiftLeft_ofInt (a b : Int) : UInt64.ofInt a <<< UInt64.ofInt b = .ofInt (a * 2 ^ (b % 64).toNat) := by
  have ha := toNat_ofInt a
  have hk : (UInt64.ofInt b).toNat % 64 = (b % 64).toNat := by
    have := toNat_ofInt b
    omega
  refine eq_ofInt ?_
  rw [UInt64.toNat_shiftLeft, hk, Nat.shiftLeft_eq]
  push_cast
  rw [ha, Int.emod_emod_of_dvd _ (by decide), Int.mul_emod, Int.emod_emod_of_dvd _ (by decide), ← Int.mul_emod]

/-! ## Cutting to a width -/

theorem extendWord_unsigned (w : Width) (n : UInt64) :
    (extendWord w.kind.valueSize false n).toNat = n.toNat % 2 ^ w.bits := by
  have shifted (k : UInt64) : (n <<< k >>> k).toNat =
      n.toNat * 2 ^ (k.toNat % 64) % 2 ^ 64 / 2 ^ (k.toNat % 64) := by
    rw [UInt64.toNat_shiftRight, UInt64.toNat_shiftLeft, Nat.shiftLeft_eq, Nat.shiftRight_eq_div_pow]
  have hn := n.toNat_lt
  cases w with
  | w8 => exact (shifted 56).trans (by change _ * 2 ^ 56 % _ / 2 ^ 56 = _ % 2 ^ 8; omega)
  | w16 => exact (shifted 48).trans (by change _ * 2 ^ 48 % _ / 2 ^ 48 = _ % 2 ^ 16; omega)
  | w32 => exact (shifted 32).trans (by change _ * 2 ^ 32 % _ / 2 ^ 32 = _ % 2 ^ 32; omega)
  | w64 => exact (Nat.mod_eq_of_lt hn).symm

theorem extendWord_signed (w : Width) (n : UInt64) :
    (extendWord w.kind.valueSize true n).toInt64.toInt = (n.toNat : Int).bmod (2 ^ w.bits) := by
  have shifted (k : UInt64) : ((n <<< k).toInt64 >>> k.toInt64).toInt =
      ((n.toNat * 2 ^ (k.toNat % 64) % 2 ^ 64 : Nat) : Int).bmod (2 ^ 64) / 2 ^ (k.toInt64.toInt % 64).toNat := by
    rw [toInt_shiftRight, toInt_toInt64, UInt64.toNat_shiftLeft, Nat.shiftLeft_eq]
  have hn := n.toNat_lt
  cases w with
  | w8 =>
    refine (shifted 56).trans ?_
    change ((_ * 2 ^ 56 % _ : Nat) : Int).bmod _ / 2 ^ 56 = Int.bmod _ (2 ^ 8)
    rw [Int.bmod_def, Int.bmod_def]
    omega
  | w16 =>
    refine (shifted 48).trans ?_
    change ((_ * 2 ^ 48 % _ : Nat) : Int).bmod _ / 2 ^ 48 = Int.bmod _ (2 ^ 16)
    rw [Int.bmod_def, Int.bmod_def]
    omega
  | w32 =>
    refine (shifted 32).trans ?_
    change ((_ * 2 ^ 32 % _ : Nat) : Int).bmod _ / 2 ^ 32 = Int.bmod _ (2 ^ 32)
    rw [Int.bmod_def, Int.bmod_def]
    omega
  | w64 => exact toInt_toInt64 n

theorem wrap_emod (t : IntegerType) (z : Int) : t.wrap (z % 2 ^ 64) = t.wrap z := by
  obtain ⟨width, unsigned⟩ := t
  cases unsigned <;> cases width <;> simp [IntegerType.wrap, Width.bits, Int.bmod_def]

theorem extendWord_ofInt (t : IntegerType) (z : Int) :
    extendWord t.width.kind.valueSize (!t.unsigned) (.ofInt z) = .ofInt (t.wrap z) := by
  have hz := toNat_ofInt z
  rw [← wrap_emod t z, ← hz, IntegerType.wrap]
  cases t.unsigned with
  | true =>
    refine eq_ofInt ?_
    rw [Bool.not_true, extendWord_unsigned, if_pos rfl]
    rfl
  | false =>
    rw [Bool.not_false, if_neg Bool.false_ne_true, ← extendWord_signed]
    exact toUInt64_eq_ofInt (Int64.ofUInt64 _)

/-! ## Operations -/

def ArithmeticOperator.opcode : ArithmeticOperator → Opcode
  | multiply => .multiplication
  | divide => .division
  | remainder => .modulo
  | add => .addition
  | subtract => .subtraction
  | shiftLeft => .shiftLeft
  | shiftRight => .shiftRight
  | bitAnd => .bitAnd
  | bitXor => .bitXor
  | bitOr => .bitOr

section
variable {t : IntegerType} {a b : Int}

/-- A number of a type is the word itself, read with the sign of the type. -/
theorem word_range (h : t.wrap a = a) :
    if t.unsigned then ((UInt64.ofInt a).toNat : Int) = a else (UInt64.ofInt a).toInt64.toInt = a := by
  rw [toNat_ofInt, toInt_ofInt]
  rw [IntegerType.wrap_eq_self] at h
  obtain ⟨width, unsigned⟩ := t
  cases unsigned <;> cases width <;> simp [IntegerType.least, IntegerType.limit, Width.bits,
    Int.bmod_def] at h ⊢ <;> omega

theorem ofInt_eq_zero (h : t.wrap a = a) : UInt64.ofInt a = 0 ↔ a = 0 := by
  refine ⟨fun h0 => ?_, fun h0 => h0 ▸ rfl⟩
  have := word_range h
  rw [h0] at this
  split at this <;> exact this.symm

theorem div_ofInt (ha : t.wrap a = a) (hb : t.wrap b = b) :
    Integer.div (!t.unsigned) (.ofInt a) (.ofInt b) = .ofInt (a.tdiv b) := by
  have ha := word_range ha
  have hb := word_range hb
  unfold Integer.div
  cases hu : t.unsigned with
  | true =>
    rw [hu, if_pos rfl] at ha hb
    refine eq_ofInt ?_
    show ((UInt64.ofInt a / UInt64.ofInt b).toNat : Int) % _ = _
    rw [UInt64.toNat_div, Int.natCast_ediv, ha, hb, Int.tdiv_eq_ediv_of_nonneg (ha ▸ Int.natCast_nonneg _)]
  | false =>
    rw [hu, if_neg Bool.false_ne_true] at ha hb
    show ((UInt64.ofInt a).toInt64 / (UInt64.ofInt b).toInt64).toUInt64 = _
    rw [toUInt64_eq_ofInt, Int64.toInt_div, ha, hb, ofInt_bmod]

theorem rem_ofInt (ha : t.wrap a = a) (hb : t.wrap b = b) :
    Integer.rem (!t.unsigned) (.ofInt a) (.ofInt b) = .ofInt (a.tmod b) := by
  have ha := word_range ha
  have hb := word_range hb
  unfold Integer.rem
  cases hu : t.unsigned with
  | true =>
    rw [hu, if_pos rfl] at ha hb
    refine eq_ofInt ?_
    show ((UInt64.ofInt a % UInt64.ofInt b).toNat : Int) % _ = _
    rw [UInt64.toNat_mod, Int.natCast_emod, ha, hb, Int.tmod_eq_emod_of_nonneg (ha ▸ Int.natCast_nonneg _)]
  | false =>
    rw [hu, if_neg Bool.false_ne_true] at ha hb
    show ((UInt64.ofInt a).toInt64 % (UInt64.ofInt b).toInt64).toUInt64 = _
    rw [toUInt64_eq_ofInt, Int64.toInt_mod, ha, hb]

theorem shiftRight_ofInt (ha : t.wrap a = a) :
    Integer.shiftRight (!t.unsigned) (.ofInt a) (.ofInt b) = .ofInt (a / 2 ^ (b % 64).toNat) := by
  have ha := word_range ha
  unfold Integer.shiftRight
  cases hu : t.unsigned with
  | true =>
    rw [hu, if_pos rfl] at ha
    have hk : (UInt64.ofInt b).toNat % 64 = (b % 64).toNat := by
      have := toNat_ofInt b
      omega
    refine eq_ofInt ?_
    show ((UInt64.ofInt a >>> UInt64.ofInt b).toNat : Int) % _ = _
    rw [UInt64.toNat_shiftRight, hk, Nat.shiftRight_eq_div_pow, Int.natCast_ediv, ha]
    push_cast
    rfl
  | false =>
    rw [hu, if_neg Bool.false_ne_true] at ha
    have hk : ((UInt64.ofInt b).toInt64.toInt % 64).toNat = (b % 64).toNat := by
      rw [toInt_ofInt, Int.bmod_def]
      omega
    show ((UInt64.ofInt a).toInt64 >>> (UInt64.ofInt b).toInt64).toUInt64 = _
    rw [toUInt64_eq_ofInt, toInt_shiftRight, ha, hk]

theorem bitwise_ofInt (f : BitVec 64 → BitVec 64 → BitVec 64) (a b : Int) :
    UInt64.ofBitVec (f (UInt64.ofInt a).toBitVec (UInt64.ofInt b).toBitVec) = .ofInt
    (ArithmeticOperator.bitwise f a b) := by
  refine UInt64.toBitVec_inj.mp ?_
  rw [toBitVec_ofInt (ArithmeticOperator.bitwise f a b), ArithmeticOperator.bitwise, BitVec.ofInt_toInt,
    toBitVec_ofInt, toBitVec_ofInt]

theorem apply_ofInt (op : ArithmeticOperator) (ha : t.wrap a = a) (hb : t.wrap b = b) (h0 : op.divides → b ≠ 0) :
    Integer.apply op.opcode (!t.unsigned) (.ofInt a) (.ofInt b) = .ok (.ofInt (op.compute a b)) := by
  cases op with
  | multiply => exact congrArg _ (UInt64.ofInt_mul a b).symm
  | divide => exact (if_neg (mt (ofInt_eq_zero hb).mp (h0 rfl))).trans (congrArg _ (div_ofInt ha hb))
  | remainder => exact (if_neg (mt (ofInt_eq_zero hb).mp (h0 rfl))).trans (congrArg _ (rem_ofInt ha hb))
  | add => exact congrArg _ (UInt64.ofInt_add a b).symm
  | subtract => exact congrArg _ (ofInt_sub a b).symm
  | shiftLeft => exact congrArg _ (shiftLeft_ofInt a b)
  | shiftRight => exact congrArg _ (shiftRight_ofInt ha)
  | bitAnd => exact congrArg _ (bitwise_ofInt (· &&& ·) a b)
  | bitXor => exact congrArg _ (bitwise_ofInt (· ^^^ ·) a b)
  | bitOr => exact congrArg _ (bitwise_ofInt (· ||| ·) a b)

theorem apply_zero {op : ArithmeticOperator} (h : op.divides) (signed : Bool) (n : UInt64) :
    Integer.apply op.opcode signed n (.ofInt 0) = .error .byZero := by
  cases op <;> first | rfl | cases h

theorem neg_ofInt (a : Int) : 0 - UInt64.ofInt a = .ofInt (-a) := by
  rw [UInt64.ofInt_neg, UInt64.zero_sub]

theorem not_ofInt (a : Int) : ~~~UInt64.ofInt a = .ofInt (-a - 1) := by
  have := toNat_ofInt a
  have := (UInt64.ofInt a).toNat_lt
  refine eq_ofInt ?_
  rw [UInt64.toNat_not, UInt64.size]
  omega

/-! ## Comparisons -/

def Comparison.opcode : Comparison → Opcode
  | less => .less
  | greater => .greater
  | lessEqual => .lessEqual
  | greaterEqual => .greaterEqual
  | equal => .equals
  | notEqual => .notEquals

theorem compare_ofInt (ha : t.wrap a = a) (hb : t.wrap b = b) :
    Integer.compare (!t.unsigned) (.ofInt a) (.ofInt b) = compareOfLessAndEq a b := by
  have ha := word_range ha
  have hb := word_range hb
  unfold Integer.compare compareOfLessAndEq
  cases hu : t.unsigned with
  | true =>
    rw [hu, if_pos rfl] at ha hb
    simp only [Bool.not_true, Bool.false_eq_true, if_false, UInt64.lt_iff_toNat_lt, ← UInt64.toNat_inj]
    have hlt : (UInt64.ofInt a).toNat < (UInt64.ofInt b).toNat ↔ a < b := by omega
    have heq : (UInt64.ofInt a).toNat = (UInt64.ofInt b).toNat ↔ a = b := by omega
    simp only [hlt, heq]
  | false =>
    rw [hu, if_neg Bool.false_ne_true] at ha hb
    simp only [Bool.not_false, if_true, Int64.lt_iff_toInt_lt, ← Int64.toInt_inj, ha, hb]

theorem holds_compare (op : Comparison) (a b : Int) :
    Exec.holds op.opcode (some (compareOfLessAndEq a b)) = op.holds a b := by
  obtain hlt | heq | hgt := Int.lt_trichotomy a b
  · have ho : compareOfLessAndEq a b = .lt := if_pos hlt
    rw [ho]
    cases op <;> simp [Comparison.opcode, Exec.holds, Comparison.holds, bne] <;> omega
  · have ho : compareOfLessAndEq a b = .eq := by simp [compareOfLessAndEq, heq]
    rw [ho]
    cases op <;> simp [Comparison.opcode, Exec.holds, Comparison.holds, bne] <;> omega
  · have ho : compareOfLessAndEq a b = .gt := by
      rw [compareOfLessAndEq, if_neg (by omega), if_neg (by omega)]
    rw [ho]
    cases op <;> simp [Comparison.opcode, Exec.holds, Comparison.holds, bne] <;> omega

end

namespace IntegerType

theorem common_comm (a b : IntegerType) : a.common b = b.common a := by
  obtain ⟨width, unsigned⟩ := a
  obtain ⟨width', unsigned'⟩ := b
  cases width <;> cases width' <;> cases unsigned <;> cases unsigned' <;> rfl

theorem limit_le_common (a b : IntegerType) : a.limit ≤ (a.common b).limit := by
  obtain ⟨width, unsigned⟩ := a
  obtain ⟨width', unsigned'⟩ := b
  cases width <;> cases width' <;> cases unsigned <;> cases unsigned' <;> decide

theorem least_common_le {a b : IntegerType} (hb : b.unsigned = false) : (a.common b).least ≤ a.least := by
  obtain ⟨width, unsigned⟩ := a
  obtain ⟨width', unsigned'⟩ := b
  cases hb
  cases width <;> cases width' <;> cases unsigned <;> decide

theorem least_nonpos (t : IntegerType) : t.least ≤ 0 := by
  obtain ⟨width, unsigned⟩ := t
  cases width <;> cases unsigned <;> decide

/-- A number keeps its value in a common type, unless it is negative and the type unsigned. -/
theorem wrap_common {a : IntegerType} {z : Int} (h : a.wrap z = z) {b : IntegerType}
    (hz : 0 ≤ z ∨ b.unsigned = false) :
    (a.common b).wrap z = z := by
  rw [wrap_eq_self] at h ⊢
  have hl := limit_le_common a b
  have h0 := least_nonpos (a.common b)
  obtain hz | hb := hz
  · omega
  · have := least_common_le (a := a) hb
    omega

theorem unsigned_of_neg {t : IntegerType} {z : Int} (h : t.wrap z = z) (hz : z < 0) : t.unsigned = false := by
  rw [wrap_eq_self, least] at h
  split at h
  · omega
  case isFalse hu => exact Bool.eq_false_iff.mpr hu

end IntegerType

namespace IntegerValue

def word (v : IntegerValue) : UInt64 := .ofInt v.number

/-- Values of one sign compare in their common type. -/
theorem wrap_common_of_sign {x y : IntegerValue} (h : x.number < 0 ↔ y.number < 0) :
    (x.type.common y.type).wrap x.number = x.number := by
  refine IntegerType.wrap_common x.wrapped ?_
  by_cases hx : x.number < 0
  · exact .inr (IntegerType.unsigned_of_neg y.wrapped (h.mp hx))
  · exact .inl (Int.not_lt.mp hx)

theorem negative_word (v : IntegerValue) :
    (!v.type.unsigned && decide (v.word.toInt64 < 0)) = decide (v.number < 0) := by
  have h := word_range v.wrapped
  cases hu : v.type.unsigned with
  | true =>
    rw [hu, if_pos rfl] at h
    simp
    omega
  | false =>
    rw [hu, if_neg Bool.false_ne_true] at h
    simp [word, Int64.lt_iff_toInt_lt, h]

end IntegerValue

end LevelScript
