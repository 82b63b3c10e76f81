import LevelScript.Proofs.IntegerArithmetic
import Mathlib.Algebra.Ring.Parity
import Mathlib.Data.Nat.Prime.Basic
import Mathlib.Tactic.Positivity

/-!
# Powers of integers

A power is exact up to the greatest exponent that counts. An exponent beyond it counts like that one, which
leaves the power of an even base what it is, and that of an odd one only by chance.
-/

namespace LevelScript

open TypeTable Exec

namespace Integer

/-- The power of an integer. With a negative exponent it is an integer for `1` and `-1` alone, and otherwise
it stands for zero. -/
def power (a b : Int) : Int :=
  if 0 ≤ b then a ^ b.toNat else if a = 1 then 1 else if a = -1 then (-1) ^ b.natAbs else 0

theorem powMod_ofInt (a : Int) (n : Nat) : powMod (.ofInt a) n = .ofInt (a ^ n) := by
  induction n using Nat.strongRecOn generalizing a with
  | _ n ih =>
    unfold powMod
    by_cases h0 : n = 0
    · rw [if_pos h0, h0, pow_zero]
      rfl
    · have half : powMod (.ofInt a * .ofInt a) (n / 2) = .ofInt (a ^ (2 * (n / 2))) := by
        rw [← UInt64.ofInt_mul, ih (n / 2) (by omega), ← pow_two, pow_mul]
      simp only [if_neg h0, half]
      split
      case isTrue hodd => rw [← UInt64.ofInt_mul, ← pow_succ', show 2 * (n / 2) + 1 = n by omega]
      case isFalse heven => rw [show 2 * (n / 2) = n by omega]

section
variable {t : IntegerType} {a b : Int}

theorem ofInt_inj (ha : t.wrap a = a) (hb : t.wrap b = b) : UInt64.ofInt a = .ofInt b ↔ a = b := by
  refine ⟨fun h => ?_, congrArg _⟩
  have ha := word_range ha
  have hb := word_range hb
  rw [h] at ha
  split at ha <;> simp_all

theorem ofInt_odd (b : Int) : UInt64.ofInt b % 2 = 1 ↔ Odd b.natAbs := by
  have := toNat_ofInt b
  rw [← UInt64.toNat_inj, UInt64.toNat_mod, Nat.odd_iff]
  show (UInt64.ofInt b).toNat % 2 = 1 ↔ _
  omega

theorem wrap_one (t : IntegerType) : t.wrap 1 = 1 := by
  rw [IntegerType.wrap_eq_self]
  obtain ⟨width, unsigned⟩ := t
  cases unsigned <;> cases width <;> decide

theorem wrap_neg_one (hu : t.unsigned = false) : t.wrap (-1) = -1 := by
  rw [IntegerType.wrap_eq_self]
  obtain ⟨width, unsigned⟩ := t
  cases hu
  cases width <;> decide

theorem pow_negative (ha : t.wrap a = a) (hu : t.unsigned = false) (hb : b < 0) :
    (if UInt64.ofInt a = 1 then 1
      else if UInt64.ofInt a = 0xFFFFFFFFFFFFFFFF then (if UInt64.ofInt b % 2 = 1 then UInt64.ofInt a else 1)
      else 0) = UInt64.ofInt (power a b) := by
  rw [power, if_neg (Int.not_le.mpr hb)]
  obtain rfl | rfl | ⟨h1, hm⟩ : a = 1 ∨ a = -1 ∨ a ≠ 1 ∧ a ≠ -1 := by omega
  · rfl
  · have hword : ¬UInt64.ofInt (-1) = 1 ∧ UInt64.ofInt (-1) = 0xFFFFFFFFFFFFFFFF := by decide
    have hnumber : ¬(-1 : Int) = 1 := by decide
    rw [if_neg hword.1, if_pos hword.2, if_neg hnumber, if_pos rfl]
    by_cases hodd : Odd b.natAbs
    · rw [if_pos ((ofInt_odd b).mpr hodd), hodd.neg_one_pow]
    · rw [if_neg (mt (ofInt_odd b).mp hodd), (Nat.not_odd_iff_even.mp hodd).neg_one_pow]
      rfl
  · have hone : UInt64.ofInt a ≠ 1 := mt (ofInt_inj ha (wrap_one t)).mp h1
    have hminus : UInt64.ofInt a ≠ 0xFFFFFFFFFFFFFFFF := mt (ofInt_inj ha (wrap_neg_one hu)).mp hm
    rw [if_neg hone, if_neg hminus, if_neg h1, if_neg hm]
    rfl

theorem wrap_range (h : t.wrap b = b) : b < 2 ^ t.width.bits := by
  rw [IntegerType.wrap_eq_self] at h
  obtain ⟨width, unsigned⟩ := t
  cases unsigned <;> cases width <;> simp [IntegerType.limit, Width.bits] at h ⊢ <;> omega

/-- A power of words is that of the numbers, with an exponent that is not too great. -/
theorem pow_ofInt (ha : t.wrap a = a) (hb : t.wrap b = b) :
    pow (!t.unsigned) (.ofInt a) (.ofInt b) = .ofInt (power a (min b maxExponent)) := by
  have hn : (!t.unsigned && decide ((UInt64.ofInt b).toInt64 < 0)) = decide (b < 0) :=
    IntegerValue.negative_word ⟨t, b, hb⟩
  have hmax : (maxExponent : Int) = 4294967295 := rfl
  rw [pow, hn]
  by_cases h : b < 0
  · rw [if_pos (decide_eq_true h), min_eq_left (by omega)]
    exact pow_negative ha (IntegerType.unsigned_of_neg hb h) h
  · have hexp : (UInt64.ofInt b).toNat = b.toNat := by
      have := toNat_ofInt b
      have : b < 2 ^ 64 := (wrap_range hb).trans_le (by cases t.width <;> decide)
      omega
    rw [if_neg (by simp [h]), powMod_ofInt, hexp, power, if_pos (by omega)]
    congr 2
    omega

/-! ## Exponents that do not count -/

theorem wrap_eq_wrap {t : IntegerType} {a b : Int} : t.wrap a = t.wrap b ↔ a ≡ b [ZMOD 2 ^ t.width.bits] := by
  have hcast : ((2 ^ t.width.bits : Nat) : Int) = 2 ^ t.width.bits := by push_cast; rfl
  rw [IntegerType.wrap, IntegerType.wrap, ← hcast]
  split
  case isTrue => exact Iff.rfl
  case isFalse =>
    refine ⟨fun h => ?_, fun h => ?_⟩
    · rw [Int.ModEq, ← Int.bmod_emod, h, Int.bmod_emod]
    · rw [← Int.emod_bmod, h, Int.emod_bmod]

/-- A base that is even has powers that are zero in every type from the greatest width on. -/
theorem pow_modEq_zero (t : IntegerType) (h : 2 ∣ a) {n : Nat} (hn : 64 ≤ n) :
    a ^ n ≡ 0 [ZMOD 2 ^ t.width.bits] := by
  refine Int.modEq_zero_iff_dvd.mpr ((pow_dvd_pow 2 ?_).trans (pow_dvd_pow_of_dvd h n))
  exact Nat.le_trans (by cases t.width <;> decide) hn

/-- A base that is odd can be cancelled. -/
theorem pow_add_modEq (t : IntegerType) (h : ¬2 ∣ a) (n k : Nat) :
    a ^ n ≡ a ^ (n + k) [ZMOD 2 ^ t.width.bits] ↔ a ^ k ≡ 1 [ZMOD 2 ^ t.width.bits] := by
  have hodd : Odd a.natAbs := by
    rw [Nat.odd_iff]
    omega
  have hgcd : Int.gcd (2 ^ t.width.bits) (a ^ n) = 1 := by
    rw [Int.gcd_def, Int.natAbs_pow, Int.natAbs_pow]
    exact Nat.Coprime.pow _ _ (Nat.coprime_two_left.mpr hodd)
  rw [pow_add]
  refine ⟨fun he => ?_, fun he => ?_⟩
  · have he : a ^ n * a ^ k ≡ a ^ n * 1 [ZMOD 2 ^ t.width.bits] := by
      rw [mul_one]
      exact he.symm
    have := he.cancel_left_div_gcd (by positivity)
    rwa [hgcd, Nat.cast_one, Int.ediv_one] at this
  · have := (he.mul_left (a ^ n)).symm
    rwa [mul_one] at this

/-- The power with the greatest exponent that counts is the exact one in a type. -/
theorem wrap_power_min (t : IntegerType) (a b : Int) :
    t.wrap (power a (min b maxExponent)) = t.wrap (power a b) ↔
      b ≤ maxExponent ∨ 2 ∣ a ∨ a ^ (b - maxExponent).toNat ≡ 1 [ZMOD 2 ^ t.width.bits] := by
  by_cases h : b ≤ maxExponent
  · rw [min_eq_left h]
    exact iff_of_true rfl (.inl h)
  · have hmax : (maxExponent : Int) = 4294967295 := rfl
    have hsum : b.toNat = maxExponent + (b - maxExponent).toNat := by omega
    rw [min_eq_right (by omega), wrap_eq_wrap, power, power, if_pos (by omega), if_pos (by omega), hsum,
      Int.toNat_natCast]
    by_cases h2 : 2 ∣ a
    · exact iff_of_true ((pow_modEq_zero t h2 (by decide)).trans (pow_modEq_zero t h2 (by omega)).symm)
        (.inr (.inl h2))
    · rw [pow_add_modEq t h2]
      simp only [h, h2, false_or]

end

end Integer

/-! ## The operator -/

section
variable {m : Machine} {x y : Variable} {v w : IntegerValue}

namespace Exec

theorem power_eq {t : IntegerType} {id : TypeId} {a b : Int} (hi : m.types.types[id]? = some t.info)
    (hx : x.Represents m.types (.cut t a)) (hy : y.Represents m.types (.cut t b)) :
    compute .power id x y m =
      .ok (.ofInt (t.wrap (Integer.power (t.wrap a) (min (t.wrap b) Integer.maxExponent)))) m := by
  have hf : t.info.kind.isFloat = false := by
    show t.width.kind.isFloat = false
    cases t.width <;> rfl
  have hp := Integer.pow_ofInt (t.wrap_wrap a) (t.wrap_wrap b)
  rw [compute, bind_ok (typeInfo_of hi), hf, if_neg Bool.false_ne_true, bind_ok (bits_eq hx.shows),
    bind_ok (bits_eq hy.shows), t.isSignedInteger_info, IntegerValue.word_cut, IntegerValue.word_cut, Integer.apply]
  dsimp only
  rw [hp, extend_ofInt]
  rfl

end Exec

namespace Interp

theorem action?_power (hx : m.Shows x v) (hy : m.Shows y w) (stack : List Variable) :
    Operator.action? m.types .power (y :: x :: stack) = some .arithmetic := by
  have hr : Operator.rules.find? (·.ops.contains .power) =
      some ⟨Operator.multiplicative, [Operator.val .number, Operator.val .number], .arithmetic⟩ := rfl
  refine Operator.action?_of_rule hr ?_
  show Operator.fitAll m.types [Operator.val .number, Operator.val .number] (y :: x :: stack) = true
  rw [Operator.fitAll, Operator.fits_integer hy (.inr (.inl rfl)), Operator.fitAll,
    Operator.fits_integer hx (.inr (.inl rfl))]
  rfl

/-- The power of two integers is that of both in their common type, cut to it, with an exponent of at most two
to the 32nd less one. It never fails, and changes nothing but the types. It is the exact power in a common
type of 32 bits, and in one of 64 bits for every exponent up to that one and every even base; beyond it an odd
base has its exact power just if the part of the exponent that does not count gives one. -/
theorem applyOperator_power (hm : m.types.Stocked) (hx : m.Shows x v) (hy : m.Shows y w) (i : Interp)
    (stack : List Variable) (r : Reader) :
    let t := v.type.common w.type
    let a := t.wrap v.number
    let b := t.wrap w.number
    let z := t.wrap (Integer.power a (min b Integer.maxExponent))
    (∃ id ts, m.types.Grows ts ∧ ts.types[id]? = some t.info ∧
      i.applyOperator .power (y :: x :: stack) r m = .ok (.value id (.ofInt z) :: stack, r) (m.retyped ts)) ∧
    (z = t.wrap (Integer.power a b) ↔ b ≤ Integer.maxExponent ∨ 2 ∣ a ∨
      a ^ (b - Integer.maxExponent).toNat ≡ 1 [ZMOD 2 ^ t.width.bits]) ∧
    (t.width ≠ .w64 → b ≤ Integer.maxExponent) := by
  intro t a b z
  refine ⟨?_, Integer.wrap_power_min t a b, fun hw => ?_⟩
  · obtain ⟨⟨id, x', y'⟩, ts, hp, -, hg, hi, hx', hy'⟩ := promote_computes hx hy hm
    have harith : arithmetic .power x y m = .ok (.value id (.ofInt z)) (m.retyped ts) :=
      (bind_ok hp).trans (bind_ok (power_eq (m := m.retyped ts) hi hx' hy'))
    refine ⟨id, ts, hg, hi, ?_⟩
    rw [applyOperator_between (action?_power hx hy stack) rfl, if_neg nofun]
    exact bind_ok harith
  · have hb := Integer.wrap_range (t.wrap_wrap w.number)
    have hbits : t.width.bits ≤ 32 := by
      revert hw
      cases t.width <;> decide
    have : (2 : Int) ^ t.width.bits ≤ 2 ^ 32 := pow_le_pow_right₀ (by decide) hbits
    have hmax : (Integer.maxExponent : Int) = 4294967295 := rfl
    show t.wrap w.number ≤ _
    omega

/-- The exponent of `(-1) ^^ 4294967296` is even, but the greatest one that counts is odd. -/
theorem applyOperator_power_minusOne :
    let m : Machine := {}
    let x := Variable.value int64 (.ofInt (-1))
    let y := Variable.value int64 (.ofInt 4294967296)
    m.types.Stocked ∧ m.Shows x (.cut ⟨.w64, false⟩ (-1)) ∧ m.Shows y (.cut ⟨.w64, false⟩ 4294967296) ∧
      Integer.power (-1) 4294967296 = 1 ∧
      ∀ (i : Interp) (r : Reader), ∃ id ts, ts.types[id]? = some (IntegerType.info ⟨.w64, false⟩) ∧
        i.applyOperator .power [y, x] r m = .ok ([.value id (.ofInt (-1))], r) (m.retyped ts) := by
  intro m x y
  have hint64 : initial.types[int64]? = some (IntegerType.infoWith ⟨.w64, false⟩ false) :=
    stocked_initial.primitive (show primitiveKinds.idxOf? .int64 = some int64 from rfl)
  have hx : m.Shows x (.cut ⟨.w64, false⟩ (-1)) :=
    ⟨⟨false, hint64⟩, (IntegerValue.cut ⟨.w64, false⟩ (-1)).extend_word⟩
  have hy : m.Shows y (.cut ⟨.w64, false⟩ 4294967296) :=
    ⟨⟨false, hint64⟩, (IntegerValue.cut ⟨.w64, false⟩ 4294967296).extend_word⟩
  have hodd : Odd Integer.maxExponent := ⟨2147483647, rfl⟩
  have hz : Integer.power (-1) (min 4294967296 Integer.maxExponent) = -1 := by
    rw [min_eq_right (by decide), Integer.power, if_pos (by decide)]
    exact hodd.neg_one_pow
  have heven : Integer.power (-1) 4294967296 = 1 := by
    rw [Integer.power, if_pos (by decide)]
    exact (show Even (4294967296 : Int).toNat from ⟨2147483648, rfl⟩).neg_one_pow
  refine ⟨stocked_initial, hx, hy, heven, fun i r => ?_⟩
  obtain ⟨id, ts, -, hi, he⟩ := (applyOperator_power stocked_initial hx hy i [] r).1
  have hbase : IntegerType.wrap ⟨.w64, false⟩ (IntegerType.wrap ⟨.w64, false⟩ (-1)) = -1 := by decide
  have hexp : IntegerType.wrap ⟨.w64, false⟩ (IntegerType.wrap ⟨.w64, false⟩ 4294967296) = 4294967296 := by decide
  refine ⟨id, ts, hi, he.trans ?_⟩
  show EStateM.Result.ok ([Variable.value id (.ofInt (IntegerType.wrap ⟨.w64, false⟩ (Integer.power
    (IntegerType.wrap ⟨.w64, false⟩ (IntegerType.wrap ⟨.w64, false⟩ (-1))) (min (IntegerType.wrap ⟨.w64, false⟩
      (IntegerType.wrap ⟨.w64, false⟩ 4294967296)) Integer.maxExponent))))], r) _ = _
  rw [hbase, hexp, hz]
  rfl

end Interp

end

end LevelScript
