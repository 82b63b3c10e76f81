import LevelScript.Machine.Command
import LevelScript.Proofs.Words
import Mathlib.Data.List.Chain
import Mathlib.Tactic.Ring

/-!
# Counting

A counting loop goes through numbers of an integer type, from one bound to the other. What is counted is a
list of numbers: it follows from the bounds and the step alone, and ends where a number leaves the bounds or
where the type does not hold the next one.
-/

namespace LevelScript

namespace IntegerType

end IntegerType

structure Counting where
  type : IntegerType
  low : Int
  high : Int
  lowExcluded : Bool
  highExcluded : Bool
  step : Int
  low_wrapped : type.wrap low = low
  high_wrapped : type.wrap high = high

namespace Counting

variable (c : Counting)

def start : Int := if c.step < 0 then c.high else c.low

def startExcluded : Bool := if c.step < 0 then c.highExcluded else c.lowExcluded

def next (z : Int) : Int := c.type.wrap (z + c.step)

def first : Int := if c.startExcluded then c.next c.start else c.start

def Inside (z : Int) : Prop :=
  (if c.lowExcluded then c.low < z else c.low ≤ z) ∧ (if c.highExcluded then z < c.high else z ≤ c.high)

instance (z : Int) : Decidable (c.Inside z) := by
  unfold Inside
  infer_instance

/-- `b` comes after `a` in the direction of the step. -/
def Before (a b : Int) : Prop := if c.step < 0 then b < a else a < b

instance (a b : Int) : Decidable (c.Before a b) := by
  unfold Before
  infer_instance

/-- The numbers from `z` on: as long as the bounds hold and the step does not wrap around. -/
inductive Counts : Int → List Int → Prop
  | outside {z : Int} : ¬c.Inside z → Counts z []
  | last {z : Int} : c.Inside z → ¬c.Before z (c.next z) → Counts z [z]
  | next {z : Int} {zs : List Int} : c.Inside z → c.Before z (c.next z) → Counts (c.next z) zs → Counts z (z :: zs)

variable {c} {z : Int} {zs : List Int}

theorem Counts.inside (h : c.Counts z zs) : ∀ x ∈ zs, c.Inside x := by
  induction h with
  | outside => nofun
  | last hi _ => exact List.forall_mem_singleton.mpr hi
  | next hi _ _ ih => exact List.forall_mem_cons.mpr ⟨hi, ih⟩

theorem Before.trans {a b d : Int} (h : c.Before a b) (h' : c.Before b d) : c.Before a d := by
  unfold Before at *
  split at h <;> rename_i hs
  · rw [if_pos hs] at h' ⊢
    omega
  · rw [if_neg hs] at h' ⊢
    omega

theorem Counts.head (h : c.Counts z zs) : ∀ x ∈ zs.head?, x = z := by
  cases h with
  | outside => nofun
  | last | next => exact fun x hx => (Option.mem_some.mp hx).symm

/-- The numbers go in one direction. -/
theorem Counts.sorted (h : c.Counts z zs) : zs.Pairwise c.Before := by
  have chain : zs.IsChain c.Before := by
    induction h with
    | outside => exact .nil
    | last => exact .singleton _
    | next hi hb h ih => exact List.isChain_cons.mpr ⟨fun x hx => h.head x hx ▸ hb, ih⟩
  have : IsTrans Int c.Before := ⟨fun _ _ _ => Before.trans⟩
  exact List.isChain_iff_pairwise.mp chain

/-! ## Steps that are smaller than the type -/

def lowest (c : Counting) : Int := if c.lowExcluded then c.low + 1 else c.low

def highest (c : Counting) : Int := if c.highExcluded then c.high - 1 else c.high

def Past (c : Counting) (z : Int) : Prop := if c.step < 0 then z ≤ c.highest else c.lowest ≤ z

theorem Past.next (h : c.Past z) : c.Past (z + c.step) := by
  unfold Past at *
  split <;> rename_i hs
  · rw [if_pos hs] at h
    omega
  · rw [if_neg hs] at h
    omega

theorem Counts.eq_nil (h : c.Counts z zs) (hi : ¬c.Inside z) : zs = [] := by
  cases h with
  | outside => rfl
  | last hi' | next hi' => exact absurd hi' hi

end Counting

end LevelScript
