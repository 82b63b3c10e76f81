import LevelScript.Console
import LevelScript.Proofs.Bytes
import LevelScript.Proofs.Embedding
import Mathlib.Data.Fintype.Card
import Mathlib.Data.Set.Finite.Basic
import Mathlib.Data.Finite.Prod

/-!
# Values that have no end

A struct is shown with the values of its fields, and a field that holds a struct holds its address. So values
are shown along the heap, and a struct can come to stand below itself. A value is shown as a finite text just
if no struct that is met does.
-/

namespace LevelScript

open Relation (ReflTransGen TransGen)

namespace Machine

variable {m : Machine} {x y : TypeId × UInt64}

/-! ## Ends and cycles -/

end Machine

/-! ## Showing values -/

namespace Exec

open Machine

/-- Whatever fault is to be raised, showing a value gives the text. -/
def Renders (m : Machine) (n : Nat) (x : TypeId × UInt64) (text : String) : Prop :=
  ∀ m', m.SameButFault m' → ∃ m₁, m.SameButFault m₁ ∧ render n x.1 x.2 m' = .ok text m₁

variable {m m' : Machine} {α : Type}

def isText (ts : TypeTable) (id : TypeId) : Bool :=
  (ts.get id).base?.any fun base => ts.kind base = .int8 && !(ts.get base).unsigned

theorem render_succ (n : Nat) (id : TypeId) (word : UInt64) (h : m.SameButFault m') :
    render (n + 1) id word m' = (if (isText m.types id && decide (word ≠ 0)) = true then do
        return "\"" ++ Text.escape (Text.ofBytesLossy (← textAt word)) ++ "\""
      else match (m.types.get id).kind with
      | .void => return "(void)"
      | .int8 | .int16 | .int32 | .int64 =>
        return if (m.types.get id).unsigned then Nat.repr word.toNat else toString word.toInt64.toInt
      | .float32 => return Double.generalText (Real32.widen word.toUInt32)
      | .float64 => return Double.generalText word
      | .pointer => return "0x" ++ hexPadded 16 word.toNat
      | .type => displayType (TypeId.ofBits word)
      | .struct =>
        if word = 0 then return "(null)"
        else do
          let fields ← renderFields (render n) word (m.types.get id).fields
          return "\x7b" ++ ",".intercalate fields ++ " \x7d"
      | _ => displayType id) m' := by
  obtain ⟨pending, rfl⟩ := h
  rfl

section
variable {n : Nat} {x : TypeId × UInt64}

end

end Exec

open Exec Machine Session

/-! ## Where values are shown -/

section
variable {i : Interp} {v : Variable} {m : Machine} {name : String}

end

end LevelScript
