import LevelScript.Token.Lexer
import Mathlib.Data.Int.ModEq

/-!
# Trees of integer operators

What an expression over integer literals means: a number of one of the integer types, or nothing if
something is divided by zero. A tree has many texts: a literal can be written in four bases, blanks of any
number separate the tokens, and parentheses may stand around every part.
-/

namespace LevelScript

/-! ## Values -/

inductive Width where
  | w8 | w16 | w32 | w64
  deriving Repr, DecidableEq

namespace Width

def bits : Width → Nat
  | w8 => 8
  | w16 => 16
  | w32 => 32
  | w64 => 64

def wider (a b : Width) : Width := if a.bits ≤ b.bits then b else a

end Width

structure IntegerType where
  width : Width
  unsigned : Bool := false
  deriving Repr, DecidableEq

namespace IntegerType

/-- The number of the type that differs from `z` by a multiple of two to the width. -/
def wrap (t : IntegerType) (z : Int) : Int :=
  if t.unsigned then z % (2 ^ t.width.bits : Nat) else z.bmod (2 ^ t.width.bits)

theorem wrap_wrap (t : IntegerType) (z : Int) : t.wrap (t.wrap z) = t.wrap z := by
  unfold wrap
  split
  · exact Int.emod_emod ..
  · exact Int.bmod_bmod

/-- Two types are combined in the wider one of them, but in at least 32 bits; unsigned if one of them is. -/
def common (a b : IntegerType) : IntegerType := ⟨(a.width.wider b.width).wider .w32, a.unsigned || b.unsigned⟩

/-- The type of a literal: the first that holds it of `s32`, `s64` and `u64`. -/
def ofLiteral (n : UInt64) : IntegerType :=
  if n.toNat < 2 ^ 31 then ⟨.w32, false⟩ else if n.toNat < 2 ^ 63 then ⟨.w64, false⟩ else ⟨.w64, true⟩

def least (t : IntegerType) : Int := if t.unsigned then 0 else -2 ^ (t.width.bits - 1)

def limit (t : IntegerType) : Int := if t.unsigned then 2 ^ t.width.bits else 2 ^ (t.width.bits - 1)

theorem wrap_eq_self {t : IntegerType} {z : Int} : t.wrap z = z ↔ t.least ≤ z ∧ z < t.limit := by
  obtain ⟨width, unsigned⟩ := t
  cases unsigned <;> cases width <;> simp [wrap, least, limit, Width.bits, Int.bmod_def] <;> omega

theorem wrap_ofLiteral (n : UInt64) : (ofLiteral n).wrap n.toNat = n.toNat := by
  have hn := n.toNat_lt
  rw [wrap_eq_self, ofLiteral]
  split
  · simp [least, limit, Width.bits]
    omega
  · split
    · simp [least, limit, Width.bits]
      omega
    · simp [least, limit, Width.bits]
      omega

end IntegerType

structure IntegerValue where
  type : IntegerType
  number : Int
  wrapped : type.wrap number = number

namespace IntegerValue

def cut (t : IntegerType) (z : Int) : IntegerValue := ⟨t, t.wrap z, t.wrap_wrap z⟩

def literal (n : UInt64) : IntegerValue := ⟨.ofLiteral n, n.toNat, IntegerType.wrap_ofLiteral n⟩

def truth (b : Bool) : IntegerValue := ⟨⟨.w8, true⟩, b.toNat, by cases b <;> rfl⟩

def isTrue (v : IntegerValue) : Bool := v.number != 0

end IntegerValue

/-! ## Operators -/

inductive UnaryOperator where
  | plus | minus | logicalNot | complement
  deriving Repr, DecidableEq

namespace UnaryOperator

def mark : UnaryOperator → Mark
  | plus => .plus
  | minus => .minus
  | logicalNot => .bang
  | complement => .tilde

def result (op : UnaryOperator) (v : IntegerValue) : IntegerValue :=
  match op with
  | plus => v
  | minus => .cut v.type (-v.number)
  | logicalNot => .truth (!v.isTrue)
  | complement => .cut v.type (-v.number - 1)

end UnaryOperator

inductive ArithmeticOperator where
  | multiply | divide | remainder | add | subtract | shiftLeft | shiftRight | bitAnd | bitXor | bitOr
  deriving Repr, DecidableEq

namespace ArithmeticOperator

def divides : ArithmeticOperator → Bool
  | divide | remainder => true
  | _ => false

def bitwise (f : BitVec 64 → BitVec 64 → BitVec 64) (a b : Int) : Int := (f (.ofInt 64 a) (.ofInt 64 b)).toInt

/-- The result before it is cut to its type. Division goes toward zero, and shifts count modulo 64. -/
def compute (op : ArithmeticOperator) (a b : Int) : Int :=
  match op with
  | multiply => a * b
  | divide => a.tdiv b
  | remainder => a.tmod b
  | add => a + b
  | subtract => a - b
  | shiftLeft => a * 2 ^ (b % 64).toNat
  | shiftRight => a / 2 ^ (b % 64).toNat
  | bitAnd => bitwise (· &&& ·) a b
  | bitXor => bitwise (· ^^^ ·) a b
  | bitOr => bitwise (· ||| ·) a b

end ArithmeticOperator

inductive Comparison where
  | less | greater | lessEqual | greaterEqual | equal | notEqual
  deriving Repr, DecidableEq

namespace Comparison

def holds (op : Comparison) (a b : Int) : Bool :=
  match op with
  | less => a < b
  | greater => b < a
  | lessEqual => a ≤ b
  | greaterEqual => b ≤ a
  | equal => a = b
  | notEqual => a ≠ b

end Comparison

inductive BinaryOperator where
  | arithmetic (op : ArithmeticOperator)
  | comparison (op : Comparison)
  | both | either | elvis
  deriving Repr, DecidableEq

namespace BinaryOperator

def mark : BinaryOperator → Mark
  | arithmetic .multiply => .star
  | arithmetic .divide => .slash
  | arithmetic .remainder => .percent
  | arithmetic .add => .plus
  | arithmetic .subtract => .minus
  | arithmetic .shiftLeft => .shiftLeft
  | arithmetic .shiftRight => .shiftRight
  | arithmetic .bitAnd => .ampersand
  | arithmetic .bitXor => .hat
  | arithmetic .bitOr => .pipe
  | comparison .less => .less
  | comparison .greater => .greater
  | comparison .lessEqual => .lessEqual
  | comparison .greaterEqual => .greaterEqual
  | comparison .equal => .equalEqual
  | comparison .notEqual => .notEqual
  | both => .ampAmp
  | either => .pipePipe
  | elvis => .question

def precedence : BinaryOperator → Nat
  | arithmetic .multiply | arithmetic .divide | arithmetic .remainder => 12
  | arithmetic .add | arithmetic .subtract => 11
  | arithmetic .shiftLeft | arithmetic .shiftRight => 10
  | comparison .less | comparison .greater | comparison .lessEqual | comparison .greaterEqual => 9
  | comparison .equal | comparison .notEqual => 8
  | arithmetic .bitAnd => 7
  | arithmetic .bitXor => 6
  | arithmetic .bitOr => 5
  | both => 4
  | either => 3
  | elvis => 2

/-- What an operator makes of two values; nothing if it divides by zero. Numbers of different types compare
by what they are, so a negative one is less than any unsigned one. -/
def result (op : BinaryOperator) (x y : IntegerValue) : Option IntegerValue :=
  match op with
  | arithmetic op =>
    let t := x.type.common y.type
    if op.divides ∧ t.wrap y.number = 0 then none
    else some (.cut t (op.compute (t.wrap x.number) (t.wrap y.number)))
  | comparison op => some (.truth (op.holds x.number y.number))
  | both => some (.truth (x.isTrue && y.isTrue))
  | either => some (.truth (x.isTrue || y.isTrue))
  | elvis => some (if x.isTrue then x else y)

end BinaryOperator

/-! ## Trees -/

inductive IntegerTree where
  | literal (n : UInt64)
  | unary (op : UnaryOperator) (a : IntegerTree)
  | binary (op : BinaryOperator) (a b : IntegerTree)
  deriving Repr, DecidableEq

namespace IntegerTree

/-- The value of a tree. Both operands are always evaluated. -/
def eval : IntegerTree → Option IntegerValue
  | literal n => some (.literal n)
  | unary op a => a.eval.map op.result
  | binary op a b => a.eval.bind fun x => b.eval.bind fun y => op.result x y

/-- Somewhere in the tree is a division or a remainder whose right operand is zero in the common type. -/
inductive DividesByZero : IntegerTree → Prop
  | here {op : ArithmeticOperator} {a b : IntegerTree} {x y : IntegerValue} (hop : op.divides)
    (hx : a.eval = some x) (hy : b.eval = some y) (h0 : (x.type.common y.type).wrap y.number = 0) :
    DividesByZero (binary (.arithmetic op) a b)
  | unary {op : UnaryOperator} {a : IntegerTree} : DividesByZero a → DividesByZero (unary op a)
  | left {op : BinaryOperator} {a b : IntegerTree} : DividesByZero a → DividesByZero (binary op a b)
  | right {op : BinaryOperator} {a b : IntegerTree} : DividesByZero b → DividesByZero (binary op a b)

theorem DividesByZero.eval_eq_none {e : IntegerTree} (h : e.DividesByZero) : e.eval = none := by
  induction h with
  | here hop hx hy h0 => simp [eval, hx, hy, BinaryOperator.result, hop, h0]
  | unary _ ih => simp [eval, ih]
  | left _ ih => simp [eval, ih]
  | right _ ih => simp [eval, ih]

theorem eval_eq_none_iff {e : IntegerTree} : e.eval = none ↔ e.DividesByZero := by
  refine ⟨fun h => ?_, DividesByZero.eval_eq_none⟩
  induction e with
  | literal n => cases h
  | unary op a ih => exact .unary (ih (by simpa [eval] using h))
  | binary op a b iha ihb =>
    cases hx : a.eval with
    | none => exact .left (iha hx)
    | some x =>
      cases hy : b.eval with
      | none => exact .right (ihb hy)
      | some y =>
        rw [eval, hx, Option.bind_some, hy, Option.bind_some] at h
        cases op with
        | arithmetic op =>
          have h0 : op.divides ∧ (x.type.common y.type).wrap y.number = 0 := by
            by_contra hn
            rw [BinaryOperator.result, if_neg hn] at h
            cases h
          exact .here h0.1 hx hy h0.2
        | comparison _ => cases h
        | both => cases h
        | either => cases h
        | elvis => cases h

/-! ## Texts -/

/-- The tokens are a tree with at least the parentheses it needs where operators of precedence `p` and higher
can stand. A right operand has to bind tighter than its operator, since operators group to the left. -/
inductive Renders : Nat → IntegerTree → List Token → Prop
  | literal (p : Nat) (n : UInt64) : Renders p (literal n) [.integer n]
  | unary (p : Nat) (op : UnaryOperator) {a : IntegerTree} {ts : List Token} (h : Renders 13 a ts) :
    Renders p (unary op a) (.mark op.mark :: ts)
  | binary {p : Nat} {op : BinaryOperator} {a b : IntegerTree} {ts us : List Token} (hp : p ≤ op.precedence)
    (ha : Renders op.precedence a ts) (hb : Renders (op.precedence + 1) b us) :
    Renders p (binary op a b) (ts ++ .mark op.mark :: us)
  | parens (p : Nat) {e : IntegerTree} {ts : List Token} (h : Renders 0 e ts) :
    Renders p e (.mark .lparen :: (ts ++ [.mark .rparen]))

end IntegerTree

def IsDigit (c : Char) (d : Nat) : Prop := c = Nat.digitChar d ∨ c = (Nat.digitChar d).toUpper

inductive Digits (base : Nat) : Nat → List Char → Prop
  | nil : Digits base 0 []
  | snoc {n d : Nat} {cs : List Char} {c : Char} (h : Digits base n cs) (hd : d < base) (hc : IsDigit c d) :
    Digits base (n * base + d) (cs ++ [c])

inductive Numeral : Nat → List Char → Prop
  | zero : Numeral 0 ['0']
  | decimal {n : Nat} {c : Char} {cs : List Char} (h : Digits 10 n (c :: cs)) (hc : c ≠ '0') : Numeral n (c :: cs)
  | octal {n : Nat} {cs : List Char} (h : Digits 8 n cs) (h0 : cs ≠ []) : Numeral n ('0' :: cs)
  | hexadecimal {n : Nat} {x : Char} {cs : List Char} (h : Digits 16 n cs) (h0 : cs ≠ []) (hx : x ∈ ['x', 'X']) :
    Numeral n ('0' :: x :: cs)
  | binary {n : Nat} {x : Char} {cs : List Char} (h : Digits 2 n cs) (h0 : cs ≠ []) (hx : x ∈ ['b', 'B']) :
    Numeral n ('0' :: x :: cs)

inductive Token.Spelled : Token → List Char → Prop
  | mark (m : Mark) : Spelled (.mark m) m.spelling.toList
  | integer {n : UInt64} {cs : List Char} (h : Numeral n.toNat cs) : Spelled (.integer n) cs

def Blank (cs : List Char) : Prop := ∀ c ∈ cs, isBlank c = true

/-- A text of tokens. Between two of them there are blanks, and there may be some at both ends. -/
inductive Spaced : List Token → List Char → Prop
  | nil {gap : List Char} (hg : Blank gap) : Spaced [] gap
  | cons {t : Token} {ts : List Token} {before cs rest : List Char} (hb : Blank before) (ht : t.Spelled cs)
    (hr : Spaced ts rest) (h0 : ∀ c ∈ rest.head?, isBlank c = true) : Spaced (t :: ts) (before ++ cs ++ rest)

def IntegerTree.Text (e : IntegerTree) (source : String) : Prop :=
  ∃ ts, e.Renders 0 ts ∧ Spaced ts source.toList

end LevelScript
