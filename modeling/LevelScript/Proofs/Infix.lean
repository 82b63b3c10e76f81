import LevelScript.Grammar
import LevelScript.Proofs.IntegerOperators

/-!
# From texts of trees to postfix order

The tokens of a tree parse, whatever parentheses there are, to nodes in postfix order that stand for this
tree. An operator waits while the operands of a tighter one are read; those that wait when a part is over
are its own and complete it.
-/

namespace LevelScript

open IntegerTree

/-- Nodes that compute a tree, written in `size` tokens, where operators of precedence `p` and higher can
stand. -/
inductive Postfix : Nat → Nat → IntegerTree → List Node → Prop
  | literal (p : Nat) (pos : Position) (n : UInt64) : Postfix p 1 (literal n) [.mk pos (.integer n)]
  | unary (p : Nat) (pos : Position) (op : UnaryOperator) {size : Nat} {a : IntegerTree} {ns : List Node}
    (h : Postfix 13 size a ns) : Postfix p (size + 1) (unary op a) (ns ++ [.mk pos (.operator op.opcode)])
  | binary (pos : Position) {p size size' : Nat} {op : BinaryOperator} {a b : IntegerTree} {ns ns' : List Node}
    (hp : p ≤ op.precedence) (ha : Postfix op.precedence size a ns) (hb : Postfix (op.precedence + 1) size' b ns') :
    Postfix p (size + size' + 1) (binary op a b) (ns ++ ns' ++ [.mk pos (.operator op.opcode)])
  | parens (p : Nat) (pos : Position) {size : Nat} {e : IntegerTree} {ns : List Node} (h : Postfix 0 size e ns) :
    Postfix p (size + 2) e [.mk pos (.paren (.mk ns))]

/-! ## Operators that wait -/

namespace BinaryOperator

theorem precedence_opcode (op : BinaryOperator) : op.opcode.precedence = op.precedence := by
  cases op with
  | arithmetic op => cases op <;> rfl
  | comparison op => cases op <;> rfl
  | both | either | elvis => rfl

theorem precedence_bounds (op : BinaryOperator) : 2 ≤ op.precedence ∧ op.precedence ≤ 12 := by
  cases op with
  | arithmetic op => cases op <;> decide
  | comparison op => cases op <;> decide
  | both | either | elvis => decide

theorem rightAssociative_opcode (op : BinaryOperator) : op.opcode.rightAssociative = false := by
  cases op with
  | arithmetic op => cases op <;> rfl
  | comparison op => cases op <;> rfl
  | both | either | elvis => rfl

theorem yields_iff (top : Opcode) (op : BinaryOperator) :
    top.yields op.opcode = decide (op.precedence ≤ top.precedence) := by
  rw [Opcode.yields, op.rightAssociative_opcode, op.precedence_opcode]
  rfl

end BinaryOperator

/-- An operand and what stands behind it come out as nodes `done`, and operators of the part wait in front of
those that waited before it. -/
structure Sorts (p size : Nat) (e : IntegerTree) (first : List Node) (items : List (Waiting × List Node))
    (done : List Node) (waiting : List Waiting) : Prop where
  nodes : Postfix p size e (done ++ waiting.map Waiting.node)
  tight : ∀ w ∈ waiting, p ≤ w.op.precedence
  sorted : ∀ stack more, (∀ w ∈ stack.head?, w.op.precedence < p) →
    first ++ postfixRest stack (items ++ more) = done ++ postfixRest (waiting ++ stack) more

namespace Sorts

theorem operand {p size : Nat} {e : IntegerTree} {ns : List Node} (h : Postfix p size e ns) :
    Sorts p size e ns [] ns [] :=
  ⟨by rwa [List.map_nil, List.append_nil], nofun, fun _ _ _ => rfl⟩

theorem postfixOrder {p size : Nat} {e : IntegerTree} {first done : List Node} {items : List (Waiting × List Node)}
    {waiting : List Waiting} (h : Sorts p size e first items done waiting) :
    Postfix p size e (LevelScript.postfixOrder first items) := by
  have := h.sorted [] [] nofun
  rw [List.append_nil, List.append_nil] at this
  rw [LevelScript.postfixOrder, this]
  exact h.nodes

theorem binary {p size size' : Nat} {op : BinaryOperator} {a b : IntegerTree} {first first' done done' : List Node}
    {items items' : List (Waiting × List Node)} {waiting waiting' : List Waiting} (pos : Position)
    (hp : p ≤ op.precedence) (ha : Sorts op.precedence size a first items done waiting)
    (hb : Sorts (op.precedence + 1) size' b first' items' done' waiting') :
    Sorts p (size + size' + 1) (.binary op a b) first (items ++ (⟨op.opcode, pos⟩, first') :: items')
      (done ++ waiting.map Waiting.node ++ done') (waiting' ++ [⟨op.opcode, pos⟩]) := by
  have hop := op.precedence_opcode
  refine ⟨?_, fun w hw => ?_, fun stack more hs => ?_⟩
  · have := Postfix.binary pos hp ha.nodes hb.nodes
    simpa [Waiting.node] using this
  · obtain hw | hw := List.mem_append.mp hw
    · exact Nat.le_trans (Nat.le_trans hp (Nat.le_succ _)) (hb.tight w hw)
    · rw [List.mem_singleton.mp hw]
      exact hop ▸ hp
  -- What waits in the left operand binds at least as tightly, so it leaves the stack before the operator
  -- enters.
  · have ready : ∀ w ∈ waiting, w.op.yields op.opcode = true := fun w hw => by
      rw [op.yields_iff]
      exact decide_eq_true (ha.tight w hw)
    -- What waited before the operands binds less tightly and stays.
    have stays : stack.takeWhile (·.op.yields op.opcode) = [] ∧
        stack.dropWhile (·.op.yields op.opcode) = stack := by
      cases stack with
      | nil => exact ⟨rfl, rfl⟩
      | cons w stack =>
        have hw : w.op.yields op.opcode = false := by
          rw [op.yields_iff]
          exact decide_eq_false (Nat.not_le.mpr (Nat.lt_of_lt_of_le (hs w rfl) hp))
        exact ⟨List.takeWhile_cons_of_neg (by simp [hw]), List.dropWhile_cons_of_neg (by simp [hw])⟩
    have hs' : ∀ w ∈ stack.head?, w.op.precedence < op.precedence := fun w hw => Nat.lt_of_lt_of_le (hs w hw) hp
    calc first ++ postfixRest stack (items ++ (⟨op.opcode, pos⟩, first') :: items' ++ more)
      _ = first ++ postfixRest stack (items ++ ((⟨op.opcode, pos⟩, first') :: (items' ++ more))) := by
        rw [List.append_assoc, List.cons_append]
      _ = done ++ postfixRest (waiting ++ stack) ((⟨op.opcode, pos⟩, first') :: (items' ++ more)) :=
        ha.sorted _ _ hs'
      _ = done ++ (waiting.map Waiting.node ++ first' ++
          postfixRest (⟨op.opcode, pos⟩ :: stack) (items' ++ more)) := by
        rw [postfixRest, List.takeWhile_append_of_pos ready, List.dropWhile_append_of_pos ready, stays.1, stays.2,
          List.append_nil]
      _ = done ++ (waiting.map Waiting.node ++
          (done' ++ postfixRest (waiting' ++ ⟨op.opcode, pos⟩ :: stack) more)) := by
        rw [List.append_assoc, hb.sorted _ _ fun w hw => ?_]
        cases hw
        exact hop ▸ Nat.lt_succ_self _
      _ = _ := by simp only [List.append_assoc, List.cons_append, List.nil_append]

end Sorts

/-! ## Parsing -/

namespace Parser

section
variable {α β : Type} {l : Lexeme} {rest : List Lexeme}

theorem bind_ok {x : Parser α} {f : α → Parser β} {a : α} {ls ls' : List Lexeme} (h : x ls = .ok (a, ls')) :
    (x >>= f) ls = f a ls' := by
  simp only [bind, StateT.bind, Except.bind, h]

theorem peek_bind (f : Lexeme → Parser β) : (peek >>= f) (l :: rest) = f l (l :: rest) := rfl

theorem skip_bind (f : Unit → Parser β) : (skip >>= f) (l :: rest) = f () rest := rfl

theorem accept_eq {t : Token} (h : l.token = t) : accept t (l :: rest) = .ok (some l, rest) := by
  show (if l.token = t then _ else _ : Parser (Option Lexeme)) (l :: rest) = _
  rw [if_pos h]
  rfl

theorem accept_ne {t : Token} (h : l.token ≠ t) : accept t (l :: rest) = .ok (none, l :: rest) := by
  show (if l.token = t then _ else _ : Parser (Option Lexeme)) (l :: rest) = _
  rw [if_neg h]
  rfl

theorem has_eq {t : Token} (h : l.token = t) : has t (l :: rest) = .ok (true, rest) := bind_ok (accept_eq h)

theorem require_eq {m : Mark} (h : l.token = .mark m) : require m (l :: rest) = .ok ((), rest) := bind_ok (has_eq h)

theorem acceptName_ne (h : ∀ name, l.token ≠ .identifier name) :
    acceptName (l :: rest) = .ok (none, l :: rest) := by
  obtain ⟨token, place, stop⟩ := l
  cases token with
  | identifier name => exact absurd rfl (h name)
  | _ => rfl

end

end Parser

open LevelScript.Parser

def EndsOperand (t : Token) : Prop := t = .mark .semicolon ∨ t = .mark .rparen ∨
    ∃ op : BinaryOperator, t = .mark op.mark

def EndsExpression (t : Token) : Prop := t = .mark .semicolon ∨ t = .mark .rparen

theorem EndsOperand.suffixes {l : Lexeme} (h : EndsOperand l.token) (n : Nat) (rest : List Lexeme) :
    Grammar.suffixes (n + 1) (l :: rest) = .ok ([], l :: rest) := by
  rw [Grammar.suffixes]
  refine (peek_bind _).trans ?_
  obtain h | h | ⟨op, h⟩ := h
  · rw [h]
    rfl
  · rw [h]
    rfl
  · rw [h]
    cases op with
    | arithmetic op => cases op <;> rfl
    | comparison op => cases op <;> rfl
    | both | either | elvis => rfl

inductive StartsOperand : Token → Prop
  | integer (n : UInt64) : StartsOperand (.integer n)
  | unary (op : UnaryOperator) : StartsOperand (.mark op.mark)
  | lparen : StartsOperand (.mark .lparen)

theorem StartsOperand.ne_keyword {t : Token} (h : StartsOperand t) (word : Keyword) : t ≠ .keyword word := by
  cases h <;> nofun

theorem StartsOperand.ne_eof {t : Token} (h : StartsOperand t) : t ≠ .eof := by
  cases h <;> nofun

structure ReadsOperand (ls : List Lexeme) (ns : List Node) : Prop where
  start : ∃ l ls', ls = l :: ls' ∧ StartsOperand l.token
  operand (n : Nat) (l : Lexeme) (rest : List Lexeme) : 4 * ls.length ≤ n → EndsOperand l.token →
    Grammar.operand n (ls ++ l :: rest) = .ok (ns, l :: rest)

namespace ReadsOperand

theorem literal {l : Lexeme} {n : UInt64} (h : l.token = .integer n) :
    ReadsOperand [l] [.mk l.position (.integer n)] := by
  refine ⟨⟨l, [], rfl, h ▸ .integer n⟩, fun k next rest hk hn => ?_⟩
  obtain ⟨k, rfl⟩ : ∃ j, k = j + 1 + 1 + 1 + 1 := ⟨k - 4, by simp at hk; omega⟩
  rw [List.singleton_append, Grammar.operand]
  refine (peek_bind _).trans ?_
  rw [h]
  have hp : Grammar.primary (k + 1 + 1 + 1) l (l :: next :: rest) = .ok (.integer n, next :: rest) := by
    rw [Grammar.primary, h]
    rfl
  exact (bind_ok hp).trans (bind_ok (hn.suffixes _ rest))

theorem unary {l : Lexeme} {ls : List Lexeme} {ns : List Node} {op : UnaryOperator} (h : l.token = .mark op.mark)
    (ha : ReadsOperand ls ns) : ReadsOperand (l :: ls) (ns ++ [.mk l.position (.operator op.opcode)]) := by
  refine ⟨⟨l, ls, rfl, h ▸ .unary op⟩, fun k next rest hk hn => ?_⟩
  obtain ⟨k, rfl⟩ : ∃ j, k = j + 1 := ⟨k - 1, by simp at hk; omega⟩
  rw [List.length_cons] at hk
  rw [List.cons_append, Grammar.operand]
  refine (peek_bind _).trans ?_
  have hop : op.mark.prefix? = some op.opcode := by cases op <;> rfl
  rw [h]
  dsimp only
  rw [hop]
  refine (skip_bind _).trans ?_
  exact bind_ok (ha.operand k next rest (by omega) hn)

theorem term {ls : List Lexeme} {ns : List Node} (h : ReadsOperand ls ns) {n : Nat} {l : Lexeme}
    {rest : List Lexeme} (hn : 4 * ls.length < n) (hl : EndsOperand l.token) :
    Grammar.term n false (ls ++ l :: rest) = .ok ((ns, true), l :: rest) := by
  obtain ⟨n, rfl⟩ : ∃ j, n = j + 1 := ⟨n - 1, by omega⟩
  have hr := h.operand n l rest (by omega) hl
  obtain ⟨first, ls', rfl, hf⟩ := h.start
  have hname : ∀ name, l.token ≠ .identifier name := by
    obtain hl | hl | ⟨op, hl⟩ := hl <;> rw [hl] <;> nofun
  rw [Grammar.term]
  refine (bind_ok (accept_ne (hf.ne_keyword _))).trans
    ((bind_ok hr).trans ((bind_ok (acceptName_ne hname)).trans ?_))
  rfl

end ReadsOperand

/-- Lexemes in which operators, of precedence `p` and higher, and operands alternate. -/
inductive ReadsItems (p : Nat) : List Lexeme → List (Waiting × List Node) → Prop
  | nil : ReadsItems p [] []
  | cons {op : BinaryOperator} {l : Lexeme} {ls ls' : List Lexeme} {ns : List Node}
      {items : List (Waiting × List Node)}
    (hp : p ≤ op.precedence) (hl : l.token = .mark op.mark) (ha : ReadsOperand ls ns) (h : ReadsItems p ls' items) :
    ReadsItems p (l :: (ls ++ ls')) ((⟨op.opcode, l.position⟩, ns) :: items)

namespace ReadsItems

variable {p : Nat} {ls ls' : List Lexeme} {items items' : List (Waiting × List Node)}

theorem append (h : ReadsItems p ls items) (h' : ReadsItems p ls' items') :
    ReadsItems p (ls ++ ls') (items ++ items') := by
  induction h with
  | nil => exact h'
  | cons hp hl ha _ ih =>
    rw [List.cons_append, List.append_assoc, List.cons_append]
    exact .cons hp hl ha ih

theorem mono {q : Nat} (hq : q ≤ p) (h : ReadsItems p ls items) : ReadsItems q ls items := by
  induction h with
  | nil => exact .nil
  | cons hp hl ha _ ih => exact .cons (Nat.le_trans hq hp) hl ha ih

/-- No operator binds tighter than the unary ones. -/
theorem eq_nil (h : ReadsItems 13 ls items) : ls = [] ∧ items = [] := by
  cases h with
  | nil => exact ⟨rfl, rfl⟩
  | @cons op _ _ _ _ _ hp => exact absurd (Nat.le_trans hp op.precedence_bounds.2) (by decide)

theorem term (h : ReadsItems p ls' items) {ns : List Node} (ha : ReadsOperand ls ns) {n : Nat} {l : Lexeme}
    {rest : List Lexeme} (hn : 4 * ls.length < n) (hl : EndsExpression l.token) :
    Grammar.term n false (ls ++ (ls' ++ l :: rest)) = .ok ((ns, true), ls' ++ l :: rest) := by
  cases h with
  | nil => exact ha.term hn (hl.elim .inl fun h => .inr (.inl h))
  | cons _ h' _ _ => exact ha.term hn (.inr (.inr ⟨_, h'⟩))

theorem chain (h : ReadsItems p ls items) {n : Nat} {l : Lexeme} {rest : List Lexeme} (hn : 4 * ls.length + 2 ≤ n)
    (hl : EndsExpression l.token) : Grammar.chain n true (ls ++ l :: rest) = .ok ((items, true), l :: rest) := by
  induction h generalizing n with
  | nil =>
    obtain ⟨n, rfl⟩ : ∃ j, n = j + 1 := ⟨n - 1, by omega⟩
    rw [List.nil_append, Grammar.chain]
    refine (peek_bind _).trans ?_
    obtain hl | hl := hl <;> rw [hl] <;> rfl
  | @cons op next ls ls' ns items hp hnext ha h ih =>
    obtain ⟨n, rfl⟩ : ∃ j, n = j + 1 := ⟨n - 1, by omega⟩
    rw [List.length_cons, List.length_append] at hn
    have hop : op.mark.binary? = some op.opcode := by
      cases op with
      | arithmetic op => cases op <;> rfl
      | comparison op => cases op <;> rfl
      | both | either | elvis => rfl
    rw [List.cons_append, List.append_assoc, Grammar.chain]
    refine (peek_bind _).trans ?_
    rw [hnext]
    dsimp only
    rw [hop]
    refine (skip_bind _).trans ?_
    exact (bind_ok (h.term ha (by omega) hl)).trans (bind_ok (ih (by omega)))

end ReadsItems

/-- The lexemes of a part of an expression: an operand, and operators with operands behind it that compute
the tree. -/
def Splits (p : Nat) (e : IntegerTree) (ls : List Lexeme) : Prop :=
  ∃ ls₀ ls₁ first items done waiting, ls = ls₀ ++ ls₁ ∧ ReadsOperand ls₀ first ∧ ReadsItems p ls₁ items ∧
    Sorts p ls.length e first items done waiting

namespace Splits

theorem operand {p : Nat} {e : IntegerTree} {ls : List Lexeme} {ns : List Node} (h : ReadsOperand ls ns)
    (hp : Postfix p ls.length e ns) : Splits p e ls :=
  ⟨ls, [], ns, [], ns, [], (List.append_nil ls).symm, h, .nil, .operand hp⟩

/-- Where only operators of precedence 13 could stand, there is just an operand. -/
theorem only_operand {e : IntegerTree} {ls : List Lexeme} (h : Splits 13 e ls) :
    ∃ ns, ReadsOperand ls ns ∧ Postfix 13 ls.length e ns := by
  obtain ⟨ls₀, ls₁, first, items, done, waiting, rfl, hr, hi, hs⟩ := h
  obtain ⟨rfl, rfl⟩ := hi.eq_nil
  have := hs.postfixOrder
  rw [List.append_nil] at this ⊢
  rw [LevelScript.postfixOrder, postfixRest, List.map_nil, List.append_nil] at this
  exact ⟨first, hr, this⟩

theorem expression {p : Nat} {e : IntegerTree} {ls : List Lexeme} (h : Splits p e ls) :
    ∃ ns, Postfix p ls.length e ns ∧ ∀ n l rest, 4 * ls.length + 3 ≤ n → EndsExpression l.token →
      Grammar.expression n false (ls ++ l :: rest) = .ok ((.mk ns, true), l :: rest) := by
  obtain ⟨ls₀, ls₁, first, items, done, waiting, rfl, hr, hi, hs⟩ := h
  refine ⟨_, hs.postfixOrder, fun n l rest hn hl => ?_⟩
  obtain ⟨n, rfl⟩ : ∃ j, n = j + 1 := ⟨n - 1, by omega⟩
  rw [List.length_append] at hn
  rw [List.append_assoc, Grammar.expression]
  exact (bind_ok (hi.term hr (by omega) hl)).trans (bind_ok (hi.chain (by omega) hl))

end Splits

theorem Splits.parens {l r : Lexeme} {ls : List Lexeme} {e : IntegerTree} (hl : l.token = .mark .lparen)
    (hr : r.token = .mark .rparen) (h : Splits 0 e ls) (p : Nat) : Splits p e (l :: (ls ++ [r])) := by
  obtain ⟨ns, hp, hx⟩ := h.expression
  have hoperand : ReadsOperand (l :: (ls ++ [r])) [.mk l.position (.paren (.mk ns))] := by
    refine ⟨⟨l, ls ++ [r], rfl, hl ▸ .lparen⟩, fun n next rest hn hnext => ?_⟩
    rw [List.length_cons, List.length_append, List.length_singleton] at hn
    obtain ⟨n, rfl⟩ : ∃ j, n = j + 1 + 1 := ⟨n - 2, by omega⟩
    rw [List.cons_append, List.append_assoc, List.singleton_append, Grammar.operand]
    refine (peek_bind _).trans ?_
    rw [hl]
    have hprimary : Grammar.primary (n + 1) l (l :: (ls ++ r :: next :: rest)) =
        .ok (.paren (.mk ns), next :: rest) := by
      rw [Grammar.primary, hl]
      refine (skip_bind _).trans ?_
      exact (bind_ok (hx n r (next :: rest) (by omega) (.inr hr))).trans (bind_ok (require_eq hr))
    exact (bind_ok hprimary).trans (bind_ok (hnext.suffixes _ rest))
  refine .operand hoperand ?_
  rw [List.length_cons, List.length_append]
  exact .parens p l.position hp

theorem IntegerTree.Renders.splits {p : Nat} {e : IntegerTree} {ts : List Token} (h : e.Renders p ts) :
    ∀ ls : List Lexeme, ls.map Lexeme.token = ts → Splits p e ls := by
  induction h with
  | literal p n =>
    intro ls hls
    obtain ⟨l, rest, rfl, hl, hrest⟩ := List.map_eq_cons_iff.mp hls
    rw [List.map_eq_nil_iff.mp hrest]
    exact .operand (.literal hl) (.literal p l.position n)
  | unary p op _ ih =>
    intro ls hls
    obtain ⟨l, rest, rfl, hl, hrest⟩ := List.map_eq_cons_iff.mp hls
    obtain ⟨ns, hr, hp⟩ := (ih rest hrest).only_operand
    exact .operand (hr.unary hl) (.unary p l.position op hp)
  | @binary p op a b ts us hp _ _ iha ihb =>
    intro ls hls
    obtain ⟨la, rest, rfl, ha, hrest⟩ := List.map_eq_append_iff.mp hls
    obtain ⟨l, lb, rfl, hl, hb⟩ := List.map_eq_cons_iff.mp hrest
    obtain ⟨la₀, la₁, first, items, done, waiting, rfl, hra, hia, hsa⟩ := iha la ha
    obtain ⟨lb₀, lb₁, first', items', done', waiting', rfl, hrb, hib, hsb⟩ := ihb lb hb
    have hi := (hia.mono hp).append (.cons hp hl hrb (hib.mono (Nat.le_trans hp (Nat.le_succ _))))
    have hs := hsa.binary l.position hp hsb
    rw [Nat.add_assoc, ← List.length_cons (a := l), ← List.length_append] at hs
    exact ⟨la₀, _, _, _, _, _, List.append_assoc .., hra, hi, hs⟩
  | parens p _ ih =>
    intro ls hls
    obtain ⟨l, rest, rfl, hl, hrest⟩ := List.map_eq_cons_iff.mp hls
    obtain ⟨inner, rest, rfl, hinner, hrest⟩ := List.map_eq_append_iff.mp hrest
    obtain ⟨r, rest, rfl, hr, hrest⟩ := List.map_eq_cons_iff.mp hrest
    rw [List.map_eq_nil_iff.mp hrest]
    exact (ih inner hinner).parens hl hr p

theorem Splits.start {p : Nat} {e : IntegerTree} {ls : List Lexeme} (h : Splits p e ls) :
    ∃ l ls', ls = l :: ls' ∧ StartsOperand l.token := by
  obtain ⟨ls₀, ls₁, _, _, _, _, rfl, hr, _, _⟩ := h
  obtain ⟨l, ls', rfl, hl⟩ := hr.start
  exact ⟨l, ls' ++ ls₁, rfl, hl⟩

/-- No command but an expression starts like an operand. -/
theorem StartsOperand.command {l : Lexeme} (h : StartsOperand l.token) (n : Nat) (rest : List Lexeme) :
    Grammar.command (n + 1) (l :: rest) = (do
      let (value, needsSemicolon) ← Grammar.expression n false
      if needsSemicolon then require .semicolon
      return some (.mk l.position (.expression value)) : Parser (Option Command)) (l :: rest) := by
  obtain ⟨token, place, stop⟩ := l
  cases h with
  | integer n => rw [Grammar.command]; rfl
  | unary op => rw [Grammar.command]; cases op <;> rfl
  | lparen => rw [Grammar.command]; rfl

/-- An expression with a semicolon is a text of one command. -/
theorem Splits.parseTokens {p : Nat} {e : IntegerTree} {ls : List Lexeme} (h : Splits p e ls)
    {semicolon eof : Lexeme} (hs : semicolon.token = .mark .semicolon) (he : eof.token = .eof)
    (file : String) :
    ∃ pos ns, Postfix p ls.length e ns ∧
      LevelScript.parseTokens (ls ++ [semicolon, eof]) file = .ok ⟨file, [.mk pos (.expression (.mk ns))]⟩ := by
  obtain ⟨l, ls', rfl, hl⟩ := h.start
  obtain ⟨ns, hp, hx⟩ := h.expression
  refine ⟨l.position, ns, hp, ?_⟩
  have hc (k : Nat) (hk : 4 * (l :: ls').length + 3 ≤ k) : Grammar.command (k + 1) (l :: ls' ++ [semicolon, eof]) =
      .ok (some (.mk l.position (.expression (.mk ns))), [eof]) := by
    refine (hl.command k (ls' ++ [semicolon, eof])).trans ((bind_ok (hx k semicolon [eof] hk (.inl hs))).trans ?_)
    exact bind_ok (require_eq hs)
  have hend (fuel n : Nat) : Grammar.program fuel (n + 1) [eof] = .ok ([], [eof]) := by
    have : atEof [eof] = .ok (true, [eof]) := by
      show Except.ok (decide (eof.token = .eof), [eof]) = _
      rw [decide_eq_true he]
    rw [Grammar.program]
    exact bind_ok this
  have hprogram (k n : Nat) (hk : 4 * (l :: ls').length + 3 ≤ k) :
      Grammar.program (k + 1) (n + 1 + 1) (l :: ls' ++ [semicolon, eof]) =
        .ok ([.mk l.position (.expression (.mk ns))], [eof]) := by
    have : atEof (l :: ls' ++ [semicolon, eof]) = .ok (false, l :: ls' ++ [semicolon, eof]) := by
      show Except.ok (decide (l.token = .eof), _) = _
      rw [decide_eq_false hl.ne_eof]
    rw [Grammar.program]
    exact (bind_ok this).trans ((bind_ok (hc k hk)).trans (bind_ok (hend _ n)))
  obtain ⟨k, hk⟩ : ∃ k, 16 * ((l :: ls' ++ [semicolon, eof]).length + 1) = k + 1 + 1 :=
    ⟨16 * ((l :: ls' ++ [semicolon, eof]).length + 1) - 2, by omega⟩
  rw [LevelScript.parseTokens, hk, hprogram (k + 1) k (by simp at hk ⊢; omega)]

end LevelScript
