import LevelScript.Grammar.Precedence
import LevelScript.Proofs.Encoding
import Mathlib.Data.List.TakeWhile

/-!
# Chains of operators as trees

A chain of operands with operators between them is the in-order reading of many trees. Precedence and
associativity select one of them, and its post-order reading is what comes out when operators wait on a
stack. The stack with the operands that were read stands for the right spine of a tree that still lacks its
last operand.
-/

namespace LevelScript

namespace Opcode

/-- `child` may stand to the left of `parent`: it binds tighter, or equally tight and to the left. -/
def LeftOf (child parent : Opcode) : Prop :=
  parent.precedence < child.precedence ∨ child.precedence = parent.precedence ∧ child.rightAssociative = false

def RightOf (child parent : Opcode) : Prop :=
  parent.precedence < child.precedence ∨ child.precedence = parent.precedence ∧ child.rightAssociative = true

theorem rightAssociative_eq (op : Opcode) : op.rightAssociative = decide (op.precedence = 1) := by
  cases op <;> rfl

variable {a b c : Opcode}

theorem yields_iff_leftOf : a.yields b = true ↔ a.LeftOf b := by
  unfold yields LeftOf
  simp only [rightAssociative_eq]
  split <;> simp_all
  all_goals omega

theorem not_yields_iff_rightOf : ¬a.yields b = true ↔ b.RightOf a := by
  unfold yields RightOf
  simp only [rightAssociative_eq]
  split <;> simp_all
  all_goals omega

theorem LeftOf.mono (h : a.LeftOf c) (hab : a.precedence ≤ b.precedence) : b.LeftOf c := by
  unfold LeftOf at *
  simp only [rightAssociative_eq, decide_eq_false_iff_not] at *
  omega

theorem RightOf.mono (h : a.RightOf c) (hab : a.precedence ≤ b.precedence) : b.RightOf c := by
  unfold RightOf at *
  simp only [rightAssociative_eq, decide_eq_true_eq] at *
  omega

/-- Of two operators, one can have the other below it on its side only one way. -/
theorem RightOf.not_leftOf (h : a.RightOf b) : ¬b.LeftOf a := fun h' =>
  not_yields_iff_rightOf.mpr h (yields_iff_leftOf.mpr h')

end Opcode

inductive OperatorTree where
  | operand (nodes : List Node)
  | operator (left : OperatorTree) (w : Waiting) (right : OperatorTree)

namespace OperatorTree

def root? : OperatorTree → Option Opcode
  | operand _ => none
  | operator _ w _ => some w.op

def inorder : OperatorTree → List Node × List (Waiting × List Node)
  | operand nodes => (nodes, [])
  | operator left w right => (left.inorder.1, left.inorder.2 ++ (w, right.inorder.1) :: right.inorder.2)

def postorder : OperatorTree → List Node
  | operand nodes => nodes
  | operator left w right => left.postorder ++ right.postorder ++ [w.node]

/-- The code of the operands, and of every operator behind that of its two sides. -/
def encode (names : Names) : OperatorTree → Bytecode
  | operand nodes => encodeNodes names nodes
  | operator left w right => left.encode names ++ right.encode names ++ .op w.op w.pos

/-- Every operator may stand where it stands below its parent. -/
def Ordered : OperatorTree → Prop
  | operand _ => True
  | operator left w right =>
    left.Ordered ∧ right.Ordered ∧ (∀ op ∈ left.root?, op.LeftOf w.op) ∧ ∀ op ∈ right.root?, op.RightOf w.op

theorem encode_postorder (names : Names) (t : OperatorTree) : encodeNodes names t.postorder = t.encode names := by
  induction t with
  | operand nodes => rfl
  | operator left w right ihl ihr =>
    rw [postorder, encodeNodes_append, encodeNodes_append, ihl, ihr, Waiting.node, encodeNodes_operator, encode]

/-! ## At most one tree -/

/-- What holds of the root and of whatever binds tighter holds of all operators. -/
theorem Ordered.all {P : Opcode → Prop} (up : ∀ a b, a.precedence ≤ b.precedence → P a → P b) {t : OperatorTree}
    (h : t.Ordered) (hr : ∀ op ∈ t.root?, P op) : ∀ x ∈ t.inorder.2, P x.1.op := by
  induction t with
  | operand nodes => intro x hx; simp [inorder] at hx
  | operator left w right ihl ihr =>
    obtain ⟨hl, hrt, hleft, hright⟩ := h
    have hw : P w.op := hr _ rfl
    intro x hx
    simp only [inorder, List.mem_append, List.mem_cons] at hx
    rcases hx with hx | rfl | hx
    · refine ihl hl (fun op hop => up _ _ ?_ hw) x hx
      rcases hleft op hop with hlt | ⟨heq, -⟩ <;> omega
    · exact hw
    · refine ihr hrt (fun op hop => up _ _ ?_ hw) x hx
      rcases hright op hop with hlt | ⟨heq, -⟩ <;> omega

theorem Ordered.all_left {l r : OperatorTree} {w : Waiting} (h : (operator l w r).Ordered) :
    ∀ x ∈ l.inorder.2, x.1.op.LeftOf w.op :=
  h.1.all (fun _ _ hab ha => ha.mono hab) h.2.2.1

theorem Ordered.all_right {l r : OperatorTree} {w : Waiting} (h : (operator l w r).Ordered) :
    ∀ x ∈ r.inorder.2, x.1.op.RightOf w.op :=
  h.2.1.all (fun _ _ hab ha => ha.mono hab) h.2.2.2

/-- A root that stands behind the other's in the chain is on its right, which then is on the left of the former. -/
theorem Ordered.root_first {l l' r r' : OperatorTree} {w w' : Waiting} (h : (operator l w r).Ordered)
    (h' : (operator l' w' r').Ordered) {between : List (Waiting × List Node)}
    (hl : l'.inorder.2 = l.inorder.2 ++ between)
    (hr : (w, r.inorder.1) :: r.inorder.2 = between ++ (w', r'.inorder.1) :: r'.inorder.2) : between = [] := by
  cases between with
  | nil => rfl
  | cons x between =>
    rw [List.cons_append, List.cons.injEq] at hr
    obtain ⟨rfl, hr⟩ := hr
    have hleft : w.op.LeftOf w'.op := h'.all_left (w, r.inorder.1) (by simp [hl])
    have hright : w'.op.RightOf w.op := h.all_right (w', r'.inorder.1) (by simp [hr])
    exact absurd hleft hright.not_leftOf

theorem Ordered.unique {t t' : OperatorTree} (h : t.Ordered) (h' : t'.Ordered)
    (he : t.inorder = t'.inorder) : t = t' := by
  induction t generalizing t' with
  | operand nodes =>
    cases t' with
    | operand nodes' => simpa [inorder] using he
    | operator => simp [inorder] at he
  | operator l w r ihl ihr =>
    cases t' with
    | operand => simp [inorder] at he
    | operator l' w' r' =>
      simp only [inorder, Prod.mk.injEq] at he
      obtain ⟨hfirst, hrest⟩ := he
      -- The two roots stand at the same place in the chain.
      have hsplit : l.inorder.2 = l'.inorder.2 ∧
          (w, r.inorder.1) :: r.inorder.2 = (w', r'.inorder.1) :: r'.inorder.2 := by
        rcases List.append_eq_append_iff.mp hrest with ⟨between, hl, hr⟩ | ⟨between, hl, hr⟩
        · obtain rfl := h.root_first h' hl hr
          exact ⟨by simpa using hl.symm, by simpa using hr⟩
        · obtain rfl := h'.root_first h hl hr
          exact ⟨by simpa using hl, by simpa using hr.symm⟩
      obtain ⟨hl, hr⟩ := hsplit
      simp only [List.cons.injEq, Prod.mk.injEq] at hr
      obtain ⟨⟨rfl, hright⟩, hrights⟩ := hr
      rw [ihl h.1 h'.1 (Prod.ext hfirst hl), ihr h.2.1 h'.2.1 (Prod.ext hright hrights)]

/-! ## Spines -/

/-- Trees with operators that wait for their right sides, the innermost first. -/
abbrev Spine := List (OperatorTree × Waiting)

def graft : Spine → OperatorTree → OperatorTree
  | [], t => t
  | (left, w) :: spine, t => graft spine (operator left w t)

def build : Spine → List Node → List (Waiting × List Node) → OperatorTree
  | spine, nodes, [] => graft spine (operand nodes)
  | spine, nodes, (w, next) :: rest =>
    build ((graft (spine.takeWhile (·.2.op.yields w.op)) (operand nodes),
      w) :: spine.dropWhile (·.2.op.yields w.op)) next rest

/-- Whatever is grafted on, operators of the spine may stand where they stand. -/
inductive Open : Spine → Prop
  | nil : Open []
  | cons {left : OperatorTree} {w : Waiting} {spine : Spine} (hl : left.Ordered)
      (hr : ∀ op ∈ left.root?, op.LeftOf w.op)
    (hw : ∀ x ∈ spine.head?, w.op.RightOf x.2.op) (h : Open spine) : Open ((left, w) :: spine)

variable {spine inner outer : Spine}

theorem Open.append_left (h : Open (inner ++ outer)) : Open inner := by
  induction inner with
  | nil => exact .nil
  | cons x inner ih =>
    cases h with
    | cons hl hr hw h =>
      refine .cons hl hr (fun x hx => hw x ?_) (ih h)
      cases inner with
      | nil => cases hx
      | cons => exact hx

theorem Open.append_right (h : Open (inner ++ outer)) : Open outer := by
  induction inner with
  | nil => exact h
  | cons x inner ih =>
    cases h with
    | cons _ _ _ h => exact ih h

theorem Open.graft_ordered (h : Open spine) {t : OperatorTree} (ht : t.Ordered)
    (hr : ∀ x ∈ spine.head?, ∀ op ∈ t.root?, op.RightOf x.2.op) : (graft spine t).Ordered := by
  induction h generalizing t with
  | nil => exact ht
  | cons hl hleft hw _ ih =>
    refine ih ⟨hl, ht, hleft, hr _ rfl⟩ fun x hx op hop => ?_
    cases hop
    exact hw x hx

theorem Open.graft_operand (h : Open spine) (nodes : List Node) : (graft spine (operand nodes)).Ordered := by
  refine h.graft_ordered (t := operand nodes) trivial fun x _ op hop => ?_
  cases hop

theorem root_graft {op : Opcode} {t : OperatorTree} (h : op ∈ (graft spine t).root?) :
    op ∈ t.root? ∨ ∃ x ∈ spine, x.2.op = op := by
  induction spine generalizing t with
  | nil => exact .inl h
  | cons y spine ih =>
    rcases ih h with hop | ⟨x, hx, hop⟩
    · cases hop
      exact .inr ⟨y, List.mem_cons_self, rfl⟩
    · exact .inr ⟨x, List.mem_cons_of_mem _ hx, hop⟩

/-- The operators that yield are complete with the operand; those that stay have the next one to their right. -/
theorem Open.step (h : Open spine) (nodes : List Node) (w : Waiting) :
    Open ((graft (spine.takeWhile (·.2.op.yields w.op)) (operand nodes), w) ::
      spine.dropWhile (·.2.op.yields w.op)) := by
  rw [← List.takeWhile_append_dropWhile (p := (·.2.op.yields w.op)) (l := spine)] at h
  refine .cons (h.append_left.graft_operand nodes) (fun op hop => ?_) (fun x hx => ?_) h.append_right
  · rcases root_graft hop with hop | ⟨x, hx, rfl⟩
    · cases hop
    · have hyields := List.mem_takeWhile_imp (p := fun x : OperatorTree × Waiting => x.2.op.yields w.op) hx
      exact Opcode.yields_iff_leftOf.mp hyields
  · have := List.head?_dropWhile_not (·.2.op.yields w.op) spine
    rw [Option.mem_def.mp hx] at this
    exact Opcode.not_yields_iff_rightOf.mp (by simpa using this)

theorem Open.build_ordered (h : Open spine) (nodes : List Node) (rest : List (Waiting × List Node)) :
    (build spine nodes rest).Ordered := by
  induction rest generalizing spine nodes with
  | nil => exact h.graft_operand nodes
  | cons x rest ih => exact ih (h.step nodes x.1) x.2

-- `a = b - c - d`
example (a b c d : List Node) (pos : Position) :
    build [] a [(⟨.assign, pos⟩, b), (⟨.subtraction, pos⟩, c), (⟨.subtraction, pos⟩, d)] =
      operator (operand a) ⟨.assign, pos⟩
        (operator (operator (operand b) ⟨.subtraction, pos⟩ (operand c)) ⟨.subtraction, pos⟩ (operand d)) := rfl

/-! ## Readings -/

def chain : Spine → List Node × List (Waiting × List Node) → List Node × List (Waiting × List Node)
  | [], x => x
  | (left, w) :: spine, x => chain spine (left.inorder.1, left.inorder.2 ++ (w, x.1) :: x.2)

def emitted : Spine → List Node
  | [] => []
  | (left, _) :: spine => emitted spine ++ left.postorder

theorem chain_append (inner outer : Spine) (x : List Node × List (Waiting × List Node)) :
    chain (inner ++ outer) x = chain outer (chain inner x) := by
  induction inner generalizing x with
  | nil => rfl
  | cons y inner ih => exact ih _

theorem chain_rest (nodes : List Node) (more rest : List (Waiting × List Node)) :
    chain spine (nodes, more ++ rest) = ((chain spine (nodes, more)).1, (chain spine (nodes, more)).2 ++ rest) := by
  induction spine generalizing nodes more with
  | nil => rfl
  | cons y spine ih =>
    obtain ⟨left, w⟩ := y
    simp only [chain]
    rw [← List.cons_append, ← List.append_assoc, ih]

theorem emitted_append : emitted (inner ++ outer) = emitted outer ++ emitted inner := by
  induction inner with
  | nil => simp [emitted]
  | cons y inner ih => simp [emitted, ih]

theorem inorder_graft (t : OperatorTree) : (graft spine t).inorder = chain spine t.inorder := by
  induction spine generalizing t with
  | nil => rfl
  | cons y spine ih => exact ih _

theorem postorder_graft (t : OperatorTree) :
    (graft spine t).postorder = emitted spine ++ t.postorder ++ spine.map (·.2.node) := by
  induction spine generalizing t with
  | nil => simp [graft, emitted]
  | cons y spine ih => simp [graft, ih, emitted, postorder]

theorem inorder_build (nodes : List Node) (rest : List (Waiting × List Node)) :
    (build spine nodes rest).inorder = chain spine (nodes, rest) := by
  induction rest generalizing spine nodes with
  | nil => exact inorder_graft _
  | cons x rest ih =>
    obtain ⟨w, next⟩ := x
    have hchain := chain_append (spine.takeWhile (·.2.op.yields w.op)) (spine.dropWhile (·.2.op.yields w.op))
      (nodes, (w, next) :: rest)
    rw [List.takeWhile_append_dropWhile] at hchain
    rw [build, ih, chain, inorder_graft, inorder, hchain, ← chain_rest, List.nil_append]

theorem postorder_build (spine : Spine) (nodes : List Node) (rest : List (Waiting × List Node)) :
    (build spine nodes rest).postorder = emitted spine ++ nodes ++ postfixRest (spine.map (·.2)) rest := by
  induction rest generalizing spine nodes with
  | nil => simp [build, postorder_graft, postorder, postfixRest]
  | cons x rest ih =>
    obtain ⟨w, next⟩ := x
    have hspan :=
      List.takeWhile_append_dropWhile (p := fun x : OperatorTree × Waiting => x.2.op.yields w.op) (l := spine)
    have hemitted := congrArg emitted hspan
    rw [emitted_append] at hemitted
    rw [build, ih, emitted, postorder_graft, ← hemitted, postfixRest, List.takeWhile_map, List.dropWhile_map]
    simp [postorder, Function.comp_def]

/-- A chain is written as one tree, its operators behind what they stand between: the one tree that reads as
the chain and has every operator where its precedence and associativity allow. -/
theorem postfixOrder_serializes (first : List Node) (rest : List (Waiting × List Node)) :
    ∃ t : OperatorTree, (t.inorder = (first, rest) ∧ t.Ordered ∧
      ∀ t' : OperatorTree, t'.inorder = (first, rest) → t'.Ordered → t' = t) ∧
      postfixOrder first rest = t.postorder ∧
      ∀ e : Emitter, Wrote e (emitNodes (postfixOrder first rest) e) (fun names => t.encode names) := by
  have hin : (build [] first rest).inorder = (first, rest) := inorder_build first rest
  have hord : (build [] first rest).Ordered := Open.nil.build_ordered first rest
  have hpost : postfixOrder first rest = (build [] first rest).postorder := (postorder_build [] first rest).symm
  refine ⟨_, ⟨hin, hord, fun t' ht' ho' => ho'.unique hord (ht'.trans hin.symm)⟩, hpost, fun e => ?_⟩
  have hw := wroteNodes e (postfixOrder first rest)
  simp only [hpost, encode_postorder] at hw
  rw [hpost]
  exact hw

end OperatorTree

end LevelScript
