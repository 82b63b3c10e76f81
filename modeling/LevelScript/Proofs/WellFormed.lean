import LevelScript.Grammar
import LevelScript.Proofs.Encoding

/-!
# Trees that the grammar gives

An expression in postfix order is well formed if every operator finds its operands on the stack and
one value is left in the end. The grammar gives only trees whose expressions, at every depth, are.
-/

namespace LevelScript

def Opcode.standsAlone (op : Opcode) : Bool :=
  match op.shape? with
  | some .between | some .before => true
  | some .behind => op != .member
  | _ => false

/-- How many values a node takes from the stack; it puts one on it. -/
def Form.takes : Form → Nat
  | .operator op => if op.shape? = some .between then 2 else 1
  | .query .. | .call _ | .index _ | .member _ | .functionType .. | .declare .. => 1
  | _ => 0

def Node.takes : Node → Nat
  | .mk _ form => form.takes

/-- The number of values on the stack after nodes, if none is missing. -/
def stackAfter : List Node → Nat → Option Nat
  | [], height => some height
  | node :: nodes, height =>
    if node.takes ≤ height then stackAfter nodes (height - node.takes + 1) else none

mutual

def Expr.WellFormed : Expr → Prop
  | .mk nodes => stackAfter nodes 0 = some 1 ∧ NodesWellFormed nodes

def NodesWellFormed : List Node → Prop
  | [] => True
  | node :: nodes => node.WellFormed ∧ NodesWellFormed nodes

def Node.WellFormed : Node → Prop
  | .mk _ form => form.WellFormed

def Form.WellFormed : Form → Prop
  | .integer _ | .float _ | .text _ | .variableRef _ | .truth _ | .null | .deferName _ | .varargCount
  | .scopeHere | .scopeOf _ | .includeFile _ | .member _ => True
  | .paren inner | .varargs inner | .sizeOf inner | .typeOf inner | .deleteValue inner | .index inner =>
    inner.WellFormed
  | .newValue _ type init => type.WellFormed ∧ init.WellFormed
  | .moveValue target level => target.WellFormed ∧ level.WellFormed
  | .ternary condition yes no => condition.WellFormed ∧ yes.WellFormed ∧ no.WellFormed
  | .baseType _ kind _ => kind ≠ .struct
  | .structType _ none fields => FieldsWellFormed fields
  | .structType _ (some base) fields => base.WellFormed ∧ FieldsWellFormed fields
  | .declare _ _ generics body => BindingsWellFormed generics ∧ body.WellFormed
  | .operator op => op.standsAlone = true
  | .query op _ => op.shape? = some .query
  | .call args => ExprsWellFormed args
  | .functionType _ params => ParamsWellFormed params

def ExprsWellFormed : List Expr → Prop
  | [] => True
  | x :: xs => x.WellFormed ∧ ExprsWellFormed xs

def Init.WellFormed : Init → Prop
  | .bare => True
  | .scalar value => value.WellFormed
  | .struct overrides => BindingsWellFormed overrides
  | .function _ body => body.WellFormed
  | .array count elements => count.WellFormed ∧ ExprsWellFormed elements

def BindingsWellFormed : List Binding → Prop
  | [] => True
  | .mk _ value :: more => value.WellFormed ∧ BindingsWellFormed more

def ParamsWellFormed : List ParamTree → Prop
  | [] => True
  | .mk type _ :: more => type.WellFormed ∧ ParamsWellFormed more

def BodyTree.WellFormed : BodyTree → Prop
  | .absent => True
  | .code _ body => body.WellFormed

def FieldsWellFormed : List FieldTree → Prop
  | [] => True
  | field :: more => field.WellFormed ∧ FieldsWellFormed more

def FieldTree.WellFormed : FieldTree → Prop
  | .mk _ inlined type _ value placement =>
    inlined.WellFormed ∧ type.WellFormed ∧ value.WellFormed ∧ placement.WellFormed

def Inlined.WellFormed : Inlined → Prop
  | .no | .once => True
  | .times count => count.WellFormed

def FieldValue.WellFormed : FieldValue → Prop
  | .absent => True
  | .value init => init.WellFormed
  | .method _ body => body.WellFormed

def Placement.WellFormed : Placement → Prop
  | .auto => True
  | .absolute offset | .relative offset => offset.WellFormed

def Block.WellFormed : Block → Prop
  | .mk commands => CommandsWellFormed commands

def CommandsWellFormed : List Command → Prop
  | [] => True
  | command :: commands => command.WellFormed ∧ CommandsWellFormed commands

def Command.WellFormed : Command → Prop
  | .mk _ form => form.WellFormed

def CommandForm.WellFormed : CommandForm → Prop
  | .ifElse condition yes none => condition.WellFormed ∧ yes.WellFormed
  | .ifElse condition yes (some no) => condition.WellFormed ∧ yes.WellFormed ∧ no.WellFormed
  | .whileLoop condition body => condition.WellFormed ∧ body.WellFormed
  | .forLoop type _ low _ high _ none body =>
    type.WellFormed ∧ low.WellFormed ∧ high.WellFormed ∧ body.WellFormed
  | .forLoop type _ low _ high _ (some step) body =>
    type.WellFormed ∧ low.WellFormed ∧ high.WellFormed ∧ step.WellFormed ∧ body.WellFormed
  | .returnValue none | .continueLoop | .breakLoop => True
  | .returnValue (some value) => value.WellFormed
  | .tryCatch body handler => body.WellFormed ∧ handler.WellFormed
  | .throwValue value _ => value.WellFormed
  | .codeblock body => body.WellFormed
  | .expression value => value.WellFormed

def Handler.WellFormed : Handler → Prop
  | .absent => True
  | .handle _ _ body => body.WellFormed

end

theorem CommandForm.wellFormed_forLoop {type low high : Expr} {name : String} {lowExcluded highExcluded : Bool}
    {step : Option Expr} {body : Block}
    (h : (CommandForm.forLoop type name low lowExcluded high highExcluded step body).WellFormed) :
    type.WellFormed ∧ low.WellFormed ∧ high.WellFormed ∧ (∀ x ∈ step, x.WellFormed) ∧ body.WellFormed := by
  cases step with
  | none => exact ⟨h.1, h.2.1, h.2.2.1, nofun, h.2.2.2⟩
  | some step => exact ⟨h.1, h.2.1, h.2.2.1, fun x hx => Option.mem_some.mp hx ▸ h.2.2.2.1, h.2.2.2.2⟩

theorem Form.opcode_ne_endMark {form : Form} (h : form.WellFormed) : form.opcode ≠ .endMark := by
  cases form with
  | operator op =>
    rintro rfl
    cases h
  | query op name =>
    rintro rfl
    cases h
  | _ => nofun

theorem CommandForm.opcode_ne_endMark (form : CommandForm) : form.opcode ≠ .endMark := by
  cases form <;> nofun

/-- The code of an expression starts with the head of a node. -/
theorem Expr.encode_head (names : Names) {x : Expr} (h : x.WellFormed) :
    ∃ op pos code, op ≠ Opcode.endMark ∧ x.encode names = .op op pos ++ code := by
  cases x with
  | mk nodes =>
    cases nodes with
    | nil => cases h.1
    | cons node nodes =>
      obtain ⟨pos, form⟩ := node
      refine ⟨form.opcode, pos, form.operands names ++ (encodeNodes names nodes ++ .endMark),
        Form.opcode_ne_endMark h.2.1, ?_⟩
      rw [Expr.encode, encodeNodes, Node.encode, Bytecode.append_assoc, Bytecode.append_assoc]

/-! ## Postfix order -/

theorem stackAfter_append {a b : List Node} {height middle : Nat} (h : stackAfter a height = some middle) :
    stackAfter (a ++ b) height = stackAfter b middle := by
  induction a generalizing height with
  | nil =>
    cases h
    rfl
  | cons node a ih =>
    rw [stackAfter] at h
    rw [List.cons_append, stackAfter]
    split at h
    case isTrue ht =>
      rw [if_pos ht]
      exact ih h
    case isFalse => cases h

theorem stackAfter_add {nodes : List Node} {height after : Nat} (h : stackAfter nodes height = some after)
    (below : Nat) : stackAfter nodes (height + below) = some (after + below) := by
  induction nodes generalizing height with
  | nil =>
    cases h
    rfl
  | cons node nodes ih =>
    rw [stackAfter] at h ⊢
    split at h
    case isTrue ht =>
      rw [if_pos (by omega), show height + below - node.takes + 1 = height - node.takes + 1 + below by omega]
      exact ih h
    case isFalse => cases h

theorem nodesWellFormed_append {a b : List Node} :
    NodesWellFormed (a ++ b) ↔ NodesWellFormed a ∧ NodesWellFormed b := by
  induction a with
  | nil => simp [NodesWellFormed]
  | cons node a ih => simp only [List.cons_append, NodesWellFormed, ih, and_assoc]

def NodesValue (nodes : List Node) : Prop := (Expr.mk nodes).WellFormed

theorem nodesValue_iff {nodes : List Node} :
    NodesValue nodes ↔ stackAfter nodes 0 = some 1 ∧ NodesWellFormed nodes := by rw [NodesValue, Expr.WellFormed]

/-- An operator behind a value that takes nothing else. -/
theorem NodesValue.behind {nodes : List Node} {node : Node} (h : NodesValue nodes) (hn : node.WellFormed)
    (ht : node.takes = 1) : NodesValue (nodes ++ [node]) := by
  rw [nodesValue_iff] at h ⊢
  refine ⟨?_, nodesWellFormed_append.mpr ⟨h.2, hn, trivial⟩⟩
  rw [stackAfter_append h.1, stackAfter, ht]
  rfl

theorem stackAfter_suffixes {nodes : List Node} (ht : ∀ node ∈ nodes, node.takes = 1) :
    stackAfter nodes 1 = some 1 := by
  induction nodes with
  | nil => rfl
  | cons node nodes ih =>
    rw [stackAfter, ht node List.mem_cons_self, if_pos (Nat.le_refl 1)]
    exact ih fun v hv => ht v (List.mem_cons_of_mem node hv)

def AllBinary (stack : List Waiting) : Prop := ∀ w ∈ stack, w.op.shape? = some .between

theorem Waiting.node_wellFormed {w : Waiting} (h : w.op.shape? = some .between) :
    w.node.WellFormed ∧ w.node.takes = 2 := by
  refine ⟨?_, ?_⟩
  · rw [node, Node.WellFormed, Form.WellFormed, Opcode.standsAlone, h]
  · rw [node, Node.takes, Form.takes, if_pos h]

theorem stackAfter_waiting {stack : List Waiting} (h : AllBinary stack) (below : Nat) :
    stackAfter (stack.map Waiting.node) (stack.length + below + 1) = some (below + 1) ∧
      NodesWellFormed (stack.map Waiting.node) := by
  induction stack with
  | nil => exact ⟨by rw [List.length_nil, Nat.zero_add]; rfl, trivial⟩
  | cons w stack ih =>
    obtain ⟨hs, hw⟩ := ih fun v hv => h v (List.mem_cons_of_mem w hv)
    obtain ⟨hn, ht⟩ := Waiting.node_wellFormed (h w List.mem_cons_self)
    refine ⟨?_, hn, hw⟩
    rw [List.map_cons, stackAfter, List.length_cons, ht, if_pos (by omega),
      show stack.length + 1 + below + 1 - 2 + 1 = stack.length + below + 1 by omega]
    exact hs

/-- With one more value than there are operators that wait, the rest of the chain comes to one. -/
theorem postfixRest_value {rest : List (Waiting × List Node)} {stack : List Waiting} (hs : AllBinary stack)
    (hr : ∀ p ∈ rest, p.1.op.shape? = some .between ∧ NodesValue p.2) :
    stackAfter (postfixRest stack rest) (stack.length + 1) = some 1 ∧ NodesWellFormed (postfixRest stack rest) := by
  induction rest generalizing stack with
  | nil => exact stackAfter_waiting hs 0
  | cons p rest ih =>
    obtain ⟨w, operand⟩ := p
    obtain ⟨hw, ho⟩ := hr (w, operand) List.mem_cons_self
    rw [nodesValue_iff] at ho
    rw [postfixRest]
    generalize ht : stack.takeWhile (·.op.yields w.op) = done
    generalize hd : stack.dropWhile (·.op.yields w.op) = left
    have hsplit : done ++ left = stack := by rw [← ht, ← hd]; exact List.takeWhile_append_dropWhile
    have hlen : stack.length = done.length + left.length := by rw [← hsplit, List.length_append]
    have hdone : AllBinary done := fun v hv => hs v (hsplit ▸ List.mem_append_left left hv)
    have hleft : AllBinary left := fun v hv => hs v (hsplit ▸ List.mem_append_right done hv)
    have hnew : AllBinary (w :: left) := by
      intro v hv
      obtain rfl | hv := List.mem_cons.mp hv
      · exact hw
      · exact hleft v hv
    -- the operators that are complete, the operand, then the others with the new one on top
    obtain ⟨h₁, w₁⟩ := stackAfter_waiting hdone left.length
    have h₂ := stackAfter_add ho.1 (left.length + 1)
    rw [Nat.zero_add, show 1 + (left.length + 1) = (w :: left).length + 1 by rw [List.length_cons]; omega] at h₂
    obtain ⟨h₃, w₃⟩ := ih hnew fun q hq => hr q (List.mem_cons_of_mem _ hq)
    refine ⟨?_, nodesWellFormed_append.mpr ⟨nodesWellFormed_append.mpr ⟨w₁, ho.2⟩, w₃⟩⟩
    rw [hlen, List.append_assoc, stackAfter_append h₁, stackAfter_append h₂]
    exact h₃

theorem postfixOrder_value {first : List Node} {rest : List (Waiting × List Node)} (hf : NodesValue first)
    (hr : ∀ p ∈ rest, p.1.op.shape? = some .between ∧ NodesValue p.2) : NodesValue (postfixOrder first rest) := by
  rw [nodesValue_iff] at hf ⊢
  obtain ⟨h, hw⟩ := @postfixRest_value rest [] (fun _ h => nomatch h) hr
  refine ⟨?_, nodesWellFormed_append.mpr ⟨hf.2, hw⟩⟩
  rw [postfixOrder, stackAfter_append hf.1]
  exact h

/-! ## The tables of operators -/

theorem Mark.binary?_shape {m : Mark} {op : Opcode} (h : m.binary? = some op) : op.shape? = some .between := by
  cases m <;> cases h <;> rfl

theorem Mark.prefix?_standsAlone {m : Mark} {op : Opcode} (h : m.prefix? = some op) :
    op.standsAlone = true ∧ op.shape? ≠ some .between := by
  cases m <;> cases h <;> decide

theorem Grammar.suffix?_standsAlone {t : Token} {op : Opcode} (h : suffix? t = some op) :
    op.standsAlone = true ∧ op.shape? ≠ some .between := by
  unfold suffix? at h
  split at h <;> cases h <;> decide

theorem Grammar.query?_shape {name : String} {op : Opcode} (h : query? name = some op) :
    op.shape? = some .query := by
  unfold query? at h
  split at h <;> cases h <;> rfl

theorem Grammar.baseType?_kind {t : Token} {kind : Kind} {unsigned : Bool}
    (h : baseType? t = some (kind, unsigned)) :
    kind ≠ .struct := by
  unfold baseType? at h
  split at h <;> cases h <;> decide

/-! ## Parsers -/

namespace Parser

def Yields {α : Type} (p : Parser α) (Q : α → Prop) : Prop :=
  ∀ ls a ls', p ls = .ok (a, ls') → Q a

namespace Yields

variable {α β : Type} {p : Parser α} {f : α → Parser β} {P : α → Prop} {Q : β → Prop}

protected theorem pure {a : α} (h : P a) : Yields (pure a) P := by
  intro ls b ls' hp
  cases hp
  exact h

protected theorem bind (hp : Yields p P) (hf : ∀ a, P a → Yields (f a) Q) : Yields (p >>= f) Q := by
  intro ls b ls' h
  simp only [bind, StateT.bind, Except.bind] at h
  split at h
  · cases h
  case h_2 r hr => exact hf r.1 (hp ls r.1 r.2 hr) r.2 b ls' h

protected theorem step (hf : ∀ a, Yields (f a) Q) : Yields (p >>= f) Q :=
  .bind (P := fun _ => True) (fun _ _ _ _ => trivial) fun a _ => hf a

protected theorem ite {c : Prop} [Decidable c] {q : Parser α} (hp : Yields p P) (hq : Yields q P) :
    Yields (if c then p else q) P := by
  split
  · exact hp
  · exact hq

protected theorem map {g : α → β} (h : Yields p (fun a => Q (g a))) : Yields (g <$> p) Q :=
  h.bind fun _ ha => .pure ha

theorem failAt (l : Lexeme) (issue : Issue) : Yields (Parser.failAt l issue : Parser α) P :=
  fun _ _ _ h => nomatch h

theorem fail (issue : Issue) : Yields (Parser.fail issue : Parser α) P := .step fun l => failAt l issue

theorem missing (what : String) : Yields (Parser.missing what : Parser α) P := fail _

theorem outOfFuel : Yields (Grammar.outOfFuel : Parser α) P := fail _

end Yields

end Parser

namespace Grammar

open LevelScript.Parser

structure Parses (n : Nat) : Prop where
  command : Yields (command n) (fun c => CommandsWellFormed c.toList)
  commands : Yields (commands n) CommandsWellFormed
  blockBehind (o) : Yields (blockBehind n o) Block.WellFormed
  block : Yields (block n) Block.WellFormed
  ifElse : Yields (ifElse n) CommandForm.WellFormed
  forLoop : Yields (forLoop n) CommandForm.WellFormed
  handler : Yields (handler n) Handler.WellFormed
  expression (bare) : Yields (expression n bare) (fun p => p.1.WellFormed)
  chain (needs) : Yields (chain n needs) (fun p => ∀ q ∈ p.1, q.1.op.shape? = some .between ∧ NodesValue q.2)
  term (bare) : Yields (term n bare) (fun p => NodesValue p.1)
  declaration : Yields (declaration n) (fun p => BindingsWellFormed p.1 ∧ p.2.WellFormed)
  genericList : Yields (genericList n) BindingsWellFormed
  operand : Yields (operand n) NodesValue
  parenthesized : Yields (parenthesized n) Expr.WellFormed
  primary (l) : Yields (primary n l) (fun form => form.WellFormed ∧ form.takes = 0)
  init : Yields (init n) Init.WellFormed
  elementList : Yields (elementList n) ExprsWellFormed
  overrideList : Yields (overrideList n) BindingsWellFormed
  typeLiteral : Yields (typeLiteral n) (fun form => form.WellFormed ∧ form.takes = 0)
  fieldList : Yields (fieldList n) FieldsWellFormed
  field : Yields (field n) FieldTree.WellFormed
  inlining : Yields (inlining n) Inlined.WellFormed
  fieldValue (isInline isMethod) : Yields (fieldValue n isInline isMethod) (fun p => p.1.WellFormed)
  placement : Yields (placement n) (fun p => p.1.WellFormed)
  suffixes : Yields (suffixes n) (fun nodes => NodesWellFormed nodes ∧ ∀ node ∈ nodes, node.takes = 1)
  argumentList : Yields (argumentList n) ExprsWellFormed
  paramList : Yields (paramList n) ParamsWellFormed

variable {n : Nat} (h : Parses n)
include h

theorem command_yields : Yields (command (n + 1)) (fun c => CommandsWellFormed c.toList) := by
  rw [command]
  refine .step fun start => .step fun isIf => .ite ?_ (.step fun isWhile => .ite ?_ (.step fun isFor => .ite ?_
    (.step fun isReturn => .ite ?_ (.step fun isContinue => .ite ?_ (.step fun isBreak => .ite ?_
      (.step fun isTry => .ite ?_ (.step fun isThrow => .ite ?_ (.step fun o => ?_))))))))
  · exact .bind h.ifElse fun form hf => .pure ⟨hf, trivial⟩
  · refine .bind (h.expression false) fun condition hc => .step fun empty => .ite ?_ ?_
    · exact .bind (P := Block.WellFormed) (.pure trivial) fun body hb => .pure ⟨⟨hc, hb⟩, trivial⟩
    · exact .bind h.block fun body hb => .pure ⟨⟨hc, hb⟩, trivial⟩
  · exact .bind h.forLoop fun form hf => .pure ⟨hf, trivial⟩
  · refine .step fun empty => .ite (.pure ⟨trivial, trivial⟩) ?_
    exact .bind (h.expression false) fun value hv => .step fun _ => .pure ⟨hv, trivial⟩
  · exact .step fun _ => .pure ⟨trivial, trivial⟩
  · exact .step fun _ => .pure ⟨trivial, trivial⟩
  · exact .bind h.block fun body hb => .bind h.handler fun handler hh => .pure ⟨⟨hb, hh⟩, trivial⟩
  · refine .bind (h.expression false) fun value hv => .step fun named => .ite ?_ ?_
    · exact .step fun message => .step fun _ => .pure ⟨hv, trivial⟩
    · exact .step fun message => .step fun _ => .pure ⟨hv, trivial⟩
  · cases o with
    | some o => exact .bind (h.blockBehind o) fun body hb => .pure ⟨hb, trivial⟩
    | none =>
      refine .step fun empty => .ite (.pure trivial) ?_
      refine .bind (h.expression false) fun value hv => .ite ?_ ?_
      · exact .step fun _ => .pure ⟨hv, trivial⟩
      · exact .pure ⟨hv, trivial⟩

theorem commands_yields : Yields (commands (n + 1)) CommandsWellFormed := by
  rw [commands]
  refine .step fun closed => .ite (.pure trivial) (.step fun atEnd => .ite (.step fun _ => ?_) ?_)
  all_goals
    refine .bind h.command fun first hf => .bind h.commands fun more hm => .pure ?_
    cases first with
    | none => exact hm
    | some c => exact ⟨hf.1, hm⟩

theorem blockBehind_yields (o : Opener) : Yields (blockBehind (n + 1) o) Block.WellFormed := by
  cases o with
  | arrow => exact .bind h.command fun c hc => .pure hc
  | brace => exact .bind h.commands fun cs hcs => .pure hcs

theorem block_yields : Yields (block (n + 1)) Block.WellFormed := by
  rw [block]
  refine .step fun o => ?_
  cases o with
  | some o => exact h.blockBehind o
  | none => exact .missing _

theorem ifElse_yields : Yields (ifElse (n + 1)) CommandForm.WellFormed := by
  rw [ifElse]
  refine .bind (h.expression false) fun condition hc => .bind h.block fun yes hy => .step fun hasElse => .ite ?_ ?_
  · refine .step fun start => .step fun isIf => .ite ?_ ?_
    · exact .bind h.ifElse fun form hf => .pure ⟨hc, hy, hf, trivial⟩
    · exact .bind h.block fun no hn => .pure ⟨hc, hy, hn⟩
  · exact .pure ⟨hc, hy⟩

theorem forLoop_yields : Yields (forLoop (n + 1)) CommandForm.WellFormed := by
  rw [forLoop]
  refine .bind (h.expression true) fun type ht => .step fun name => .step fun _ =>
    .bind (h.expression false) fun low hl => .step fun lowExcluded => .step fun _ =>
      .bind (h.expression false) fun high hh => .step fun highExcluded => .step fun hasStep => .ite ?_ ?_
  · refine .bind (h.expression false) fun step hs => ?_
    exact .bind (P := (· = some step.1)) (.pure rfl) fun _ he => .bind h.block fun body hb =>
      .pure (he ▸ ⟨ht, hl, hh, hs, hb⟩)
  · exact .bind (P := (· = none)) (.pure rfl) fun _ he => .bind h.block fun body hb => .pure (he ▸ ⟨ht, hl, hh, hb⟩)

theorem handler_yields : Yields (handler (n + 1)) Handler.WellFormed := by
  rw [handler]
  refine .step fun hasCatch => .ite ?_ (.pure trivial)
  refine .step fun silently => .step fun named => .ite ?_ (.ite ?_ ?_)
  · exact .step fun name => .bind h.block fun body hb => .pure hb
  · refine .step fun empty => .ite (.pure trivial) ?_
    exact .bind h.block fun body hb => .pure hb
  · exact .bind h.block fun body hb => .pure hb

theorem expression_yields (bare : Bool) : Yields (expression (n + 1) bare) (fun p => p.1.WellFormed) := by
  cases bare with
  | true => exact .bind (h.term true) fun nodes hn => .pure hn
  | false =>
    exact .bind (h.term false) fun first hf => .bind (h.chain _) fun rest hr => .pure (postfixOrder_value hf hr)

theorem chain_yields (needs : Bool) : Yields (chain (n + 1) needs)
    (fun p => ∀ q ∈ p.1, q.1.op.shape? = some .between ∧ NodesValue q.2) := by
  rw [chain]
  refine .step fun l => ?_
  dsimp only
  split
  · exact .pure fun q hq => nomatch hq
  case h_2 op hop =>
    have hb : op.shape? = some .between := by
      split at hop
      · exact Mark.binary?_shape hop
      · cases hop
    refine .step fun _ => .bind (h.term false) fun nodes hn => .bind (h.chain _) fun more hm => .pure ?_
    intro q hq
    obtain rfl | hq := List.mem_cons.mp hq
    · exact ⟨hb, hn⟩
    · exact hm q hq

theorem term_yields (bare : Bool) : Yields (term (n + 1) bare) (fun p => NodesValue p.1) := by
  cases bare with
  | true => exact .bind h.operand fun nodes hn => .pure hn
  | false =>
    rw [term]
    refine .step fun external => .bind h.operand fun nodes hn => .step fun name => ?_
    cases name with
    | some name => exact .bind h.declaration fun d hd => .pure (hn.behind ⟨hd.1, hd.2⟩ rfl)
    | none =>
      cases external with
      | some l => exact .failAt l _
      | none => exact .pure hn

theorem declaration_yields : Yields (declaration (n + 1)) (fun p => BindingsWellFormed p.1 ∧ p.2.WellFormed) := by
  rw [declaration]
  refine .step fun parens => .ite (.bind h.genericList fun generics hg => ?_)
    (.bind (P := BindingsWellFormed) (.pure trivial) fun generics hg => ?_)
  all_goals
    refine .step fun mode => .step fun o => ?_
    cases o with
    | some o => exact .bind (h.blockBehind o) fun body hb => .pure ⟨hg, hb⟩
    | none => exact .ite (.step fun _ => .pure ⟨hg, trivial⟩) (.pure ⟨hg, trivial⟩)

theorem genericList_yields : Yields (genericList (n + 1)) BindingsWellFormed := by
  rw [genericList]
  refine .step fun name => .step fun _ => .bind (h.expression false) fun value hv => .step fun more => .ite ?_ ?_
  · exact .bind h.genericList fun rest hr => .pure ⟨hv, hr⟩
  · exact .step fun closed => .ite (.pure ⟨hv, trivial⟩) (.step fun _ => .pure ⟨hv, trivial⟩)

theorem operand_yields : Yields (operand (n + 1)) NodesValue := by
  rw [operand]
  refine .step fun l => ?_
  dsimp only
  split
  case h_1 op hop =>
    have hp : op.standsAlone = true ∧ op.shape? ≠ some .between := by
      split at hop
      · exact Mark.prefix?_standsAlone hop
      · cases hop
    refine .step fun _ => .bind h.operand fun nodes hn => .pure (hn.behind hp.1 ?_)
    rw [Node.takes, Form.takes, if_neg hp.2]
  · refine .bind (h.primary l) fun form hf => .bind h.suffixes fun nodes hn => .pure ?_
    rw [nodesValue_iff]
    refine ⟨?_, hf.1, hn.1⟩
    rw [stackAfter, Node.takes, hf.2]
    exact stackAfter_suffixes hn.2

theorem parenthesized_yields : Yields (parenthesized (n + 1)) Expr.WellFormed := by
  rw [parenthesized]
  exact .step fun _ => .bind (h.expression false) fun inner hi => .step fun _ => .pure hi

theorem primary_yields (l : Lexeme) :
    Yields (primary (n + 1) l) (fun form => form.WellFormed ∧ form.takes = 0) := by
  rw [primary]
  split
  case h_1 | h_2 | h_3 | h_4 | h_5 | h_6 | h_7 | h_8 => exact .step fun _ => .pure ⟨trivial, rfl⟩
  case h_9 =>
    exact .step fun _ => .bind (h.expression false) fun inner hi => .step fun _ => .pure ⟨hi, rfl⟩
  case h_10 => exact .step fun _ => .step fun _ => .step fun name => .step fun _ => .pure ⟨trivial, rfl⟩
  case h_11 =>
    exact .step fun _ => .step fun _ => .bind (h.expression false) fun index hi => .step fun _ => .pure ⟨hi, rfl⟩
  case h_12 =>
    refine .step fun _ => .step fun _ => .step fun dots => .ite (.step fun _ => .pure ⟨trivial, rfl⟩) ?_
    exact .bind (h.expression false) fun inner hi => .step fun _ => .pure ⟨hi, rfl⟩
  case h_13 | h_14 => exact .step fun _ => .bind h.parenthesized fun inner hi => .pure ⟨hi, rfl⟩
  case h_15 =>
    refine .step fun _ => .step fun _ => .step fun this => .ite ?_ ?_
    · exact .bind (P := (· = Form.scopeHere)) (.pure rfl) fun form hf => .step fun _ => .pure (hf ▸ ⟨trivial, rfl⟩)
    · refine .bind (P := fun form => ∃ name, form = Form.scopeOf name)
        (.map (Q := fun form => ∃ name, form = Form.scopeOf name) ?_) ?_
      · exact fun _ name _ _ => ⟨name, rfl⟩
      · rintro form ⟨name, rfl⟩
        exact .step fun _ => .pure ⟨trivial, rfl⟩
  case h_16 =>
    exact .step fun _ => .step fun scope => .step fun _ => .bind (h.expression false) fun type ht =>
      .step fun _ => .bind h.init fun init hi => .pure ⟨⟨ht, hi⟩, rfl⟩
  case h_17 =>
    exact .step fun _ => .bind h.parenthesized fun target ht => .step fun _ => .step fun _ =>
      .bind (h.expression false) fun level hl => .step fun _ => .pure ⟨⟨ht, hl⟩, rfl⟩
  case h_18 =>
    exact .step fun _ => .bind (h.expression false) fun condition hc => .step fun _ => .step fun _ =>
      .bind (h.expression false) fun yes hy => .step fun _ => .bind (h.expression false) fun no hn =>
        .step fun _ => .pure ⟨⟨hc, hy, hn⟩, rfl⟩
  case h_19 => exact .step fun _ => .step fun path => .pure ⟨trivial, rfl⟩
  case h_20 | h_21 | h_22 => exact h.typeLiteral

theorem init_yields : Yields (init (n + 1)) Init.WellFormed := by
  rw [init]
  refine .step fun counted => .ite ?_ (.step fun isFunction => .ite ?_ (.step fun open_ => .ite ?_ (.pure trivial)))
  · refine .bind (h.expression false) fun count hc => .step fun _ => .step fun open_ => .ite ?_ ?_
    · exact .bind h.elementList fun elements he => .pure ⟨hc, he⟩
    · exact .bind (P := ExprsWellFormed) (.pure trivial) fun elements he => .pure ⟨hc, he⟩
  · exact .step fun mode => .step fun _ => .bind h.commands fun body hb => .pure hb
  · refine .step fun closed => .ite (.pure trivial) (.step fun dot => .ite ?_ ?_)
    · exact .bind h.overrideList fun overrides ho => .pure ho
    · exact .bind (h.expression false) fun value hv => .step fun _ => .pure hv

theorem elementList_yields : Yields (elementList (n + 1)) ExprsWellFormed := by
  rw [elementList]
  refine .step fun closed => .ite (.pure trivial) ?_
  refine .bind (h.expression false) fun first hf => .step fun last => .ite (.pure ⟨hf, trivial⟩) ?_
  refine .step fun comma => .ite ?_ (.step fun _ => ?_)
  all_goals exact .bind h.elementList fun more hm => .pure ⟨hf, hm⟩

theorem overrideList_yields : Yields (overrideList (n + 1)) BindingsWellFormed := by
  rw [overrideList]
  refine .step fun name => .step fun _ => .bind (h.expression false) fun value hv => .step fun comma => .ite ?_ ?_
  · refine .step fun closed => .ite (.pure ⟨hv, trivial⟩) (.step fun dot => .ite ?_ (.step fun _ => ?_))
    all_goals exact .bind h.overrideList fun more hm => .pure ⟨hv, hm⟩
  · exact .step fun closed => .ite (.pure ⟨hv, trivial⟩) (.step fun _ => .pure ⟨hv, trivial⟩)

theorem typeLiteral_yields : Yields (typeLiteral (n + 1)) (fun form => form.WellFormed ∧ form.takes = 0) := by
  rw [typeLiteral]
  refine .step fun isConst => .step fun l => ?_
  split
  case h_1 kind unsigned hk => exact .step fun _ => .pure ⟨baseType?_kind hk, rfl⟩
  · refine .step fun isStruct => .ite ?_ (.step fun _ => ?_)
    all_goals
      refine .step fun hasBase => .ite ?_ ?_
      · refine .bind (h.expression true) fun base hb => ?_
        exact .bind (P := (· = some base.1)) (.pure rfl) fun _ he => .step fun _ =>
          .bind h.fieldList fun fields hf => .pure (he ▸ ⟨⟨hb, hf⟩, rfl⟩)
      · exact .bind (P := (· = none)) (.pure rfl) fun _ he => .step fun _ =>
          .bind h.fieldList fun fields hf => .pure (he ▸ ⟨hf, rfl⟩)

theorem fieldList_yields : Yields (fieldList (n + 1)) FieldsWellFormed := by
  rw [fieldList]
  refine .step fun closed => .ite (.pure trivial)
    (.step fun empty => .ite ?_ (.step fun atEnd => .ite (.step fun _ => ?_) ?_))
  · exact h.fieldList
  all_goals exact .bind h.field fun first hf => .bind h.fieldList fun more hm => .pure ⟨hf, hm⟩

theorem field_yields : Yields (field (n + 1)) FieldTree.WellFormed := by
  rw [field]
  refine .step fun start => .bind h.inlining fun inlined hi => ?_
  dsimp only
  refine .bind (h.expression true) fun type ht => .step fun name => .bind (h.fieldValue _ _) fun value hv =>
    .bind h.placement fun placement hp => .ite ?_ ?_
  · exact .step fun _ => .pure ⟨hi, ht, hv, hp⟩
  · exact .pure ⟨hi, ht, hv, hp⟩

theorem inlining_yields : Yields (inlining (n + 1)) Inlined.WellFormed := by
  rw [inlining]
  refine .step fun isInline => .ite (.step fun counted => .ite ?_ (.pure trivial)) (.pure trivial)
  exact .bind (h.expression false) fun count hc => .step fun _ => .pure hc

theorem fieldValue_yields (isInline isMethod : Bool) :
    Yields (fieldValue (n + 1) isInline isMethod) (fun p => p.1.WellFormed) := by
  rw [fieldValue]
  have method (mode : Capture) (o : Opener) : Yields (do
      return (FieldValue.method mode (← blockBehind n o), false)) (fun p => p.1.WellFormed) :=
    .bind (h.blockBehind o) fun body hb => .pure hb
  refine .step fun hasValue => .ite ?_ (.step fun mode => .step fun o => ?_)
  · refine .ite (.step fun _ => .ite (.step fun _ => ?_) ?_) (.ite (.step fun _ => ?_) ?_)
    all_goals exact .bind (h.expression false) fun value hv => .pure hv
  · cases o with
    | some o => exact .ite (.step fun _ => method mode o) (method mode o)
    | none => exact .ite (.step fun _ => .pure trivial) (.pure trivial)

theorem placement_yields : Yields (placement (n + 1)) (fun p => p.1.WellFormed) := by
  rw [placement]
  refine .step fun absolute => .ite ?_ (.step fun relative => .ite ?_ (.pure trivial))
  all_goals exact .bind (h.expression false) fun offset ho => .pure ho

theorem suffixes_yields : Yields (suffixes (n + 1))
    (fun nodes => NodesWellFormed nodes ∧ ∀ node ∈ nodes, node.takes = 1) := by
  rw [suffixes]
  refine .step fun l => ?_
  have more {form : Form} (hf : form.WellFormed) (ht : form.takes = 1) : Yields (do
      return Node.mk l.position form :: (← suffixes n))
      (fun nodes => NodesWellFormed nodes ∧ ∀ node ∈ nodes, node.takes = 1) := by
    refine .bind h.suffixes fun nodes hn => .pure ⟨⟨hf, hn.1⟩, fun node hm => ?_⟩
    obtain rfl | hm := List.mem_cons.mp hm
    · exact ht
    · exact hn.2 node hm
  dsimp only
  split
  case h_1 op hop =>
    have hs := suffix?_standsAlone hop
    exact .step fun _ => more hs.1 (if_neg hs.2)
  split
  · refine .step fun _ => .step fun empty => .ite ?_ ?_
    · exact .bind (P := ExprsWellFormed) (.pure trivial) fun args ha => more ha rfl
    · exact .bind h.argumentList fun args ha => more ha rfl
  · exact .step fun _ => .bind (h.expression false) fun inner hi => .step fun _ => more hi rfl
  · refine .step fun _ => .step fun assignable => .step fun _ => .step fun empty => .ite ?_ ?_
    · exact .bind (P := ParamsWellFormed) (.pure trivial) fun params hp => more hp rfl
    · exact .bind h.paramList fun params hp => more hp rfl
  · refine .step fun _ => .step fun name => ?_
    split
    · exact .missing _
    · split
      case h_1 op hop => exact more (query?_shape hop) rfl
      · exact .failAt _ _
  · exact .step fun _ => .step fun name => more trivial rfl
  · exact .pure ⟨trivial, fun _ hm => nomatch hm⟩

theorem argumentList_yields : Yields (argumentList (n + 1)) ExprsWellFormed := by
  rw [argumentList]
  refine .bind (h.expression false) fun first hf => .step fun comma => .ite ?_ ?_
  · exact .bind h.argumentList fun more hm => .pure ⟨hf, hm⟩
  · exact .step fun closed => .ite (.pure ⟨hf, trivial⟩) (.step fun _ => .pure ⟨hf, trivial⟩)

theorem paramList_yields : Yields (paramList (n + 1)) ParamsWellFormed := by
  rw [paramList]
  refine .step fun dots => ?_
  cases dots with
  | some dots =>
    refine .step fun _ => .pure ⟨?_, trivial⟩
    exact ⟨rfl, show Kind.varargs ≠ .struct by decide, trivial⟩
  | none =>
    refine .bind (h.expression true) fun type ht => .step fun name => .step fun comma => .ite ?_ ?_
    · exact .bind h.paramList fun more hm => .pure ⟨ht, hm⟩
    · exact .step fun closed => .ite (.pure ⟨ht, trivial⟩) (.step fun _ => .pure ⟨ht, trivial⟩)

omit h

theorem parses : ∀ n, Parses n
  | 0 => by constructor <;> intros <;> exact .outOfFuel
  | n + 1 =>
    have h := parses n
    { command := command_yields h
      commands := commands_yields h
      blockBehind := blockBehind_yields h
      block := block_yields h
      ifElse := ifElse_yields h
      forLoop := forLoop_yields h
      handler := handler_yields h
      expression := expression_yields h
      chain := chain_yields h
      term := term_yields h
      declaration := declaration_yields h
      genericList := genericList_yields h
      operand := operand_yields h
      parenthesized := parenthesized_yields h
      primary := primary_yields h
      init := init_yields h
      elementList := elementList_yields h
      overrideList := overrideList_yields h
      typeLiteral := typeLiteral_yields h
      fieldList := fieldList_yields h
      field := field_yields h
      inlining := inlining_yields h
      fieldValue := fieldValue_yields h
      placement := placement_yields h
      suffixes := suffixes_yields h
      argumentList := argumentList_yields h
      paramList := paramList_yields h }

theorem program_yields (fuel n : Nat) : Yields (program fuel n) CommandsWellFormed := by
  induction n with
  | zero => exact .outOfFuel
  | succ n ih =>
    rw [program]
    refine .step fun atEnd => .ite (.pure trivial) ?_
    refine .bind (parses fuel).command fun first hf => .bind ih fun more hm => .pure ?_
    cases first with
    | none => exact hm
    | some c => exact ⟨hf.1, hm⟩

end Grammar

theorem parse_wellFormed {source file : String} {program : Program} (h : parse source file = .ok program) :
    CommandsWellFormed program.commands := by
  unfold parse at h
  cases ht : tokenize source file with
  | error e =>
    rw [ht] at h
    cases h
  | ok lexemes =>
    rw [ht] at h
    change parseTokens lexemes file = .ok program at h
    unfold parseTokens at h
    dsimp only at h
    split at h
    case h_1 commands rest hp =>
      cases h
      exact Grammar.program_yields _ _ _ _ _ hp
    · cases h

/-- What `compile` gives is the code of a well-formed program. -/
theorem compile_encodes {source file : String} {names names' : Names} {bytes : Array UInt8}
    (h : compile source file names = .ok (bytes, names')) :
    ∃ program : Program, parse source file = .ok program ∧ CommandsWellFormed program.commands ∧
      bytes.toList = (program.encode names').bytes := by
  unfold compile at h
  cases hp : parse source file with
  | error e =>
    rw [hp] at h
    cases h
  | ok program =>
    rw [hp] at h
    cases h
    exact ⟨program, rfl, parse_wellFormed hp, program.emit_bytes names⟩

end LevelScript
