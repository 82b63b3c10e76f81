import LevelScript.Proofs.TypeValues

/-!
# Type values of expressions

Nodes that take their values from operands, literals and names leave a machine in order, and the type values
that they make are right. So are those of a whole expression, if the words are that come from elsewhere: from
a conversion, from the memory and from what runs inside.
-/

namespace LevelScript

open TypeTable

namespace Operator

/-! ## Actions -/

def Action.settled : Action → Bool
  | .arithmetic | .pointerOffset | .elvis | .compare | .logical | .cast | .address | .dereference | .dereferenceType
  | .sign | .logicNot | .bitNot | .modifyType | .allocationInfo | .member | .memberType => true
  | .assign | .compound | .step | .functionType | .indexPointer | .indexStruct | .call => false

def Action.takesType : Action → Bool
  | .cast | .dereferenceType | .modifyType | .functionType | .memberType => true
  | _ => false

/-- A type value comes from the table or from an operand. -/
def Action.namesType : Action → Bool
  | .elvis | .dereferenceType | .modifyType | .memberType => true
  | _ => false

theorem rules_take_types : ∀ r ∈ rules, r.action.takesType = true →
    r.operands.reverse.head?.map (·.pattern) = some .type := by
  decide

section
variable {ts : TypeTable} {op : Opcode} {stack : List Variable} {action : Action}

theorem takes_type (h : action? ts op stack = some action) (ht : action.takesType = true) {v : Variable}
    {rest : List Variable}
    (hs : stack = v :: rest) : ts.kind v.type = .type := by
  obtain ⟨r, hr, rfl⟩ := Option.map_eq_some_iff.mp h
  have hpattern := rules_take_types r (List.mem_of_find?_eq_some hr) ht
  have hfit := List.find?_some hr
  rw [Bool.and_eq_true] at hfit
  cases ho : r.operands.reverse with
  | nil =>
    rw [ho] at hpattern
    cases hpattern
  | cons o os =>
    rw [ho] at hpattern hfit
    have hp : o.pattern = .type := Option.some.inj hpattern
    have hfit := hfit.2
    rw [hs, fitAll, Bool.and_eq_true, fits, Bool.and_eq_true, hp] at hfit
    exact eq_of_beq hfit.1.2

end

end Operator

namespace Exec

open Machine Operator

/-- The type of the value is in the table; if it is to be a type value of the table, it is one. -/
def Result (named : Bool) (v : Variable) (m : Machine) : Prop := v.type < m.types.size ∧ (named = true → m.Knows v)

section
variable {m : Machine} {v a b : Variable} {x : Exec Variable} {named : Bool}

theorem Gives.unnamed (hx : Gives x m TypeKnown) : Gives x m (Result false) := hx.mono fun _ _ hv => ⟨hv, nofun⟩

theorem Gives.knowing (hx : Gives x m fun v m' => m'.Knows v) : Gives x m (Result named) :=
  hx.mono fun _ _ hv => ⟨hv.type, fun _ => hv⟩

theorem knows_result (hv : m.Knows v) : Result named v m := ⟨hv.type, fun _ => hv⟩

theorem binary_gives (h : m.Typed) (op : Opcode) {action : Action} (ha : m.Knows a) (hb : m.Knows b)
    (hs : action.settled = true)
    (ht : action.takesType = true → m.types.kind b.type = .type) :
    Gives (Interp.binary op action a b) m (Result action.namesType) := by
  cases action
  case arithmetic => exact .unnamed (arithmetic_gives h op a b)
  case pointerOffset => exact .unnamed (pointerOffset_gives h op ha.type hb.type)
  case elvis =>
    apply Gives.knowing
    apply (truthy_gives h ha).bind
    intro truth m₁ hg _
    have h₁ := h.grown hg
    apply Gives.ite
    · intro _
      exact .pure h₁ (ha.grown hg)
    · intro _
      exact .pure h₁ (hb.grown hg)
  case compare =>
    apply Gives.unnamed
    apply (ordering?_gives h a b).bind
    intro order m₁ hg _
    exact boolValue_gives (h.grown hg) _
  case logical =>
    apply Gives.unnamed
    apply (truthy_gives h ha).bind
    intro x m₁ hg _
    have h₁ := h.grown hg
    apply (truthy_gives h₁ (hb.grown hg)).bind
    intro y m₂ hg₂ _
    exact boolValue_gives (h₁.grown hg₂) _
  case cast =>
    apply Gives.unnamed
    apply (asType_gives h hb (ht rfl)).bind
    intro target m₁ hg htarget
    have h₁ := h.grown hg
    apply Gives.ite
    · intro _
      exact bitcast_gives h₁ htarget a
    · intro _
      exact cast_gives h₁ htarget a
  case assign | compound | step | functionType | indexPointer | indexStruct | call => cases hs
  all_goals exact .raise h

end

end Exec

namespace Run

open Exec Machine Operator

def Gives {α : Type} (x : Run α) (r : Reader) (m : Machine) (Q : α → Machine → Prop) : Prop :=
  Exec.Gives (x r) m fun p m' => Q p.1 m'

section
variable {α β : Type} {m : Machine} {r : Reader} {Q : β → Machine → Prop}

theorem Gives.lift {x : Exec β} (hx : Exec.Gives x m Q) : Gives (liftM x : Run β) r m Q := by
  apply Exec.Ends.bind hx
  · intro b m₁ hb
    exact hb
  · intro _ m₁ hg
    exact hg

theorem Gives.lift_bind {x : Exec α} {f : α → Run β} {P : α → Machine → Prop} (hx : Exec.Gives x m P)
    (hf : ∀ a m₁, m.Grown m₁ → P a m₁ → Gives (f a) r m₁ Q) : Gives ((liftM x : Run α) >>= f) r m Q := by
  rw [Gives, Run.lift_bind]
  exact hx.bind hf

theorem Gives.next {read : Reader → α × Reader} {f : α → Run β} (hf : Gives (f (read r).1) (read r).2 m Q) :
    Gives (Run.next read >>= f) r m Q := hf

theorem Gives.machine {f : Machine → Run β} (hf : Gives (f m) r m Q) : Gives (getThe Machine >>= f) r m Q := hf

protected theorem Gives.pure {b : β} (h : m.Typed) (hb : Q b m) : Gives (pure b) r m Q := Exec.Gives.pure h hb

protected theorem Gives.bind {x : Run α} {f : α → Run β} {P : α → Machine → Prop} (hx : Gives x r m P)
    (hf : ∀ a r' m₁, m.Grown m₁ → P a m₁ → Gives (f a) r' m₁ Q) : Gives (x >>= f) r m Q :=
  Exec.Gives.bind hx fun p m₁ hg hp => hf p.1 p.2 m₁ hg hp

protected theorem Gives.ite {c : Prop} [Decidable c] {x y : Run β} (hx : c → Gives x r m Q)
    (hy : ¬c → Gives y r m Q) :
    Gives (if c then x else y) r m Q := by
  split
  case isTrue hc => exact hx hc
  case isFalse hc => exact hy hc

end

section
variable {m : Machine} {v : Variable} {r : Reader} {i : Interp}

theorem unary_gives (h : m.Typed) (op : Opcode) {action : Action} (hv : m.Knows v) (hs : action.settled = true)
    (ht : action.takesType = true → m.types.kind v.type = .type) :
    Gives (i.unary op action v) r m (Result action.namesType) := by
  cases action
  case address => exact .lift (.unnamed (addressOf_gives h hv.type))
  case dereference => exact .lift (.unnamed (dereference_gives h hv.type))
  case dereferenceType => exact .lift (.knowing (dereferenceType_gives h hv (ht rfl)))
  case sign => exact .lift (.unnamed (mapBits_gives h _ hv.type))
  case bitNot => exact .lift (.unnamed (mapBits_gives h _ hv.type))
  case allocationInfo => exact .lift (.unnamed (allocationInfo_gives h op v))
  case logicNot =>
    apply Gives.lift_bind (truthy_gives h hv)
    intro truth m₁ hg _
    exact .lift (.unnamed (boolValue_gives (h.grown hg) _))
  case modifyType =>
    apply Gives.lift_bind (asType_gives h hv (ht rfl))
    intro id m₁ hg hid
    have h₁ := h.grown hg
    have hsupplies : m₁.types.Supplies (if op = .constType then m₁.types.constant id else m₁.types.pointer id) := by
      split
      · exact TypeOp.supplies (.constant id) h₁.kept hid rfl
      · exact TypeOp.supplies (.pointer id) h₁.kept hid rfl
    apply Gives.lift_bind (Exec.Gives.withTypes hsupplies)
    intro id' m₂ hg₂ hid'
    have h₂ := h₁.grown hg₂
    exact .lift (.knowing (.pure h₂ (h₂.knows_typeValue hid')))
  case member => exact .lift (.unnamed (member_gives h v _))
  case memberType =>
    apply Gives.next
    apply Gives.lift_bind (asType_gives h hv (ht rfl))
    intro id m₁ hg hid
    exact .lift (.knowing (memberType_gives (h.grown hg) hid _))
  case assign | compound | step | functionType | indexPointer | indexStruct | call => cases hs
  all_goals exact .lift (.raise h)

theorem name?_gives (h : m.Typed) : Gives Run.name? r m (fun _ _ => True) := by
  apply Gives.next
  apply Gives.ite
  · intro _
    exact .next (.pure h trivial)
  · intro _
    exact .pure h trivial

theorem literalType_gives (h : m.Typed) (n : UInt64) :
    Exec.Gives (literalType n) m (fun id m' => id < m'.types.size) := by
  apply Exec.Gives.ite
  · intro _
    exact .pure h (h.kept.primitive_lt .int32 rfl)
  · intro _
    apply Exec.Gives.ite
    · intro _
      exact .pure h (h.kept.primitive_lt .int64 rfl)
    · intro _
      exact .withTypes (unsign_supplies h.kept (h.kept.primitive_lt .int64 rfl))

theorem scopeOf_gives (h : m.Typed) (name : Option NameId) : Exec.Gives (scopeOf name) m TypeKnown := by
  have level (n : Nat) : Exec.Gives (pure (Variable.value TypeTable.int32 n.toUInt64)) m TypeKnown :=
    .pure h (h.kept.primitive_lt .int32 rfl)
  cases name with
  | none => exact level _
  | some name =>
    apply Exec.Gives.get
    dsimp only
    split
    case h_1 => exact level _
    case h_2 => exact .raise h

theorem typeLiteral_gives (h : m.Typed) (hs : Kind.ofCode? r.bool.2.u8.1 ≠ some .struct) :
    Gives i.typeLiteral r m (fun id m' => id < m'.types.size) := by
  apply Gives.next
  apply Gives.next
  extract_lets jp
  have rest {m : Machine} (h : m.Typed) {id : TypeId} (hid : id < m.types.size) (r : Reader) :
      Gives (jp id) r m (fun id m' => id < m'.types.size) := by
    unfold jp
    split
    · exact .lift (.withTypes (TypeOp.supplies (.constant id) h.kept hid rfl))
    · exact .pure h hid
  split
  case h_1 => exact .lift_bind (P := fun _ _ => False) (.raise h) fun _ _ _ hf => hf.elim
  case h_2 heq => exact absurd heq hs
  case h_3 kind _ _ =>
    apply Gives.next
    apply Gives.lift_bind
    · apply Exec.Gives.withTypes
      have hprimitive : m.types.Supplies (m.types.primitive kind) :=
        TypeOp.supplies (.primitive kind) h.kept trivial rfl
      dsimp only
      split
      · exact hprimitive.trans (unsign_supplies hprimitive.kept hprimitive.known)
      · exact hprimitive
    · intro id m₁ hg hid
      exact rest (h.grown hg) hid _

end

end Run

/-! ## Nodes -/

namespace Interp

open Exec Machine Operator

/-- Nothing but the table changes at an operand that has nothing to run inside. -/
def settledOperand (op : Opcode) (r : Reader) : Bool :=
  match op with
  | .integer | .float | .truth | .null | .variableRef | .deferName | .scopeOf => true
  | .typeLiteral => Kind.ofCode? r.bool.2.u8.1 != some .struct
  | _ => false

def namingOperand : Opcode → Bool
  | .typeLiteral | .variableRef | .deferName => true
  | _ => false

def settles (ts : TypeTable) (op : Opcode) (stack : List Variable) (r : Reader) : Bool :=
  if op.isOperator then (action? ts op stack).any (·.settled) else settledOperand op r

/-- A type value that the node makes is from the table or an operand. -/
def namesType (ts : TypeTable) (op : Opcode) (stack : List Variable) : Bool :=
  if op.isOperator then (action? ts op stack).any (·.namesType) else namingOperand op

def Tops (P : Variable → Prop) (stack stack' : List Variable) : Prop := ∃ v rest, stack' = v :: rest ∧
    P v ∧ rest ⊆ stack

section
variable {m : Machine} {v : Variable} {r : Reader} {i : Interp} {stack : List Variable}

theorem operand_gives (h : m.Typed) {op : Opcode} (hs : settledOperand op r = true) :
    Run.Gives (i.operand op) r m (Result (namingOperand op)) := by
  cases op
  case integer =>
    apply Run.Gives.next
    apply Run.Gives.lift_bind (Run.literalType_gives h _)
    intro id m₁ hg hid
    exact .pure (h.grown hg) ⟨hid, nofun⟩
  case float => exact .next (.pure h ⟨h.kept.primitive_lt .float64 rfl, nofun⟩)
  case truth => exact .next (.lift (.unnamed (boolValue_gives h _)))
  case null =>
    have hvoid : TypeTable.void < m.types.size := h.kept.primitive_lt .void rfl
    apply Run.Gives.lift_bind (Exec.Gives.withTypes (TypeOp.supplies (.pointer TypeTable.void) h.kept hvoid rfl))
    intro id m₁ hg hid
    exact .pure (h.grown hg) ⟨hid, nofun⟩
  case variableRef => exact .next (.lift (.knowing (load_gives h _)))
  case deferName =>
    apply Run.Gives.next
    apply Run.Gives.lift_bind (Exec.Gives.withTypes (TypeOp.supplies (.deferred _) h.kept trivial rfl))
    intro id m₁ hg hid
    have h₁ := h.grown hg
    exact .pure h₁ (knows_result (h₁.knows_typeValue hid))
  case typeLiteral =>
    apply Exec.Gives.bind (Run.typeLiteral_gives h (bne_iff_ne.mp hs))
    intro p m₁ hg hid
    have h₁ := h.grown hg
    exact .pure h₁ (knows_result (h₁.knows_typeValue hid))
  case scopeOf =>
    apply Run.Gives.bind (Run.name?_gives h)
    intro name r' m₁ hg _
    exact .lift (.unnamed (Run.scopeOf_gives (h.grown hg) name))
  all_goals cases hs

theorem applyOperator_gives (h : m.Typed) (hstack : ∀ v ∈ stack, m.Knows v) {op : Opcode} {action : Action}
    (ha : action? m.types op stack = some action) (hs : action.settled = true) :
    Run.Gives (i.applyOperator op stack) r m
    (fun stack' m' => Tops (Result action.namesType · m') stack stack') := by
  have pushed {v : Variable} {rest : List Variable} {r : Reader} {m₁ : Machine} (h₁ : m₁.Typed)
    (hv : Result action.namesType v m₁)
      (hrest : rest ⊆ stack) : Run.Gives (pure (v :: rest)) r m₁
        (fun stack' m' => Tops (Result action.namesType · m') stack stack') := .pure h₁ ⟨v, rest, rfl, hv, hrest⟩
  unfold applyOperator
  apply Run.Gives.machine
  rw [ha]
  dsimp only
  apply Run.Gives.ite
  · intro _
    split
    case h_1 b a rest =>
      have hc : action ≠ .compound := by
        rintro rfl
        cases hs
      rw [if_neg hc]
      apply Run.Gives.lift_bind (binary_gives h op (hstack a (by simp)) (hstack b (by simp)) hs fun ht =>
        takes_type ha ht rfl)
      intro v m₁ hg hv
      exact pushed (h.grown hg) hv (by simp)
    case h_2 => exact .lift (.raise h)
  · intro _
    split
    case h_1 v rest =>
      apply Run.Gives.bind (Run.unary_gives h op (hstack v (by simp)) hs fun ht => takes_type ha ht rfl)
      intro w r' m₁ hg hw
      exact pushed (h.grown hg) hw (by simp)
    case h_2 => exact .lift (.raise h)

theorem node_gives (h : m.Typed) (hstack : ∀ v ∈ stack, m.Knows v) {op : Opcode}
    (hs : settles m.types op stack r = true) :
    Run.Gives (i.node op stack) r m
    (fun stack' m' => Tops (Result (namesType m.types op stack) · m') stack stack') := by
  unfold settles at hs
  unfold node namesType
  by_cases ho : op.isOperator = true
  · rw [if_pos ho] at hs ⊢
    rw [if_pos ho]
    cases ha : action? m.types op stack with
    | none =>
      rw [ha] at hs
      cases hs
    | some action =>
      rw [ha] at hs
      exact applyOperator_gives h hstack ha hs
  · rw [if_neg ho] at hs ⊢
    have hd : op ≠ .declare := by
      rintro rfl
      cases hs
    rw [if_neg hd, if_neg ho]
    apply Run.Gives.bind (operand_gives h hs)
    intro v r' m₁ hg hv
    exact .pure (h.grown hg) ⟨v, stack, rfl, hv, fun _ h => h⟩

/-! ## Expressions -/

def placed (r : Reader) : (Int × Int) × Reader :=
  let (row, r) := r.i32
  let (col, r) := r.i32
  ((row, col), r)

def placedNode (i : Interp) (op : Opcode) (stack : List Variable) (r : Reader) : Exec (List Variable × Reader) :=
  Run.atPlace (placed r).1.1 (placed r).1.2 (i.checkedNode op stack) (placed r).2

/-- The nodes of an expression up to the end mark, of which each only adds types, and if it makes a type value
of a word from elsewhere, the word stands for a type; or it leaves all in order for another reason. -/
def Faithful (i : Interp) : Nat → List Variable → Reader → Machine → Prop
  | 0, _, _, _ => True
  | n + 1, stack, r, m =>
    r.opcode.1 ≠ .endMark → ∀ stack' r' m', i.placedNode r.opcode.1 stack r.opcode.2 m = .ok (stack', r') m' →
      (settles m.types r.opcode.1 stack (placed r.opcode.2).2 = true ∧
        (namesType m.types r.opcode.1 stack = false → ∀ v ∈ stack'.head?,
          m'.types.kind v.type = .type → TypeId.ofBits (v.valueIn m'.types m'.memory) < m'.types.size) ∨
        m'.Typed ∧ ∀ v ∈ stack', m'.Knows v) ∧
      i.Faithful n stack' r' m'

theorem Tops.grown {named : Bool} {m₁ : Machine} {stack' : List Variable}
    (h : Tops (Result named · m) stack stack') (hg : m.Grown m₁) :
    Tops (Result named · m₁) stack stack' := by
  obtain ⟨v, rest, rfl, ⟨hv, hk⟩, hrest⟩ := h
  exact ⟨v, rest, rfl, ⟨hg.types.lt hv, fun hn => (hk hn).grown hg⟩, hrest⟩

theorem modify_gives {f : Machine → Machine} (hg : m.Grown (f m)) :
    Exec.Gives (modify f) m (fun _ m' => m' = f m) := ⟨hg, rfl⟩

theorem checkFault_gives (h : m.Typed) : Exec.Gives checkFault m (fun _ _ => True) := by
  cases hp : m.pending with
  | none =>
    rw [Exec.Gives, Exec.Ends, checkFault_none hp]
    exact ⟨.refl h.kept, trivial⟩
  | some addr =>
    apply (checkFault_some hp).mono
    · intro _ _ hf
      exact hf.elim
    · rintro _ m₂ ⟨-, rfl⟩
      exact ⟨rfl, rfl, rfl, .refl _, h.kept⟩

theorem checkedNode_gives (h : m.Typed) (hstack : ∀ v ∈ stack, m.Knows v) {op : Opcode}
    (hs : settles m.types op stack r = true) :
    Run.Gives (i.checkedNode op stack) r m
    (fun stack' m' => Tops (Result (namesType m.types op stack) · m') stack stack') := by
  apply (node_gives h hstack hs).bind
  intro stack' r' m₁ hg htops
  have h₁ := h.grown hg
  apply Run.Gives.lift_bind (checkFault_gives h₁)
  intro _ m₂ hg₂ _
  have h₂ := h₁.grown hg₂
  apply Run.Gives.machine
  apply Run.Gives.ite
  · intro _
    exact .lift_bind (P := fun _ _ => False) (.raise h₂) fun _ _ _ hf => hf.elim
  · intro _
    exact .pure h₂ (htops.grown hg₂)

theorem placedNode_gives (h : m.Typed) (hstack : ∀ v ∈ stack, m.Knows v) {op : Opcode}
    (hs : settles m.types op stack (placed r).2 = true) : Exec.Gives (i.placedNode op stack r) m
      (fun p m' => Tops (Result (namesType m.types op stack) · m') stack p.1) := by
  have hg := Machine.Grown.place h.kept (placed r).1.1 (placed r).1.2
  apply Exec.Gives.get
  apply (modify_gives hg).bind
  rintro _ _ - rfl
  have h₁ := h.grown hg
  apply Exec.Gives.bind (checkedNode_gives h₁ (fun v hv => (hstack v hv).grown hg) hs)
  intro p m₂ hg₂ htops
  have hback := Machine.Grown.place (h₁.grown hg₂).kept m.frame.row m.frame.col
  apply (modify_gives hback).bind
  rintro _ _ - rfl
  exact .pure ((h₁.grown hg₂).grown hback) (htops.grown hback)

theorem Faithful.step {n : Nat} {stack' : List Variable} {r' : Reader} {m' : Machine} (h : m.Typed)
    (hstack : ∀ v ∈ stack, m.Knows v)
    (hf : i.Faithful (n + 1) stack r m) (hop : r.opcode.1 ≠ .endMark)
    (hr : i.placedNode r.opcode.1 stack r.opcode.2 m = .ok (stack', r') m') :
    m'.Typed ∧ (∀ v ∈ stack', m'.Knows v) ∧ i.Faithful n stack' r' m' := by
  obtain ⟨⟨hs, hforeign⟩ | ⟨h', hstack'⟩, hrest⟩ := hf hop stack' r' m' hr
  · have hg := placedNode_gives (i := i) h hstack hs
    rw [Exec.Gives, Exec.Ends, hr] at hg
    obtain ⟨hg, v, rest, rfl, ⟨hv, hk⟩, hsub⟩ := hg
    refine ⟨h.grown hg, List.forall_mem_cons.mpr ⟨?_, fun w hw => (hstack w (hsub hw)).grown hg⟩, hrest⟩
    cases hn : namesType m.types r.opcode.1 stack with
    | true => exact hk hn
    | false => exact ⟨hv, hforeign hn v rfl⟩
  · exact ⟨h', hstack', hrest⟩

theorem nodes_types :
    ∀ {n : Nat} {stack : List Variable} {r r' : Reader} {m m' : Machine} {result : Option Variable}, m.Typed →
    (∀ v ∈ stack, m.Knows v) → i.Faithful n stack r m → i.nodes n stack r m = .ok (result, r') m' →
    m'.Typed ∧ ∀ v ∈ result, m'.Knows v := by
  intro n
  induction n with
  | zero =>
    intro stack r r' m m' result _ _ _ hr
    cases hr
  | succ n ih =>
    intro stack r r' m m' result h hstack hf hr
    by_cases hop : r.opcode.1 = .endMark
    · have hr : (pure stack.head? : Run (Option Variable)) r.opcode.2 m = .ok (result, r') m' := by
        rw [← hr, nodes_succ]
        show _ = (if r.opcode.1 = .endMark then _ else _ : Run (Option Variable)) r.opcode.2 m
        rw [if_pos hop]
      cases hr
      exact ⟨h, fun v hv => hstack v (List.mem_of_mem_head? hv)⟩
    · have hr : (i.placedNode r.opcode.1 stack r.opcode.2 >>= fun p => i.nodes n p.1 p.2) m =
        .ok (result, r') m' := by
        rw [← hr, nodes_succ]
        show _ = (if r.opcode.1 = .endMark then _ else _ : Run (Option Variable)) r.opcode.2 m
        rw [if_neg hop]
        rfl
      obtain ⟨p, m₁, hnode, hr⟩ := bind_eq_ok hr
      obtain ⟨h₁, hstack₁, hf₁⟩ := hf.step h hstack hop hnode
      exact ih h₁ hstack₁ hf₁ hr

/-- In a machine whose types are in its table, a type value that an expression gives stands for a type of the
table, if those words do that come from elsewhere: from a conversion, the memory, or what runs inside. It does
so for ever, whatever runs afterwards. -/
theorem expression_types {k : Nat} {m m' : Machine} {r r' : Reader} {v : Variable} (h : m.Typed)
    (hf : (ofFuel k).Faithful (ofFuel k).fuel [] r m) (hr : (ofFuel k).expression r m = .ok (some v, r') m') :
    m'.Typed ∧ m'.Knows v ∧ (v.isLvalue = false → 0 < m'.scopes.depth → ∀ n text file,
      ((ofFuel n).source text file).Ends m' (fun _ m'' => m''.Knows v) (fun _ m'' => m''.Knows v)) := by
  obtain ⟨h', hv⟩ := nodes_types h (List.forall_mem_nil _) hf hr
  have hv := hv v rfl
  refine ⟨h', hv, fun hvalue hdepth n text file => ?_⟩
  apply ((Law.sound_ofFuel declaring n).source text file m' hdepth).mono
  · intro _ m'' hd
    exact hv.value hvalue hd.types
  · intro _ m'' hd
    exact hv.value hvalue hd.types

def literalS32 : Reader :=
  .ofChunk { bytes := #[Opcode.typeLiteral.code, 0, 0, 0, 0, 0, 0, 0, 0, 0, Kind.int32.code, 0, 0] }

theorem expression_types_literal : let m₀ : Machine := { scopes := ⟨#[{}]⟩ }
    m₀.Typed ∧ (ofFuel 3).Faithful (ofFuel 3).fuel [] literalS32 m₀ ∧
      ∃ r m, (ofFuel 3).expression literalS32 m₀ = .ok (some (typeValue int32), r) m ∧
          m.Knows (typeValue int32) := by
  intro m₀
  have hnone (k : Nat) (name : NameId) : m₀.scopes.var? k name = none := by
    cases k <;> rfl
  have h : m₀.Typed := .of_no_variables kept_initial hnone
  have hf : (ofFuel 3).Faithful (ofFuel 3).fuel [] literalS32 m₀ := by
    intro _ stack' r' m' hr
    cases hr
    exact ⟨.inl ⟨rfl, nofun⟩, fun hend => absurd rfl hend⟩
  refine ⟨h, hf, _, _, rfl, ?_⟩
  exact (expression_types h hf rfl).2.1

end

end Interp

end LevelScript
