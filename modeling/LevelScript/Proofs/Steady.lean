import LevelScript.Proofs.Outcome
import LevelScript.Proofs.TypeGrowth
import LevelScript.Proofs.Variables

/-!
# Steady computations

Most of the machine works on values: it reads and writes memory, resolves types, declares variables
and reports errors. None of that touches the heap, what the levels own, the open calls, the control
or the journal, nor the functions, the sources or a parked error, whatever the outcome; and no type
goes away.
-/

namespace LevelScript

/-- Errors that bytecode which is out of step leads to. -/
def Cause.isInternal : Cause → Bool
  | missingOperand | expectedValue | unknownKind | unexpectedNode _ | unexpectedCommand _
  | unexpectedOperator _ => true
  | _ => false

def Scopes.owned (s : Scopes) : Array (Array AllocId) := s.levels.map Level.allocs

@[simp]
theorem Scopes.size_owned (s : Scopes) : s.owned.size = s.depth := by
  simp [Scopes.owned, Scopes.depth]

/-- Nothing but values, names and types has changed. -/
structure Machine.Steady (m m' : Machine) : Prop where
  heap : m'.heap = m.heap
  owned : m'.scopes.owned = m.scopes.owned
  frames : m'.frames = m.frames
  control : m'.control = m.control
  journal : m'.journal = m.journal

namespace Machine.Steady

theorem refl (m : Machine) : m.Steady m := ⟨rfl, rfl, rfl, rfl, rfl⟩

theorem trans {a b c : Machine} (h : a.Steady b) (h' : b.Steady c) : a.Steady c :=
  ⟨h'.heap.trans h.heap, h'.owned.trans h.owned, h'.frames.trans h.frames,
    h'.control.trans h.control, h'.journal.trans h.journal⟩

theorem depth {m m' : Machine} (h : m.Steady m') : m'.scopes.depth = m.scopes.depth := by
  rw [← Scopes.size_owned, h.owned, Scopes.size_owned]

theorem modifyLevel (m : Machine) (index : Nat) (f : Level → Level) (hf : ∀ l, (f l).allocs = l.allocs) :
    m.Steady { m with scopes := m.scopes.modifyLevel index f } := by
  refine ⟨rfl, ?_, rfl, rfl, rfl⟩
  apply Array.ext_getElem?
  intro k
  simp only [Scopes.owned, Scopes.modifyLevel, Array.getElem?_map, Array.getElem?_modify]
  split
  · cases m.scopes.levels[k]? <;> simp [hf]
  · rfl

end Machine.Steady

/-- Functions, code, sources, settings and a parked error are the same as well, and the types and variables
are still there. -/
structure Machine.Calm (m m' : Machine) : Prop extends m.Steady m' where
  functions : m'.functions = m.functions
  sources : m'.sources = m.sources
  parked : m'.parked = m.parked
  types : m.types.Grows m'.types
  code : m'.code = m.code
  stub : m'.addresses.stub = m.addresses.stub
  declares : m.scopes.Declares m.scopes.depth m'.scopes
  settings : m'.settings = m.settings

namespace Machine.Calm

theorem refl (m : Machine) : m.Calm m := ⟨.refl m, rfl, rfl, rfl, .refl _, rfl, rfl, .refl _ _, rfl⟩

theorem trans {a b c : Machine} (h : a.Calm b) (h' : b.Calm c) : a.Calm c :=
  ⟨h.toSteady.trans h'.toSteady, h'.functions.trans h.functions, h'.sources.trans h.sources,
    h'.parked.trans h.parked, h.types.trans h'.types, h'.code.trans h.code, h'.stub.trans h.stub,
    h.declares.trans h'.declares (Nat.le_of_eq h.depth.symm), h'.settings.trans h.settings⟩

theorem noteFault (m : Machine) (addr : UInt64) : m.Calm (m.noteFault addr) :=
  ⟨⟨rfl, rfl, rfl, rfl, rfl⟩, rfl, rfl, rfl, .refl _, rfl, rfl, .refl _ _, rfl⟩

theorem modifyLevel (m : Machine) (index : Nat) (f : Level → Level) (hf : ∀ l, (f l).allocs = l.allocs)
    (hv : m.scopes.Declares m.scopes.depth (m.scopes.modifyLevel index f)) :
    m.Calm { m with scopes := m.scopes.modifyLevel index f } :=
  ⟨.modifyLevel m index f hf, rfl, rfl, rfl, .refl _, rfl, rfl, hv, rfl⟩

end Machine.Calm

namespace Exec

/-- Nothing but values, names and types changes; if not `loose`, no error is internal. -/
def Calm (loose : Bool) (x : Exec α) : Prop :=
  ∀ m, x.Ends m (fun _ m' => m.Calm m') (fun e m' => m.Calm m' ∧ (e.cause.isInternal = true → loose = true))

section
variable {α β : Type} {loose : Bool}

namespace Calm

protected theorem pure (a : α) : Calm loose (pure a) := fun m => .refl m

protected theorem bind {x : Exec α} {f : α → Exec β} (hx : Calm loose x) (hf : ∀ a, Calm loose (f a)) :
    Calm loose (x >>= f) := by
  intro m
  refine (hx m).bind (fun a m₁ h₁ => ?_) (fun _ _ h => h)
  exact (hf a m₁).mono (fun _ _ h => h₁.trans h) (fun _ _ h => ⟨h₁.trans h.1, h.2⟩)

theorem get : Calm loose get := fun m => .refl m

protected theorem modify {f : Machine → Machine} (hf : ∀ m : Machine, m.Calm (f m)) : Calm loose (modify f) := hf

protected theorem modifyGet {f : Machine → α × Machine} (hf : ∀ m : Machine, m.Calm (f m).2) :
    Calm loose (modifyGet f) := by
  intro m
  exact hf m

theorem throw {e : RunError} (he : e.cause.isInternal = true → loose = true) :
    Calm loose (throw (.raised e) : Exec α) := by
  intro m
  exact ⟨.refl m, he⟩

theorem outOfFuel : Calm loose (Exec.outOfFuel : Exec α) := fun _ => trivial

theorem raiseInternal (c : Cause) (hc : c.isInternal = true → loose = true) : Calm loose (Exec.raise c : Exec α) :=
  .bind .get fun _ => throw hc

theorem raise (c : Cause) (hc : c.isInternal = false) : Calm loose (Exec.raise c : Exec α) :=
  .raiseInternal c fun h => by rw [hc] at h; cases h

protected theorem ite {c : Prop} [Decidable c] {x y : Exec α} (hx : Calm loose x) (hy : Calm loose y) :
    Calm loose (if c then x else y) := by
  split
  · exact hx
  · exact hy

protected theorem discard {x : Exec α} (hx : Calm loose x) : Calm loose (discard x) :=
  hx.bind fun _ => .pure _

end Calm

end

def Smooth (x : Exec α) : Prop := ∀ m, x.Ends m (fun _ m' => m.Calm m') (fun _ _ => False)

namespace Smooth

variable {α β : Type} {loose : Bool}

theorem calm {x : Exec α} (hx : Smooth x) : Calm loose x :=
  fun m => (hx m).mono (fun _ _ => id) (fun _ _ h => h.elim)

protected theorem pure (a : α) : Smooth (pure a) := fun m => .refl m

protected theorem bind {x : Exec α} {f : α → Exec β} (hx : Smooth x) (hf : ∀ a, Smooth (f a)) :
    Smooth (x >>= f) := by
  intro m
  refine (hx m).bind (fun a m₁ h₁ => ?_) (fun _ _ h => h)
  exact (hf a m₁).mono (fun _ _ h => h₁.trans h) (fun _ _ h => h)

theorem get : Smooth get := fun m => .refl m

protected theorem modify {f : Machine → Machine} (hf : ∀ m : Machine, m.Calm (f m)) : Smooth (modify f) := hf

protected theorem modifyGet {f : Machine → α × Machine} (hf : ∀ m : Machine, m.Calm (f m).2) :
    Smooth (modifyGet f) := by
  intro m
  exact hf m

protected theorem ite {c : Prop} [Decidable c] {x y : Exec α} (hx : Smooth x) (hy : Smooth y) :
    Smooth (if c then x else y) := by
  split
  · exact hx
  · exact hy

end Smooth

section
variable {loose : Bool}

/-! ## Values -/

theorem nameText_calm (name : NameId) : Calm loose (nameText name) := .bind .get fun _ => .pure _

theorem withTypes_calm {α : Type} {f : TypeTable → α × TypeTable} (hf : ∀ ts : TypeTable, ts.Grows (f ts).2) :
    Calm loose (withTypes f) :=
  .modifyGet fun m => ⟨⟨rfl, rfl, rfl, rfl, rfl⟩, rfl, rfl, rfl, hf m.types, rfl, rfl, .refl _ _, rfl⟩

theorem constant_calm (id : TypeId) : Calm loose (withTypes (·.constant id)) :=
  withTypes_calm fun ts => ts.constant_grows id

theorem pointer_calm (id : TypeId) : Calm loose (withTypes (·.pointer id)) :=
  withTypes_calm fun ts => ts.pointer_grows id

theorem primitiveType_calm (kind : Kind) (unsigned : Bool) : Calm loose (withTypes fun ts =>
    let (id, ts) := ts.primitive kind
    if unsigned then ts.unsign id else (id, ts)) := by
  refine withTypes_calm fun ts => ?_
  dsimp only
  split
  · exact (ts.primitive_grows _).trans (TypeTable.unsign_grows _ _)
  · exact ts.primitive_grows _

theorem modifiedType_calm (op : Opcode) (id : TypeId) : Calm loose (withTypes fun ts =>
    if op = .constType then ts.constant id else ts.pointer id) := by
  refine withTypes_calm fun ts => ?_
  split
  · exact ts.constant_grows id
  · exact ts.pointer_grows id

theorem typeInfo_smooth (id : TypeId) : Smooth (typeInfo id) := .bind .get fun _ => .pure _

theorem typeInfo_calm (id : TypeId) : Calm loose (typeInfo id) := (typeInfo_smooth id).calm

theorem kindOf_smooth (v : Variable) : Smooth (kindOf v) := .bind .get fun _ => .pure _

theorem kindOf_calm (v : Variable) : Calm loose (kindOf v) := (kindOf_smooth v).calm

theorem displayType_calm (id : TypeId) : Calm loose (displayType id) := .bind .get fun _ => .pure _

theorem logError_calm (e : RunError) : Calm loose (logError e) :=
  .modify fun _ => ⟨⟨rfl, rfl, rfl, rfl, rfl⟩, rfl, rfl, rfl, .refl _, rfl, rfl, .refl _ _, rfl⟩

theorem checkFault_calm : Calm loose checkFault := by
  refine .bind .get fun m => ?_
  split
  · exact .pure _
  · exact .bind (.modify fun _ => ⟨⟨rfl, rfl, rfl, rfl, rfl⟩, rfl, rfl, rfl, .refl _, rfl, rfl, .refl _ _,
      rfl⟩) fun _ => .raise _ rfl

theorem peek_smooth (addr : UInt64) (size : Nat) : Smooth (peek addr size) := by
  refine .ite (.bind .get fun _ => .pure _) ?_
  exact .bind (.modify fun m => .noteFault m addr) fun _ => .pure _

theorem peek_calm (addr : UInt64) (size : Nat) : Calm loose (peek addr size) := (peek_smooth addr size).calm

theorem poke_calm (addr : UInt64) (size : Nat) (bits : UInt64) : Calm loose (poke addr size bits) := by
  refine .modify fun m => ?_
  split
  · exact .refl m
  · split
    · exact ⟨⟨rfl, rfl, rfl, rfl, rfl⟩, rfl, rfl, rfl, .refl _, rfl, rfl, .refl _ _, rfl⟩
    · exact .noteFault m addr

theorem copyBytes_calm (source target : UInt64) (size : Nat) :
    Calm loose (copyBytes source target size) := by
  refine .modify fun m => ?_
  split
  · exact .noteFault m source
  · split
    · exact .noteFault m target
    · exact ⟨⟨rfl, rfl, rfl, rfl, rfl⟩, rfl, rfl, rfl, .refl _, rfl, rfl, .refl _ _, rfl⟩

theorem bits_smooth (v : Variable) : Smooth (bits v) := by
  refine .bind (typeInfo_smooth _) fun t => ?_
  split
  · exact .pure _
  · exact .bind (peek_smooth _ _) fun _ => .pure _

theorem bits_calm (v : Variable) : Calm loose (bits v) := (bits_smooth v).calm

theorem store_calm (v : Variable) (word : UInt64) : Calm loose (store v word) := by
  unfold store
  split
  · exact .pure _
  · exact .bind (typeInfo_calm _) fun _ => poke_calm _ _ _

theorem toValue_calm (v : Variable) : Calm loose (toValue v) := .bind (bits_calm v) fun _ => .pure _

theorem asDouble_calm (v : Variable) : Calm loose (asDouble v) :=
  .bind (bits_calm v) fun _ => .bind (typeInfo_calm _) fun _ => .pure _

theorem asType_calm (v : Variable) : Calm loose (asType v) := .bind (bits_calm v) fun _ => .pure _

theorem expectType_calm (v : Variable) : Calm loose (expectType v) :=
  .bind (kindOf_calm v) fun _ => .ite (asType_calm v) (.raise _ rfl)

theorem isNegative_calm (v : Variable) : Calm loose (isNegative v) :=
  .bind (bits_calm v) fun _ => .bind (typeInfo_calm _) fun _ => .pure _

theorem fresh_smooth (type : TypeId) (word : UInt64) : Smooth (fresh type word) :=
  .modifyGet fun _ => ⟨⟨rfl, rfl, rfl, rfl, rfl⟩, rfl, rfl, rfl, .refl _, rfl, rfl, .refl _ _, rfl⟩

theorem fresh_calm (type : TypeId) (word : UInt64) : Calm loose (fresh type word) := (fresh_smooth type word).calm

theorem boolValue_calm (b : Bool) : Calm loose (boolValue b) :=
  .bind (withTypes_calm fun ts => ts.unsign_grows _) fun _ => .pure _

theorem wordValue_calm (n : UInt64) : Calm loose (wordValue n) :=
  .bind (withTypes_calm fun ts => ts.unsign_grows _) fun _ => .pure _

theorem textAddress_calm (name : NameId) : Calm loose (textAddress name) := by
  refine .modifyGet fun m => ?_
  split
  · exact .refl m
  · split <;> exact ⟨⟨rfl, rfl, rfl, rfl, rfl⟩, rfl, rfl, rfl, .refl _, rfl, rfl, .refl _ _, rfl⟩

theorem textValue_calm (name : NameId) : Calm loose (textValue name) :=
  .bind (withTypes_calm fun ts => (ts.constant_grows _).trans (TypeTable.pointer_grows _ _)) fun _ =>
    .bind (textAddress_calm name) fun _ => .pure _

/-! ## Names -/

theorem load?_calm (name : NameId) : Calm loose (load? name) := by
  refine .bind .get fun m => ?_
  split
  · exact .pure _
  · exact .ite (.bind (toValue_calm _) fun _ => .pure _) (.bind (.pure _) fun _ => .pure _)

theorem load_calm (name : NameId) : Calm loose (load name) := by
  refine .bind (load?_calm name) fun found => ?_
  split
  · exact .pure _
  · exact .bind (nameText_calm name) fun _ => .raise _ rfl

theorem declare_calm (name : NameId) (v : Variable) : Calm loose (declare name v) := by
  refine .modifyGet fun m => ?_
  split
  · exact .modifyLevel m _ _ (fun l => l.allocs_adding _ _) (.add m.scopes name v)
  · exact .refl m

theorem declareNew_calm (name : NameId) (v : Variable) : Calm loose (declareNew name v) :=
  .bind (declare_calm name v) fun _ => .ite (.bind (nameText_calm name) fun _ => .raise _ rfl) (.pure _)

/-! ## Conversions -/

theorem resolveType_calm (id : TypeId) : Calm loose (resolveType id) := by
  refine .bind (withTypes_calm fun ts => ts.constant_grows _) fun _ => .bind .get fun _ =>
    .bind (withTypes_calm fun ts => ts.resolve_grows _ _) fun r => ?_
  split
  · exact .pure _
  · exact .raise _ rfl

theorem truthy_calm (v : Variable) : Calm loose (truthy v) := by
  refine .bind (kindOf_calm v) fun kind => ?_
  split
  · exact .bind .get fun _ => .bind (asType_calm v) fun _ => .bind (resolveType_calm _) fun _ => .pure _
  · exact .bind (asDouble_calm v) fun _ => .pure _
  · exact .bind (asDouble_calm v) fun _ => .pure _
  · exact .bind (bits_calm v) fun _ => .pure _

theorem cast_calm (target : TypeId) (v : Variable) : Calm loose (cast target v) :=
  .bind (resolveType_calm target) fun _ => .bind (typeInfo_calm _) fun _ =>
    .bind (bits_calm v) fun _ => .bind (typeInfo_calm _) fun _ =>
      .bind (asDouble_calm v) fun _ => .pure _

theorem bitcast_calm (target : TypeId) (v : Variable) : Calm loose (bitcast target v) :=
  .bind (resolveType_calm target) fun _ => .bind (typeInfo_calm _) fun _ =>
    .bind (bits_calm v) fun _ => .pure _

theorem castBits_calm (target : TypeId) (v : Variable) : Calm loose (castBits target v) :=
  .bind (cast_calm target v) fun _ => bits_calm _

/-! ## Text -/

theorem textAt_calm (addr : UInt64) : Calm loose (textAt addr) :=
  .ite (.bind .get fun _ => .pure _) (.bind (.modify fun m => .noteFault m addr) fun _ => .pure _)

theorem renderFields_calm {render : TypeId → UInt64 → Exec String}
    (hr : ∀ id word, Calm loose (render id word)) (addr : UInt64) :
    ∀ fields, Calm loose (renderFields render addr fields)
  | [] => .pure _
  | f :: fs => by
    have rest (name : String) (word : UInt64) : Calm loose (do
        let text ← render f.type word
        return (" " ++ name ++ " = " ++ text) :: (← renderFields render addr fs)) :=
      .bind (hr _ _) fun _ => .bind (renderFields_calm hr addr fs) fun _ => .pure _
    unfold renderFields
    cases f.name with
    | none =>
      refine .bind (.pure _) fun name => .bind (typeInfo_calm _) fun t => .ite ?_ ?_
      · exact .bind (.pure _) fun _ => rest _ _
      · exact .bind (peek_calm _ _) fun _ => .bind (.pure _) fun _ => rest _ _
    | some name =>
      refine .bind (nameText_calm name) fun name => .bind (typeInfo_calm _) fun t => .ite ?_ ?_
      · exact .bind (.pure _) fun _ => rest _ _
      · exact .bind (peek_calm _ _) fun _ => .bind (.pure _) fun _ => rest _ _

theorem render_calm : ∀ (n : Nat) (id : TypeId) (word : UInt64), Calm loose (render n id word)
  | 0, _, _ => .outOfFuel
  | n + 1, id, word => by
    refine .bind .get fun m => .ite (.bind (textAt_calm word) fun _ => .pure _) ?_
    split
    case h_10 =>
      exact .ite (.pure _) (.bind (renderFields_calm (render_calm n) word _) fun _ => .pure _)
    all_goals first | exact .pure _ | exact displayType_calm _

theorem renderVariable_calm (fuel : Nat) (v : Variable) : Calm loose (renderVariable fuel v) :=
  .bind (bits_calm v) fun _ => render_calm _ _ _

/-! ## Structs -/

theorem pokes_calm : ∀ writes : List TypeTable.Write,
    Calm loose (forIn writes PUnit.unit fun w _ => do
      poke w.1 w.2.1 w.2.2
      pure (ForInStep.yield PUnit.unit))
  | [] => .pure _
  | w :: ws => by
    rw [List.forIn_cons]
    exact .bind (.bind (poke_calm _ _ _) fun _ => .pure _) fun r => by
      cases r with
      | done _ => exact .pure _
      | yield _ => exact pokes_calm ws

theorem initStruct_calm (id : TypeId) (addr : UInt64) : Calm loose (initStruct id addr) :=
  .bind .get fun _ => .bind (pokes_calm _) fun _ => .pure _

theorem fieldAt?_calm (id : TypeId) (addr : UInt64) (name : NameId) :
    Calm loose (fieldAt? id addr name) := by
  refine .bind .get fun m => ?_
  split
  · exact .pure _
  · refine .ite (.pure _) (.bind (typeInfo_calm _) fun t => .ite ?_ ?_)
    · exact .bind (toValue_calm _) fun _ => .ite (.pure _) (.pure _)
    · exact .bind (.pure _) fun _ => .ite (.pure _) (.pure _)

theorem method?_calm (id : TypeId) (addr : UInt64) (name : NameId) : Calm loose (method? id addr name) := by
  refine .bind (fieldAt?_calm id addr name) fun found => ?_
  cases found with
  | none => exact .pure _
  | some method =>
    refine .bind (kindOf_calm method) fun _ => .ite (.pure _) ?_
    exact .bind (bits_calm method) fun _ => .ite (.pure _) (.pure _)

theorem overrideField_calm (id : TypeId) (addr : UInt64) (name : NameId) (v : Variable) :
    Calm loose (overrideField id addr name v) := by
  refine .bind .get fun m => ?_
  split
  · exact .bind (nameText_calm name) fun _ => .raise _ rfl
  · refine .ite (.bind (nameText_calm name) fun _ => .bind (.raise _ rfl) fun _ => ?_) ?_
    all_goals
      exact .bind (castBits_calm _ v) fun _ => .bind (typeInfo_calm _) fun _ => poke_calm _ _ _

/-! ## Functions -/

theorem convertArguments_calm : ∀ (ps : List Param) (vs : List Variable),
    Calm loose (convertArguments ps vs)
  | _ :: ps, v :: vs =>
    .bind (cast_calm _ v) fun _ => .bind (convertArguments_calm ps vs) fun _ => .pure _
  | [], v :: vs =>
    .bind (toValue_calm v) fun _ => .bind (convertArguments_calm [] vs) fun _ => .pure _
  | [], [] => .pure _
  | _ :: _, [] => .pure _

theorem declareCaptured_calm (capture : Capture) : ∀ captured, Calm loose (declareCaptured capture captured)
  | [] => .pure _
  | (name, v) :: more => by
    have rest (v : Variable) : Calm loose (do
        discard (declare name v)
        declareCaptured capture more) :=
      .bind (.discard (declare_calm name v)) fun _ => declareCaptured_calm capture more
    refine .ite (.bind (bits_calm v) fun _ => .bind (fresh_calm _ _) fun _ => rest _) ?_
    exact .bind (.pure _) fun _ => rest _

theorem declareParameters_calm (captured : List (NameId × Variable)) :
    ∀ params, Calm loose (declareParameters captured params)
  | [] => .pure _
  | (p, v) :: more => by
    have rest := declareParameters_calm captured more
    rw [declareParameters]
    cases p.name with
    | none => exact rest
    | some name =>
      have bound : Calm loose (do
          let arg ← fresh v.type (← bits v)
          if !(← declare name arg) then raise (.parameterRepeated (← nameText name))
          declareParameters captured more) := by
        refine .bind (bits_calm v) fun _ => .bind (fresh_calm _ _) fun _ =>
          .bind (declare_calm name _) fun _ => .ite ?_ rest
        exact .bind (nameText_calm name) fun _ => .bind (.raise _ rfl) fun _ => rest
      exact .ite (.bind (nameText_calm name) fun _ => .bind (.raise _ rfl) fun _ => bound) bound

theorem functionResult_calm (call : ScriptCall) (control : Control) :
    Calm loose (functionResult call control) := by
  cases control with
  | returning v =>
    refine .ite (cast_calm _ v) (.ite (.raise _ rfl) (.ite ?_ (.pure _)))
    exact .bind (displayType_calm _) fun _ => .bind (displayType_calm _) fun _ => .raise _ rfl
  | running => exact .bind .get fun _ => .ite (.pure _) (.raise _ rfl)
  | breaking => exact .raise _ rfl
  | continuing => exact .raise _ rfl

theorem nativeArguments_smooth : ∀ (fixed : Nat) (vs : List Variable), Smooth (nativeArguments fixed vs)
  | _, [] => .pure _
  | fixed, v :: vs => by
    have one : Smooth (nativeArgument (fixed != 0) v) := by
      refine .bind (bits_smooth v) fun _ => .bind (kindOf_smooth v) fun kind => ?_
      split
      · exact .ite (.pure _) (.pure _)
      · exact .pure _
      · exact .pure _
    exact .bind one fun _ => .bind (nativeArguments_smooth (fixed - 1) vs) fun _ => .pure _

theorem copyCaptured_smooth : ∀ captured, Smooth (copyCaptured captured)
  | [] => .pure _
  | (_, v) :: more =>
    .bind (bits_smooth v) fun _ => .bind (fresh_smooth _ _) fun _ =>
      .bind (copyCaptured_smooth more) fun _ => .pure _

/-! ## Operators -/

end

end Exec

def Opcode.isArithmetic (op : Opcode) : Bool :=
  (Operator.additive ++ Operator.multiplicative ++ Operator.bitwise).contains op

theorem Integer.apply_noOperator {op : Opcode} {signed : Bool} {a b : UInt64}
    (h : Integer.apply op signed a b = .error .noOperator) : ¬ op.isArithmetic = true := by
  intro ha
  have hm := List.contains_iff_mem.mp ha
  simp only [Operator.additive, Operator.multiplicative, Operator.bitwise, List.cons_append, List.nil_append,
    List.mem_cons, List.not_mem_nil, or_false] at hm
  rcases hm with rfl | rfl | rfl | rfl | rfl | rfl | rfl | rfl | rfl | rfl | rfl
  all_goals
    simp only [Integer.apply] at h
    first | cases h | (split at h <;> cases h)

namespace Operator

def Action.isBinary (op : Opcode) : Action → Bool
  | arithmetic => op.isArithmetic
  | pointerOffset | elvis | compare | logical | assign | cast => true
  | _ => false

theorem action?_rule {ts : TypeTable} {op : Opcode} {stack : List Variable} {action : Action}
    (h : action? ts op stack = some action) : ∃ r ∈ rules, op ∈ r.ops ∧ r.action = action := by
  obtain ⟨r, hr, ha⟩ := Option.map_eq_some_iff.mp h
  have hf := List.find?_some hr
  rw [Bool.and_eq_true, List.contains_iff_mem] at hf
  exact ⟨r, List.mem_of_find?_eq_some hr, hf.1, ha⟩

theorem isBinary_or_compound {ts : TypeTable} {op : Opcode} {stack : List Variable} {action : Action}
    (hs : op.shape? = some .between) (h : action? ts op stack = some action) :
    action.isBinary op = true ∧ action ≠ .compound ∨ action = .compound ∧ op.compoundBase?.isSome = true := by
  obtain ⟨r, hr, hop, rfl⟩ := action?_rule h
  have table : ∀ r ∈ rules, ∀ op ∈ r.ops, op.shape? = some .between →
      r.action.isBinary op = true ∧ r.action ≠ .compound ∨ r.action = .compound ∧
          op.compoundBase?.isSome = true := by
    decide
  exact table r hr op hop hs

theorem isBinary_compoundBase {ts : TypeTable} {op base : Opcode} {stack : List Variable} {action : Action}
    (hb : op.compoundBase? = some base) (h : action? ts base stack = some action) :
    action.isBinary base = true := by
  have hs : base.shape? = some .between ∧ base.compoundBase? = none := by
    cases op <;> cases hb <;> exact ⟨rfl, rfl⟩
  obtain ⟨h, -⟩ | ⟨-, h⟩ := isBinary_or_compound hs.1 h
  · exact h
  · rw [hs.2] at h
    cases h

end Operator

namespace Exec

section
variable {loose : Bool}

theorem mismatch_calm {α : Type} (op : Opcode) (stack : List Variable) :
    Calm loose (mismatch op stack : Exec α) := .bind .get fun _ => .raise _ rfl

theorem commonType_calm (a b : Variable) : Calm loose (commonType a b) := by
  refine withTypes_calm fun ts => ?_
  dsimp only
  split
  · split
    · exact (ts.primitive_grows _).trans (TypeTable.unsign_grows _ _)
    · exact ts.primitive_grows _
  · exact ts.unsign_grows _

theorem promote_calm (a b : Variable) : Calm loose (promote a b) :=
  .bind (commonType_calm a b) fun _ => .bind (cast_calm _ a) fun _ =>
    .bind (cast_calm _ b) fun _ => .pure _

theorem compute_calm {op : Opcode} (hop : op.isArithmetic = true ∨ loose = true) (type : TypeId) (x y : Variable) :
    Calm loose (compute op type x y) := by
  refine .bind (typeInfo_calm type) fun t => .ite ?_ ?_
  · split
    · exact .bind (asDouble_calm x) fun _ => .bind (asDouble_calm y) fun _ => .pure _
    · exact .raise _ rfl
  · refine .bind (bits_calm x) fun _ => .bind (bits_calm y) fun _ => ?_
    split
    · exact .pure _
    · exact .raise _ rfl
    case h_3 h => exact .raiseInternal _ fun _ => hop.resolve_left (Integer.apply_noOperator h)

theorem arithmetic_calm {op : Opcode} (hop : op.isArithmetic = true ∨ loose = true) (a b : Variable) :
    Calm loose (arithmetic op a b) :=
  .bind (promote_calm a b) fun _ => .bind (compute_calm hop _ _ _) fun _ => .pure _

theorem ordering?_calm (a b : Variable) : Calm loose (ordering? a b) := by
  refine .bind (promote_calm a b) fun _ => .bind (typeInfo_calm _) fun _ => .ite ?_ ?_
  · exact .bind (asDouble_calm _) fun _ => .bind (asDouble_calm _) fun _ => .pure _
  · refine .bind (isNegative_calm a) fun _ => .bind (isNegative_calm b) fun _ => ?_
    split
    · exact .pure _
    · exact .pure _
    · exact .bind (bits_calm _) fun _ => .bind (bits_calm _) fun _ => .pure _

theorem step_calm (op : Opcode) (v : Variable) : Calm loose (step op v) :=
  .bind (toValue_calm v) fun _ => .bind (kindOf_calm v) fun _ => .bind (bits_calm _) fun _ =>
    .bind (store_calm v _) fun _ => .ite (toValue_calm v) (.pure _)

theorem mapBits_calm (f : Kind → UInt64 → UInt64) (v : Variable) : Calm loose (mapBits f v) :=
  .bind (withTypes_calm fun ts => ts.mutableOf_grows _) fun _ => .bind (typeInfo_calm _) fun _ =>
    .bind (bits_calm v) fun _ => .pure _

theorem pointerOffset_calm (op : Opcode) (a b : Variable) : Calm loose (pointerOffset op a b) :=
  .bind (kindOf_calm a) fun _ => .bind (bits_calm _) fun _ => .bind .get fun _ =>
    .bind (bits_calm _) fun _ => .pure _

theorem elementAt_calm (pointer : TypeId) (addr : UInt64) : Calm loose (elementAt pointer addr) :=
  .bind (typeInfo_calm _) fun _ => .bind (typeInfo_calm _) fun _ =>
    .bind (.discard (peek_calm _ _)) fun _ => .ite (toValue_calm _) (.pure _)

theorem dereference_calm (v : Variable) : Calm loose (dereference v) :=
  .bind (bits_calm v) fun _ =>
    .ite (.bind (.raise _ rfl) fun _ => elementAt_calm _ _) (elementAt_calm _ _)

theorem dereferenceType_calm (v : Variable) : Calm loose (dereferenceType v) := by
  refine .bind (asType_calm v) fun _ => .bind (typeInfo_calm _) fun _ => ?_
  split
  · exact .pure _
  · exact .bind (displayType_calm _) fun _ => .raise _ rfl

theorem checkIndex_calm (v : Variable) : Calm loose (checkIndex v) :=
  .bind (kindOf_calm v) fun _ => .ite (.raise _ rfl) (.pure _)

theorem addressOf_calm (v : Variable) : Calm loose (addressOf v) := by
  unfold addressOf
  split
  · exact .raise _ rfl
  · exact .bind (withTypes_calm fun ts => ts.pointer_grows _) fun _ => .pure _

theorem allocationInfo_calm (op : Opcode) (v : Variable) : Calm loose (allocationInfo op v) :=
  .bind (bits_calm v) fun _ => .bind .get fun _ => wordValue_calm _

theorem memberType_calm (type : TypeId) (name : NameId) : Calm loose (memberType type name) := by
  refine .bind (resolveType_calm type) fun _ => .bind .get fun m => ?_
  dsimp only
  split
  · split
    · exact .pure _
    · exact .bind (nameText_calm name) fun _ => .raise _ rfl
  · split
    · exact .pure _
    · exact .bind (nameText_calm name) fun _ => .raise _ rfl
  · exact .raise _ rfl

theorem member_calm (v : Variable) (name : NameId) : Calm loose (member v name) := by
  refine .bind (bits_calm v) fun addr => .ite (.bind (.raise _ rfl) fun _ => ?_) ?_
  -- both ways go on to the field
  all_goals
    refine .bind (fieldAt?_calm _ _ _) fun found => ?_
    cases found with
    | some _ => exact .pure _
    | none => exact .bind (nameText_calm name) fun _ => .raise _ rfl

theorem assign_calm (target v : Variable) : Calm loose (assign target v) :=
  .bind (castBits_calm _ v) fun _ => .bind (store_calm target _) fun _ => .pure _

theorem binary_calm {op : Opcode} {action : Operator.Action} (h : action.isBinary op = true ∨ loose = true)
    (a b : Variable) : Calm loose (Interp.binary op action a b) := by
  unfold Interp.binary
  split
  · exact arithmetic_calm h a b
  · exact pointerOffset_calm op a b
  · exact .bind (truthy_calm a) fun _ => .ite (.pure _) (.pure _)
  · exact .bind (ordering?_calm a b) fun _ => boolValue_calm _
  · exact .bind (truthy_calm a) fun _ => .bind (truthy_calm b) fun _ => boolValue_calm _
  · exact assign_calm a b
  · exact .bind (asType_calm b) fun _ => .ite (bitcast_calm _ a) (cast_calm _ a)
  case h_8 => exact .raiseInternal _ fun _ => h.resolve_left (by simp_all [Operator.Action.isBinary])

theorem compound_calm {op : Opcode} (hop : op.compoundBase?.isSome = true ∨ loose = true) (a b : Variable) :
    Calm loose (Interp.compound op a b) := by
  unfold Interp.compound
  split
  case h_1 h => exact .raiseInternal _ fun _ => hop.resolve_left (by simp [h])
  case h_2 base h =>
    refine .bind .get fun m => ?_
    split
    · exact mismatch_calm _ _
    case h_2 action ha =>
      exact .bind (binary_calm (.inl (Operator.isBinary_compoundBase h ha)) a b) fun _ => assign_calm a _

/-! ## Expressions, commands and texts -/

theorem literalType_calm (n : UInt64) : Calm loose (literalType n) :=
  .ite (.pure _) (.ite (.pure _) (withTypes_calm fun ts => ts.unsign_grows _))

theorem scopeOf_calm (name : Option NameId) : Calm loose (scopeOf name) := by
  refine .bind .get fun m => ?_
  cases name with
  | none => exact .bind (.pure _) fun _ => .pure _
  | some name =>
    dsimp only
    split
    · exact .bind (.pure _) fun _ => .pure _
    · exact .bind (.raise _ rfl) fun _ => .pure _

theorem copyStruct_calm (source target size : UInt64) : Calm loose (copyStruct source target size) :=
  .ite (.pure _) (copyBytes_calm _ _ _)

theorem symbolAddress_calm (name : NameId) : Calm loose (symbolAddress name) := by
  refine .bind .get fun m => ?_
  dsimp only
  split
  · exact .ite (.raise _ rfl) (.pure _)
  · exact .raise _ rfl

theorem loadSource_calm (name : String) : Calm loose (loadSource name) := by
  refine .bind .get fun m => ?_
  dsimp only
  split
  · exact .pure _
  · exact .raise _ rfl

theorem resultValue_calm : Calm loose resultValue := by
  refine .bind .get fun m => ?_
  split
  · exact toValue_calm _
  · exact .pure _

theorem caughtValue_calm (e : RunError) : Calm loose (Interp.caughtValue e) := by
  unfold Interp.caughtValue
  split
  · exact .bind (bits_calm _) fun _ => fresh_calm _ _
  · exact .bind (.modifyGet fun _ => ⟨⟨rfl, rfl, rfl, rfl, rfl⟩, rfl, rfl, rfl, .refl _, rfl, rfl,
      .refl _ _, rfl⟩) fun _ => textValue_calm _

theorem compileSource_calm (source file : String) : Calm loose (compileSource source file) := by
  refine .modifyGet fun m => ?_
  split
  · exact ⟨⟨rfl, rfl, rfl, rfl, rfl⟩, rfl, rfl, rfl, .refl _, rfl, rfl, .refl _ _, rfl⟩
  · exact .refl m

theorem keepResult_smooth (type : TypeId) (word : UInt64) : Smooth (keepResult type word) := by
  refine .bind (fresh_smooth type word) fun v => .modify fun m => ?_
  split
  case h_1 scopes hs =>
    have hv := Scopes.Declares.assignResult hs m.scopes.depth
    simp only [Scopes.assign, Option.bind_eq_bind, Option.bind_eq_some_iff, Option.pure_def,
      Option.some.injEq] at hs
    obtain ⟨index, -, rfl⟩ := hs
    exact .modifyLevel m index _ (fun _ => rfl) hv
  case h_2 => exact .refl m

end

end Exec

end LevelScript
