import LevelScript.Proofs.Interpreter
import LevelScript.Proofs.PlainTypes

/-!
# Operators on integers

On values of integer types every operator gives the value that it should, or divides by zero. Nothing of the
machine changes but the table of types, which grows.
-/

namespace LevelScript

open TypeTable

def Machine.retyped (m : Machine) (types : TypeTable) : Machine := { m with types }

namespace Exec

/-- The computation gives a value with the property, and only adds to the types. -/
def Computes (x : Exec α) (m : Machine) (Q : α → TypeTable → Prop) : Prop :=
  ∃ a ts, x m = .ok a (m.retyped ts) ∧ ts.Stocked ∧ m.types.Grows ts ∧ Q a ts

/-- The computation fails with a division by zero, in the levels where it began. -/
def DividesByZero (x : Exec α) (m : Machine) : Prop :=
  ∃ e m', x m = .error (.raised e) m' ∧ e.cause = .divisionByZero ∧ m'.scopes = m.scopes

/-- The computation gives what there is, and otherwise divides by zero. -/
def Yields (x : Exec α) (m : Machine) (o : Option β) (Q : β → α → TypeTable → Prop) : Prop :=
  match o with
  | some b => Computes x m (Q b)
  | none => DividesByZero x m

section
variable {x : Exec α} {f : α → Exec β} {m : Machine} {P Q : α → TypeTable → Prop} {R : β → TypeTable → Prop}

theorem Computes.pure {a : α} (h : m.types.Stocked) (hq : Q a m.types) : Computes (pure a) m Q :=
  ⟨a, m.types, rfl, h, .refl _, hq⟩

theorem Computes.of_eq {y : Exec α} (h : x m = y m) (hy : Computes y m Q) : Computes x m Q := by
  rw [Computes, h]
  exact hy

theorem DividesByZero.of_eq {y : Exec α} (h : x m = y m) (hy : DividesByZero y m) : DividesByZero x m := by
  rw [DividesByZero, h]
  exact hy

theorem Computes.bind (hx : Computes x m Q)
    (hf : ∀ a ts, ts.Stocked → m.types.Grows ts → Q a ts → Computes (f a) (m.retyped ts) R) :
    Computes (x >>= f) m R := by
  obtain ⟨a, ts, hx, hs, hg, hq⟩ := hx
  obtain ⟨b, ts', hb, hs', hg', hr⟩ := hf a ts hs hg hq
  refine ⟨b, ts', ?_, hs', hg.trans hg', hr⟩
  rw [show (x >>= f) m = f a (m.retyped ts) from bind_ok hx]
  exact hb

theorem Computes.after {a : α} (hx : x m = .ok a m) (hf : Computes (f a) m R) : Computes (x >>= f) m R := by
  obtain ⟨b, ts, hb, h⟩ := hf
  exact ⟨b, ts, (bind_ok hx).trans hb, h⟩

theorem Computes.withTypes {f : TypeTable → TypeId × TypeTable} {t : TypeInfo} (h : m.types.Gives t (f m.types)) :
    Computes (withTypes f) m (fun id ts => ts.types[id]? = some t) :=
  ⟨(f m.types).1, (f m.types).2, rfl, h.stocked, h.grows, h.found⟩

theorem DividesByZero.after {m' : Machine} {a : α} (hx : x m = .ok a m') (hs : m'.scopes = m.scopes)
    (hf : DividesByZero (f a) m') : DividesByZero (x >>= f) m := by
  obtain ⟨e, m'', h, he, hs'⟩ := hf
  exact ⟨e, m'', (bind_ok hx).trans h, he, hs'.trans hs⟩

theorem DividesByZero.bind (hx : DividesByZero x m) : DividesByZero (x >>= f) m := by
  obtain ⟨e, m', h, he⟩ := hx
  exact ⟨e, m', by simp only [Bind.bind, EStateM.bind, h], he⟩

end

end Exec

/-! ## Values in variables -/

def IntegerType.infoWith (t : IntegerType) (isConst : Bool) : TypeInfo :=
  plainInfo t.width.kind { unsigned := t.unsigned, isConst }

def IntegerType.info (t : IntegerType) : TypeInfo := t.infoWith false

theorem IntegerType.isInteger_kind (w : Width) : w.kind.isInteger = true := by cases w <;> rfl

theorem IntegerType.isSignedInteger_infoWith (t : IntegerType) (isConst : Bool) :
    (t.infoWith isConst).isSignedInteger = !t.unsigned := by
  show (t.width.kind.isInteger && !t.unsigned) = _
  rw [isInteger_kind, Bool.true_and]

theorem IntegerType.isSignedInteger_info (t : IntegerType) : t.info.isSignedInteger = !t.unsigned :=
  t.isSignedInteger_infoWith false

theorem extend_infoWith (t : IntegerType) (isConst : Bool) (n : UInt64) :
    extend (t.infoWith isConst) n = extend t.info n := by
  rw [extend, extend, t.isSignedInteger_infoWith, t.isSignedInteger_info]
  rfl

theorem extend_ofInt (t : IntegerType) (z : Int) : extend t.info (.ofInt z) = .ofInt (t.wrap z) := by
  rw [extend, t.isSignedInteger_info]
  exact extendWord_ofInt t z

theorem IntegerValue.word_cut (t : IntegerType) (z : Int) : (cut t z).word = .ofInt (t.wrap z) := rfl

theorem IntegerValue.cut_number (v : IntegerValue) : cut v.type v.number = v := by
  obtain ⟨t, z, h⟩ := v
  simp only [cut, h]

/-- The variable has the value, by itself or at a valid address; its type may be a constant one. -/
structure Machine.Shows (m : Machine) (x : Variable) (v : IntegerValue) : Prop where
  type : ∃ isConst, m.types.types[x.type]? = some (v.type.infoWith isConst)
  word : match x.storage with
    | .value bits => extend v.type.info bits = v.word
    | .location addr => Memory.isValid addr ∧ extend v.type.info (m.memory.read addr v.type.info.valueSize) = v.word

structure Variable.Represents (x : Variable) (ts : TypeTable) (v : IntegerValue) : Prop where
  storage : x.storage = .value v.word
  type : ts.types[x.type]? = some v.type.info

section
variable {x y : Variable} {v w : IntegerValue} {m : Machine} {ts : TypeTable}

theorem Variable.Represents.mono (h : x.Represents ts v) {ts' : TypeTable} (hg : ts.Grows ts') :
    x.Represents ts' v :=
  ⟨h.storage, hg _ _ h.type⟩

theorem Variable.Represents.of_cut {id : TypeId} {t : IntegerType} (h : ts.types[id]? = some t.info) (z : Int) :
    (Variable.value id (extend t.info (.ofInt z))).Represents ts (.cut t z) :=
  ⟨congrArg Storage.value (extend_ofInt t z), h⟩

theorem IntegerValue.extend_word (v : IntegerValue) : extend v.type.info v.word = v.word := by
  rw [IntegerValue.word, extend_ofInt, v.wrapped]

theorem Variable.Represents.shows (h : x.Represents m.types v) : m.Shows x v :=
  ⟨⟨false, h.type⟩, by rw [h.storage]; exact v.extend_word⟩

/-- Every variable of an integer type that can be read has a value. -/
theorem Machine.exists_shows (m : Machine) {t : IntegerType} {isConst : Bool}
    (ht : m.types.types[x.type]? = some (t.infoWith isConst))
    (hr : ∀ addr, x.storage = .location addr → Memory.isValid addr) :
    ∃ v : IntegerValue, v.type = t ∧ m.Shows x v := by
  have word (n : UInt64) : extend t.info n = (IntegerValue.cut t n.toNat).word := by
    rw [IntegerValue.word_cut, ← extend_ofInt, ← eq_ofInt rfl]
  cases hs : x.storage with
  | value bits => exact ⟨.cut t bits.toNat, rfl, ⟨isConst, ht⟩, by rw [hs]; exact word bits⟩
  | location addr =>
    let bits := m.memory.read addr t.info.valueSize
    exact ⟨.cut t bits.toNat, rfl, ⟨isConst, ht⟩, by rw [hs]; exact ⟨hr addr hs, word bits⟩⟩

theorem Machine.Shows.mono (h : m.Shows x v) {ts : TypeTable} (hg : m.types.Grows ts) : (m.retyped ts).Shows x v :=
  ⟨h.type.imp fun _ ht => hg _ _ ht, h.word⟩

theorem Exec.typeInfo_of {id : TypeId} {t : TypeInfo} (h : m.types.types[id]? = some t) :
    typeInfo id m = .ok t m := by
  rw [← get_eq h]
  rfl

variable (hx : m.Shows x v)
include hx

theorem Machine.Shows.kind : m.types.kind x.type = v.type.width.kind := by
  obtain ⟨isConst, ht⟩ := hx.type
  rw [TypeTable.kind, get_eq ht]
  rfl

namespace Exec

theorem kindOf_eq : kindOf x m = .ok v.type.width.kind m := by
  rw [← hx.kind]
  rfl

theorem bits_eq : bits x m = .ok v.word m := by
  obtain ⟨isConst, ht⟩ := hx.type
  have hw := hx.word
  rw [bits, bind_ok (typeInfo_of ht)]
  cases hs : x.storage with
  | value bits =>
    rw [hs] at hw
    exact congrArg (EStateM.Result.ok · m) ((extend_infoWith ..).trans hw)
  | location addr =>
    rw [hs] at hw
    have hp : peek addr v.type.info.valueSize m = .ok (m.memory.read addr v.type.info.valueSize) m := by
      rw [peek, if_pos (by rw [Machine.canAccess, Bool.or_eq_true]; exact .inr hw.1)]
      rfl
    exact (bind_ok hp).trans (congrArg (EStateM.Result.ok · m) ((extend_infoWith ..).trans hw.2))

theorem asDouble_eq : ∃ d, asDouble x m = .ok d m := by
  obtain ⟨isConst, ht⟩ := hx.type
  rw [asDouble, bind_ok (bits_eq hx), bind_ok (typeInfo_of ht)]
  exact ⟨_, rfl⟩

theorem isNegative_eq : isNegative x m = .ok (decide (v.number < 0)) m := by
  obtain ⟨isConst, ht⟩ := hx.type
  rw [isNegative, bind_ok (bits_eq hx), bind_ok (typeInfo_of ht), v.type.isSignedInteger_infoWith, v.negative_word]
  rfl

theorem truthy_eq : truthy x m = .ok v.isTrue m := by
  have hb : (v.word != 0) = v.isTrue := by
    rw [IntegerValue.isTrue, bne, bne]
    congr 1
    rw [Bool.eq_iff_iff, beq_iff_eq, beq_iff_eq]
    exact ofInt_eq_zero v.wrapped
  have hz : (do return (← bits x) != 0 : Exec Bool) m = .ok v.isTrue m := by
    rw [bind_ok (bits_eq hx), hb]
    rfl
  rw [truthy, bind_ok (kindOf_eq hx)]
  cases v.type.width <;> exact hz

omit hx in
/-- A type without structure has no names that could mean anything else. -/
theorem resolveType_eq {id : TypeId} {t : IntegerType} {isConst : Bool}
    (hi : m.types.types[id]? = some (t.infoWith isConst)) :
    resolveType id m = .ok id (m.retyped (m.types.constant TypeTable.type).2) := by
  have hk : t.width.kind ≠ .struct := by cases t.width <;> nofun
  have hi := m.types.constant_grows TypeTable.type _ _ hi
  generalize hc : m.types.constant TypeTable.type = c at *
  have hconstant : withTypes (·.constant TypeTable.type) m = .ok c.1 (m.retyped c.2) := by
    rw [← hc]
    rfl
  have hresolve (lookup : Lookup) : withTypes (·.resolve lookup id) (m.retyped c.2) =
      .ok (.ok id) (m.retyped c.2) := by
    show EStateM.Result.ok (c.2.resolve lookup id).1 (m.retyped (c.2.resolve lookup id).2) = _
    rw [resolve_plain hi rfl hk]
  exact (bind_ok hconstant).trans ((bind_ok (s := m.retyped c.2) rfl).trans ((bind_ok (hresolve _)).trans rfl))

omit hx in
theorem resolveType_computes (hm : m.types.Stocked) {id : TypeId} {t : IntegerType} {isConst : Bool}
    (hi : m.types.types[id]? = some (t.infoWith isConst)) : Computes (resolveType id) m (fun id' _ => id' = id) :=
  ⟨id, _, resolveType_eq hi, hm.constant.stocked, hm.constant.grows, rfl⟩

theorem cast_computes (hm : m.types.Stocked) {id : TypeId} {t : IntegerType} {isConst : Bool}
    (hi : m.types.types[id]? = some (t.infoWith isConst)) :
    Computes (cast id x) m (fun y _ => y = .value id (.ofInt (t.wrap v.number))) := by
  refine .bind (resolveType_computes hm hi) fun id' ts hs hg he => ?_
  rw [he]
  have hx := hx.mono hg
  have hi := hg _ _ hi
  obtain ⟨source, ht⟩ := hx.type
  obtain ⟨d, hd⟩ := asDouble_eq hx
  refine .after (typeInfo_of (m := m.retyped ts) hi) (.after (bits_eq hx) (.after (typeInfo_of ht) (.after hd ?_)))
  have hc : convertBits (v.type.infoWith source) (t.infoWith isConst) v.word d =
      extend (t.infoWith isConst) (.ofInt v.number) := by
    rw [IntegerType.infoWith, IntegerType.infoWith]
    cases t.width <;> cases v.type.width <;> rfl
  rw [hc, extend_infoWith, extend_ofInt]
  exact .pure hs rfl

/-! ## Operators -/

omit hx in
theorem primitive_gives (hm : m.types.Stocked) (kind : Width) :
    m.types.Gives (plainInfo kind.kind {}) (m.types.primitive kind.kind) := by
  cases kind <;> exact ⟨hm, .refl _, hm.primitive rfl⟩

variable (hy : m.Shows y w)
include hy

theorem commonType_computes (hm : m.types.Stocked) :
    Computes (commonType x y) m (fun id ts => ts.types[id]? = some (v.type.common w.type).info) := by
  have number (w : Width) : w.kind.isNumber = true := by cases w <;> rfl
  have notFloat (w : Width) : w.kind.isFloat = false := by cases w <;> rfl
  have common : (v.type.width.kind.widest w.type.width.kind).widest .int32 = (v.type.common w.type).width.kind := by
    unfold IntegerType.common
    cases v.type.width <;> cases w.type.width <;> rfl
  have unsigned {ts : TypeTable} {x : Variable} {v : IntegerValue} (hx : (m.retyped ts).Shows x v) :
      ts.isUnsignedLike x.type = v.type.unsigned := by
    obtain ⟨isConst, ht⟩ := hx.type
    rw [isUnsignedLike, show ts.get x.type = v.type.infoWith isConst from get_eq ht]
    show (v.type.unsigned || v.type.width.kind == .pointer) = _
    cases v.type.width <;> exact Bool.or_false _
  have base := primitive_gives hm (v.type.common w.type).width
  refine .withTypes ?_
  dsimp only
  rw [hx.kind, hy.kind, number, number, if_pos (Bool.and_self _), common, notFloat, unsigned (hx.mono base.grows),
    unsigned (hy.mono base.grows), Bool.not_false, Bool.true_and]
  show m.types.Gives
    (plainInfo (v.type.common w.type).width.kind { unsigned := v.type.unsigned || w.type.unsigned }) _
  split
  case isTrue hu =>
    have hk (w : Width) : w.kind ∈ [Kind.int8, .int16, .int32, .int64] := by cases w <;> simp [Width.kind]
    have := base.stocked.unsign (hk _) base.found
    rw [hu]
    exact ⟨this.stocked, base.grows.trans this.grows, this.found⟩
  case isFalse hu =>
    rw [Bool.eq_false_iff.mpr hu]
    exact base

theorem promote_computes (hm : m.types.Stocked) :
    Computes (promote x y) m (fun p ts =>
      let t := v.type.common w.type
      ts.types[p.1]? = some t.info ∧ p.2.1.Represents ts (.cut t v.number) ∧
          p.2.2.Represents ts (.cut t w.number)) := by
  refine .bind (commonType_computes hx hy hm) fun id ts hs hg hi => ?_
  have hi : ts.types[id]? = some ((v.type.common w.type).infoWith false) := hi
  refine .bind (cast_computes (hx.mono hg) hs hi) fun a ts' hs' hg' ha => ?_
  have hi' := hg' _ _ hi
  refine .bind (cast_computes ((hy.mono hg).mono hg') hs' hi') fun b ts'' hs'' hg'' hb => ?_
  have hi'' := hg'' _ _ hi'
  exact .pure hs'' ⟨hi'', ha ▸ ⟨rfl, hi''⟩, hb ▸ ⟨rfl, hi''⟩⟩

omit hx hy in
theorem compute_eq {t : IntegerType} {id : TypeId} {a b : Int} (hi : m.types.types[id]? = some t.info)
    (ha : x.Represents m.types (.cut t a)) (hb : y.Represents m.types (.cut t b)) (op : ArithmeticOperator) :
    compute op.opcode id x y m =
      if op.divides ∧ t.wrap b = 0 then .error (.raised ⟨.divisionByZero, m.trace⟩) m
      else .ok (.ofInt (t.wrap (op.compute (t.wrap a) (t.wrap b)))) m := by
  have hf : t.info.kind.isFloat = false := by
    show t.width.kind.isFloat = false
    cases t.width <;> rfl
  rw [compute, bind_ok (typeInfo_of hi), hf, if_neg Bool.false_ne_true, bind_ok (bits_eq ha.shows),
    bind_ok (bits_eq hb.shows), t.isSignedInteger_info, IntegerValue.word_cut, IntegerValue.word_cut]
  split_ifs with h0
  · rw [h0.2, apply_zero h0.1]
    rfl
  · rw [apply_ofInt op (t.wrap_wrap a) (t.wrap_wrap b) fun hd hb => h0 ⟨hd, hb⟩, ← extend_ofInt]
    rfl

/-- The operation on two integers is that on both in their common type. -/
theorem arithmetic_eq (hm : m.types.Stocked) (op : ArithmeticOperator) :
    let t := v.type.common w.type
    ∃ id ts, ts.Stocked ∧ m.types.Grows ts ∧ ts.types[id]? = some t.info ∧ arithmetic op.opcode x y m =
      if op.divides ∧ t.wrap w.number = 0 then .error (.raised ⟨.divisionByZero, m.trace⟩) (m.retyped ts)
      else .ok (.value id (.ofInt (t.wrap (op.compute (t.wrap v.number) (t.wrap w.number))))) (m.retyped ts) := by
  intro t
  obtain ⟨⟨id, a, b⟩, ts, hp, hs, hg, hi, ha, hb⟩ := promote_computes hx hy hm
  have hc := compute_eq (m := m.retyped ts) hi ha hb op
  refine ⟨id, ts, hs, hg, hi, (bind_ok hp).trans ?_⟩
  split_ifs with h0
  · rw [if_pos h0] at hc
    simp only [bind, EStateM.bind, hc]
    rfl
  · rw [if_neg h0] at hc
    exact bind_ok hc

theorem arithmetic_yields (hm : m.types.Stocked) (op : ArithmeticOperator) :
    Yields (arithmetic op.opcode x y) m ((BinaryOperator.arithmetic op).result v w)
    (fun v x ts => x.Represents ts v) := by
  obtain ⟨id, ts, hs, hg, hi, he⟩ := arithmetic_eq hx hy hm op
  rw [BinaryOperator.result]
  split_ifs with h0
  · rw [if_pos h0] at he
    exact ⟨_, _, he, rfl, rfl⟩
  · rw [if_neg h0] at he
    exact ⟨_, ts, he, hs, hg, rfl, hi⟩

theorem ordering_computes (hm : m.types.Stocked) :
    Computes (ordering? x y) m (fun o _ => o = some (compareOfLessAndEq v.number w.number)) := by
  refine .bind (promote_computes hx hy hm) fun p ts hs hg hp => ?_
  obtain ⟨id, a, b⟩ := p
  obtain ⟨hi, ha, hb⟩ := hp
  have hf : (v.type.common w.type).info.kind.isFloat = false := by
    show (v.type.common w.type).width.kind.isFloat = false
    cases (v.type.common w.type).width <;> rfl
  refine .after (typeInfo_of (m := m.retyped ts) hi) ?_
  rw [hf, if_neg Bool.false_ne_true]
  refine .after (isNegative_eq (m := m.retyped ts) (hx.mono hg)) ?_
  refine .after (isNegative_eq (m := m.retyped ts) (hy.mono hg)) ?_
  have same (h : v.number < 0 ↔ w.number < 0) : Computes (do
      return some (Integer.compare (v.type.common w.type).info.isSignedInteger (← bits a) (← bits b)))
      (m.retyped ts) (fun o _ => o = some (compareOfLessAndEq v.number w.number)) := by
    have hv := IntegerValue.wrap_common_of_sign h
    have hw := IntegerValue.wrap_common_of_sign h.symm
    rw [IntegerType.common_comm] at hw
    have hc := compare_ofInt hv hw
    refine .after (bits_eq (m := m.retyped ts) ha.shows)
      (.after (bits_eq (m := m.retyped ts) hb.shows) (.pure hs ?_))
    rw [IntegerType.isSignedInteger_info, IntegerValue.word_cut, IntegerValue.word_cut, hv, hw, hc]
  by_cases hv : v.number < 0 <;> by_cases hw : w.number < 0
  · rw [decide_eq_true hv, decide_eq_true hw]
    exact same (iff_of_true hv hw)
  · rw [decide_eq_true hv, decide_eq_false hw]
    exact .pure hs (congrArg some (if_pos (show v.number < w.number by omega)).symm)
  · rw [decide_eq_false hv, decide_eq_true hw]
    refine .pure hs (congrArg some ?_)
    rw [compareOfLessAndEq, if_neg (by omega), if_neg (by omega)]
  · rw [decide_eq_false hv, decide_eq_false hw]
    exact same (iff_of_false hv hw)

omit hx hy in
theorem boolValue_computes (hm : m.types.Stocked) (b : Bool) :
    Computes (boolValue b) m (fun x ts => x.Represents ts (.truth b)) := by
  have hi : m.types.types[int8]? = some (plainInfo .int8 {}) := hm.primitive rfl
  have hu := hm.unsign (by simp) hi
  refine .bind (.withTypes hu) fun id ts hs _ hi => .pure hs ⟨?_, hi⟩
  cases b <;> rfl

end Exec

def BinaryOperator.opcode : BinaryOperator → Opcode
  | arithmetic op => op.opcode
  | comparison op => op.opcode
  | both => .logicalAnd
  | either => .logicalOr
  | elvis => .elvis

def BinaryOperator.action : BinaryOperator → Operator.Action
  | arithmetic _ => .arithmetic
  | comparison _ => .compare
  | both | either => .logical
  | elvis => .elvis

def UnaryOperator.opcode : UnaryOperator → Opcode
  | plus => .arithPlus
  | minus => .arithNegate
  | logicalNot => .logicNegate
  | complement => .binaryNegate

def UnaryOperator.action : UnaryOperator → Operator.Action
  | plus | minus => .sign
  | logicalNot => .logicNot
  | complement => .bitNot

/-! ## Dispatch -/

namespace Operator

omit hx in
/-- The first rule for an operator counts if its operands fit. -/
theorem action?_of_rule {op : Opcode} {stack : List Variable} {rule : Rule}
    (h : rules.find? (·.ops.contains op) = some rule) (hf : fitAll ts rule.operands.reverse stack = true) :
    action? ts op stack = some rule.action := by
  obtain ⟨hr, before, after, hl, hb⟩ := List.find?_eq_some_iff_append.mp h
  have : rules.find? (fun r => r.ops.contains op && fitAll ts r.operands.reverse stack) = some rule := by
    refine List.find?_eq_some_iff_append.mpr ⟨by rw [hr, hf]; rfl, before, after, hl, fun r hm => ?_⟩
    rw [Bool.not_and, hb r hm, Bool.true_or]
  rw [action?, this]
  rfl

theorem fits_integer {p : Pattern} (hp : p = .integer ∨ p = .number ∨ p = .any) :
    fits m.types (val p) x = true := by
  rw [fits, hx.kind]
  obtain rfl | rfl | rfl := hp <;> cases v.type.width <;> rfl

theorem action?_binary (hy : m.Shows y w) (op : BinaryOperator) (stack : List Variable) :
    action? m.types op.opcode (y :: x :: stack) = some op.action := by
  have fit {p : Pattern} (hp : p = .integer ∨ p = .number ∨ p = .any) :
      fitAll m.types [val p, val p] (y :: x :: stack) = true := by
    rw [fitAll, fits_integer hy hp, fitAll, fits_integer hx hp]
    rfl
  have rule {op : Opcode} {ops : List Opcode} {p : Pattern} {action : Operator.Action}
      (h : rules.find? (·.ops.contains op) = some ⟨ops, [val p, val p], action⟩)
      (hp : p = .integer ∨ p = .number ∨ p = .any) : action? m.types op (y :: x :: stack) = some action :=
    action?_of_rule h (fit hp)
  cases op with
  | arithmetic op =>
    cases op with
    | shiftLeft | shiftRight | bitAnd | bitXor | bitOr => exact rule rfl (.inl rfl)
    | multiply | divide | remainder | add | subtract => exact rule rfl (.inr (.inl rfl))
  | comparison op =>
    cases op with
    | less | greater | lessEqual | greaterEqual => exact rule rfl (.inr (.inl rfl))
    | equal | notEqual => exact rule rfl (.inr (.inr rfl))
  | both | either | elvis => exact rule rfl (.inr (.inr rfl))

theorem action?_unary (op : UnaryOperator) (stack : List Variable) :
    action? m.types op.opcode (x :: stack) = some op.action := by
  have rule {op : Opcode} {ops : List Opcode} {p : Pattern} {action : Operator.Action}
      (h : rules.find? (·.ops.contains op) = some ⟨ops, [val p], action⟩)
      (hp : p = .integer ∨ p = .number ∨ p = .any) : action? m.types op (x :: stack) = some action := by
    refine action?_of_rule h ?_
    show fitAll m.types [val p] (x :: stack) = true
    rw [fitAll, fits_integer hx hp]
    rfl
  cases op with
  | plus | minus => exact rule rfl (.inr (.inl rfl))
  | logicalNot => exact rule rfl (.inr (.inr rfl))
  | complement => exact rule rfl (.inl rfl)

end Operator

end

/-! ## Applying operators -/

section
variable {x y : Variable} {v w : IntegerValue} {m : Machine} (hx : x.Represents m.types v)
include hx

namespace Interp

open Exec

theorem binary_yields (hy : y.Represents m.types w) (hm : m.types.Stocked) (op : BinaryOperator) :
    Yields (binary op.opcode op.action x y) m (op.result v w) (fun v x ts => x.Represents ts v) := by
  cases op with
  | arithmetic op => exact arithmetic_yields hx.shows hy.shows hm op
  | comparison op =>
    refine .bind (ordering_computes hx.shows hy.shows hm) fun o ts hs hg ho => ?_
    rw [ho, show (BinaryOperator.comparison op).opcode = op.opcode from rfl, holds_compare]
    exact boolValue_computes (m := m.retyped ts) hs _
  | both => exact .after (truthy_eq hx.shows) (.after (truthy_eq hy.shows) (boolValue_computes hm _))
  | either => exact .after (truthy_eq hx.shows) (.after (truthy_eq hy.shows) (boolValue_computes hm _))
  | elvis =>
    refine .after (truthy_eq hx.shows) ?_
    cases v.isTrue with
    | true => exact .pure hm hx
    | false => exact .pure hm hy

theorem mapBits_computes (hm : m.types.Stocked) {f : Kind → UInt64 → UInt64} {z : Int}
    (hf : f v.type.width.kind v.word = .ofInt z) :
    Computes (mapBits f x) m (fun x ts => x.Represents ts (.cut v.type z)) := by
  have hmut : withTypes (·.mutableOf x.type) m = .ok x.type m := by
    show EStateM.Result.ok (m.types.mutableOf x.type).1 (m.retyped (m.types.mutableOf x.type).2) = _
    rw [mutableOf, get_eq hx.type]
    rfl
  refine .after hmut (.after (typeInfo_of hx.type) (.after (bits_eq hx.shows) (.pure hm ?_)))
  rw [show f v.type.info.kind v.word = .ofInt z from hf]
  exact .of_cut hx.type z

theorem unary_yields (hm : m.types.Stocked) (i : Interp) (op : UnaryOperator) (r : Reader) :
    Computes (i.unary op.opcode op.action x r) m (fun p ts => p.2 = r ∧ p.1.Represents ts (op.result v)) := by
  have lift {c : Exec Variable} {u : IntegerValue} (h : Computes c m (fun x ts => x.Represents ts u)) :
      Computes ((c : Run Variable) r) m (fun p ts => p.2 = r ∧ p.1.Represents ts u) :=
    .bind h fun a ts hs _ ha => .pure hs ⟨rfl, ha⟩
  cases op with
  | plus =>
    have h := mapBits_computes hx hm (f := fun kind bits =>
      if Opcode.arithPlus = .arithPlus then bits else negated kind bits)
      (z := v.number) (if_pos rfl)
    rw [v.cut_number] at h
    exact lift h
  | minus =>
    have hn : negated v.type.width.kind v.word = .ofInt (-v.number) := by
      have : negated v.type.width.kind v.word = 0 - v.word := by cases v.type.width <;> rfl
      exact this.trans (neg_ofInt v.number)
    exact lift (mapBits_computes hx hm ((if_neg nofun).trans hn))
  | logicalNot =>
    have ht : (truthy x : Run Bool) r m = .ok (v.isTrue, r) m := bind_ok (truthy_eq hx.shows)
    exact .after ht (lift (boolValue_computes hm (!v.isTrue)))
  | complement => exact lift (mapBits_computes hx hm (not_ofInt v.number))

theorem applyUnary_computes (hm : m.types.Stocked) (i : Interp) (op : UnaryOperator)
    (stack : List Variable) (r : Reader) :
    Computes (i.applyOperator op.opcode (x :: stack) r) m
      (fun p ts => p.2 = r ∧ ∃ x', p.1 = x' :: stack ∧ x'.Represents ts (op.result v)) := by
  have hs : op.opcode.shape? ≠ some .between := by cases op <;> nofun
  have h : i.applyOperator op.opcode (x :: stack) r m =
      (do return (← i.unary op.opcode op.action x) :: stack : Run (List Variable)) r m := by
    refine Run.machine_bind.trans ?_
    rw [Operator.action?_unary hx.shows op stack]
    dsimp only
    rw [if_neg hs]
  refine Computes.of_eq h (.bind (unary_yields hx hm i op r) fun p ts hs _ hp => ?_)
  obtain ⟨x', r'⟩ := p
  obtain ⟨rfl, hx'⟩ := hp
  exact .pure hs ⟨rfl, x', rfl, hx'⟩

theorem applyBinary_yields (hy : y.Represents m.types w) (hm : m.types.Stocked) (i : Interp) (op : BinaryOperator)
    (stack : List Variable) (r : Reader) :
    Yields (i.applyOperator op.opcode (y :: x :: stack) r) m (op.result v w)
      (fun u p ts => p.2 = r ∧ ∃ x', p.1 = x' :: stack ∧ x'.Represents ts u) := by
  have hs : op.opcode.shape? = some .between := by
    cases op with
    | arithmetic op => cases op <;> rfl
    | comparison op => cases op <;> rfl
    | both | either | elvis => rfl
  have hc : op.action ≠ .compound := by cases op <;> nofun
  have hb := binary_yields hx hy hm op
  have h : i.applyOperator op.opcode (y :: x :: stack) r m =
      (do return ((← binary op.opcode op.action x y) :: stack, r) : Exec (List Variable × Reader)) m := by
    refine Run.machine_bind.trans ?_
    rw [Operator.action?_binary hx.shows hy.shows op stack]
    dsimp only
    rw [if_pos hs, if_neg hc, Run.lift_bind]
    rfl
  cases hr : op.result v w with
  | none =>
    rw [hr] at hb
    exact .of_eq h (.bind hb)
  | some u =>
    rw [hr] at hb
    exact .of_eq h (.bind hb fun x' ts hs _ hx' => .pure hs ⟨rfl, x', rfl, hx'⟩)

end Interp

end

end LevelScript
