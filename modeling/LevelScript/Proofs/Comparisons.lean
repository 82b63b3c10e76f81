import LevelScript.Proofs.IntegerArithmetic

/-!
# Comparisons of integers

Two integers compare as the numbers that they are, also where their common type does not hold both. So the
comparisons put the values of all eight types in one order.
-/

namespace LevelScript

open TypeTable Exec

/-- A comparison of two variables gives one, whatever else is on the stack. -/
def Machine.Finds (m : Machine) (op : Comparison) (x y : Variable) : Prop :=
  ∀ (i : Interp) (stack : List Variable) (r : Reader), ∃ id ts,
    i.applyOperator op.opcode (y :: x :: stack) r m = .ok (.value id 1 :: stack, r) (m.retyped ts)

section
variable {m : Machine} {x y z : Variable} {v w u : IntegerValue}

theorem Exec.boolValue_eq (hm : m.types.Stocked) (b : Bool) : ∃ id ts, ts.Stocked ∧ m.types.Grows ts ∧
    ts.types[id]? = some (IntegerType.info ⟨.w8, true⟩) ∧
    boolValue b m = .ok (.value id (if b then 1 else 0)) (m.retyped ts) := by
  have hi : m.types.types[int8]? = some (plainInfo .int8 {}) := hm.primitive rfl
  have hu := hm.unsign (by simp) hi
  refine ⟨_, _, hu.stocked, hu.grows, hu.found, ?_⟩
  cases b <;> rfl

namespace Interp

theorem applyOperator_comparison (hm : m.types.Stocked) (hx : m.Shows x v) (hy : m.Shows y w) (op : Comparison)
    (i : Interp) (stack : List Variable) (r : Reader) :
    ∃ id ts, ts.Stocked ∧ m.types.Grows ts ∧ ts.types[id]? = some (IntegerType.info ⟨.w8, true⟩) ∧
      i.applyOperator op.opcode (y :: x :: stack) r m =
        .ok (.value id (if op.holds v.number w.number then 1 else 0) :: stack, r) (m.retyped ts) := by
  have ha : Operator.action? m.types op.opcode (y :: x :: stack) = some .compare :=
    Operator.action?_binary hx hy (.comparison op) stack
  have hs : op.opcode.shape? = some .between := by cases op <;> rfl
  obtain ⟨_, ts, hordering, hm', hg, rfl⟩ := ordering_computes hx hy hm
  obtain ⟨id, ts', hm'', hg', hi, hbool⟩ := boolValue_eq (m := m.retyped ts) hm' (op.holds v.number w.number)
  have hb : binary op.opcode .compare x y m =
      .ok (.value id (if op.holds v.number w.number then 1 else 0)) (m.retyped ts') := by
    refine (bind_ok hordering).trans ?_
    rw [holds_compare]
    exact hbool
  refine ⟨id, ts', hm'', hg.trans hg', hi, ?_⟩
  rw [applyOperator_between ha hs, if_neg nofun]
  exact bind_ok hb

theorem finds_iff (hm : m.types.Stocked) (hx : m.Shows x v) (hy : m.Shows y w) (op : Comparison) :
    m.Finds op x y ↔ op.holds v.number w.number := by
  refine ⟨fun h => ?_, fun h i stack r => ?_⟩
  · obtain ⟨id, ts, -, -, -, he⟩ := applyOperator_comparison hm hx hy op (.ofFuel 0) [] default
    obtain ⟨id', ts', he'⟩ := h (.ofFuel 0) [] default
    by_contra hn
    rw [he, if_neg hn] at he'
    cases he'
  · obtain ⟨id, ts, -, -, -, he⟩ := applyOperator_comparison hm hx hy op i stack r
    rw [if_pos h] at he
    exact ⟨id, ts, he⟩

/-- Integers of any types compare as numbers: the answer is a `u8`, one just if the numbers stand in the
relation, and nothing but the types changes. So the order that the comparisons find is total, antisymmetric and
transitive, whatever the types of the operands and the common types of each two of them. -/
theorem applyOperator_orders (hm : m.types.Stocked) (hx : m.Shows x v) (hy : m.Shows y w) (hz : m.Shows z u) :
    (∀ (op : Comparison) (i : Interp) (stack : List Variable) (r : Reader),
      ∃ id ts, m.types.Grows ts ∧ ts.types[id]? = some (IntegerType.info ⟨.w8, true⟩) ∧
        i.applyOperator op.opcode (y :: x :: stack) r m =
          .ok (.value id (if op.holds v.number w.number then 1 else 0) :: stack, r) (m.retyped ts)) ∧
    (m.Finds .lessEqual x y ∨ m.Finds .lessEqual y x) ∧
    (m.Finds .lessEqual x y ∧ m.Finds .lessEqual y x ↔ m.Finds .equal x y) ∧
    (m.Finds .lessEqual x y → m.Finds .lessEqual y z → m.Finds .lessEqual x z) := by
  have holds (a b : Int) : (Comparison.holds .lessEqual a b = true ↔ a ≤ b) ∧
      (Comparison.holds .equal a b = true ↔ a = b) :=
    ⟨decide_eq_true_iff, decide_eq_true_iff⟩
  refine ⟨fun op i stack r => ?_, ?_, ?_, ?_⟩
  · obtain ⟨id, ts, -, h⟩ := applyOperator_comparison hm hx hy op i stack r
    exact ⟨id, ts, h⟩
  · rw [finds_iff hm hx hy, finds_iff hm hy hx, (holds ..).1, (holds ..).1]
    exact Int.le_total ..
  · rw [finds_iff hm hx hy, finds_iff hm hy hx, finds_iff hm hx hy, (holds ..).1, (holds ..).1, (holds ..).2]
    exact Int.le_antisymm_iff.symm
  · rw [finds_iff hm hx hy, finds_iff hm hy hz, finds_iff hm hx hz, (holds ..).1, (holds ..).1, (holds ..).1]
    exact Int.le_trans

/-- Their common type takes `-1` and the greatest `u64` for one number. -/
theorem applyOperator_orders_minusOne :
    let m : Machine := { types := (initial.unsign int64).2 }
    let x := Variable.value int32 (.ofInt (-1))
    let y := Variable.value (initial.unsign int64).1 (.ofInt 18446744073709551615)
    m.types.Stocked ∧ m.Shows x (.cut ⟨.w32, false⟩ (-1)) ∧ m.Shows y (.cut ⟨.w64, true⟩ 18446744073709551615) ∧
      m.Finds .less x y ∧ m.Finds .notEqual x y := by
  intro m x y
  have hint64 : initial.types[int64]? = some (plainInfo .int64 {}) := stocked_initial.primitive rfl
  have hunsign := stocked_initial.unsign (by simp) hint64
  have hint32 : m.types.types[int32]? = some (IntegerType.infoWith ⟨.w32, false⟩ false) :=
    hunsign.stocked.primitive (show primitiveKinds.idxOf? .int32 = some int32 from rfl)
  have hx : m.Shows x (.cut ⟨.w32, false⟩ (-1)) :=
    ⟨⟨false, hint32⟩, (IntegerValue.cut ⟨.w32, false⟩ (-1)).extend_word⟩
  have hy : m.Shows y (.cut ⟨.w64, true⟩ 18446744073709551615) :=
    ⟨⟨false, hunsign.found⟩, (IntegerValue.cut ⟨.w64, true⟩ 18446744073709551615).extend_word⟩
  have horder := (applyOperator_orders hunsign.stocked hx hy hx).1
  refine ⟨hunsign.stocked, hx, hy, fun i stack r => ?_, fun i stack r => ?_⟩
  · obtain ⟨id, ts, -, -, he⟩ := horder .less i stack r
    exact ⟨id, ts, he⟩
  · obtain ⟨id, ts, -, -, he⟩ := horder .notEqual i stack r
    exact ⟨id, ts, he⟩

end Interp

/-! ## A struct that cannot be resolved -/

namespace TypeTable

/-- A struct whose only field is an inline number is rejected when it is resolved. -/
theorem Sane.resolve_inlined {ts : TypeTable} (hsane : ts.Sane) (hlaid : ts.Laid) {id : TypeId}
    {s : TypeInfo} {f : Field}
    (hs : ts.types[id]? = some s) (hk : s.kind = .struct) (hshape : s.shape = .struct [f])
    (ho : s.flags.closed = false) (hp : s.containsParent = false) {n : UInt64} (hi : f.inlined = some n)
    (hf : ts.types[f.type]? = some (plainInfo .int64 {}))
    (lookup : Lookup) : ts.resolve lookup id = (.error (.inlineNotComposite f.name), ts) := by
  have hne : f.type ≠ id := by
    rintro rfl
    rw [hf] at hs
    cases hs
    cases hk
  have hregister : ts.register (ts.withLayout s) = (id, ts) := by
    rw [hlaid id s hs ho]
    exact register_found (hsane.listed hs ho)
  have hidx : [id].idxOf? f.type = none := List.idxOf?_eq_none_iff.mpr (by simpa using hne)
  have hfield (k : Nat) : resolveInner lookup (k + 1) [id] f.type ts = (.ok f.type, ts) := by
    rw [resolveInner_visit hidx (by rw [get_eq hf]; rfl), visit, get_eq hf]
    rfl
  have hinner (k : Nat) : resolveInner lookup (k + 2) [] id ts = (.ok id, ts) := by
    rw [resolveInner_visit rfl (by rw [get_eq hs, ho]), visit, get_eq hs, hshape]
    show andThen (andThen (resolveAll _ Field.type setFieldType [f] ts) _) _ = _
    rw [resolveAll_cons, hfield]
    show answered (ts.register (ts.withLayout { s with shape := .struct [f] })) = _
    rw [← hshape, hregister]
    rfl
  -- Resolving changes nothing, but the check for inline fields refuses the integer.
  have hvalid (k : Nat) : ts.validate (k + 1) [] id = .error (.inlineNotComposite f.name) := by
    have hkind : ts.kind f.type = .int64 := by
      rw [TypeTable.kind, get_eq hf]
      rfl
    rw [validate, get_eq hs, hk, TypeInfo.fields, hshape]
    show ts.validateFields [id] _ [f] = _
    have hpath : ([id].contains f.type || Kind.int64 == .parent) = false := by simpa using hne
    rw [validateFields, hi, if_pos (by rfl), hkind]
    dsimp only
    rw [hpath]
    rfl
  unfold resolve
  simp only [hinner, hvalid, get_eq hs, hp, if_neg Bool.false_ne_true]

end TypeTable

theorem Exec.resolveType_rejected {id : TypeId} {e : TypeError} {ts : TypeTable}
    (h : ∀ lookup, (m.types.constant TypeTable.type).2.resolve lookup id = (.error e, ts)) :
    ∃ failure, resolveType id m = .error (.raised failure) (m.retyped ts) := by
  let m' := m.retyped (m.types.constant TypeTable.type).2
  have hconstant : withTypes (·.constant TypeTable.type) m = .ok (m.types.constant TypeTable.type).1 m' := rfl
  have hresolve (lookup : Lookup) : withTypes (·.resolve lookup id) m' = .ok (.error e) (m.retyped ts) := by
    show EStateM.Result.ok (m'.types.resolve lookup id).1 (m'.retyped (m'.types.resolve lookup id).2) = _
    rw [show m'.types.resolve lookup id = _ from h lookup]
    rfl
  exact ⟨_, (bind_ok hconstant).trans ((bind_ok (s := m') rfl).trans ((bind_ok (hresolve _)).trans rfl))⟩

namespace Interp

/-- An inline number at an offset that makes the hash of its struct that of `u32`. -/
def inlinedInHash : Field :=
  { name := some 11, type := int64, inlined := some 1, place := .absolute 2802948066122079578 }

/-- Whether a `u8` is greater than an `s32` is found neither way. -/
theorem comparison_unresolved : Later initial (declaredTypes inlinedInHash) ∧
    let m : Machine := { types := declaredTypes inlinedInHash }
    let x := Variable.value 10 0
    let y := Variable.value int32 (.ofInt (-1))
    m.Shows x (.cut ⟨.w8, true⟩ 0) ∧ m.Shows y (.cut ⟨.w32, false⟩ (-1)) ∧
      ∀ (i : Interp) (r : Reader), ∃ e m', i.applyOperator .greater [y, x] r m = .error (.raised e) m' := by
  have hint64 : initial.types[int64]? = some (plainInfo .int64 {}) := stocked_initial.primitive rfl
  have hlater : Later initial (declaredTypes inlinedInHash) := declaredTypes_later (lt_of_lookup hint64)
  have hkeeps := hlater.keeps sane_initial
  let t := initial.withLayout { kind := .struct, shape := .struct [inlinedInHash] }
  have hh : t.computeHash = (plainInfo .int32 { unsigned := true }).hash := by decide +kernel
  have hjoined : (initial.joined t).containsParent = false := by
    show ((initial.get int64).containsParent || false) = false
    rw [get_eq hint64]
    rfl
  obtain ⟨hg, h9, h10⟩ := declaredTypes_eq (f := inlinedInHash) (t := t) rfl hh
  refine ⟨hlater, ?_⟩
  intro m x y
  have hint32 : m.types.types[int32]? = some (plainInfo .int32 {}) :=
    hg _ _ (stocked_initial.primitive (show primitiveKinds.idxOf? .int32 = some int32 from rfl))
  have hx : m.Shows x (.cut ⟨.w8, true⟩ 0) := ⟨⟨false, h10⟩, (IntegerValue.cut ⟨.w8, true⟩ 0).extend_word⟩
  have hy : m.Shows y (.cut ⟨.w32, false⟩ (-1)) :=
    ⟨⟨false, hint32⟩, (IntegerValue.cut ⟨.w32, false⟩ (-1)).extend_word⟩
  refine ⟨hx, hy, fun i r => ?_⟩
  have hcommon : commonType x y m = .ok 9 m := commonType_misled hkeeps.sane hg h9 rfl hh h10
  obtain ⟨e, m', hcast⟩ : ∃ e m', cast 9 x m = .error (.raised e) m' := by
    have htype : initial.types[TypeTable.type]? = some (plainInfo .type {}) :=
      stocked_initial.primitive (show primitiveKinds.idxOf? .type = some TypeTable.type from rfl)
    have hconst : TypeTable.Keeps (declaredTypes inlinedInHash)
        ((TypeOp.constant TypeTable.type).run (declaredTypes inlinedInHash)).2 :=
      TypeOp.run_keeps hkeeps.sane (lt_of_lookup (hg _ _ htype))
    have hresolve (lookup : Lookup) := hconst.sane.resolve_inlined (hconst.laid (hkeeps.laid laid_initial))
      (hconst.grows _ _ h9) rfl rfl rfl hjoined rfl (hconst.grows _ _ (hg _ _ hint64)) lookup
    obtain ⟨e, he⟩ := resolveType_rejected (m := m) hresolve
    exact ⟨e, _, bind_of_error he⟩
  have ha : Operator.action? m.types .greater [y, x] = some .compare :=
    Operator.action?_binary hx hy (.comparison .greater) []
  have hb : binary .greater .compare x y m = .error (.raised e) m' :=
    bind_of_error (bind_of_error ((bind_ok hcommon).trans (bind_of_error hcast)))
  refine ⟨e, m', ?_⟩
  rw [applyOperator_between ha rfl, if_neg nofun]
  exact bind_of_error hb

end Interp

end

end LevelScript
