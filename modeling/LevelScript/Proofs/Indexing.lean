import LevelScript.Proofs.IntegerArithmetic
import LevelScript.Proofs.Release
import LevelScript.Proofs.TypeSizes

/-!
# Elements behind a pointer

An element behind a pointer can be reached by its index, or by an offset added to the pointer. An index counts
in values of the type that is pointed at, an offset in the size of that type, and in bytes where it is `void`.
-/

namespace LevelScript

open TypeTable Exec

/-- The variable is a pointer to `base` with an address, by itself or at a valid address. -/
structure Machine.Points (m : Machine) (p : Variable) (base : TypeId) (addr : UInt64) : Prop where
  type : ∃ t, m.types.types[p.type]? = some t ∧ t.kind = .pointer ∧ t.shape = .pointer base
  word : match p.storage with
    | .value bits => bits = addr
    | .location place => Memory.isValid place ∧ m.memory.read place 8 = addr

section
variable {m : Machine} {p x : Variable} {n : IntegerValue} {base : TypeId} {addr : UInt64}

theorem extend_pointer {t : TypeInfo} (hk : t.kind = .pointer) (bits : UInt64) : extend t bits = bits := by
  rw [extend, TypeInfo.valueSize, hk]
  rfl

namespace Machine.Points

theorem moved (h : m.Points p base addr) (bits : UInt64) : m.Points (.value p.type bits) base bits := ⟨h.type, rfl⟩

variable (h : m.Points p base addr)
include h

theorem kind : m.types.kind p.type = .pointer := by
  obtain ⟨t, ht, hk, -⟩ := h.type
  rw [TypeTable.kind, get_eq ht, hk]

theorem base? : (m.types.get p.type).base? = some base := by
  obtain ⟨t, ht, -, hs⟩ := h.type
  rw [get_eq ht, TypeInfo.base?, hs]

theorem bits_eq : bits p m = .ok addr m := by
  obtain ⟨t, ht, hk, -⟩ := h.type
  have hw := h.word
  rw [bits, bind_ok (typeInfo_of ht)]
  cases hs : p.storage with
  | value word =>
    rw [hs] at hw
    exact congrArg (EStateM.Result.ok · m) ((extend_pointer hk word).trans hw)
  | location place =>
    rw [hs] at hw
    have hsize : t.valueSize = 8 := by rw [TypeInfo.valueSize, hk]; rfl
    have hpeek : peek place t.valueSize m = .ok addr m := by
      rw [peek, if_pos (by rw [Machine.canAccess, Bool.or_eq_true]; exact .inr hw.1), hsize, ← hw.2]
      rfl
    exact (bind_ok hpeek).trans (congrArg (EStateM.Result.ok · m) (extend_pointer hk addr))

end Machine.Points

namespace Exec

/-- Whatever address it is, there is a variable of the type that is pointed at. It can be assigned to and has
that address unless its type is constant. -/
theorem elementAt_eq (h : (m.types.get p.type).base? = some base) (addr : UInt64) :
    ∃ v m', elementAt p.type addr m = .ok v m' ∧ v.type = base ∧ v.isLvalue = !(m.types.get base).isConst ∧
      ((m.types.get base).isConst = false → v = .atAddress base addr) := by
  have hbase : ((m.types.get p.type).base?).getD TypeTable.void = base := by rw [h]; rfl
  obtain ⟨f, hpeek⟩ := peek_peeks addr (m.types.get base).valueSize
  obtain ⟨fault, hpeek⟩ := hpeek m
  let m' : Machine := { m with pending := fault }
  have helement : elementAt p.type addr m =
      (if (m.types.get base).isConst then toValue (.atAddress base addr)
        else return .atAddress base addr : Exec Variable) m' := by
    refine (bind_ok rfl).trans ?_
    rw [hbase]
    exact (bind_ok rfl).trans (bind_ok (bind_ok hpeek))
  rw [helement]
  cases (m.types.get base).isConst with
  | false => exact ⟨_, m', rfl, rfl, rfl, fun _ => rfl⟩
  | true =>
    obtain ⟨f, hbits⟩ := bits_peeks (.atAddress base addr)
    obtain ⟨fault, hbits⟩ := hbits m'
    exact ⟨_, _, bind_ok hbits, rfl, rfl, nofun⟩

end Exec

/-! ## The operators -/

namespace Interp

theorem applyOperator_alone {i : Interp} {op : Opcode} {action : Operator.Action}
    {stack : List Variable} {r : Reader} (ha : Operator.action? m.types op (p :: stack) = some action)
    (hs : op.shape? ≠ some .between) :
    i.applyOperator op
    (p :: stack) r m = (do return (← i.unary op action p) :: stack : Run (List Variable)) r m := by
  refine Run.machine_bind.trans ?_
  rw [ha]
  dsimp only
  rw [if_neg hs]

theorem action?_pointer (op : Opcode) {rule : Operator.Rule} (hk : m.types.kind p.type = .pointer)
    (hr : Operator.rules.find? (·.ops.contains op) = some rule) (ho : rule.operands = [Operator.val .pointer])
    (stack : List Variable) : Operator.action? m.types op (p :: stack) = some rule.action := by
  refine Operator.action?_of_rule hr ?_
  rw [ho]
  show Operator.fitAll m.types [Operator.val .pointer] (p :: stack) = true
  rw [Operator.fitAll, Operator.fits, hk]
  rfl

/-- An integer moves a pointer, since a pointer is no number. -/
theorem action?_moves (hp : m.Points p base addr) (hx : m.Shows x n) (stack : List Variable) :
    Operator.action? m.types .addition (x :: p :: stack) = some .pointerOffset := by
  open Operator in
  have hnumber : fitAll m.types [val .number, val .number] (x :: p :: stack) = false := by
    rw [fitAll, fits_integer hx (.inr (.inl rfl)), fitAll, fits, hp.kind]
    rfl
  have hpointer : fitAll m.types [val .integer, val .pointer] (x :: p :: stack) = true := by
    rw [fitAll, fits_integer hx (.inl rfl), fitAll, fits, hp.kind]
    rfl
  rw [action?, rules, List.find?_cons_of_neg, List.find?_cons_of_pos]
  · rfl
  · exact congrArg (true && ·) hpointer
  · exact Bool.eq_false_iff.mp (congrArg (true && ·) hnumber)

theorem addition_eq (hp : m.Points p base addr) (hx : m.Shows x n) (i : Interp) (stack : List Variable)
    (r : Reader) :
    i.applyOperator .addition (x :: p :: stack) r m =
      .ok (.value p.type (addr + n.word * stride m.types p.type) :: stack, r) m := by
  have hoffset : pointerOffset .addition p x m = .ok (.value p.type (addr + n.word * stride m.types p.type)) m := by
    have hkind : kindOf p m = .ok .pointer m := by
      rw [← hp.kind]
      rfl
    refine (bind_ok hkind).trans ?_
    rw [if_pos rfl]
    exact (bind_ok (bits_eq hx)).trans ((bind_ok rfl).trans (bind_ok hp.bits_eq))
  rw [applyOperator_between (action?_moves hp hx stack) rfl, if_neg nofun]
  exact bind_ok hoffset

theorem dereference_eq (hp : m.Points p base addr) (h0 : addr ≠ 0) (i : Interp) (stack : List Variable)
    (r : Reader) :
    i.applyOperator .dereference (p :: stack) r m =
      (do return ((← elementAt p.type addr) :: stack, r) : Exec (List Variable × Reader)) m := by
  rw [applyOperator_alone (action?_pointer .dereference hp.kind rfl rfl stack) nofun]
  have hd : dereference p m = elementAt p.type addr m := by
    refine (bind_ok hp.bits_eq).trans ?_
    rw [if_neg h0]
  show ((liftM (dereference p) : Run Variable) >>= fun v => pure (v :: stack)) r m = _
  rw [Run.lift_bind]
  simp only [bind, EStateM.bind, hd]
  rfl

theorem index_eq {i : Interp} {r r' : Reader} {m' : Machine} (hk : m.types.kind p.type = .pointer)
    (hi : i.value r m = .ok (x, r') m') (hp : m'.Points p base addr) (hx : m'.Shows x n) (h0 : addr ≠ 0)
    (stack : List Variable) :
    i.applyOperator .index (p :: stack) r m =
      (do return ((← elementAt p.type (addr + n.word * (m'.types.get base).valueSize.toUInt64)) :: stack, r') :
        Exec (List Variable × Reader)) m' := by
  rw [applyOperator_alone (action?_pointer .index hk rfl rfl stack) nofun]
  have hcheck : checkIndex x m' = .ok () m' := by
    refine (bind_ok (kindOf_eq hx)).trans ?_
    rw [IntegerType.isInteger_kind]
    rfl
  have hpointer : i.indexPointer p r m =
      (do
        return ((← elementAt p.type (addr + n.word * (m'.types.get base).valueSize.toUInt64)), r') :
          Exec (Variable × Reader)) m' := by
    refine (bind_ok hi).trans ?_
    dsimp only
    rw [Run.lift_bind]
    refine (bind_ok hcheck).trans ?_
    rw [Run.lift_bind]
    refine (bind_ok hp.bits_eq).trans ?_
    rw [if_neg h0]
    refine Run.machine_bind.trans ?_
    rw [Run.lift_bind]
    refine (bind_ok (bits_eq hx)).trans ?_
    rw [hp.base?]
    rfl
  show (i.indexPointer p r >>= fun v : Variable × Reader =>
    (pure (v.1 :: stack, v.2) : Exec (List Variable × Reader))) m = _
  simp only [bind, EStateM.bind, hpointer]
  cases elementAt p.type (addr + n.word * (m'.types.get base).valueSize.toUInt64) m' <;> rfl

/-- Both operators come to the variable at an address, of the type that is pointed at and able to be assigned
to unless that is constant. For a pointer to anything but structs, `void` and references to enclosing types it
is one address for every integer. For `void` it is one address for zero alone, since an index does not move in
it. For a struct it is one if the integer counts the same in addresses, which are the values of structs, and in
structs. -/
theorem index_addition {i : Interp} {r r' : Reader} {m' : Machine} (hl : Later initial m'.types)
    (hk : m.types.kind p.type = .pointer) (hi : i.value r m = .ok (x, r') m') (hp : m'.Points p base addr)
    (hx : m'.Shows x n) (h0 : addr ≠ 0) (stack : List Variable) :
    let element := addr + n.word * (m'.types.get base).valueSize.toUInt64
    let moved := addr + n.word * stride m'.types p.type
    (∀ a, ∃ v m'', elementAt p.type a m' = .ok v m'' ∧ v.type = base ∧ v.isLvalue = !(m'.types.get base).isConst ∧
      ((m'.types.get base).isConst = false → v = .atAddress base a)) ∧
    i.applyOperator .index (p :: stack) r m =
      (do return ((← elementAt p.type element) :: stack, r') : Exec (List Variable × Reader)) m' ∧
    (moved ≠ 0 → (i.applyOperator .addition (x :: p :: stack) >>= i.applyOperator .dereference) r' m' =
      (do return ((← elementAt p.type moved) :: stack, r') : Exec (List Variable × Reader)) m') ∧
    (m'.types.kind base ≠ .struct → m'.types.kind base ≠ .void → m'.types.kind base ≠ .parent → element = moved) ∧
    (m'.types.kind base = .void → (element = moved ↔ n.number = 0)) ∧
    (m'.types.kind base = .struct → (element = moved ↔ n.word * 8 = n.word * max (m'.types.get base).size 1)) := by
  intro element moved
  have hstride : stride m'.types p.type = if m'.types.kind base = .void then 1
      else max (m'.types.get base).size 1 := by
    rw [stride, hp.base?]
  have hsame {a b : UInt64} : addr + a = addr + b ↔ a = b := UInt64.add_right_inj addr
  refine ⟨fun a => elementAt_eq hp.base? a, index_eq hk hi hp hx h0 stack, fun hm => ?_, fun hs hv hpar => ?_,
    fun hv => ?_, fun hs => ?_⟩
  · refine (bind_ok (addition_eq hp hx i stack r')).trans ?_
    exact dereference_eq (hp.moved moved) hm i stack r'
  · obtain ⟨hsize, hone⟩ := hl.regular.valueSize hv hs hpar
    have hmax : max (m'.types.get base).size 1 = (m'.types.get base).size := by
      show (if (m'.types.get base).size ≤ 1 then 1 else (m'.types.get base).size) = _
      split
      case isTrue hle => exact UInt64.le_antisymm hone hle
      case isFalse => rfl
    show addr + _ = addr + _
    rw [hstride, if_neg hv, hmax, hsize]
  · have hsize : (m'.types.get base).valueSize = 0 := congrArg Kind.valueSize hv
    show addr + _ = addr + _ ↔ _
    rw [hsame, hstride, if_pos hv, hsize, UInt64.mul_one]
    show n.word * 0 = n.word ↔ _
    rw [UInt64.mul_zero, eq_comm]
    exact ofInt_eq_zero n.wrapped
  · have hsize : (m'.types.get base).valueSize = 8 := congrArg Kind.valueSize hs
    show addr + _ = addr + _ ↔ _
    rw [hsame, hstride, if_neg (by rw [hs]; nofun), hsize]
    rfl

/-- The first element behind a `void#` is the one at its own address, where the pointer moved by one is a byte
further. -/
theorem index_addition_void :
    let types := (initial.pointer TypeTable.void).2
    let m : Machine := { types }
    let p := Variable.value (initial.pointer TypeTable.void).1 4096
    let x := Variable.value int32 (.ofInt 1)
    let i : Interp := { Interp.ofFuel 0 with eval := pure (some x) }
    Later initial types ∧ m.Points p TypeTable.void 4096 ∧ m.Shows x (.cut ⟨.w32, false⟩ 1) ∧
      ∀ r : Reader, ∃ m₁ m₂, i.applyOperator .index [p] r m = .ok ([.atAddress TypeTable.void 4096], r) m₁ ∧
        (i.applyOperator .addition [x, p] >>= i.applyOperator .dereference) r m =
            .ok ([.atAddress TypeTable.void 4097], r) m₂ := by
  intro types m p x i
  have hvoid : initial.types[TypeTable.void]? = some (plainInfo .void {}) :=
    stocked_initial.primitive (show primitiveKinds.idxOf? .void = some TypeTable.void from rfl)
  have hint32 : initial.types[int32]? = some (plainInfo .int32 {}) :=
    stocked_initial.primitive (show primitiveKinds.idxOf? .int32 = some int32 from rfl)
  let t : TypeInfo := { kind := .pointer, shape := .pointer TypeTable.void }
  have hnew : initial.interned[t.computeHash]? = none :=
    interned_new initial_types.1 (by rw [initial_types.2]; decide +kernel)
  have hpointer : initial.pointer TypeTable.void = (initial.size, initial.added (initial.joined t)) :=
    register_joins hnew
  have hmentions : (TypeOp.pointer TypeTable.void).Mentions (· < initial.size) := lt_of_lookup hvoid
  have hlater : Later initial types := .step .refl hmentions
  have hg : initial.Grows types := (hlater.keeps sane_initial).grows
  have hp : m.Points p TypeTable.void 4096 := by
    refine ⟨⟨initial.joined t, ?_, rfl, rfl⟩, rfl⟩
    show (initial.pointer TypeTable.void).2.types[(initial.pointer TypeTable.void).1]? = _
    rw [hpointer]
    exact initial.added_last _
  have hx : m.Shows x (.cut ⟨.w32, false⟩ 1) :=
    ⟨⟨false, hg _ _ hint32⟩, (IntegerValue.cut ⟨.w32, false⟩ 1).extend_word⟩
  have hget : m.types.get TypeTable.void = plainInfo .void {} := get_eq (hg _ _ hvoid)
  have hstride : stride m.types p.type = 1 := by
    rw [stride, hp.base?]
    exact if_pos (congrArg TypeInfo.kind hget)
  refine ⟨hlater, hp, hx, fun r => ?_⟩
  obtain ⟨helement, hindex, hmoved, -⟩ := index_addition (i := i) (r := r) hlater hp.kind rfl hp hx (by decide) []
  rw [hget] at hindex helement
  rw [hstride] at hmoved
  obtain ⟨v, m₁, h₁, -, -, hv⟩ := helement 4096
  obtain ⟨w, m₂, h₂, -, -, hw⟩ := helement 4097
  obtain rfl := hv rfl
  obtain rfl := hw rfl
  exact ⟨m₁, m₂, hindex.trans (bind_ok h₁), (hmoved (by decide)).trans (bind_ok h₂)⟩

end Interp

end

end LevelScript
