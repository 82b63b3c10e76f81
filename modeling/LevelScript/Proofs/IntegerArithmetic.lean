import LevelScript.Proofs.Bytes
import LevelScript.Proofs.IntegerOperators
import LevelScript.Proofs.TypeHistory

/-!
# Integer arithmetic

An arithmetic operator on integers, and the operator that also assigns, take all their operands from the
eight integer types, by themselves or in memory. The result is exact but for what the common type cuts off.
-/

namespace LevelScript

open TypeTable Exec

/-- In a table with a history no type is mistaken for one of the stock if no other open type has its hash. -/
theorem TypeTable.Sane.stocked {ts : TypeTable} (h : ts.Sane) (hg : initial.Grows ts)
    (hu : ∀ (id : TypeId) (u : TypeInfo), ts.types[id]? = some u → u.flags.closed = false →
      ∀ t ∈ stock, u.computeHash = t.hash → u = t) :
    ts.Stocked := by
  refine ⟨fun {t id} ht hi => ?_, fun hk => hg _ _ (stocked_initial.primitive hk)⟩
  obtain ⟨u, hfound, hh, ho⟩ := h.found hi
  rw [← hu id u hfound ho t ht hh]
  exact hfound

namespace ArithmeticOperator

def assigning : ArithmeticOperator → Opcode
  | multiply => .mulAssign
  | divide => .divAssign
  | remainder => .modAssign
  | add => .addAssign
  | subtract => .subAssign
  | shiftLeft => .shlAssign
  | shiftRight => .shrAssign
  | bitAnd => .andAssign
  | bitXor => .xorAssign
  | bitOr => .orAssign

theorem compoundBase?_assigning (op : ArithmeticOperator) : op.assigning.compoundBase? = some op.opcode := by
  cases op <;> rfl

/-- A quotient or remainder is a number of the type, but for the least number divided by `-1`. -/
theorem wrap_compute_of_divides {op : ArithmeticOperator} (hop : op.divides) {t : IntegerType} {a b : Int}
    (ha : t.wrap a = a) (hb : t.wrap b = b) (h : ¬(t.unsigned = false ∧ a = t.least ∧ b = -1)) :
    t.wrap (op.compute a b) = op.compute a b := by
  rw [IntegerType.wrap_eq_self] at ha hb ⊢
  have hl : t.least = 0 ∨ t.unsigned = false ∧ t.least = -t.limit := by
    rw [IntegerType.least, IntegerType.limit]
    cases t.unsigned
    · exact .inr ⟨rfl, rfl⟩
    · exact .inl rfl
  cases op with
  | divide =>
    show t.least ≤ a.tdiv b ∧ a.tdiv b < t.limit
    have hn : (a.tdiv b).natAbs = a.natAbs / b.natAbs := Int.natAbs_tdiv a b
    generalize hq : a.tdiv b = q at hn ⊢
    -- Only `-1` can leave the range, and there only at the least value; from two on the quotient shrinks.
    obtain rfl | rfl | rfl | hb1 : b = 0 ∨ b = 1 ∨ b = -1 ∨ 1 < b.natAbs := by omega
    · rw [Int.tdiv_zero] at hq
      omega
    · rw [Int.tdiv_one] at hq
      omega
    · rw [Int.tdiv_neg, Int.tdiv_one] at hq
      have hm (hu : t.unsigned = false) : a ≠ t.least := fun ha => h ⟨hu, ha, rfl⟩
      obtain hl | ⟨hu, hl⟩ := hl
      · omega
      · have := hm hu
        omega
    · have hlt : q.natAbs ≤ a.natAbs ∧ (a ≠ 0 → q.natAbs < a.natAbs) := by
        rw [hn]
        exact ⟨Nat.div_le_self .., fun h0 => Nat.div_lt_self (by omega) hb1⟩
      have hpos : 0 ≤ a → 0 ≤ b → 0 ≤ q := fun h0 h1 => hq ▸ Int.tdiv_nonneg h0 h1
      omega
  | remainder =>
    show t.least ≤ a.tmod b ∧ a.tmod b < t.limit
    have hle : (a.tmod b).natAbs ≤ a.natAbs := by
      rw [Int.natAbs_tmod]
      exact Nat.mod_le ..
    have hpos : 0 ≤ a → 0 ≤ a.tmod b := Int.tmod_nonneg b
    have hneg : a ≤ 0 → a.tmod b ≤ 0 := fun h0 => by
      have := Int.tmod_nonneg b (show 0 ≤ -a by omega)
      rw [Int.neg_tmod] at this
      omega
    omega
  | multiply | add | subtract | shiftLeft | shiftRight | bitAnd | bitXor | bitOr => cases hop

end ArithmeticOperator

section
variable {m : Machine} {x y : Variable} {v w : IntegerValue}

/-! ## Assigning -/

theorem IntegerType.valueSize_info (t : IntegerType) : t.info.valueSize ≠ 0 ∧ t.info.valueSize ≤ 8 := by
  show t.width.kind.valueSize ≠ 0 ∧ t.width.kind.valueSize ≤ 8
  cases t.width <;> decide

theorem Machine.Shows.write (h : m.Shows x v) {addr : UInt64} (hs : x.storage = .location addr) (z : Int) :
    Machine.Shows { m with memory := m.memory.write addr v.type.info.valueSize (.ofInt z) } x (.cut v.type z) := by
  have hword := h.word
  rw [hs] at hword
  refine ⟨h.type, ?_⟩
  rw [hs]
  refine ⟨hword.1, ?_⟩
  let size := v.type.info.valueSize
  show extend v.type.info ((m.memory.write addr size (.ofInt z)).read addr size) = _
  rw [Memory.read_write_eq _ _ v.type.valueSize_info.2, extend_masked, extend_ofInt, IntegerValue.word_cut]

theorem IntegerValue.cut_wrap (t : IntegerType) (z : Int) : cut t (t.wrap z) = cut t z := by
  simp only [cut, t.wrap_wrap]

namespace Exec

theorem bind_of_error {α β : Type} {c : Exec α} {f : α → Exec β} {e : Halt} {m' : Machine} (h : c m = .error e m') :
    (c >>= f) m = .error e m' := by
  simp only [bind, EStateM.bind, h]

theorem castBits_computes (hx : m.Shows x v) (hm : m.types.Stocked) {id : TypeId} {t : IntegerType} {isConst : Bool}
    (hi : m.types.types[id]? = some (t.infoWith isConst)) :
    Computes (castBits id x) m (fun word _ => word = .ofInt (t.wrap v.number)) := by
  refine .bind (cast_computes hx hm hi) fun y ts hs hg hy => ?_
  have hshows : (m.retyped ts).Shows y (.cut t v.number) :=
    hy ▸ ⟨⟨isConst, hg _ _ hi⟩, (IntegerValue.cut t v.number).extend_word⟩
  exact ⟨_, ts, bits_eq hshows, hs, .refl _, rfl⟩

theorem assign_eq (hx : m.Shows x v) {addr : UInt64} (hs : x.storage = .location addr) (hm : m.types.Stocked)
    (hy : m.Shows y w) : ∃ ts, m.types.Grows ts ∧ assign x y m =
      .ok x { m.retyped ts with
        memory := m.memory.write addr v.type.info.valueSize (.ofInt (v.type.wrap w.number)) } := by
  obtain ⟨isConst, ht⟩ := hx.type
  obtain ⟨word, ts, hcast, -, hg, rfl⟩ := castBits_computes hy hm ht
  refine ⟨ts, hg, (bind_ok hcast).trans ?_⟩
  have hword := hx.word
  rw [hs] at hword
  have hstore : store x (.ofInt (v.type.wrap w.number)) (m.retyped ts) =
      poke addr (v.type.infoWith isConst).valueSize (.ofInt (v.type.wrap w.number)) (m.retyped ts) := by
    rw [store, hs]
    exact bind_ok (typeInfo_of (m := m.retyped ts) (hg _ _ ht))
  have hpoke : poke addr (v.type.infoWith isConst).valueSize (.ofInt (v.type.wrap w.number)) (m.retyped ts) = .ok ()
      { m.retyped ts with
        memory := m.memory.write addr v.type.info.valueSize (.ofInt (v.type.wrap w.number)) } := by
    have hsize : ¬(v.type.infoWith isConst).valueSize = 0 := v.type.valueSize_info.1
    show EStateM.Result.ok () (if _ then _ else if _ then _ else _) = _
    rw [if_neg hsize, if_pos hword.1]
    rfl
  exact bind_ok (hstore.trans hpoke)

end Exec

/-! ## Operators and assignments -/

namespace Operator

theorem action?_assigning (hx : m.Shows x v) (hy : m.Shows y w) {addr : UInt64} (hs : x.storage = .location addr)
    (op : ArithmeticOperator) (stack : List Variable) :
    action? m.types op.assigning (y :: x :: stack) = some .compound := by
  have fit {p : Pattern} (hp : p = .integer ∨ p = .number ∨ p = .any) :
      fitAll m.types [val p, ref p] (y :: x :: stack) = true := by
    have hl : x.isLvalue = true := by rw [Variable.isLvalue, hs]
    have hr : fits m.types (ref p) x = fits m.types (val p) x := by
      rw [fits, fits, hl]
      rfl
    rw [fitAll, fits_integer hy hp, fitAll, hr, fits_integer hx hp]
    rfl
  have rule {op : Opcode} {ops : List Opcode} {p : Pattern}
      (h : rules.find? (·.ops.contains op) = some ⟨ops, [ref p, val p], .compound⟩)
      (hp : p = .integer ∨ p = .number ∨ p = .any) : action? m.types op (y :: x :: stack) = some .compound :=
    action?_of_rule h (fit hp)
  cases op with
  | shiftLeft | shiftRight | bitAnd | bitXor | bitOr => exact rule rfl (.inl rfl)
  | multiply | divide | remainder | add | subtract => exact rule rfl (.inr (.inl rfl))

end Operator

namespace Interp

theorem applyOperator_between {i : Interp} {op : Opcode} {action : Operator.Action}
    {stack : List Variable} {r : Reader} (ha : Operator.action? m.types op (y :: x :: stack) = some action)
    (hs : op.shape? = some .between) :
    i.applyOperator op (y :: x :: stack) r m =
      (do return ((← if action = .compound then compound op x y else binary op action x y) :: stack, r) :
        Exec (List Variable × Reader)) m := by
  refine Run.machine_bind.trans ?_
  rw [ha]
  dsimp only
  rw [if_pos hs]
  split
  · rw [Run.lift_bind]
    rfl
  · rw [Run.lift_bind]
    rfl

theorem applyOperator_opcode (hm : m.types.Stocked) (hx : m.Shows x v) (hy : m.Shows y w) (i : Interp)
    (op : ArithmeticOperator) (stack : List Variable) (r : Reader) :
    let t := v.type.common w.type
    ∃ id ts, m.types.Grows ts ∧ ts.types[id]? = some t.info ∧ i.applyOperator op.opcode (y :: x :: stack) r m =
      if op.divides ∧ t.wrap w.number = 0 then .error (.raised ⟨.divisionByZero, m.trace⟩) (m.retyped ts)
      else .ok (.value id (.ofInt (t.wrap (op.compute (t.wrap v.number) (t.wrap w.number)))) :: stack, r)
        (m.retyped ts) := by
  intro t
  obtain ⟨id, ts, -, hg, hi, he⟩ := arithmetic_eq hx hy hm op
  refine ⟨id, ts, hg, hi, ?_⟩
  have hs : op.opcode.shape? = some .between := by cases op <;> rfl
  have ha : Operator.action? m.types op.opcode (y :: x :: stack) = some .arithmetic :=
    Operator.action?_binary hx hy (.arithmetic op) stack
  have hb : binary op.opcode .arithmetic x y m = _ := he
  rw [applyOperator_between ha hs, if_neg nofun]
  split_ifs at hb ⊢ with h0
  · exact bind_of_error hb
  · exact bind_ok hb

theorem applyOperator_assigning (hm : m.types.Stocked) (hx : m.Shows x v) (hy : m.Shows y w) {addr : UInt64}
    (hs : x.storage = .location addr) (i : Interp) (op : ArithmeticOperator) (stack : List Variable) (r : Reader) :
    let t := v.type.common w.type
    ∃ ts, m.types.Grows ts ∧ i.applyOperator op.assigning (y :: x :: stack) r m =
      if op.divides ∧ t.wrap w.number = 0 then .error (.raised ⟨.divisionByZero, m.trace⟩) (m.retyped ts)
      else .ok (x :: stack, r) { m.retyped ts with
        memory := m.memory.write addr v.type.info.valueSize
          (.ofInt (v.type.wrap (t.wrap (op.compute (t.wrap v.number) (t.wrap w.number))))) } := by
  intro t
  obtain ⟨id, ts, hm', hg, hi, he⟩ := arithmetic_eq hx hy hm op
  have hshape : op.assigning.shape? = some .between := by cases op <;> rfl
  have ha : Operator.action? m.types op.opcode [y, x] = some .arithmetic :=
    Operator.action?_binary hx hy (.arithmetic op) []
  have hcompound : compound op.assigning x y m = (arithmetic op.opcode x y >>= assign x) m := by
    rw [compound, op.compoundBase?_assigning]
    refine (bind_ok rfl).trans ?_
    rw [ha]
    rfl
  have happly := applyOperator_between (i := i) (r := r) (Operator.action?_assigning hx hy hs op stack) hshape
  rw [if_pos rfl] at happly
  by_cases h0 : op.divides ∧ t.wrap w.number = 0
  · rw [if_pos h0] at he
    refine ⟨ts, hg, ?_⟩
    rw [if_pos h0, happly]
    exact bind_of_error (hcompound.trans (bind_of_error he))
  · rw [if_neg h0] at he
    let u := IntegerValue.cut t (op.compute (t.wrap v.number) (t.wrap w.number))
    have hu : (m.retyped ts).Shows (.value id u.word) u := ⟨⟨false, hi⟩, u.extend_word⟩
    obtain ⟨ts', hg', hassign⟩ := assign_eq (hx.mono hg) hs hm' hu
    refine ⟨ts', hg.trans hg', ?_⟩
    rw [if_neg h0, happly]
    exact bind_ok (hcompound.trans ((bind_ok he).trans hassign))

/-- Integers are combined in their common type: the operands are reduced to it, and so is the exact result.
It is a value by itself of that type, or, reduced once more, the new value of the first operand. All that can
fail is a division by a number that is zero in the common type. Nothing but the types, and with an assignment
the memory, changes. A quotient or remainder is cut off for the least number divided by `-1` alone. -/
theorem applyOperator_integers (hm : m.types.Stocked) (hx : m.Shows x v) (hy : m.Shows y w) (i : Interp)
    (op : ArithmeticOperator) (stack : List Variable) (r : Reader) :
    let t := v.type.common w.type
    let a := t.wrap v.number
    let b := t.wrap w.number
    let z := t.wrap (op.compute a b)
    (∃ id ts, m.types.Grows ts ∧ ts.types[id]? = some t.info ∧ i.applyOperator op.opcode (y :: x :: stack) r m =
      if op.divides ∧ b = 0 then .error (.raised ⟨.divisionByZero, m.trace⟩) (m.retyped ts)
      else .ok (.value id (.ofInt z) :: stack, r) (m.retyped ts)) ∧
    (∀ addr, x.storage = .location addr → ∃ ts, m.types.Grows ts ∧
      let m' : Machine := { m.retyped ts with
        memory := m.memory.write addr v.type.info.valueSize (.ofInt (v.type.wrap z)) }
      m'.Shows x (.cut v.type z) ∧ i.applyOperator op.assigning (y :: x :: stack) r m =
        if op.divides ∧ b = 0 then .error (.raised ⟨.divisionByZero, m.trace⟩) (m.retyped ts)
        else .ok (x :: stack, r) m') ∧
    (op.divides → ¬(t.unsigned = false ∧ a = t.least ∧ b = -1) → z = op.compute a b) := by
  intro t a b z
  refine ⟨applyOperator_opcode hm hx hy i op stack r, fun addr hs => ?_, fun hd h => ?_⟩
  · obtain ⟨ts, hg, he⟩ := applyOperator_assigning hm hx hy hs i op stack r
    have hshows := (hx.mono hg).write hs (v.type.wrap z)
    rw [IntegerValue.cut_wrap] at hshows
    exact ⟨ts, hg, hshows, he⟩
  · exact ArithmeticOperator.wrap_compute_of_divides hd (t.wrap_wrap _) (t.wrap_wrap _) h

/-- A quotient that is too great for the type of the variable, but not for the common type. -/
theorem applyOperator_integers_leastQuotient :
    let addr : UInt64 := 0x200000000000
    let m : Machine := { memory := Memory.write {} addr 1 (.ofInt (-128)) }
    let x := Variable.atAddress int8 addr
    let y := Variable.value int32 (.ofInt (-1))
    m.types.Stocked ∧ m.Shows x (.cut ⟨.w8, false⟩ (-128)) ∧ m.Shows y (.cut ⟨.w32, false⟩ (-1)) ∧
      ∀ (i : Interp) (r : Reader), ∃ ts m', m' =
        { m.retyped ts with memory := m.memory.write addr 1 (.ofInt (-128)) } ∧
        m'.Shows x (.cut ⟨.w8, false⟩ 128) ∧ i.applyOperator .divAssign [y, x] r m = .ok ([x], r) m' := by
  intro addr m x y
  have hint8 : initial.types[int8]? = some (IntegerType.infoWith ⟨.w8, false⟩ false) :=
    stocked_initial.primitive (show primitiveKinds.idxOf? .int8 = some int8 from rfl)
  obtain ⟨⟨_, z, hz⟩, rfl, hfresh⟩ := Machine.exists_shows (x := x) {} hint8 fun _ h => by cases h; decide
  have hx : m.Shows x (.cut ⟨.w8, false⟩ (-128)) := hfresh.write rfl (-128)
  have hy : m.Shows y (.cut ⟨.w32, false⟩ (-1)) :=
    ⟨⟨false, stocked_initial.primitive (show primitiveKinds.idxOf? .int32 = some int32 from rfl)⟩,
      (IntegerValue.cut ⟨.w32, false⟩ (-1)).extend_word⟩
  refine ⟨stocked_initial, hx, hy, fun i r => ?_⟩
  obtain ⟨ts, -, hshows, he⟩ := (applyOperator_integers stocked_initial hx hy i .divide [] r).2.1 addr rfl
  exact ⟨ts, _, rfl, hshows, he⟩

/-! ## A struct with the hash of an integer type -/

def declaredTypes (f : Field) : TypeTable := ((TypeOp.unsign int8).run ((TypeOp.struct [f] none).run initial).2).2

theorem declaredTypes_later {f : Field} (hf : f.type < initial.size) : Later initial (declaredTypes f) := by
  have hstruct : (TypeOp.struct [f] none).Mentions (· < initial.size) := ⟨fun g hm => by
    obtain rfl := List.mem_singleton.mp hm
    exact hf, nofun⟩
  have hint8 : initial.types[int8]? = some (plainInfo .int8 {}) := stocked_initial.primitive rfl
  exact .step (.step .refl hstruct)
    (lt_of_lookup ((Later.step .refl hstruct).keeps sane_initial |>.grows _ _ hint8))

/-- A struct with the hash of `u32` is new. -/
theorem declaredTypes_eq {f : Field} {t : TypeInfo} (ht : (TypeOp.struct [f] none).request initial = some t)
    (hh : t.computeHash = (plainInfo .int32 { unsigned := true }).hash) : initial.Grows (declaredTypes f) ∧
      (declaredTypes f).types[9]? = some (initial.joined t) ∧
      (declaredTypes f).types[10]? = some (plainInfo .int8 { unsigned := true }) := by
  have hsize : initial.types.size = 9 := by
    have := congrArg List.length initial_types.2
    rwa [Array.length_toList, List.length_map] at this
  have hnew : initial.interned[t.computeHash]? = none := by
    refine interned_new initial_types.1 fun v hv => ?_
    rw [initial_types.2] at hv
    rw [hh]
    have hne : ∀ v ∈ primitiveKinds.map (plainInfo · {}),
      v.hash ≠ (plainInfo .int32 { unsigned := true }).hash := by decide +kernel
    exact hne v hv
  have hstruct : ((TypeOp.struct [f] none).run initial).2 = initial.added (initial.joined t) := by
    rw [TypeOp.run_request ht, register_joins hnew]
    rfl
  have hint8 : initial.types[int8]? = some (plainInfo .int8 {}) := stocked_initial.primitive rfl
  have hg := initial.added_grows (initial.joined t)
  let u : TypeInfo := { plainInfo .int8 {} with flags := { unsigned := true } }
  have hunsign : declaredTypes f = ((initial.added (initial.joined t)).register u).2 := by
    rw [declaredTypes, hstruct]
    show (TypeTable.unsign _ int8).2 = _
    unfold TypeTable.unsign
    rw [get_eq (hg _ _ hint8)]
    rfl
  have hnew' : (initial.added (initial.joined t)).interned[u.computeHash]? = none := by
    refine interned_new (initial_types.1.added _) fun v hv => ?_
    rw [show (initial.added (initial.joined t)).types.toList = initial.types.toList ++
      [initial.joined t] from Array.toList_push,
      initial_types.2, List.mem_append, List.mem_singleton] at hv
    obtain hv | rfl := hv
    · have hne : ∀ v ∈ primitiveKinds.map (plainInfo · {}), v.hash ≠ u.computeHash := by decide +kernel
      exact hne v hv
    · show t.computeHash ≠ _
      rw [hh]
      decide +kernel
  rw [hunsign, register_new hnew' rfl, register_flags .int8 {} _]
  have hg' := (initial.added (initial.joined t)).added_grows (plainInfo .int8 { unsigned := true })
  have hlast := initial.added_last (initial.joined t)
  have hlast' := (initial.added (initial.joined t)).added_last (plainInfo .int8 { unsigned := true })
  rw [hsize] at hlast
  rw [show (initial.added (initial.joined t)).types.size = 10 by rw [added, Array.size_push, hsize]] at hlast'
  exact ⟨hg.trans hg', hg' _ _ hlast, hlast'⟩

/-- A type with the hash of `u32` is taken for the common type of `u8` and `s32`. -/
theorem commonType_misled {ts : TypeTable} (hsane : ts.Sane) (hg : initial.Grows ts) {id byte : TypeId}
    {s : TypeInfo} (hs : ts.types[id]? = some s) (ho : s.flags.closed = false)
    (hh : s.computeHash = (plainInfo .int32 { unsigned := true }).hash)
    (hbyte : ts.types[byte]? = some (plainInfo .int8 { unsigned := true })) :
    commonType (.value byte 0) (.value int32 (.ofInt (-1))) { types := ts } = .ok id { types := ts } := by
  have hint32 : ts.types[int32]? = some (plainInfo .int32 {}) :=
    hg _ _ (stocked_initial.primitive (show primitiveKinds.idxOf? .int32 = some int32 from rfl))
  have hunsign : ts.unsign int32 = (id, ts) := by
    unfold TypeTable.unsign
    rw [get_eq hint32]
    exact register_found ((congrArg (ts.interned[·]?) hh).symm.trans (hsane.listed hs ho))
  have hkbyte : ts.kind byte = .int8 := by
    rw [TypeTable.kind, get_eq hbyte]
    rfl
  have hk32 : ts.kind int32 = .int32 := by
    rw [TypeTable.kind, get_eq hint32]
    rfl
  have hu : (!((Kind.int8.widest .int32).widest .int32).isFloat &&
      (ts.isUnsignedLike byte || ts.isUnsignedLike int32)) = true := by
    rw [isUnsignedLike, get_eq hbyte]
    rfl
  rw [commonType, withTypes, modifyGet_eq]
  dsimp only [Variable.value]
  rw [hkbyte, hk32, if_pos (show (Kind.int8.isNumber && Kind.int32.isNumber) = true from rfl)]
  exact congrArg (fun r : TypeId × TypeTable => (.ok r.1 { types := r.2 } : EStateM.Result Halt Machine TypeId))
    ((if_pos hu).trans hunsign)

/-- A field at an offset that makes the hash of a struct that of `u32`. -/
def unsignedInHash : Field := { name := some 11, type := int64, place := .absolute 2802948066122079448 }

def mistakenTypes : TypeTable := ((TypeOp.unsign int8).run ((TypeOp.struct [unsignedInHash] none).run initial).2).2

theorem mistakenTypes_later : Later initial mistakenTypes :=
  declaredTypes_later (f := unsignedInHash)
    (lt_of_lookup (stocked_initial.primitive (show primitiveKinds.idxOf? .int64 = some int64 from rfl)))

/-- The struct stands where a request for `u32` is led. -/
theorem mistakenTypes_eq : ∃ s : TypeInfo, s.kind = .struct ∧ s.flags.closed = false ∧
    s.computeHash = (plainInfo .int32 { unsigned := true }).hash ∧ initial.Grows mistakenTypes ∧
    mistakenTypes.types[9]? = some s ∧ mistakenTypes.types[10]? = some (plainInfo .int8 { unsigned := true }) := by
  let t := initial.withLayout { kind := .struct, shape := .struct [unsignedInHash] }
  have hh : t.computeHash = (plainInfo .int32 { unsigned := true }).hash := by decide +kernel
  exact ⟨initial.joined t, rfl, rfl, hh, declaredTypes_eq (show _ = some t from rfl) hh⟩

/-- The sum of a `u8` and an `s32` is a struct. -/
theorem sum_is_struct : Later initial mistakenTypes ∧
    let m : Machine := { types := mistakenTypes }
    let x := Variable.value 10 0
    let y := Variable.value int32 (.ofInt (-1))
    m.Shows x (.cut ⟨.w8, true⟩ 0) ∧ m.Shows y (.cut ⟨.w32, false⟩ (-1)) ∧
      ∀ (i : Interp) (r r' : Reader) (stack : List Variable) (m' : Machine),
        i.applyOperator .addition [y, x] r m = .ok (stack, r') m' → ∃ z, stack = [z] ∧
            m'.types.kind z.type = .struct := by
  obtain ⟨s, hk, ho, hh, hg, h9, h10⟩ := mistakenTypes_eq
  refine ⟨mistakenTypes_later, ?_⟩
  intro m x y
  have hint32 : mistakenTypes.types[int32]? = some (plainInfo .int32 {}) :=
    hg _ _ (stocked_initial.primitive (show primitiveKinds.idxOf? .int32 = some int32 from rfl))
  have hx : m.Shows x (.cut ⟨.w8, true⟩ 0) := ⟨⟨false, h10⟩, (IntegerValue.cut ⟨.w8, true⟩ 0).extend_word⟩
  have hy : m.Shows y (.cut ⟨.w32, false⟩ (-1)) :=
    ⟨⟨false, hint32⟩, (IntegerValue.cut ⟨.w32, false⟩ (-1)).extend_word⟩
  refine ⟨hx, hy, fun i r r' stack m' h => ?_⟩
  have harith : Exec.Quiet (fun _ => True) (fun z => z.type = 9) (do
      let a ← cast 9 x
      let b ← cast 9 y
      return Variable.value 9 (← compute .addition 9 a b)) :=
    .bind (cast_quiet 9 fun _ _ => trivial) fun _ ha => .bind (cast_quiet 9 fun _ _ => trivial) fun _ hb =>
      .bind (compute_quiet ha hb _ _) fun _ _ => .pure rfl
  have ha : Operator.action? m.types .addition [y, x] = some .arithmetic :=
    Operator.action?_binary hx hy (.arithmetic .add) []
  rw [applyOperator_between ha rfl, if_neg nofun] at h
  obtain ⟨z, m₁, hz, hr⟩ := bind_eq_ok h
  cases hr
  have hz : arithmetic .addition x y m = .ok z m' := hz
  have hsane := (mistakenTypes_later.keeps sane_initial).sane
  rw [arithmetic, promote, bind_assoc, bind_ok (commonType_misled hsane hg h9 ho hh h10)] at hz
  simp only [bind_assoc, pure_bind] at hz
  obtain ⟨hq, htype⟩ := (harith m).ok hz
  refine ⟨z, rfl, ?_⟩
  rw [htype, TypeTable.kind, get_eq (hq.types _ _ h9)]
  exact hk

end Interp

end

end LevelScript
