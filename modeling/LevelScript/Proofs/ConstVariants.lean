import LevelScript.Proofs.Entry
import LevelScript.Proofs.Interning
import LevelScript.Proofs.Repeats

/-!
# Types with and without const

An open type and its constant version lead to each other, so that making types constant or not comes to an end
after one step. A type is found by its hash alone, so this holds just if no other type has the hash of the
version that is asked for. Closed types are not found by a hash: each has a constant copy of its own, and
from there no way leads back.
-/

namespace LevelScript

def TypeInfo.withConst (t : TypeInfo) (isConst : Bool) : TypeInfo := { t with flags := { t.flags with isConst } }

theorem TypeInfo.content_withConst {t u : TypeInfo} (h : u.content = t.content) (isConst : Bool) :
    (u.withConst isConst).content = (t.withConst isConst).content := by
  simp only [content, withConst, Prod.mk.injEq] at h ⊢
  exact ⟨h.1, by rw [h.2.1], h.2.2⟩

theorem TypeInfo.withConst_self {t : TypeInfo} {isConst : Bool} (h : t.isConst = isConst) :
    t.withConst isConst = t := by
  subst h
  rfl

/-- The constant copy that is made of a closed type. -/
def TypeInfo.constCopy (t : TypeInfo) : TypeInfo := { t.withConst true with hash := hashMix t.hash 1 }

theorem TypeShape.hashParts_unplaced (shape : TypeShape) : shape.unplaced.hashParts = shape.hashParts := by
  cases shape with
  | struct fields => simp [unplaced, hashParts, List.flatMap_map, Field.unplaced]
  | _ => rfl

theorem TypeInfo.computeHash_of_content {t u : TypeInfo} (h : u.content = t.content) :
    u.computeHash = t.computeHash := by
  simp only [content, Prod.mk.injEq] at h
  unfold computeHash
  rw [h.1, h.2.1, ← u.shape.hashParts_unplaced, h.2.2, t.shape.hashParts_unplaced]

namespace TypeTable

/-- No open type in the table has the hash of `t` but is another type. -/
def Unmistaken (ts : TypeTable) (t : TypeInfo) : Prop := ts.Agrees TypeInfo.content t

variable {ts T : TypeTable} {id c : TypeId} {t u : TypeInfo}

/-- An open type is found when it is asked for again. -/
theorem Sane.register_again (h : ts.Sane) (hu : ts.types[id]? = some u) (ho : u.flags.closed = false)
    (hc : u.content = t.content) :
    ts.register t = (id, ts) :=
  register_found (TypeInfo.computeHash_of_content hc ▸ h.listed hu ho)

/-! ## Open types -/

/-- Two types that differ in `const` only and lead to each other; nothing joins the table when they do. -/
structure ConstPair (ts : TypeTable) (id c : TypeId) : Prop where
  isMutable : (ts.get id).isConst = false
  isConst : (ts.get c).isConst = true
  content : (ts.get c).content = ((ts.get id).withConst true).content
  constant {d : TypeId} : d = id ∨ d = c → ts.constant d = (c, ts)
  mutableOf {d : TypeId} : d = id ∨ d = c → ts.mutableOf d = (id, ts)

theorem constant_open (ho : (ts.get id).flags.closed = false) :
    ts.constant id = ts.register ((ts.get id).withConst true) := by
  unfold constant
  rw [if_neg (by rw [ho]; exact Bool.false_ne_true)]
  rfl

theorem mutableOf_const (ho : (ts.get id).flags.closed = false) (hc : (ts.get id).isConst = true) :
    ts.mutableOf id = ts.register ((ts.get id).withConst false) := by
  unfold mutableOf
  rw [if_neg (by rw [ho, hc]; exact Bool.false_ne_true)]
  rfl

theorem mutableOf_mutable (hc : (ts.get id).isConst = false) : ts.mutableOf id = (id, ts) := by
  unfold mutableOf
  simp [hc]

/-- Open types that differ in `const` are such a pair. -/
theorem Sane.constPair (h : ts.Sane) (hid : ts.types[id]? = some t) (hc : ts.types[c]? = some u)
    (ht : t.flags.closed = false)
    (hu : u.flags.closed = false) (hm : t.isConst = false) (hcontent : u.content = (t.withConst true).content) :
    ts.ConstPair id c := by
  have hconst : u.isConst = true := congrArg (·.2.1.isConst) hcontent
  have hback : t.content = (u.withConst false).content := by
    rw [TypeInfo.content_withConst hcontent false,
      show (t.withConst true).withConst false = t from TypeInfo.withConst_self hm]
  have hidt : ts.get id = t := get_eq hid
  have hcu : ts.get c = u := get_eq hc
  refine ⟨by rw [hidt]; exact hm, by rw [hcu]; exact hconst, by rw [hidt, hcu]; exact hcontent, ?_, ?_⟩
  · rintro d (rfl | rfl)
    · rw [constant_open (by rw [hidt]; exact ht), hidt]
      exact h.register_again hc hu hcontent
    · rw [constant_open (by rw [hcu]; exact hu), hcu, TypeInfo.withConst_self hconst]
      exact h.register_again hc hu rfl
  · rintro d (rfl | rfl)
    · exact mutableOf_mutable (by rw [hidt]; exact hm)
    · rw [mutableOf_const (by rw [hcu]; exact hu) (by rw [hcu]; exact hconst), hcu]
      exact h.register_again hid ht hback

/-- What is found is what was asked for, up to the placement of fields, just if nothing is mistaken for it. -/
theorem Sane.register_entry (h : ts.Sane) (hid : id < ts.size) (ho : (ts.get id).flags.closed = false)
    (isConst : Bool) :
    ∃ u,
      (ts.register ((ts.get id).withConst isConst)).2.types[(ts.register ((ts.get id).withConst isConst)).1]? =
        some u ∧
      u.flags.closed = false ∧ ts.Grows (ts.register ((ts.get id).withConst isConst)).2 ∧
      (u.content = ((ts.get id).withConst isConst).content ↔ ts.Unmistaken ((ts.get id).withConst isConst)) := by
  have hp : TypeOp.Proper ts ((ts.get id).withConst isConst) := .flags h hid ho ho
  have ha := h.register hp.isOpen hp.next hp.laid
  obtain ⟨u, hu, -, huo⟩ := ha.entry
  exact ⟨u, hu, huo, ha.adds.grows, register_look_iff h rfl hu⟩

section
variable (h : ts.Sane) (hid : id < ts.size) (ho : (ts.get id).flags.closed = false)
include h hid ho

theorem constPair_constant_iff (hm : (ts.get id).isConst = false) (hT : T.Sane) (hg : (ts.constant id).2.Grows T) :
    T.ConstPair id (ts.constant id).1 ↔ ts.Unmistaken ((ts.get id).withConst true) := by
  rw [constant_open ho] at hg ⊢
  obtain ⟨u, hu, huo, hgrows, hiff⟩ := h.register_entry hid ho true
  have hidT := (hgrows.trans hg) _ _ (lookup_of_lt hid)
  have huT := hg _ _ hu
  rw [← hiff]
  constructor
  · intro hp
    have := hp.content
    rwa [get_eq huT, get_eq hidT] at this
  · exact hT.constPair hidT huT ho huo hm

theorem constPair_mutableOf_iff (hc : (ts.get id).isConst = true) (hT : T.Sane) (hg : (ts.mutableOf id).2.Grows T) :
    T.ConstPair (ts.mutableOf id).1 id ↔ ts.Unmistaken ((ts.get id).withConst false) := by
  rw [mutableOf_const ho hc] at hg ⊢
  obtain ⟨u, hu, huo, hgrows, hiff⟩ := h.register_entry hid ho false
  have hidT := (hgrows.trans hg) _ _ (lookup_of_lt hid)
  have huT := hg _ _ hu
  rw [← hiff]
  constructor
  · intro hp
    have hcontent := hp.content
    have hmutable := hp.isMutable
    rw [get_eq huT] at hmutable
    rw [get_eq huT, get_eq hidT] at hcontent
    have := TypeInfo.content_withConst hcontent false
    rw [show (u.withConst true).withConst false = u from TypeInfo.withConst_self hmutable] at this
    exact this.symm
  · intro hcontent
    refine hT.constPair huT hidT huo ho (congrArg (·.2.1.isConst) hcontent) ?_
    have := TypeInfo.content_withConst hcontent true
    rw [show ((ts.get id).withConst false).withConst true = ts.get id from TypeInfo.withConst_self hc] at this
    exact this.symm

theorem constant_of_const (hc : (ts.get id).isConst = true) : ts.constant id = (id, ts) := by
  rw [constant_open ho, TypeInfo.withConst_self hc]
  exact h.register_again (lookup_of_lt hid) ho rfl

end

/-! ## Closed types -/

/-- What is written down as the constant copy of a type is the one of a closed type, and joined after it. -/
def ConstCopies (ts : TypeTable) : Prop := ∀ (id c : TypeId), ts.closedConst[id]? = some c →
  ∃ t, ts.types[id]? = some t ∧ t.flags.closed = true ∧ ts.types[c]? = some t.constCopy ∧ id < c

/-- A closed type and its constant copy, which is given again and again. Neither has another type to go back to. -/
structure ConstCopy (ts : TypeTable) (id c : TypeId) : Prop where
  closed : (ts.get id).flags.closed = true
  copied : ts.types[c]? = some (ts.get id).constCopy
  later : id < c
  constant : ts.constant id = (c, ts)
  mutableOf {d : TypeId} : d = id ∨ d = c → ts.mutableOf d = (d, ts)

theorem mutableOf_closed (hc : (ts.get id).flags.closed = true) : ts.mutableOf id = (id, ts) := by
  unfold mutableOf
  simp [hc]

theorem constant_closed (hc : (ts.get id).flags.closed = true) : ts.constant id = ts.constClosed id := by
  unfold constant
  rw [if_pos hc]

theorem constCopies_initial : initial.ConstCopies := by
  intro id c h
  rw [adds_initial.closedConst] at h
  simp at h

theorem ConstCopies.grows (h : ts.ConstCopies) (hg : ts.Grows T) (hc : T.closedConst = ts.closedConst) :
    T.ConstCopies := by
  intro id c hid
  rw [hc] at hid
  obtain ⟨t, ht, hct, hu, hlt⟩ := h id c hid
  exact ⟨t, hg _ _ ht, hct, hg _ _ hu, hlt⟩

theorem ConstCopies.constClosed (h : ts.ConstCopies) (hs : ts.Sane) (hid : ts.IsClosed id) :
    (ts.constClosed id).2.ConstCopies := by
  have hg := (constClosed_keeps hs hid).grows
  obtain ⟨t, ht, hct⟩ := hid
  revert hg
  unfold TypeTable.constClosed
  split
  case h_1 => exact fun _ => h
  case h_2 =>
    intro hg id' c hc
    rw [Std.HashMap.getElem?_insert] at hc
    split at hc
    case isTrue he =>
      cases hc
      cases eq_of_beq he
      refine ⟨t, hg _ _ ht, hct, ?_, lt_of_lookup ht⟩
      rw [← get_eq ht]
      exact pushed_last ..
    case isFalse =>
      obtain ⟨t', ht', hct', hu, hlt⟩ := h id' c hc
      exact ⟨t', hg _ _ ht', hct', hg _ _ hu, hlt⟩

theorem ConstCopies.constCopy (h : ts.ConstCopies) (hc : ts.closedConst[id]? = some c) : ts.ConstCopy id c := by
  obtain ⟨t, ht, hct, hu, hlt⟩ := h id c hc
  have hclosed : (ts.get id).flags.closed = true := by rw [get_eq ht]; exact hct
  refine ⟨hclosed, by rw [get_eq ht]; exact hu, hlt, ?_, ?_⟩
  · rw [constant_closed hclosed, TypeTable.constClosed, hc]
  · rintro d (rfl | rfl)
    · exact mutableOf_closed hclosed
    · exact mutableOf_closed (by rw [get_eq hu]; exact hct)

end TypeTable

open TypeTable

section
variable {ts T : TypeTable} {id : TypeId}

theorem TypeOp.run_constCopies {op : TypeOp} (hk : ts.Kept) (h : ts.ConstCopies) (hm : op.Mentions (· < ts.size)) :
    (op.run ts).2.ConstCopies := by
  obtain ⟨t, hr, hrun⟩ | ⟨id, rfl, hc, hrun⟩ | ⟨lookup, id, rfl⟩ | ⟨r, hrun, -⟩ := op.run_cases ts
  · rw [hrun]
    have ha := (run_answers hk.sane hm hr).adds
    exact h.grows ha.grows ha.closedConst
  · rw [hrun]
    exact h.constClosed hk.sane ⟨_, lookup_of_lt hm, hc⟩
  · obtain ⟨-, hconst, -⟩ := tied_closes hk.sane hk.copies hm.1 hm.2
    rw [← (ts.resolve_tied lookup id).1] at hconst
    exact h.grows (resolve_keeps hk.sane hm.1 hm.2).grows hconst
  · rw [hrun]
    exact h

theorem Later.constCopies (hk : ts.Kept) (h : ts.ConstCopies) (hl : Later ts T) : T.ConstCopies := by
  induction hl with
  | refl => exact h
  | step hl hm ih => exact TypeOp.run_constCopies (hl.kept hk) ih hm

/-- Once a closed type has been made constant, its copy is known. -/
theorem Later.constCopy (h : Later .initial ts) (hid : id < ts.size) (hc : (ts.get id).flags.closed = true)
    (hT : Later (ts.constant id).2 T) : T.ConstCopy id (ts.constant id).1 := by
  have hk := h.kept kept_initial
  have hcopies := h.constCopies kept_initial constCopies_initial
  have hclosed : ts.IsClosed id := ⟨_, lookup_of_lt hid, hc⟩
  rw [constant_closed hc] at hT ⊢
  obtain ⟨hk', hknown⟩ := hk.constClosed hclosed
  exact (hT.constCopies hk' (hcopies.constClosed hk.sane hclosed)).constCopy
    ((hT.lasts hk'.sane).closedConst hknown)

end

/-! ## In a program -/

namespace Machine

/-- Nothing joins the table where `const` is put before `d` or where a struct of type `d` becomes `this`. It
is `c` then. -/
structure MakesConstant (m : Machine) (d c : TypeId) : Prop where
  operator (i : Interp) (v : Variable) (r : Reader) : TypeId.ofBits (v.valueIn m.types m.memory) = d →
    ∃ m', i.unary .constType .modifyType v r m = .ok (Exec.typeValue c, r) m' ∧ m.SameButFault m'
  receiver {call : ScriptCall} {args : List Variable} {addr : UInt64} {f : ScriptFunction} {depth : Nat}
      {m' : Machine} :
    call.receiver = some (d, addr) → Exec.enterScript call args m = .ok (f, depth) m' → m'.types = m.types

/-- Nothing joins the table where a sign, or `~`, is put before a value of type `d`. The result is of type `e`. -/
def MakesMutable (m : Machine) (d e : TypeId) : Prop :=
  ∀ (i : Interp) (op : Opcode) (action : Operator.Action) (v : Variable) (r : Reader), v.type = d →
    action = .sign ∨ action = .bitNot →
      ∃ word m', i.unary op action v r m = .ok (Variable.value e word, r) m' ∧ m.SameButFault m'

variable {m : Machine} {d e c : TypeId}

open Exec

theorem withTypes_kept {α : Type} {f : TypeTable → α × TypeTable} {a : α} (h : f m.types = (a, m.types))
    (pending : Option UInt64) :
    withTypes f (m.withFault pending) = .ok a (m.withFault pending) := by
  show EStateM.Result.ok (f m.types).1 { m.withFault pending with types := (f m.types).2 } = _
  rw [h]
  rfl

theorem makesConstant (h : m.types.constant d = (c, m.types)) : m.MakesConstant d c where
  operator i v r hv := by
    obtain ⟨m', hb, pending, rfl⟩ := bits_valueIn v m
    have htype : asType v m = .ok d (m.withFault pending) := by
      rw [asType, bind_ok hb, hv]
      rfl
    refine ⟨_, ?_, pending, rfl⟩
    show ((liftM (asType v) : LevelScript.Run TypeId) >>= _) r m = _
    rw [LevelScript.Run.lift_bind, bind_ok htype]
    show ((liftM (withTypes (·.constant d)) : LevelScript.Run TypeId) >>= _) r _ = _
    rw [LevelScript.Run.lift_bind, bind_ok (withTypes_kept h pending)]
    rfl
  receiver hr hcall := by
    obtain ⟨-, -, ⟨frame, -, pending, rfl⟩, -⟩ := enterScript_ok hcall
    show ((m.copied _).received _).types = _
    rw [hr]
    exact congrArg Prod.snd h

theorem makesMutable (h : m.types.mutableOf d = (e, m.types)) : m.MakesMutable d e := by
  have hmap (f : Kind → UInt64 → UInt64) (v : Variable) (hv : v.type = d) :
      ∃ word m', mapBits f v m = .ok (.value e word) m' ∧ m.SameButFault m' := by
    obtain ⟨m', hb, hs⟩ := bits_valueIn v m
    have htype : withTypes (·.mutableOf v.type) m = .ok e m := by
      rw [hv]
      exact withTypes_kept h m.pending
    refine ⟨extend (m.types.get e) (f (m.types.kind e) (v.valueIn m.types m.memory)), m', ?_, hs⟩
    have hinfo : typeInfo e m = .ok (m.types.get e) m := rfl
    rw [mapBits, bind_ok htype, bind_ok hinfo, bind_ok hb]
    rfl
  intro i op action v r hv ha
  rcases ha with rfl | rfl
  all_goals
    obtain ⟨word, m', hm, hs⟩ := hmap _ v hv
    exact ⟨word, m', bind_ok hm, hs⟩

end Machine

/-! ## All tables -/

namespace TypeTable

section
variable {ts : TypeTable} {id : TypeId}

/-- In every table that a history leads to: an open type and the other version that it is given lead to each
other from then on, just if no other type has the hash of that version. A closed type is never made mutable,
and its constant copy is given again. No program gets further types out of these. -/
theorem const_variants (h : Later initial ts) (hid : id < ts.size) :
    ((ts.get id).flags.closed = false →
      ((ts.get id).isConst = false → ∀ T, Later (ts.constant id).2 T →
        (T.ConstPair id (ts.constant id).1 ↔ ts.Unmistaken ((ts.get id).withConst true))) ∧
      ((ts.get id).isConst = true → ts.constant id = (id, ts) ∧ ∀ T, Later (ts.mutableOf id).2 T →
        (T.ConstPair (ts.mutableOf id).1 id ↔ ts.Unmistaken ((ts.get id).withConst false)))) ∧
    ((ts.get id).flags.closed = true → ts.mutableOf id = (id, ts) ∧
      ((ts.get id).isConst = false → ∀ T, Later (ts.constant id).2 T → T.ConstCopy id (ts.constant id).1)) ∧
    ∀ (m : Machine) (a c : TypeId),
      (m.types.ConstPair a c → ∀ d, d = a ∨ d = c → m.MakesConstant d c ∧ m.MakesMutable d a) ∧
      (m.types.ConstCopy a c → m.MakesConstant a c ∧ ∀ d, d = a ∨ d = c → m.MakesMutable d d) := by
  have hs := (h.keeps sane_initial).sane
  -- what comes later has all that either request gave
  have later (op : TypeOp) (hm : op.Mentions (· < ts.size)) {T : TypeTable} (hT : Later (op.run ts).2 T) :
      (op.run ts).2.Keeps T := hT.keeps (TypeOp.run_keeps hs hm).sane
  refine ⟨fun ho => ⟨fun hm T hT => ?_, fun hc => ⟨constant_of_const hs hid ho hc, fun T hT => ?_⟩⟩,
    fun hc => ⟨mutableOf_closed hc, fun _ T hT => h.constCopy hid hc hT⟩,
      fun m a c => ⟨fun hp d hd => ?_, fun hp => ?_⟩⟩
  · have hk := later (.constant id) hid hT
    exact constPair_constant_iff hs hid ho hm hk.sane hk.grows
  · have hk := later (.mutableOf id) hid hT
    exact constPair_mutableOf_iff hs hid ho hc hk.sane hk.grows
  · exact ⟨Machine.makesConstant (hp.constant hd), Machine.makesMutable (hp.mutableOf hd)⟩
  · exact ⟨Machine.makesConstant hp.constant, fun d hd => Machine.makesMutable (hp.mutableOf hd)⟩

end

/-- Integers and constant integers. -/
theorem const_variants_int32 : ∃ c, ∀ T, Later (initial.constant int32).2 T → T.ConstPair int32 c := by
  have hi : initial.types[int32]? = some (plainInfo .int32 {}) := stocked_initial.primitive rfl
  have hopen : (initial.get int32).flags.closed = false := by rw [get_eq hi]; rfl
  have hmutable : (initial.get int32).isConst = false := by rw [get_eq hi]; rfl
  have hconst : initial.Unmistaken ((initial.get int32).withConst true) := by
    rw [get_eq hi]
    exact agrees_initial (by decide +kernel)
  exact ⟨_, fun T hT => (((const_variants .refl (lt_of_lookup hi)).1 hopen).1 hmutable T hT).mpr hconst⟩

/-- A history leads to a closed type: a pointer to what a name means, which is that pointer. -/
theorem knotted_pointer : ∃ (ts : TypeTable) (r : TypeId), Later initial ts ∧
    ∃ w, ts.types[r]? = some w ∧ w.flags.closed = true ∧ w.isConst = false ∧ w.shape = .pointer r := by
  obtain ⟨ts, hl, hh, hn, hp⟩ := cyclic_history
  obtain ⟨r, ts', hr, w, hw, hconst, hshape⟩ := cyclic_knot hl hh hn hp
  have hlt : 10 < ts.size := by
    rw [hl.size]
    decide
  have hlater : Later initial ts' := by
    have hm : (TypeOp.resolve cyclicLookup 10).Mentions (· < ts.size) :=
      ⟨hlt, fun _ _ he => DeferTarget.type.inj he ▸ hlt⟩
    have hrun := hh.later.step hm
    rwa [show (TypeOp.resolve cyclicLookup 10).run ts = (.ok r, ts') from hr] at hrun
  refine ⟨ts', r, hlater, w, hw, ?_, hconst, hshape⟩
  -- an open type is made of earlier types, and not of itself
  obtain ⟨-, -, hbefore | ⟨hclosed, -⟩⟩ :=
    (hlater.keeps sane_initial).sane.below (s := .pointee) hw (by rw [hshape]; rfl)
  · exact absurd hbefore (Nat.lt_irrefl r)
  · exact hclosed

theorem closed_pointer : ∃ ts r, Later initial ts ∧ r < ts.size ∧ (ts.get r).flags.closed = true ∧
    (ts.get r).isConst = false := by
  obtain ⟨ts, r, hlater, w, hw, hclosed, hconst, -⟩ := knotted_pointer
  exact ⟨ts, r, hlater, lt_of_lookup hw, by rw [get_eq hw]; exact hclosed, by rw [get_eq hw]; exact hconst⟩

/-- A field at an offset that makes the hash of a struct that of `const s32`. -/
def constLike : Field := { name := some 8, type := int64, place := .absolute 8923216444766325584 }

def constLikeStruct : TypeInfo :=
  (ofTypes (primitiveKinds.map (plainInfo · {}))).withLayout { kind := .struct, shape := .struct [constLike] }

/-- The struct is given where `const s32` is asked for. -/
theorem constLike_given : ∃ ts, Later initial ts ∧ ts.types[int32]? = some (plainInfo .int32 {}) ∧
    ts.constant int32 = (9, ts) ∧
    (ts.get 9).isConst = false := by
  obtain ⟨ts, -, hts⟩ := comprises_initial.ask (.struct [constLike] none) (t := constLikeStruct) rfl
    ⟨fun f hf => by rw [List.mem_singleton.mp hf]; decide, nofun⟩ (by decide +kernel)
  have hi : ts.types[int32]? = some (plainInfo .int32 {}) := by
    rw [hts.types]
    rfl
  have hstruct : ts.types[9]? = some ((ofTypes (primitiveKinds.map (plainInfo · {}))).joined constLikeStruct) := by
    rw [hts.types]
    rfl
  have hhash : ((ofTypes (primitiveKinds.map (plainInfo · {}))).joined constLikeStruct).computeHash =
      ((plainInfo .int32 {}).withConst true).computeHash := by decide +kernel
  have hfound := (hts.later.keeps sane_initial).sane.listed hstruct rfl
  refine ⟨ts, hts.later, hi, ?_, by rw [get_eq hstruct]; rfl⟩
  rw [constant_open (by rw [get_eq hi]; rfl), get_eq hi]
  exact register_found (hhash ▸ hfound)

/-- The constant copy of a closed type has no way back and is itself copied, and a struct is mistaken for
`const s32`. -/
theorem const_variants_stray :
    (∃ ts r, Later initial ts ∧ r < ts.size ∧ (ts.get r).isConst = false ∧ (ts.constant r).1 ≠ r ∧
      (ts.constant r).2.mutableOf (ts.constant r).1 = ts.constant r ∧
      ((ts.constant r).2.constant (ts.constant r).1).1 ≠ (ts.constant r).1) ∧
    ∃ ts, Later initial ts ∧ int32 < ts.size ∧ (ts.get int32).isConst = false ∧
      ((ts.constant int32).2.get (ts.constant int32).1).isConst = false ∧
      (ts.constant int32).2.mutableOf (ts.constant int32).1 = ts.constant int32 ∧
      (ts.constant int32).1 ≠ int32 := by
  constructor
  · obtain ⟨ts, r, h, hr, hclosed, hmutable⟩ := closed_pointer
    have hcopy := h.constCopy hr hclosed .refl
    have h' : Later initial (ts.constant r).2 := h.step (show (TypeOp.constant r).Mentions (· < ts.size) from hr)
    have hcopy' := h'.constCopy (lt_of_lookup hcopy.copied) (by rw [get_eq hcopy.copied]; exact hcopy.closed) .refl
    exact ⟨ts, r, h, hr, hmutable, hcopy.later.ne', hcopy.mutableOf (.inr rfl), hcopy'.later.ne'⟩
  · obtain ⟨ts, h, hi, hconst, hnot⟩ := constLike_given
    refine ⟨ts, h, lt_of_lookup hi, by rw [get_eq hi]; rfl, ?_⟩
    rw [hconst]
    exact ⟨hnot, mutableOf_mutable hnot, show 9 ≠ int32 by decide⟩

end TypeTable

end LevelScript
