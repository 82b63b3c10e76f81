import LevelScript.Proofs.Embedding
import LevelScript.Proofs.Repeats

/-!
# Values that stand for types

A type value is the number of a type, and nothing looks whether the table has a type of this number. While all
that a machine refers to is in its table, the operators give types that are in the table, too, and no run takes
a type out of it. Only a conversion can make a type value of any word, and memory can hold one.
-/

namespace LevelScript

open TypeTable

namespace TypeTable

structure Supplies (ts : TypeTable) (r : TypeId × TypeTable) : Prop where
  kept : r.2.Kept
  grows : ts.Grows r.2
  known : r.1 < r.2.size

section
variable {ts : TypeTable} {id : TypeId} {r r' : TypeId × TypeTable}

theorem Supplies.trans (h : ts.Supplies r) (h' : r.2.Supplies r') : ts.Supplies r' :=
  ⟨h'.kept, h.grows.trans h'.grows, h'.known⟩

theorem Kept.primitive (h : ts.Kept) (kind : Kind) (hk : primitiveKinds.idxOf? kind = some id) :
    ts.types[id]? = some (plainInfo kind {}) := h.stock _ _ (stocked_initial.primitive hk)

theorem Kept.primitive_lt (h : ts.Kept) (kind : Kind) (hk : primitiveKinds.idxOf? kind = some id) : id < ts.size :=
  lt_of_lookup (h.primitive kind hk)

end

end TypeTable

namespace TypeOp

section
variable {ts : TypeTable} {op : TypeOp} {id : TypeId} {r : TypeId × TypeTable}

theorem supplies (op : TypeOp) (h : ts.Kept) (hm : op.Mentions (· < ts.size))
    (hr : op.run ts = answered r) : ts.Supplies r := by
  have hk := run_kept h hm
  have hg := (run_keeps h.sane hm).grows
  have hid : r.1 < (op.run ts).2.size := run_known h hm (by rw [hr]; rfl)
  rw [hr] at hk hg hid
  exact ⟨hk, hg, hid⟩

end

end TypeOp

/-! ## Machines whose types are in the table -/

namespace Machine

open Exec

/-- The type of a value is in the table, and so is the type that it stands for. -/
structure Knows (m : Machine) (v : Variable) : Prop where
  type : v.type < m.types.size
  target : m.types.kind v.type = .type → TypeId.ofBits (v.valueIn m.types m.memory) < m.types.size

/-- The table is as requests leave it, and its types are what variables are of and what they stand for. A name that
means a type, also if constant types are known that are still to be made, means one in the table. -/
structure Typed (m : Machine) : Prop where
  kept : m.types.Kept
  declared {k : Nat} {name : NameId} {v : Variable} : m.scopes.var? k name = some v → m.Knows v
  named {ts : TypeTable} {name : NameId} {target : TypeId} : m.types.Grows ts → ts.Kept →
    deferTarget m.scopes m.memory m.base (ts.constant TypeTable.type).1 name = .type target → target < m.types.size

/-- The table has grown, and all that values depend on is as it was. -/
structure Grown (m m' : Machine) : Prop where
  memory : m'.memory = m.memory
  scopes : m'.scopes = m.scopes
  base : m'.base = m.base
  types : m.types.Grows m'.types
  kept : m'.types.Kept

section
variable {m m₁ m₂ : Machine} {v : Variable} {id : TypeId}

theorem Grown.refl (h : m.types.Kept) : m.Grown m := ⟨rfl, rfl, rfl, .refl _, h⟩

theorem Grown.trans (h : m.Grown m₁) (h' : m₁.Grown m₂) : m.Grown m₂ where
  memory := h'.memory.trans h.memory
  scopes := h'.scopes.trans h.scopes
  base := h'.base.trans h.base
  types := h.types.trans h'.types
  kept := h'.kept

theorem Grown.of_fault (h : m.types.Kept) (hf : m.SameButFault m₁) : m.Grown m₁ := by
  obtain ⟨pending, rfl⟩ := hf
  exact ⟨rfl, rfl, rfl, .refl _, h⟩

theorem Grown.place (h : m.types.Kept) (row col : Int) : m.Grown (m.setPosition row col) where
  memory := rfl
  scopes := rfl
  base := by
    unfold Machine.base frame setPosition modifyFrame
    rw [Array.back?_eq_getElem?, Array.back?_eq_getElem?, Array.size_modify, Array.getElem?_modify, if_pos rfl]
    cases m.frames[m.frames.size - 1]? <;> rfl
  types := .refl _
  kept := h

theorem Knows.grown (h : m.Knows v) (hg : m.Grown m₁) : m₁.Knows v := by
  have hget := hg.types.get h.type
  refine ⟨hg.types.lt h.type, fun hk => ?_⟩
  rw [TypeTable.kind, hget] at hk
  rw [Variable.valueIn, hget, hg.memory]
  exact hg.types.lt (h.target hk)

/-- A value by itself does not depend on the memory. -/
theorem Knows.value (h : m.Knows v) (hv : v.isLvalue = false) (hg : m.types.Grows m₁.types) : m₁.Knows v := by
  have hget := hg.get h.type
  refine ⟨hg.lt h.type, fun hk => ?_⟩
  have ht := h.target
  obtain ⟨type, word | addr, origin⟩ := v
  · rw [TypeTable.kind, hget] at hk
    rw [Variable.valueIn, hget]
    exact hg.lt (ht hk)
  · cases hv

theorem Typed.grown (h : m.Typed) (hg : m.Grown m₁) : m₁.Typed where
  kept := hg.kept
  declared hv := by
    rw [hg.scopes] at hv
    exact (h.declared hv).grown hg
  named hts hk ht := by
    rw [hg.scopes, hg.memory, hg.base] at ht
    exact hg.types.lt (h.named (hg.types.trans hts) hk ht)

/-- While nothing is declared, all is in order. -/
theorem Typed.of_no_variables (hk : m.types.Kept) (hs : ∀ k name, m.scopes.var? k name = none) : m.Typed where
  kept := hk
  declared {k name v} hv := by
    rw [hs] at hv
    cases hv
  named {ts name target} _ _ ht := by
    have hl : m.scopes.lookup name m.base = none := Option.bind_eq_none_iff.mpr fun k _ => hs k name
    rw [deferTarget, hl] at ht
    cases ht

/-- A number of the table stands for a type of it, even if it is cut to fit. -/
theorem Typed.knows_typeValue (h : m.Typed) (hid : id < m.types.size) : m.Knows (typeValue id) := by
  refine ⟨h.kept.primitive_lt .type rfl, fun _ => Nat.lt_of_le_of_lt ?_ hid⟩
  have hget : m.types.get TypeTable.type = plainInfo .type {} :=
    get_eq (h.kept.primitive .type rfl)
  show (extend (m.types.get TypeTable.type) id.toUInt64).toNat % UInt32.size ≤ id
  rw [hget]
  exact Nat.le_trans (Nat.mod_le _ _) (Nat.mod_le _ _)

end

end Machine

namespace Exec

open Machine

def Gives (x : Exec α) (m : Machine) (Q : α → Machine → Prop) : Prop :=
  x.Ends m (fun a m' => m.Grown m' ∧ Q a m') (fun _ m' => m.Grown m')

abbrev TypeKnown (v : Variable) (m : Machine) : Prop := v.type < m.types.size

namespace Gives

section
variable {α β : Type} {m : Machine} {x : Exec α} {f : α → Exec β} {P Q : α → Machine → Prop}
  {R : β → Machine → Prop} {a : α}

protected theorem pure (h : m.Typed) (hq : Q a m) : Gives (pure a) m Q := ⟨.refl h.kept, hq⟩

protected theorem bind (hx : Gives x m P) (hf : ∀ a m₁, m.Grown m₁ → P a m₁ → Gives (f a) m₁ R) :
    Gives (x >>= f) m R := by
  apply Ends.bind hx
  · intro a m₁ ⟨hg, ha⟩
    apply Ends.mono (hf a m₁ hg ha)
    · intro b m₂ ⟨hg', hb⟩
      exact ⟨hg.trans hg', hb⟩
    · intro _ m₂ hg'
      exact hg.trans hg'
  · intro _ m₁ hg
    exact hg

theorem after (hx : x m = .ok a m) (hf : Gives (f a) m R) : Gives (x >>= f) m R := (ends_bind_ok hx).mpr hf

theorem get {f : Machine → Exec β} (hf : Gives (f m) m R) : Gives (get >>= f) m R := hf

theorem mono (hx : Gives x m P) (h : ∀ a m', P a m' → Q a m') : Gives x m Q :=
  Ends.mono hx (fun _ _ ha => ⟨ha.1, h _ _ ha.2⟩) fun _ _ hg => hg

theorem raise (h : m.Typed) {c : Cause} : Gives (Exec.raise c) m Q := .refl h.kept

theorem of_looks (h : m.Typed) (hx : Looks x) : Gives x m (fun _ _ => True) :=
  (hx m).mono (fun _ _ hf => ⟨.of_fault h.kept hf, trivial⟩) fun _ _ hf => .of_fault h.kept hf

protected theorem ite {c : Prop} [Decidable c] {y : Exec α} (hx : c → Gives x m Q) (hy : ¬c → Gives y m Q) :
    Gives (if c then x else y) m Q := by
  split
  case isTrue hc => exact hx hc
  case isFalse hc => exact hy hc

theorem withTypes {g : TypeTable → TypeId × TypeTable} (hg : m.types.Supplies (g m.types)) :
    Gives (Exec.withTypes g) m (fun id m' => id < m'.types.size) := ⟨⟨rfl, rfl, rfl, hg.grows, hg.kept⟩, hg.known⟩

end

end Gives

/-! ## Conversions -/

section
variable {m : Machine} {v a b : Variable} {id : TypeId}

theorem bits_gives (h : m.Typed) (v : Variable) :
    Gives (bits v) m (fun word _ => word = v.valueIn m.types m.memory) := by
  obtain ⟨m', hb, hs⟩ := bits_valueIn v m
  rw [Gives, Ends, hb]
  exact ⟨.of_fault h.kept hs, rfl⟩

theorem toValue_gives (h : m.Typed) (hv : v.type < m.types.size) : Gives (toValue v) m TypeKnown :=
  (bits_gives h v).bind fun _ _ hg _ => .pure (h.grown hg) (hg.types.lt hv)

/-- The value of a variable stands for what the variable stands for. -/
theorem toValue_knows (h : m.Typed) (hv : m.Knows v) : Gives (toValue v) m (fun w m' => m'.Knows w) := by
  apply (bits_gives h v).bind
  intro word m₁ hg hw
  apply Gives.pure (h.grown hg)
  have hv₁ := hv.grown hg
  have hword : ({ v with storage := .value word } : Variable).valueIn m₁.types m₁.memory =
      v.valueIn m₁.types m₁.memory := by
    have hget := hg.types.get hv.type
    show extend (m₁.types.get v.type) word = _
    rw [hget, hw, v.extend_valueIn, Variable.valueIn, Variable.valueIn, hget, hg.memory]
  refine ⟨hv₁.type, fun hk => ?_⟩
  rw [hword]
  exact hv₁.target hk

theorem asType_gives (h : m.Typed) (hv : m.Knows v) (hk : m.types.kind v.type = .type) :
    Gives (asType v) m (fun id m' => id < m'.types.size) := by
  apply (bits_gives h v).bind
  intro word m₁ hg hw
  rw [hw]
  exact .pure (h.grown hg) (hg.types.lt (hv.target hk))

theorem asDouble_looks (v : Variable) : Looks (asDouble v) :=
  .bind (bits_looks v) fun _ => .bind (typeInfo_looks _) fun _ => .pure _

theorem unsign_supplies {ts : TypeTable} (h : ts.Kept) {id : TypeId} (hid : id < ts.size) :
    ts.Supplies (ts.unsign id) :=
  TypeOp.supplies (.unsign id) h hid rfl

theorem boolValue_gives (h : m.Typed) (value : Bool) : Gives (boolValue value) m TypeKnown :=
  (Gives.withTypes (unsign_supplies h.kept (h.kept.primitive_lt .int8 rfl))).bind fun _ _ hg hid =>
    .pure (h.grown hg) hid

theorem wordValue_gives (h : m.Typed) (n : UInt64) : Gives (wordValue n) m TypeKnown :=
  (Gives.withTypes (unsign_supplies h.kept (h.kept.primitive_lt .int64 rfl))).bind fun _ _ hg hid =>
    .pure (h.grown hg) hid

/-- A type of the table resolves to one of the table, since no name leads out of it. -/
theorem resolveType_gives (h : m.Typed) (hid : id < m.types.size) :
    Gives (resolveType id) m (fun r m' => r < m'.types.size) := by
  have htype : TypeTable.type < m.types.size := h.kept.primitive_lt .type rfl
  have hconst : m.types.Supplies (m.types.constant TypeTable.type) :=
    TypeOp.supplies (.constant TypeTable.type) h.kept htype rfl
  have hg : m.Grown { m with types := (m.types.constant TypeTable.type).2 } :=
    ⟨rfl, rfl, rfl, hconst.grows, hconst.kept⟩
  apply (ends_bind_ok (x := Exec.withTypes (·.constant TypeTable.type)) rfl).mpr
  apply ends_get.mpr
  generalize hlookup : deferTarget _ _ _ _ = lookup
  have hm : (TypeOp.resolve lookup id).Mentions (· < (m.types.constant TypeTable.type).2.size) := by
    refine ⟨hconst.grows.lt hid, fun name target ht => hconst.grows.lt ?_⟩
    rw [← hlookup] at ht
    exact h.named (.refl _) h.kept ht
  have hkept := TypeOp.run_kept hconst.kept hm
  have hgrows := (TypeOp.run_keeps hconst.kept.sane hm).grows
  have hknown (r : TypeId) := @TypeOp.run_known _ _ r hconst.kept hm
  generalize hres : (TypeOp.resolve lookup id).run (m.types.constant TypeTable.type).2 = res at hkept hgrows hknown
  have hstep : Exec.withTypes (·.resolve lookup id) { m with types := (m.types.constant TypeTable.type).2 } =
      .ok res.1 { m with types := res.2 } := by
    rw [← hres]
    rfl
  have hgrown : m.Grown { m with types := res.2 } := ⟨rfl, rfl, rfl, hconst.grows.trans hgrows, hkept⟩
  apply (ends_bind_ok hstep).mpr
  cases hr : res.1 with
  | ok r => exact ⟨hgrown, hknown r hr⟩
  | error e => exact hgrown

theorem cast_gives (h : m.Typed) (hid : id < m.types.size) (v : Variable) : Gives (cast id v) m TypeKnown := by
  apply (resolveType_gives h hid).bind
  intro target m₁ hg htarget
  have h₁ := h.grown hg
  apply Gives.after rfl
  apply (bits_gives h₁ v).bind
  intro word m₂ hg₂ _
  apply Gives.after rfl
  apply (Gives.of_looks (h₁.grown hg₂) (asDouble_looks v)).bind
  intro double m₃ hg₃ _
  exact .pure ((h₁.grown hg₂).grown hg₃) (hg₃.types.lt (hg₂.types.lt htarget))

theorem bitcast_gives (h : m.Typed) (hid : id < m.types.size) (v : Variable) :
    Gives (bitcast id v) m TypeKnown := by
  apply (resolveType_gives h hid).bind
  intro target m₁ hg htarget
  have h₁ := h.grown hg
  apply Gives.after rfl
  apply (bits_gives h₁ v).bind
  intro word m₂ hg₂ _
  exact .pure (h₁.grown hg₂) (hg₂.types.lt htarget)

theorem truthy_gives (h : m.Typed) (hv : m.Knows v) : Gives (truthy v) m (fun _ _ => True) := by
  apply Gives.after rfl
  split
  case h_1 hk =>
    apply Gives.after rfl
    apply (asType_gives h hv hk).bind
    intro id m₁ hg hid
    apply (resolveType_gives (h.grown hg) hid).bind
    intro r m₂ hg₂ _
    exact .pure ((h.grown hg).grown hg₂) trivial
  case h_2 => exact .of_looks h (.bind (asDouble_looks v) fun _ => .pure _)
  case h_3 => exact .of_looks h (.bind (asDouble_looks v) fun _ => .pure _)
  case h_4 => exact .of_looks h (.bind (bits_looks v) fun _ => .pure _)

end

/-! ## Operators -/

section
variable {m : Machine} {v a b : Variable} {id : TypeId}

theorem Looks.raise {α : Type} (c : Cause) : Looks (Exec.raise c : Exec α) := fun m => .refl m

theorem isNegative_looks (v : Variable) : Looks (isNegative v) :=
  .bind (bits_looks v) fun _ => .bind (typeInfo_looks _) fun _ => .pure _

theorem compute_looks (op : Opcode) (type : TypeId) (x y : Variable) : Looks (compute op type x y) := by
  apply Looks.bind (typeInfo_looks type)
  intro t
  apply Looks.ite
  · split
    · exact .bind (asDouble_looks x) fun _ => .bind (asDouble_looks y) fun _ => .pure _
    · exact .raise _
  · apply Looks.bind (bits_looks x)
    intro n
    apply Looks.bind (bits_looks y)
    intro k
    split
    · exact .pure _
    · exact .raise _
    · exact .raise _

theorem commonType_gives (h : m.Typed) (a b : Variable) :
    Gives (commonType a b) m (fun id m' => id < m'.types.size) := by
  apply Gives.withTypes
  dsimp only
  split
  · have hp (kind : Kind) : m.types.Supplies (m.types.primitive kind) :=
      TypeOp.supplies (.primitive kind) h.kept trivial rfl
    split
    · exact (hp _).trans (unsign_supplies (hp _).kept (hp _).known)
    · exact hp _
  · exact unsign_supplies h.kept (h.kept.primitive_lt .int64 rfl)

theorem promote_gives (h : m.Typed) (a b : Variable) : Gives (promote a b) m (fun p m' => p.1 < m'.types.size) := by
  apply (commonType_gives h a b).bind
  intro type m₁ hg htype
  have h₁ := h.grown hg
  apply (cast_gives h₁ htype a).bind
  intro x m₂ hg₂ _
  have h₂ := h₁.grown hg₂
  apply (cast_gives h₂ (hg₂.types.lt htype) b).bind
  intro y m₃ hg₃ _
  exact .pure (h₂.grown hg₃) (hg₃.types.lt (hg₂.types.lt htype))

theorem arithmetic_gives (h : m.Typed) (op : Opcode) (a b : Variable) : Gives (arithmetic op a b) m TypeKnown := by
  apply (promote_gives h a b).bind
  intro ⟨type, x, y⟩ m₁ hg htype
  have h₁ := h.grown hg
  apply (Gives.of_looks h₁ (compute_looks op type x y)).bind
  intro word m₂ hg₂ _
  exact .pure (h₁.grown hg₂) (hg₂.types.lt htype)

theorem ordering?_gives (h : m.Typed) (a b : Variable) : Gives (ordering? a b) m (fun _ _ => True) := by
  apply (promote_gives h a b).bind
  intro ⟨type, x, y⟩ m₁ hg _
  apply Gives.of_looks (h.grown hg)
  apply Looks.bind (typeInfo_looks type)
  intro t
  apply Looks.ite
  · exact .bind (asDouble_looks x) fun _ => .bind (asDouble_looks y) fun _ => .pure _
  · apply Looks.bind (isNegative_looks a)
    intro p
    apply Looks.bind (isNegative_looks b)
    intro q
    split
    · exact .pure _
    · exact .pure _
    · exact .bind (bits_looks x) fun _ => .bind (bits_looks y) fun _ => .pure _

theorem mapBits_gives (h : m.Typed) (f : Kind → UInt64 → UInt64) (hv : v.type < m.types.size) :
    Gives (mapBits f v) m TypeKnown := by
  apply (Gives.withTypes (TypeOp.supplies (.mutableOf v.type) h.kept hv rfl)).bind
  intro type m₁ hg htype
  have h₁ := h.grown hg
  apply Gives.after rfl
  apply (bits_gives h₁ v).bind
  intro word m₂ hg₂ _
  exact .pure (h₁.grown hg₂) (hg₂.types.lt htype)

theorem pointerOffset_gives (h : m.Typed) (op : Opcode) (ha : a.type < m.types.size) (hb : b.type < m.types.size) :
    Gives (pointerOffset op a b) m TypeKnown := by
  have moved {m : Machine} (h : m.Typed) (p index : Variable) (hp : p.type < m.types.size) : Gives (do
      let offset := (← bits index) * stride (← get).types p.type
      let base ← bits p
      return Variable.value p.type (if op = .subtraction then base - offset else base + offset)) m TypeKnown := by
    apply (bits_gives h index).bind
    intro n m₁ hg _
    apply Gives.after rfl
    apply (bits_gives (h.grown hg) p).bind
    intro word m₂ hg₂ _
    exact .pure ((h.grown hg).grown hg₂) (hg₂.types.lt (hg.types.lt hp))
  apply (Gives.of_looks h (x := kindOf a) fun m => .refl m).bind
  intro kind m₁ hg _
  dsimp only
  split
  · exact moved (h.grown hg) a b (hg.types.lt ha)
  · exact moved (h.grown hg) b a (hg.types.lt hb)

/-! ## What a type is made of -/

theorem next_lt {ts : TypeTable} (h : ts.Kept) (hid : id < ts.size) {s : TypeStep} {c : TypeId}
    (hs : (ts.get id).shape.next? s = some c) : c < ts.size := h.sane.next_lt (lookup_of_lt hid) hs

theorem base_lt {ts : TypeTable} (h : ts.Kept) (hid : id < ts.size) {base : TypeId}
    (hb : (ts.get id).base? = some base) :
    base < ts.size := by
  apply next_lt (s := .pointee) h hid
  unfold TypeInfo.base? at hb
  split at hb
  case h_1 hs =>
    cases hb
    rw [hs]
    rfl
  case h_2 => cases hb

theorem result_lt {ts : TypeTable} (h : ts.Kept) (hid : id < ts.size) {result : TypeId}
    (hr : (ts.get id).result? = some result) :
    result < ts.size := by
  apply next_lt (s := .result) h hid
  unfold TypeInfo.result? at hr
  split at hr
  case h_1 hs =>
    cases hr
    rw [hs]
    rfl
  case h_2 => cases hr

theorem params_lt {ts : TypeTable} (h : ts.Kept) (hid : id < ts.size) {p : Param}
    (hp : p ∈ (ts.get id).params) : p.type < ts.size := by
  unfold TypeInfo.params at hp
  split at hp
  case h_1 result params hs =>
    obtain ⟨s, hn⟩ := TypeShape.next?_param result hp
    exact next_lt h hid (hs ▸ hn)
  case h_2 => cases hp

theorem elementAt_gives (h : m.Typed) (hid : id < m.types.size) (addr : UInt64) :
    Gives (elementAt id addr) m TypeKnown := by
  have hbase : ((m.types.get id).base?).getD TypeTable.void < m.types.size := by
    cases hb : (m.types.get id).base? with
    | none => exact h.kept.primitive_lt .void rfl
    | some base => exact base_lt h.kept hid hb
  apply Gives.after rfl
  apply Gives.after rfl
  apply (Gives.of_looks h (.bind (peek_looks addr _) fun _ => .pure _)).bind
  intro _ m₁ hg _
  have h₁ := h.grown hg
  apply Gives.ite
  · intro _
    exact toValue_gives h₁ (hg.types.lt hbase)
  · intro _
    exact .pure h₁ (hg.types.lt hbase)

theorem dereference_gives (h : m.Typed) (hv : v.type < m.types.size) : Gives (dereference v) m TypeKnown := by
  apply (bits_gives h v).bind
  intro addr m₁ hg _
  apply Gives.ite
  · intro _
    exact .bind (P := fun _ _ => False) (.raise (h.grown hg)) fun _ _ _ hf => hf.elim
  · intro _
    exact elementAt_gives (h.grown hg) (hg.types.lt hv) addr

theorem dereferenceType_gives (h : m.Typed) (hv : m.Knows v) (hk : m.types.kind v.type = .type) :
    Gives (dereferenceType v) m (fun w m' => m'.Knows w) := by
  apply (asType_gives h hv hk).bind
  intro id m₁ hg hid
  have h₁ := h.grown hg
  apply Gives.after rfl
  split
  case h_1 inner hs =>
    apply Gives.pure h₁
    apply h₁.knows_typeValue
    cases hb : (m₁.types.get id).base? with
    | some base =>
      rw [hb] at hs
      cases hs
      exact base_lt h₁.kept hid hb
    | none =>
      rw [hb] at hs
      exact result_lt h₁.kept hid hs
  case h_2 => exact .bind (.of_looks h₁ (displayType_looks id)) fun _ _ hg₂ _ => .raise (h₁.grown hg₂)

theorem addressOf_gives (h : m.Typed) (hv : v.type < m.types.size) : Gives (addressOf v) m TypeKnown := by
  unfold addressOf
  split
  · exact .raise h
  · apply (Gives.withTypes (TypeOp.supplies (.pointer v.type) h.kept hv rfl)).bind
    intro id m₁ hg hid
    exact .pure (h.grown hg) hid

theorem allocationInfo_gives (h : m.Typed) (op : Opcode) (v : Variable) :
    Gives (allocationInfo op v) m TypeKnown := by
  apply (bits_gives h v).bind
  intro addr m₁ hg _
  exact .get (wordValue_gives (h.grown hg) _)

theorem memberType_gives (h : m.Typed) (hid : id < m.types.size) (name : NameId) :
    Gives (memberType id name) m (fun w m' => m'.Knows w) := by
  apply (resolveType_gives h hid).bind
  intro type m₁ hg htype
  have h₁ := h.grown hg
  have failed (c : String → Cause) : Gives (do raise (c (← nameText name))) m₁ (fun w m' => m'.Knows w) :=
    .bind (.of_looks h₁ (nameText_looks name)) fun _ _ hg₂ _ => .raise (h₁.grown hg₂)
  apply Gives.get
  dsimp only
  split
  · split
    case h_1 f hf => exact .pure h₁ (h₁.knows_typeValue (h₁.kept.sane.field_lt (List.mem_of_find?_eq_some hf)))
    case h_2 => exact failed _
  · split
    case h_1 p hp => exact .pure h₁ (h₁.knows_typeValue (params_lt h₁.kept htype (List.mem_of_find?_eq_some hp)))
    case h_2 => exact failed _
  · exact .raise h₁

theorem walkIn_known {ts : TypeTable} {P : Field → Prop} {owner : TypeId} {addr : UInt64} {name : NameId}
    {inner : TypeId → UInt64 → Option PlacedField}
    (hi : ∀ id addr place, inner id addr = some place → P place.field) {place : PlacedField} :
    ∀ fields, (∀ f ∈ fields, P f) → ts.walkIn owner addr name inner fields = some place → P place.field
  | [], _, hs => by cases hs
  | f :: fs, hp, hs => by
    have rest (h : ts.walkIn owner addr name inner fs = some place) : P place.field :=
      walkIn_known hi fs (fun g hg => hp g (List.mem_cons_of_mem _ hg)) h
    rw [walkIn] at hs
    dsimp only at hs
    split at hs
    · obtain hs | ⟨-, hs⟩ := (Option.orElse_eq_some ..).mp hs
      · split at hs
        · exact hi _ _ place hs
        · cases hs
      · exact rest hs
    · split at hs
      · cases hs
        exact hp f (List.mem_cons_self ..)
      · exact rest hs

theorem walk_known {ts : TypeTable} (h : ts.Kept) {name : NameId} {place : PlacedField} : ∀ n id addr,
    ts.walk name n id addr = some place → place.field.type < ts.size
  | 0, _, _, hs => by cases hs
  | n + 1, id, addr, hs => by
    refine walkIn_known (P := fun f => f.type < ts.size) (fun id addr place => ?_) _ (fun f hf => ?_) hs
    · exact walk_known h n id addr
    · exact h.sane.field_lt hf

theorem fieldAt?_gives (h : m.Typed) (id : TypeId) (addr : UInt64) (name : NameId) :
    Gives (fieldAt? id addr name) m (fun r m' => ∀ v ∈ r, v.type < m'.types.size) := by
  apply Gives.after rfl
  split
  case h_1 => exact .pure h nofun
  case h_2 place hs =>
    have hf : place.field.type < m.types.size := walk_known h.kept _ _ _ hs
    have rest (v : Variable) (t : TypeInfo) (m₁ : Machine) (hg : m.Grown m₁)
      (hv : v.type < m₁.types.size) : Gives (do
        if t.kind = .function then
          return some { v with origin := some ⟨name, some (place.owner, place.ownerAddr)⟩ }
        return some v) m₁ (fun r m' => ∀ v ∈ r, v.type < m'.types.size) := by
      apply Gives.ite
      · intro _
        apply Gives.pure (h.grown hg)
        rintro _ ⟨⟩
        exact hv
      · intro _
        apply Gives.pure (h.grown hg)
        rintro _ ⟨⟩
        exact hv
    apply Gives.ite
    · intro _
      apply Gives.pure h
      rintro _ ⟨⟩
      exact hf
    · intro _
      apply Gives.after rfl
      apply Gives.ite
      · intro _
        apply (toValue_gives h (v := .atAddress place.field.type _) hf).bind
        intro w m₁ hg hw
        exact rest w _ m₁ hg hw
      · intro _
        apply Gives.after rfl
        exact rest _ _ m (.refl h.kept) hf

theorem member_gives (h : m.Typed) (v : Variable) (name : NameId) : Gives (member v name) m TypeKnown := by
  apply (bits_gives h v).bind
  intro addr m₁ hg _
  have h₁ := h.grown hg
  apply Gives.ite
  · intro _
    exact .bind (P := fun _ _ => False) (.raise h₁) fun _ _ _ hf => hf.elim
  · intro _
    apply (fieldAt?_gives h₁ v.type addr name).bind
    intro found m₂ hg₂ hf
    have h₂ := h₁.grown hg₂
    split
    case h_1 w => exact .pure h₂ (hf w rfl)
    case h_2 => exact .bind (.of_looks h₂ (nameText_looks name)) fun _ _ hg₃ _ => .raise (h₂.grown hg₃)

theorem load_gives (h : m.Typed) (name : NameId) : Gives (load name) m (fun v m' => m'.Knows v) := by
  have found : Gives (load? name) m (fun r m' => ∀ v ∈ r, m'.Knows v) := by
    apply Gives.after rfl
    split
    case h_1 => exact .pure h nofun
    case h_2 v hv =>
      have hk : m.Knows v := by
        obtain ⟨k, -, hv⟩ := Option.bind_eq_some_iff.mp hv
        exact h.declared hv
      apply Gives.ite
      · intro _
        apply (toValue_knows h hk).bind
        intro w m₁ hg hw
        apply Gives.pure (h.grown hg)
        rintro _ ⟨⟩
        exact ⟨hw.type, hw.target⟩
      · intro _
        apply Gives.after rfl
        apply Gives.pure h
        rintro _ ⟨⟩
        exact ⟨hk.type, hk.target⟩
  apply found.bind
  intro r m₁ hg hr
  have h₁ := h.grown hg
  split
  case h_1 v => exact .pure h₁ (hr v rfl)
  case h_2 => exact .bind (.of_looks h₁ (nameText_looks name)) fun _ _ hg₂ _ => .raise (h₁.grown hg₂)

end

end Exec

end LevelScript
