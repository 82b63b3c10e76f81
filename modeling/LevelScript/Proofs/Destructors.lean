import LevelScript.Proofs.FieldAccess
import LevelScript.Proofs.Globals

/-!
# Methods `delete` and what they see

A struct has a method when its field of that name holds a function. A level is taken away first, and then what
it owned is released. A method `delete` runs as a call and sees its own level and the outermost one, so for an
inner level this is as if it had been called before. When the outermost level is closed, there is none to be seen.
-/

namespace LevelScript

/-! ## Methods -/

/-- A method of the struct at an address: its field lies at `p`, has a function type and does not hold zero, and
`f` is the function in it, which knows the struct that declares the field. -/
structure Machine.MethodAt (m : Machine) (id : TypeId) (addr : UInt64) (name : NameId) (p : TypeTable.PlacedField)
    (f : Variable) : Prop where
  found : m.types.walkField id addr name = some p
  function : m.types.kind p.field.type = .function
  set : m.fieldWord p.ownerAddr p.field ≠ 0
  type : f.type = p.field.type
  word : f.valueIn m.types m.memory = m.fieldWord p.ownerAddr p.field
  receiver : p.field.inlined = none → f.origin = some ⟨name, some (p.owner, p.ownerAddr)⟩

namespace Exec

variable {m : Machine} {id : TypeId} {addr : UInt64} {name : NameId}

theorem method?_found {v : Variable} {m' : Machine} (h : fieldAt? id addr name m = .ok (some v) m')
    (hk : m'.types.kind v.type = .function) {word : UInt64} {m₁ : Machine} (hb : bits v m' = .ok word m₁) :
    method? id addr name m = .ok (if word = 0 then none else some v) m₁ := by
  have hkind : kindOf v m' = .ok .function m' := congrArg (EStateM.Result.ok · m') hk
  rw [method?, bind_ok h]
  refine (bind_ok hkind).trans ((bind_ok hb).trans ?_)
  split <;> rfl

/-- A method is found where its field says so, and nowhere else. -/
theorem method?_cases (m : Machine) (id : TypeId) (addr : UInt64) (name : NameId) :
    (∃ p f, m.MethodAt id addr name p f ∧ method? id addr name m = .ok (some f) m) ∨
      (∀ p f, ¬m.MethodAt id addr name p f) ∧ ∃ m', m.SameButFault m' ∧ method? id addr name m = .ok none m' := by
  cases hw : m.types.walkField id addr name with
  | none =>
    exact .inr ⟨fun p f h => (nomatch hw.symm.trans h.found), m, .refl m, bind_ok (fieldAt?_missing hw)⟩
  | some p =>
    obtain ⟨v, m', hv, ⟨pending, rfl⟩, ht, hfunction⟩ := fieldAt?_found hw
    have same {q : TypeTable.PlacedField} {f : Variable} (h : m.MethodAt id addr name q f) : q = p :=
      Option.some.inj (h.found.symm.trans hw)
    by_cases hk : m.types.kind p.field.type = .function
    · obtain ⟨hword, horigin, hset⟩ := hfunction hk
      obtain ⟨m₁, hb, hs⟩ := bits_valueIn v (m.withFault pending)
      have hmethod := method?_found hv (show (m.withFault pending).types.kind v.type = _ from ht ▸ hk) hb
      rw [show v.valueIn (m.withFault pending).types (m.withFault pending).memory = _ from hword] at hmethod
      by_cases h0 : m.fieldWord p.ownerAddr p.field = 0
      · rw [if_pos h0] at hmethod
        refine .inr ⟨fun q f h => h.set (same h ▸ h0), m₁, .trans ⟨pending, rfl⟩ hs, hmethod⟩
      · rw [if_neg h0] at hmethod
        rw [hset h0] at hb
        cases (bits_reads (reads_of_set (hword.trans_ne h0))).symm.trans hb
        exact .inl ⟨p, v, ⟨hw, hk, h0, ht, hword, horigin⟩, hmethod⟩
    · refine .inr ⟨fun q f h => hk (same h ▸ h.function), m.withFault pending, ⟨pending, rfl⟩, ?_⟩
      have hkind : kindOf v (m.withFault pending) = .ok (m.types.kind p.field.type) (m.withFault pending) := by
        rw [← ht]
        rfl
      rw [method?, bind_ok hv]
      refine (bind_ok hkind).trans ?_
      rw [if_pos hk]
      rfl

end Exec

/-- A method is called with no arguments, if the struct has one. -/
theorem Interp.callMethod_cases (i : Interp) (m : Machine) (id : TypeId) (addr : UInt64) (name : NameId) :
    (∃ p f, m.MethodAt id addr name p f ∧ i.callMethod id addr name m = discard (i.call f []) m) ∨
      (∀ p f, ¬m.MethodAt id addr name p f) ∧ ∃ m', m.SameButFault m' ∧
        i.callMethod id addr name m = .ok () m' := by
  obtain ⟨p, f, hm, h⟩ | ⟨hn, m', hs, h⟩ := Exec.method?_cases m id addr name
  · exact .inl ⟨p, f, hm, by rw [callMethod, Exec.bind_ok h]⟩
  · refine .inr ⟨hn, m', hs, ?_⟩
    rw [callMethod, Exec.bind_ok h]
    rfl

/-! ## What is seen -/

namespace Machine

/-- In a script function that is called now, a name means what the call itself declares, or else this. -/
def Means (m : Machine) (name : NameId) (v : Option Variable) : Prop :=
  ∀ m₁ m₂ call args f, m.Calm m₁ → m₁.Enters call args f m₂ →
    m₂.scopes.lookup name m₂.base = ((m₁.visibleIn f call args).lookup name).or v

section
variable {m m' : Machine} {name : NameId} {v : Variable}

theorem means_global (hd : 0 < m.scopes.depth) (hn : name ≠ NameId.result) (hv : m.scopes.global? name = some v) :
    m.Means name (some v) := by
  intro m₁ m₂ call args f hc he
  have h : Declared m.scopes.depth m m₁ := Law.calm (L := declaring) hc
  rw [he.lookup, h.global hd hn hv]

theorem means_none (hd : m.scopes.depth = 0) (name : NameId) : m.Means name none := by
  intro m₁ m₂ call args f hc he
  have hnone : m₁.scopes.global? name = none := by
    rw [Scopes.global?, Array.getElem?_eq_none (Nat.le_of_eq (hc.depth.trans hd))]
    rfl
  rw [he.lookup, hnone]

end

end Machine

namespace Interp

open Exec

def afterDelete (i : Interp) (close : Exec Unit) (depth frames : Nat) : Except RunError Unit → Exec Unit
  | .ok () => return
  | .error e => do
    Exec.logError e
    i.unwindWith close depth frames
    modify ({ · with control := .running })

section
variable {i : Interp} {close : Exec Unit} {depth : Nat} {m m₁ : Machine} {id : AllocId} {a : Allocation}
  {done rest : List AllocId}

theorem bind_left {α β : Type} {x y : Exec α} {f : α → Exec β} {m m' : Machine} (h : x m = y m') :
    (x >>= f) m = (y >>= f) m' := by
  simp only [bind, EStateM.bind, h]

theorem finalize_struct (i : Interp) (close : Exec Unit) (depth : Nat) (m : Machine) (hs : a.cleanup = .struct) :
    i.finalize close depth a m =
      (do
        i.afterDelete close depth m.frames.size
          (← attempt (i.callMethod a.type a.addr NameId.destructor)) : Exec Unit)
        (m.noted (.finalized a.seq)) := by
  rw [finalize, hs]
  rfl

theorem finalizeAll_append (i : Interp) (close : Exec Unit) (depth : Nat) (done rest : List AllocId) :
    i.finalizeAll close depth
    (done ++ rest) = (do i.finalizeAll close depth done; i.finalizeAll close depth rest) := by
  induction done with
  | nil => rfl
  | cons id ids ih =>
    rw [List.cons_append, finalizeAll, finalizeAll, bind_assoc]
    refine bind_congr fun found => ?_
    cases found <;> simp only [ih, bind_assoc]

/-- Where the turn of an allocation with a method `delete` comes while a level is closed. -/
theorem closeLevelWithin_at {k : Nat} {l : Level} (hl : m.scopes.innermost? = some l)
    (horder : m.heap.releaseOrder l.allocs.toList = done ++ id :: rest)
    (hdone : i.finalizeAll (i.closeLevelWithin k) (m.scopes.depth - 1) done m.shallower = .ok () m₁)
    (ha : m₁.heap.get? id = some a) (hs : a.cleanup = .struct) :
    i.closeLevelWithin (k + 1) m = (do
      i.afterDelete (i.closeLevelWithin k) (m.scopes.depth - 1) m₁.frames.size
        (← attempt (i.callMethod a.type a.addr NameId.destructor))
      i.finalizeAll (i.closeLevelWithin k) (m.scopes.depth - 1) rest : Exec Unit) (m₁.handedOver id a) := by
  have hp : popLevel? m = .ok m.scopes.innermost? { m with scopes := m.scopes.outer } := rfl
  have hd : m.shallower.scopes.depth = m.scopes.depth - 1 := Scopes.depth_outer _
  rw [closeLevelWithin, bind_ok hp, hl]
  show i.finalizeAll _ m.shallower.scopes.depth (m.heap.releaseOrder l.allocs.toList) m.shallower = _
  rw [hd, horder, finalizeAll_append, bind_ok hdone, finalizeAll, bind_ok (takeAllocation_live ha)]
  show (i.finalize _ _ a >>= fun _ => _) (m₁.taken id a) = _
  rw [bind_left (finalize_struct i _ _ (m₁.taken id a) hs), bind_assoc]
  rfl

theorem free_at (hf : m.heap.find? a.addr = some id) (ha : m.heap.get? id = some a) (hs : a.cleanup = .struct) :
    i.free a.addr m = (do
      i.afterDelete i.closeLevel m.scopes.depth m.frames.size
        (← attempt (i.callMethod a.type a.addr NameId.destructor)) : Exec Unit)
        ((m.disowned id a).handedOver id a) := by
  have hd : (m.disowned id a).scopes.depth = m.scopes.depth := Scopes.depth_modifyLevel ..
  rw [free, get_bind]
  simp only [hf, ha]
  have hm : (modify fun m => { m with
      scopes := m.scopes.removeAlloc a.level id
      journal := .deleted a.seq :: m.journal } : Exec PUnit) m = .ok ⟨⟩ (m.disowned id a) := rfl
  refine (bind_ok hm).trans ((bind_ok (takeAllocation_live (m := m.disowned id a) ha)).trans ?_)
  refine (get_bind (m := (m.disowned id a).taken id a)).trans ((finalize_struct i _ _ _ hs).trans ?_)
  show (attempt _ >>= i.afterDelete i.closeLevel (m.disowned id a).scopes.depth m.frames.size) _ = _
  rw [hd]
  rfl

end

end Interp

namespace Machine

open Exec Interp

variable {n k : Nat} {m m₁ : Machine} {l : Level} {done rest : List AllocId} {id : AllocId} {a : Allocation}

/-- The variables of a level are gone before anything that it owned is released. Whatever of it has been released
already, when the turn of an allocation with a method `delete` comes, a global variable is seen in this method as
it is if a script deletes the allocation before the level is closed, unless it is the outermost level that is
closed: then no global variable is seen. -/
theorem destructor_sees_globals (hl : m.scopes.innermost? = some l)
    (horder : m.heap.releaseOrder l.allocs.toList = done ++ id :: rest)
    (hdone : (ofFuel n).finalizeAll ((ofFuel n).closeLevelWithin k) (m.scopes.depth - 1) done m.shallower =
      .ok () m₁)
    (ha : m₁.heap.get? id = some a) (hs : a.cleanup = .struct) :
    (ofFuel n).closeLevelWithin (k + 1) m = (do
      (ofFuel n).afterDelete ((ofFuel n).closeLevelWithin k) (m.scopes.depth - 1) m₁.frames.size
        (← attempt ((ofFuel n).callMethod a.type a.addr NameId.destructor))
      (ofFuel n).finalizeAll ((ofFuel n).closeLevelWithin k) (m.scopes.depth - 1) rest : Exec Unit)
      (m₁.handedOver id a) ∧
    (∀ b, m.heap.find? b.addr = some id → m.heap.get? id = some b → b.cleanup = .struct →
      (ofFuel n).free b.addr m = (do
        (ofFuel n).afterDelete (ofFuel n).closeLevel m.scopes.depth m.frames.size
          (← attempt ((ofFuel n).callMethod b.type b.addr NameId.destructor)) : Exec Unit)
          ((m.disowned id b).handedOver id b) ∧
      ∀ name v, name ≠ NameId.result → m.scopes.global? name = some v →
        ((m.disowned id b).handedOver id b).Means name (some v)) ∧
    ∀ name v, name ≠ NameId.result → m.scopes.global? name = some v →
      (1 < m.scopes.depth → (m₁.handedOver id a).Means name (some v)) ∧
      (m.scopes.depth = 1 → 0 < m.frames.size → m₁.nativeCalls = m.nativeCalls →
        (m₁.handedOver id a).Means name none) := by
  have during (L : Law) (h : L.during (m.scopes.depth - 1) done m m.shallower) :
      L.during (m.scopes.depth - 1) [] m m₁ :=
    (Law.finalizeAll_ends (Law.sound_ofFuel L n) (Law.closeLevelWithin_closes (Law.sound_ofFuel L n) k)
      done _ h).ok hdone
  have hd : Declared (m.scopes.depth - 1) m m₁ := during declaring (declaring.closing hl)
  have hb : Balanced (m.scopes.depth - 1) m m₁ := during balance (balance.closing hl)
  have hpos : 0 < m.scopes.depth := by
    refine Nat.pos_of_ne_zero fun h0 => ?_
    rw [Scopes.innermost?, Array.back?_eq_none_iff.mpr (Array.size_eq_zero_iff.mp h0)] at hl
    cases hl
  refine ⟨closeLevelWithin_at hl horder hdone ha hs, fun b hf hb hs => ⟨free_at hf hb hs, fun name v hn hv => ?_⟩,
    fun name v hn hv => ⟨fun h1 => ?_, fun h1 hframes hq => ?_⟩⟩
  · have hdisowned : Declared m.scopes.depth m ((m.disowned id b).handedOver id b) := declaring.freed hb
    exact means_global (Nat.lt_of_lt_of_le hpos hdisowned.depth) hn (hdisowned.global hpos hn hv)
  · have hd1 : 0 < m.scopes.depth - 1 := by omega
    exact means_global (Nat.lt_of_lt_of_le hd1 hd.depth) hn (hd.global hd1 hn hv)
  · have h0 := (hb.2 ⟨hq, hframes⟩).1
    exact means_none (by rw [h1] at h0; exact h0) name

/-- A struct that a level owns, and a heap with nothing else. -/
def ownedStruct : Allocation :=
  { addr := 0x100000000000, size := 16, type := TypeTable.int32, level := 0, cleanup := .struct, seq := 0 }

def ownedId : AllocId := ⟨0, 0⟩

def owning (levels : Array Level) : Machine :=
  { start {} with heap := { slots := #[⟨0, some ownedStruct⟩], nextSeq := 1 }, scopes := ⟨levels⟩ }

def globalLevel : Level := ({} : Level).adding 50 blockVariable

theorem destructor_sees_globals_owned :
    ((owning #[globalLevel, { allocs := #[ownedId] }]).shallower.handedOver ownedId ownedStruct).Means
      50 (some blockVariable) ∧
    ((owning #[{ globalLevel with allocs := #[ownedId] }]).shallower.handedOver ownedId ownedStruct).Means
      50 none := by
  have order (levels : Array Level) : (owning levels).heap.releaseOrder [ownedId] = [] ++ ownedId :: [] := by
    simp [Heap.releaseOrder, owning, Heap.get?, ownedId]
  have inner :=
    (destructor_sees_globals (n := 0) (k := 0) (m := owning #[globalLevel, { allocs := #[ownedId] }]) rfl
    (order _) rfl rfl rfl).2.2 50 blockVariable (by decide) rfl
  have outermost :=
    (destructor_sees_globals (n := 0) (k := 0) (m := owning #[{ globalLevel with allocs := #[ownedId] }]) rfl
    (order _) rfl rfl rfl).2.2 50 blockVariable (by decide) rfl
  exact ⟨inner.1 (by decide), outermost.2 rfl (by decide) rfl⟩

end Machine

end LevelScript
