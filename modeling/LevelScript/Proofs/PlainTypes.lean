import LevelScript.Proofs.TypeGrowth
import LevelScript.Proofs.Words

/-!
# Types without structure in the table

The types that operators on integers ask for have no structure, and no two of them have one hash. A table
in which no other type has the hash of one of them answers every request for one with just that type, and
what is in it stays there.
-/

namespace LevelScript

namespace TypeTable

def plainInfo (kind : Kind) (flags : TypeFlags) : TypeInfo :=
  let t := { plainType kind with flags }
  { t with hash := t.computeHash }

/-- The types that are in every table, the unsigned integers, and the constant type. -/
def stock : List TypeInfo :=
  primitiveKinds.map (plainInfo · {}) ++ [plainInfo .type { isConst := true }] ++
    [.int8, .int16, .int32, .int64].map (plainInfo · { unsigned := true })

theorem stock_hash : ∀ a ∈ stock, ∀ b ∈ stock, TypeInfo.hash a = TypeInfo.hash b → a = b := by decide +kernel

def Indexed (ts : TypeTable) : Prop :=
  ∀ hash id, ts.interned[hash]? = some id → ∃ t : TypeInfo, ts.types[id]? = some t ∧ t.hash = hash

section
variable {ts : TypeTable} {t : TypeInfo}

theorem Indexed.added (h : ts.Indexed) (t : TypeInfo) : (ts.added t).Indexed := by
  intro hash id hi
  rw [TypeTable.added, Std.HashMap.getElem?_insert] at hi
  split at hi
  case isTrue he =>
    cases hi
    exact ⟨t, ts.added_last t, eq_of_beq he⟩
  case isFalse =>
    obtain ⟨u, hu, hh⟩ := h hash id hi
    exact ⟨u, ts.added_grows t id u hu, hh⟩

theorem register_new (h : ts.interned[t.computeHash]? = none) (hp : t.shape = .plain) :
    ts.register t = (ts.types.size, ts.added { t with hash := t.computeHash, containsParent := false }) := by
  unfold register
  simp only [h, hp, shapeContainsParent]
  rfl

theorem interned_new (h : ts.Indexed) {hash : UInt64} (hn : ∀ u ∈ ts.types.toList, u.hash ≠ hash) :
    ts.interned[hash]? = none := by
  cases hi : ts.interned[hash]? with
  | none => rfl
  | some id =>
    obtain ⟨u, hu, hh⟩ := h hash id hi
    exact absurd hh (hn u (List.mem_of_getElem? (by rw [Array.getElem?_toList]; exact hu)))

/-! ## The first table -/

theorem foldl_register (kinds : List Kind) : ∀ ts : TypeTable, ts.Indexed →
    ((ts.types.toList ++ kinds.map (plainInfo · {})).map TypeInfo.hash).Nodup →
    (kinds.foldl (fun ts kind => (ts.register (plainType kind)).2) ts).Indexed ∧
      (kinds.foldl (fun ts kind => (ts.register (plainType kind)).2) ts).types.toList =
        ts.types.toList ++ kinds.map (plainInfo · {}) := by
  induction kinds with
  | nil => exact fun ts h _ => ⟨h, (List.append_nil _).symm⟩
  | cons kind kinds ih =>
    intro ts h hn
    have hnew : ts.interned[(plainType kind).computeHash]? = none := by
      refine interned_new h fun u hu he => ?_
      rw [List.map_append, List.nodup_append] at hn
      exact hn.2.2 _ (List.mem_map_of_mem hu) _ (List.mem_cons_self ..) he
    have hl : (ts.added (plainInfo kind {})).types.toList = ts.types.toList ++ [plainInfo kind {}] :=
      Array.toList_push
    rw [List.foldl_cons, register_new hnew rfl]
    have := ih (ts.added (plainInfo kind {})) (h.added _) (by rw [hl, List.append_assoc]; exact hn)
    rw [hl, List.append_assoc] at this
    exact this

theorem initial_types : initial.Indexed ∧ initial.types.toList = primitiveKinds.map (plainInfo · {}) :=
  foldl_register primitiveKinds ⟨#[], ∅, ∅, ∅⟩ (fun hash id h => by simp at h) (by decide +kernel)

end

/-! ## Tables with the types of integer operators -/

/-- No other type is mistaken for one of the stock: their hashes lead to them or to nothing. -/
structure Stocked (ts : TypeTable) : Prop where
  told {t : TypeInfo} {id : TypeId} : t ∈ stock → ts.interned[t.hash]? = some id → ts.types[id]? = some t
  primitive {kind : Kind} {id : TypeId} : primitiveKinds.idxOf? kind = some id →
      ts.types[id]? = some (plainInfo kind {})

theorem stocked_initial : initial.Stocked := by
  have hl := initial_types.2
  refine ⟨fun {t id} ht hi => ?_, fun {kind id} h => ?_⟩
  · obtain ⟨u, hu, hh⟩ := initial_types.1 _ _ hi
    have hm : u ∈ primitiveKinds.map (plainInfo · {}) := by
      rw [← hl]
      exact List.mem_of_getElem? (by rw [Array.getElem?_toList]; exact hu)
    rw [← stock_hash u (List.mem_append_left _ (List.mem_append_left _ hm)) t ht hh]
    exact hu
  · have hk : primitiveKinds[id]? = some kind := by
      cases kind <;> first | cases h; rfl | cases h
    rw [← Array.getElem?_toList, hl, List.getElem?_map, hk]
    rfl

section
variable {ts : TypeTable}

/-- The table grows to one with the same properties, in which `id` is the type asked for. -/
structure Gives (ts : TypeTable) (t : TypeInfo) (r : TypeId × TypeTable) : Prop where
  stocked : r.2.Stocked
  grows : ts.Grows r.2
  found : r.2.types[r.1]? = some t

theorem Stocked.register (h : ts.Stocked) {t u : TypeInfo} (hp : t.shape = .plain)
    (hu : { t with hash := t.computeHash, containsParent := false } = u) (hs : u ∈ stock) :
    ts.Gives u (ts.register t) := by
  have hh : t.computeHash = u.hash := congrArg TypeInfo.hash hu
  cases hi : ts.interned[t.computeHash]? with
  | none =>
    rw [register_new hi hp, hu]
    refine ⟨⟨fun {v id} hv hf => ?_, fun hk => added_grows ts _ _ _ (h.primitive hk)⟩, added_grows ts _,
      added_last ts _⟩
    rw [added, Std.HashMap.getElem?_insert] at hf
    split at hf
    case isTrue he =>
      cases hf
      rw [← stock_hash u hs v hv (eq_of_beq he)]
      exact added_last ts u
    case isFalse => exact added_grows ts u _ _ (h.told hv hf)
  | some id =>
    have hr : ts.register t = (id, ts) := by
      unfold TypeTable.register
      simp only [hi]
    rw [hr]
    exact ⟨h, .refl ts, h.told hs (hh ▸ hi)⟩

/-- The hash that a type has already does not count. -/
theorem register_flags (kind : Kind) (old flags : TypeFlags) :
    let t := { plainInfo kind old with flags }
    { t with hash := t.computeHash, containsParent := false } = plainInfo kind flags := by
  have h (t : TypeInfo) (hash : UInt64) : TypeInfo.computeHash { t with hash } = t.computeHash := rfl
  exact congrArg (fun hash => { plainType kind with flags, hash }) (h { plainType kind with flags } _)

theorem get_eq {id : TypeId} {t : TypeInfo} (h : ts.types[id]? = some t) : ts.get id = t := by
  rw [get, h]
  rfl

theorem Stocked.unsign (h : ts.Stocked) {kind : Kind} (hk : kind ∈ [Kind.int8, .int16, .int32, .int64])
    {id : TypeId} (hi : ts.types[id]? = some (plainInfo kind {})) :
    ts.Gives (plainInfo kind { unsigned := true }) (ts.unsign id) := by
  have hu : ts.unsign id = ts.register { plainInfo kind {} with flags := { unsigned := true } } := by
    unfold TypeTable.unsign
    rw [get_eq hi]
    rfl
  rw [hu]
  exact h.register rfl (register_flags kind {} _) (List.mem_append_right _ (List.mem_map_of_mem hk))

theorem constant_type (h : ts.types[type]? = some (plainInfo .type {})) :
    ts.constant type = ts.register { plainInfo .type {} with flags := { isConst := true } } := by
  rw [constant, get_eq h]
  rfl

theorem Stocked.constant (h : ts.Stocked) : ts.Gives (plainInfo .type { isConst := true }) (ts.constant type) := by
  rw [constant_type (h.primitive rfl)]
  exact h.register rfl (register_flags .type {} _)
    (List.mem_append_left _ (List.mem_append_right _ (List.mem_singleton.mpr rfl)))

theorem resolve_plain {id : TypeId} {kind : Kind} {flags : TypeFlags}
    (h : ts.types[id]? = some (plainInfo kind flags)) (hc : flags.closed = false) (hk : kind ≠ .struct)
    (lookup : Lookup) : ts.resolve lookup id = (.ok id, ts) := by
  have hg := get_eq h
  have inner (n : Nat) : resolveInner lookup (n + 1) [] id ts = (.ok id, ts) := by
    show (if (ts.get id).flags.closed then pure id else _ : Resolver TypeId) ts = _
    rw [hg, if_neg (show ¬(plainInfo kind flags).flags.closed = true from Bool.eq_false_iff.mp hc)]
    rfl
  have hv (n : Nat) : ts.validate (n + 1) [] id = .ok () := by
    rw [validate, hg]
    exact if_pos (bne_iff_ne.mpr hk)
  have hp : ¬(plainInfo kind flags).containsParent = true := Bool.false_ne_true
  unfold resolve
  simp only [inner, hg, if_neg hp, hv]

end

end TypeTable

end LevelScript
