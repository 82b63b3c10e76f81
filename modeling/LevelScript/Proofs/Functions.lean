import LevelScript.Machine.Call

/-!
# The table of functions

What is found under a number after each change of the table, and the addresses that functions get.
-/

namespace LevelScript

namespace FunctionTable

variable {t t' : FunctionTable} {id k : Nat} {f g : ScriptFunction}

theorem getElem?_padTo {α : Type} (n : Nat) (a : α) (xs : Array α) (k : Nat) :
    (padTo n a xs)[k]? = if k < xs.size then xs[k]? else if k < n then some a else none := by
  rw [padTo, Array.getElem?_append]
  split
  · rfl
  · rw [Array.getElem?_replicate]
    split <;> split <;> first | rfl | omega

theorem size_padTo {α : Type} (n : Nat) (a : α) (xs : Array α) : (padTo n a xs).size = max xs.size n := by
  rw [padTo, Array.size_append, Array.size_replicate]
  omega

theorem size_insert (t : FunctionTable) (id : Nat) (f : ScriptFunction) :
    (t.insert id f).slots.size = max t.slots.size (id + 1) := by
  rw [insert, Array.size_setIfInBounds, size_padTo]

theorem get?_insert (t : FunctionTable) (id k : Nat) (f : ScriptFunction) :
    (t.insert id f).get? k = if k = id then some f else t.get? k := by
  rw [get?, insert, Array.getElem?_setIfInBounds, getElem?_padTo, size_padTo, get?]
  by_cases h : id = k
  · subst h
    rw [if_pos rfl, if_pos (by omega), if_pos rfl]
    rfl
  · rw [if_neg h, if_neg (Ne.symm h)]
    by_cases hk : k < t.slots.size
    · rw [if_pos hk]
    · rw [if_neg hk, Array.getElem?_eq_none (by omega)]
      split <;> rfl

theorem get?_remove (t : FunctionTable) (id k : Nat) (f : ScriptFunction) :
    (t.remove id f).get? k = if k = id then none else t.get? k := by
  rw [get?, remove, Array.getElem?_setIfInBounds, get?]
  by_cases h : id = k
  · subst h
    rw [if_pos rfl, if_pos rfl]
    split <;> rfl
  · rw [if_neg h, if_neg (Ne.symm h)]

theorem get?_reuse {type : TypeId} {found : Nat × UInt64} (h : t.reuse type = some (found, t')) (k : Nat) :
    t'.get? k = t.get? k := by
  rw [reuse] at h
  split at h
  · cases h
    rfl
  · cases h

theorem get?_insert_self (t : FunctionTable) (id : Nat) (f : ScriptFunction) :
    (t.insert id f).get? id = some f := by
  rw [get?_insert, if_pos rfl]

theorem get?_insert_or (h : (t.insert id f).get? k = some g) : g = f ∨ t.get? k = some g := by
  rw [get?_insert] at h
  split at h
  · exact .inl (Option.some.inj h).symm
  · exact .inr h

theorem get?_of_remove (h : (t.remove id f).get? k = some g) : k ≠ id ∧ t.get? k = some g := by
  rw [get?_remove] at h
  split at h
  · cases h
  case isFalse hk => exact ⟨hk, h⟩

theorem get?_lt (h : t.get? id = some f) : id < t.slots.size := by
  refine Nat.lt_of_not_le fun hn => ?_
  rw [get?, Array.getElem?_eq_none hn] at h
  cases h

theorem classify_insert (t : FunctionTable) (id : Nat) (f : ScriptFunction) :
    (t.insert id f).classify f.stub = .script id := by
  rw [classify, insert, Std.HashMap.getElem?_insert_self]

theorem size_stubs_insert (t : FunctionTable) (id : Nat) (f : ScriptFunction) :
    (t.insert id f).stubs.size = max t.stubs.size (id + 1) := by
  rw [insert, Array.size_setIfInBounds, size_padTo]

theorem stubs_insert (t : FunctionTable) (id k : Nat) (f : ScriptFunction) (hk : k < t.stubs.size ∨ k = id) :
    (t.insert id f).stubs[k]? = if k = id then some f.stub else t.stubs[k]? := by
  rw [insert, Array.getElem?_setIfInBounds, getElem?_padTo, size_padTo]
  by_cases h : id = k
  · rw [if_pos h, if_pos (by omega), if_pos h.symm]
  · rw [if_neg h, if_neg (Ne.symm h), if_pos (by omega)]

theorem classify_insert_of_ne (t : FunctionTable) (id : Nat) {f : ScriptFunction} {addr : UInt64}
    (h : f.stub ≠ addr) :
    (t.insert id f).classify addr = t.classify addr := by
  rw [classify, insert, classify]
  dsimp only
  rw [Std.HashMap.getElem?_insert, if_neg (by rwa [beq_iff_eq])]

theorem classify_remove_of_ne (t : FunctionTable) (id : Nat) {f : ScriptFunction} {addr : UInt64}
    (h : f.stub ≠ addr) :
    (t.remove id f).classify addr = t.classify addr := by
  rw [classify, remove, classify]
  dsimp only
  rw [Std.HashMap.getElem?_erase, if_neg (by rwa [beq_iff_eq])]

theorem cached?_of {key : Nat × Nat} (h : t.cache[key]? = some id) (hf : t.get? id = some f) :
    t.cached? key = some f.stub := by
  simp [cached?, h, hf]

theorem cached?_some {key : Nat × Nat} {stub : UInt64} (h : t.cached? key = some stub) :
    ∃ id f, t.cache[key]? = some id ∧ t.get? id = some f ∧ f.stub = stub := by
  rw [cached?, Option.bind_eq_bind, Option.bind_eq_some_iff] at h
  obtain ⟨id, hid, h⟩ := h
  rw [Option.bind_eq_bind, Option.bind_eq_some_iff] at h
  obtain ⟨f, hf, h⟩ := h
  exact ⟨id, f, hid, hf, Option.some.inj h⟩

theorem cache_insert (t : FunctionTable) (id : Nat) (f : ScriptFunction) (key : Nat × Nat) :
    (t.insert id f).cache[key]? = if f.key = some key then some id else t.cache[key]? := by
  rw [insert]
  cases f.key with
  | none => rfl
  | some k =>
    simp only [Std.HashMap.getElem?_insert, beq_iff_eq, Option.some.injEq]

theorem cache_remove (t : FunctionTable) (id : Nat) (f : ScriptFunction) (key : Nat × Nat) :
    (t.remove id f).cache[key]? = if f.key = some key then none else t.cache[key]? := by
  rw [remove]
  cases f.key with
  | none => rfl
  | some k =>
    simp only [Std.HashMap.getElem?_erase, beq_iff_eq, Option.some.injEq]

/-- A key leads to the live function that has it, and to nothing else. -/
def CacheExact (t : FunctionTable) : Prop :=
  ∀ (key : Nat × Nat) (id : Nat), t.cache[key]? = some id ↔ ∃ f, t.get? id = some f ∧ f.key = some key

theorem CacheExact.not_key (h : t.CacheExact) {key : Nat × Nat} (hk : t.cached? key = none)
    (hg : t.get? k = some g) :
    g.key ≠ some key := by
  intro hkey
  rw [cached?_of ((h key k).mpr ⟨g, hg, hkey⟩) hg] at hk
  cases hk

theorem CacheExact.remove (h : t.CacheExact) (hf : t.get? id = some f) : (t.remove id f).CacheExact := by
  intro key k
  rw [cache_remove, get?_remove]
  by_cases hk : k = id
  · subst hk
    rw [if_pos rfl]
    refine ⟨fun hc => ?_, fun ⟨g, hg, _⟩ => nomatch hg⟩
    split at hc
    · cases hc
    case isFalse hkey =>
      obtain ⟨g, hg, hgk⟩ := (h key k).mp hc
      cases hf.symm.trans hg
      exact absurd hgk hkey
  · rw [if_neg hk]
    split
    case isTrue hkey =>
      refine ⟨nofun, fun hg => ?_⟩
      cases ((h key k).mpr hg).symm.trans ((h key id).mpr ⟨f, hf, hkey⟩)
      exact absurd rfl hk
    case isFalse => exact h key k

/-- A new function may have a key that leads nowhere yet. -/
theorem CacheExact.insert (h : t.CacheExact) (hdead : t.get? id = none)
    (hnew : ∀ key, f.key = some key → t.cached? key = none) : (t.insert id f).CacheExact := by
  intro key k
  rw [cache_insert, get?_insert]
  split
  case isTrue hf =>
    -- no other live function has this key
    refine ⟨fun hk => ⟨f, ?_, hf⟩, fun ⟨g, hg, hgk⟩ => ?_⟩
    · rw [if_pos (Option.some.inj hk).symm]
    · split at hg
      case isTrue hk => rw [hk]
      case isFalse => exact absurd hgk (h.not_key (hnew key hf) hg)
  case isFalse hf =>
    rw [h]
    split
    case isTrue hk =>
      subst hk
      refine ⟨fun ⟨g, hg, _⟩ => ?_, fun ⟨g, hg, hgk⟩ => ?_⟩
      · cases hdead.symm.trans hg
      · cases hg
        exact absurd hgk hf
    case isFalse => rfl

def spare (t : FunctionTable) (type : TypeId) : List Nat := t.free[type]?.getD []

theorem spare_remove (t : FunctionTable) (id : Nat) (f : ScriptFunction) (type : TypeId) :
    (t.remove id f).spare type = if f.type = type then id :: t.spare type else t.spare type := by
  rw [spare, remove, spare]
  simp only [Std.HashMap.getElem?_insert, beq_iff_eq]
  split
  case isTrue h =>
    subst h
    rfl
  case isFalse => rfl

theorem spare_free (t : FunctionTable) (type : TypeId) (more : List Nat) (other : TypeId) :
    spare { t with free := t.free.insert type more } other = if type = other then more else t.spare other := by
  rw [spare, Std.HashMap.getElem?_insert, spare]
  simp only [beq_iff_eq]
  split <;> rfl

/-- The table without the last function that was released of a type. -/
theorem reuse_some {type : TypeId} {found : Nat × UInt64} (h : t.reuse type = some (found, t')) :
    ∃ more, t.spare type = found.1 :: more ∧ found.2 = t.stubs[found.1]?.getD 0 ∧
      t' = { t with free := t.free.insert type more } := by
  rw [reuse] at h
  split at h
  case h_1 id more hf =>
    cases h
    exact ⟨more, by rw [spare, hf]; rfl, rfl, rfl⟩
  case h_2 => cases h

/-! ## Addresses -/

def stubAddress (id : Nat) : UInt64 := 0x300000000000 + 16 * id.toUInt64

def limit : Nat := 0x1000000000000000

theorem stubAddress_inj {a b : Nat} (ha : a < limit) (hb : b < limit)
    (h : stubAddress a = stubAddress b) : a = b := by
  have h := congrArg UInt64.toNat ((UInt64.add_right_inj _).mp h)
  have toNat (n : Nat) (hn : n < limit) : (16 * n.toUInt64).toNat = 16 * n := by
    have hl : limit * 16 = UInt64.size := by decide
    have hs : n.toUInt64.toNat = n := Nat.mod_eq_of_lt (show n < UInt64.size by omega)
    rw [UInt64.toNat_mul, hs]
    exact Nat.mod_eq_of_lt (show 16 * n < UInt64.size by omega)
  rw [toNat a ha, toNat b hb] at h
  omega

theorem stubAddress_succ (id : Nat) : stubAddress (id + 1) = stubAddress id + 16 := by
  have h : (id + 1).toUInt64 = id.toUInt64 + 1 := UInt64.ofNat_add ..
  rw [stubAddress, stubAddress, h, UInt64.mul_add, UInt64.add_assoc]
  rfl

end FunctionTable

end LevelScript
