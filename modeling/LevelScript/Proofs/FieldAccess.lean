import LevelScript.Proofs.Bytes
import LevelScript.Proofs.Entry
import LevelScript.Proofs.InlineNesting
import LevelScript.Proofs.Quiet
import LevelScript.Proofs.TypeSizes

/-!
# Fields by their names

A field is searched twice over: by its offset, to give it a value when a struct is made, and by its address,
to read it. Both searches find the first field of the name among all that can be meant, and so what is read
is what was given.
-/

namespace LevelScript

namespace TypeTable

namespace FieldSite

def placed (addr : UInt64) (s : FieldSite) : PlacedField := ⟨s.owner, addr + s.ownerOffset, s.field⟩

theorem placed_addr (addr : UInt64) (s : FieldSite) : (s.placed addr).addr = addr + s.offset := UInt64.add_assoc ..

theorem placed_shift (addr offset : UInt64) (s : FieldSite) :
    (s.shift offset).placed addr = s.placed (addr + offset) :=
  congrArg (PlacedField.mk s.owner · s.field) (UInt64.add_assoc ..).symm

end FieldSite

/-- The fields of a struct in the order of their declaration; those of a struct inside that has no name
take its place. -/
def sites (ts : TypeTable) : Nat → TypeId → List FieldSite
  | 0, _ => []
  | n + 1, id => (ts.get id).fields.flatMap fun f =>
    if f.inlined.isSome && f.name.isNone then (sites ts n f.type).map (·.shift f.offset) else [⟨id, 0, f⟩]

section
variable {ts ts' : TypeTable} {name : NameId}

/-! ## Two searches -/

theorem locateIn_find {owner : TypeId} {inner : TypeId → Option FieldSite} {sitesOf : TypeId → List FieldSite}
    (h : ∀ c, inner c = (sitesOf c).find? (·.field.name == some name)) (fields : List Field) :
    locateIn owner name inner fields =
      (fields.flatMap fun f => if f.inlined.isSome && f.name.isNone then (sitesOf f.type).map (·.shift f.offset)
        else [⟨owner, 0, f⟩]).find? (·.field.name == some name) := by
  induction fields with
  | nil => rfl
  | cons f fs ih =>
    rw [locateIn, ih, List.flatMap_cons, List.find?_append, Option.orElse_eq_orElse, Option.orElse_eq_or, h]
    congr 1
    by_cases hc : (f.inlined.isSome && f.name.isNone) = true
    · simp only [if_pos hc, List.find?_map]
      rfl
    · simp only [if_neg hc, List.find?_singleton, beq_iff_eq]

theorem locate_find : ∀ (n : Nat) (id : TypeId),
    ts.locate name n id = (ts.sites n id).find? (·.field.name == some name)
  | 0, _ => rfl
  | n + 1, _ => locateIn_find (fun c => locate_find n c) _

theorem walkIn_locateIn {owner : TypeId} {addr : UInt64} {inner : TypeId → UInt64 → Option PlacedField}
    {inner' : TypeId → Option FieldSite} : ∀ {fields : List Field},
      (∀ f ∈ fields, f.inlined.isSome = true → f.name = none →
        ts.kind f.type = .struct ∧ ∀ at_, inner f.type at_ = (inner' f.type).map (·.placed at_)) →
      ts.walkIn owner addr name inner fields = (locateIn owner name inner' fields).map (·.placed addr)
  | [], _ => rfl
  | f :: fs, h => by
    rw [List.forall_mem_cons] at h
    rw [walkIn, locateIn, walkIn_locateIn h.2]
    simp only [Option.orElse_eq_orElse, Option.orElse_eq_or, Option.map_or]
    by_cases hc : (f.inlined.isSome && f.name.isNone) = true
    · obtain ⟨hi, hn⟩ := Bool.and_eq_true_iff.mp hc
      obtain ⟨hk, hin⟩ := h.1 hi (Option.isNone_iff_eq_none.mp hn)
      rw [if_pos hc, if_pos hc, if_pos hk, hin, Option.map_map]
      congr 2
      exact funext fun s => (s.placed_shift addr f.offset).symm
    · rw [if_neg hc, if_neg hc]
      by_cases hn : f.name = some name
      · rw [if_pos hn, if_pos hn, Option.map_some, Option.some_or, FieldSite.placed, UInt64.add_zero]
      · rw [if_neg hn, if_neg hn, Option.map_none, Option.none_or]

theorem walk_locate : ∀ {n : Nat} {id : TypeId}, ts.Nested n id → ∀ addr,
    ts.walk name n id addr = (ts.locate name n id).map (·.placed addr)
  | _ + 1, _, h, _ => walkIn_locateIn fun _ hf hi hname =>
    have hn := h.field_unnamed hf hi hname
    ⟨hn.struct, walk_locate hn⟩

theorem mem_sites {s : FieldSite} : ∀ {n : Nat} {id : TypeId}, s ∈ ts.sites n id → s.field ∈ (ts.get s.owner).fields
  | n + 1, id, h => by
    obtain ⟨f, hf, hs⟩ := List.mem_flatMap.mp h
    split at hs
    · obtain ⟨s', hs', rfl⟩ := List.mem_map.mp hs
      exact mem_sites (s := s') hs'
    · rw [List.mem_singleton.mp hs]
      exact hf

/-! ## Later tables -/

theorem lt_of_kind {id : TypeId} (h : ts.kind id ≠ .void) : id < ts.size := by
  refine Nat.lt_of_not_le fun hs => h ?_
  rw [kind, get, Array.getElem?_eq_none hs]
  rfl

theorem Nested.grows (hg : ts.Grows ts') : ∀ {n : Nat} {id : TypeId}, ts.Nested n id → ts'.Nested n id
  | n + 1, id, h => by
    have hget := hg.get (lt_of_struct h.1)
    refine ⟨by rw [kind, hget]; exact h.1, fun f hf hi => ?_⟩
    rw [hget] at hf
    obtain hn | ⟨hp, hname⟩ := h.2 f hf hi
    · exact .inl (hn.grows hg)
    · have hlt : f.type < ts.size := lt_of_kind fun h0 => by rw [hp] at h0; cases h0
      exact .inr ⟨by rw [kind, hg.get hlt]; exact hp, hname⟩

theorem locate_grows (hg : ts.Grows ts') : ∀ {n : Nat} {id : TypeId}, ts.Nested n id →
    ts'.locate name n id = ts.locate name n id
  | n + 1, id, h => by
    rw [locate, locate, hg.get (lt_of_struct h.1)]
    exact locateIn_congr fun f hf hi hname => locate_grows hg (h.field_unnamed hf hi hname)

theorem locateField_grows (hg : ts.Grows ts') {id : TypeId} (h : ts.Nested (ts.size + 1) id) :
    ts'.locateField id name = ts.locateField id name :=
  (locate_nested (h.grows hg) (Nat.succ_le_succ hg.size_le)).trans (locate_grows hg h)

theorem walkField_locateField {id : TypeId} (h : ts.Nested (ts.size + 1) id) (addr : UInt64) :
    ts.walkField id addr name = (ts.locateField id name).map (·.placed addr) := walk_locate h addr

end

/-! ## Values of fields -/

section
variable {ts : TypeTable} {id : TypeId}

/-- Types with a structure have values as long as a word. -/
theorem plain_of_short (h : ts.Regular) (hs : (ts.get id).valueSize < 8) : (ts.get id).shape = .plain := by
  have hword {k : Kind} (hk : (ts.get id).shape.kind? = some k) : ¬k.valueSize < 8 → False := fun hlt => by
    rw [TypeInfo.valueSize, (h id).kind hk] at hs
    exact hlt hs
  cases hshape : (ts.get id).shape with
  | plain => rfl
  | _ => exact (hword (by rw [hshape]; rfl) (by decide)).elim

/-- A type without a structure resolves to itself. -/
theorem resolve_short (h : ts.Sane) (hr : ts.Regular) (hid : id < ts.size)
    (hs : (ts.get id).valueSize < 8) (lookup : Lookup) :
    ts.resolve lookup id = (.ok id, ts) := by
  have hplain := plain_of_short hr hs
  have hk : (ts.get id).kind ≠ .struct := fun hk => by
    rw [TypeInfo.valueSize, hk] at hs
    exact absurd hs (by decide)
  have hp : (ts.get id).containsParent = false := by
    rw [h.marked (lookup_of_lt hid), hplain]
    exact Bool.and_false _
  have hinner : resolveInner lookup (2 * ts.size + 2) [] id ts = (.ok id, ts) := by
    cases hc : (ts.get id).flags.closed with
    | true => exact resolveInner_closed rfl hc
    | false => rw [resolveInner_visit rfl hc, visit, hplain]
  exact resolve_of_same hinner hp (validate_of_kind hk)

end

end TypeTable

open TypeTable

namespace Exec

section
variable {m m₁ m' : Machine} {target : TypeId} {v : Variable} {word : UInt64}

theorem extend_wide {t : TypeInfo} (h : 8 ≤ t.valueSize) (word : UInt64) : extend t word = word := by
  rw [extend, extendWord, if_neg (by omega), if_pos h]

theorem cast_value (h : cast target v m = .ok v' m₁) : ∃ target' m₀, resolveType target m = .ok target' m₀ ∧
    ∃ word, v' = .value target' word := by
  obtain ⟨target', m₀, hr, h⟩ := bind_eq_ok h
  obtain ⟨goal, m₁, -, h⟩ := bind_eq_ok h
  obtain ⟨raw, m₂, -, h⟩ := bind_eq_ok h
  obtain ⟨source, m₃, -, h⟩ := bind_eq_ok h
  obtain ⟨double, m₄, -, h⟩ := bind_eq_ok h
  cases h
  exact ⟨target', m₀, hr, _, rfl⟩

theorem resolveType_short (hm : Later .initial m.types) (hid : target < m.types.size)
    (hs : (m.types.get target).valueSize < 8) :
    resolveType target m = .ok target { m with types := (m.types.constant TypeTable.type).2 } := by
  have hg : m.types.Grows (m.types.constant TypeTable.type).2 := m.types.constant_grows _
  have hl : Later .initial (m.types.constant TypeTable.type).2 := hm.constantType (hm.keeps sane_initial).grows
  refine resolveType_same fun lookup => resolve_short (hl.keeps sane_initial).sane hl.regular (hg.lt hid) ?_ lookup
  rwa [hg.get hid]

/-- What a conversion gives is a value of the type, and nothing else has changed that values depend on. -/
theorem castBits_value (hm : Later .initial m.types) (hid : target < m.types.size)
    (h : castBits target v m = .ok word m₁) :
    m.types.Grows m₁.types ∧ m₁.memory = m.memory ∧ extend (m.types.get target) word = word := by
  have hq := ((castBits_quiet target (missable_anywhere v)) m).ok h |>.1
  refine ⟨hq.types, hq.memory, ?_⟩
  by_cases hw : 8 ≤ (m.types.get target).valueSize
  · exact extend_wide hw word
  obtain ⟨v', m₂, hcast, hbits⟩ := bind_eq_ok h
  obtain ⟨target', m₀, hr, word', rfl⟩ := cast_value hcast
  -- a type with values of less than a word means the same everywhere
  cases hr.symm.trans (resolveType_short hm hid (Nat.lt_of_not_le hw))
  have hq₂ := ((cast_quiet target (missable_anywhere v)) m).ok hcast |>.1
  obtain ⟨m₃, hb, -⟩ := bits_valueIn (.value target word') m₂
  cases hbits.symm.trans hb
  rw [← hq₂.types.get hid]
  exact extend_extend _ _

theorem bits_location {type : TypeId} {addr : UInt64}
    (h : Machine.canAccess addr (m.types.get type).valueSize = true) :
    bits (.atAddress type addr) m = .ok
    (extend (m.types.get type) (m.memory.read addr (m.types.get type).valueSize)) m := by
  have hp : peek addr (m.types.get type).valueSize m = .ok (m.memory.read addr (m.types.get type).valueSize) m := by
    rw [peek, if_pos h]
    rfl
  exact (bind_ok hp).trans rfl

/-- A field that is found has its type. A function has the word of the field and knows the struct that declares
it. -/
theorem fieldAt?_found {id : TypeId} {addr : UInt64} {name : NameId} {p : PlacedField}
    (h : m.types.walkField id addr name = some p) : ∃ v m', fieldAt? id addr name m = .ok (some v) m' ∧
      m.SameButFault m' ∧ v.type = p.field.type ∧ (m.types.kind p.field.type = .function →
        v.valueIn m.types m.memory = m.fieldWord p.ownerAddr p.field ∧
        (p.field.inlined = none → v.origin = some ⟨name, some (p.owner, p.ownerAddr)⟩) ∧
        (m.fieldWord p.ownerAddr p.field ≠ 0 → m' = m)) := by
  have hinfo : typeInfo p.field.type m = .ok (m.types.get p.field.type) m := rfl
  rw [fieldAt?, get_bind, h]
  dsimp only
  cases hi : p.field.inlined with
  | some count =>
    refine ⟨.value p.field.type p.addr, m, rfl, .refl m, rfl, fun hk => ⟨?_, nofun, fun _ => rfl⟩⟩
    rw [Machine.fieldWord, hi, Option.isSome_some, if_pos rfl]
    have hsize : (m.types.get p.field.type).valueSize = 8 := by
      rw [TypeInfo.valueSize, show (m.types.get p.field.type).kind = .function from hk]
      rfl
    exact extend_wide (t := m.types.get p.field.type) (Nat.le_of_eq hsize.symm) _
  | none =>
    have hword : m.fieldWord p.ownerAddr p.field =
        (Variable.atAddress p.field.type p.addr).valueIn m.types m.memory := by
      rw [Machine.fieldWord, hi, Option.isSome_none, if_neg Bool.false_ne_true]
      rfl
    -- a constant field is read at once, another one when its value is asked for
    obtain ⟨v, m', hv, hs, ht, hval, hset⟩ : ∃ v m', (if (m.types.get p.field.type).isConst
        then toValue (.atAddress p.field.type p.addr) else pure (.atAddress p.field.type p.addr)) m = .ok v m' ∧
        m.SameButFault m' ∧ v.type = p.field.type ∧ v.valueIn m.types m.memory = m.fieldWord p.ownerAddr p.field ∧
        (m.fieldWord p.ownerAddr p.field ≠ 0 → m' = m) := by
      split
      · obtain ⟨m', hb, hs⟩ := bits_valueIn (.atAddress p.field.type p.addr) m
        rw [← hword] at hb
        refine ⟨.value p.field.type _, m', bind_ok hb, hs, rfl, ?_, fun h0 => ?_⟩
        · rw [hword]
          exact Variable.extend_valueIn (.atAddress p.field.type p.addr) m.types m.memory
        · rw [hword] at hb h0
          cases (bits_reads (reads_of_set h0)).symm.trans hb
          rfl
      · exact ⟨_, m, rfl, .refl m, rfl, hword.symm, fun _ => rfl⟩
    have hgo (f : Variable → Exec (Option Variable)) : (if (m.types.get p.field.type).isConst
        then toValue (.atAddress p.field.type p.addr) >>= f
        else pure (.atAddress p.field.type p.addr) >>= f) m = f v m' := by
      refine Eq.trans ?_ (bind_ok hv)
      split <;> rfl
    rw [Option.isSome_none, if_neg Bool.false_ne_true, bind_ok hinfo, hgo]
    by_cases hk : (m.types.get p.field.type).kind = .function
    · rw [if_pos hk]
      exact ⟨_, m', rfl, hs, ht, fun _ => ⟨hval, fun _ => rfl, hset⟩⟩
    · rw [if_neg hk]
      exact ⟨_, m', rfl, hs, ht, fun hk' => absurd hk' hk⟩

/-- What a field reads as, be it constant or a function. -/
theorem fieldAt?_value {id : TypeId} {addr : UInt64} {name : NameId} {p : PlacedField}
    (hf : m.types.walkField id addr name = some p) (hi : p.field.inlined = none)
    (hb : bits (.atAddress p.field.type p.addr) m = .ok word m)
    (hx : extend (m.types.get p.field.type) word = word) :
    ∃ w, fieldAt? id addr name m = .ok (some w) m ∧ w.type = p.field.type ∧ bits w m = .ok word m := by
  have htype : typeInfo p.field.type m = .ok (m.types.get p.field.type) m := rfl
  have hvalue : bits (.value p.field.type word) m = .ok word m := by
    show EStateM.Result.ok (extend (m.types.get p.field.type) word) m = _
    rw [hx]
  have hnamed (v : Variable) (hv : v.type = p.field.type) (hword : bits v m = .ok word m) : ∃ w,
      (if (m.types.get p.field.type).kind =
        .function then pure (some { v with origin := some ⟨name, some (p.owner, p.ownerAddr)⟩ })
        else pure (some v) : Exec (Option Variable)) m = .ok (some w) m ∧ w.type = p.field.type ∧
            bits w m = .ok word m := by
    split
    · exact ⟨_, rfl, hv, hword⟩
    · exact ⟨v, rfl, hv, hword⟩
  rw [fieldAt?, get_bind, hf]
  dsimp only
  rw [hi, if_neg (by decide), bind_ok htype]
  split
  case isTrue =>
    have hv : toValue (.atAddress p.field.type p.addr) m = .ok (.value p.field.type word) m :=
      (bind_ok hb).trans rfl
    rw [bind_ok hv]
    exact hnamed _ rfl hvalue
  case isFalse => exact hnamed _ rfl hb

theorem poke_bits {type : TypeId} {addr : UInt64} (h : Machine.canAccess addr (m.types.get type).valueSize = true)
    (hx : extend (m.types.get type) word = word) : ∃ m', poke addr (m.types.get type).valueSize word m = .ok () m' ∧
      m'.types = m.types ∧ bits (.atAddress type addr) m' = .ok word m' ∧
      ∀ a, ¬(a - addr).toNat < (m.types.get type).valueSize → m'.memory.byte a = m.memory.byte a := by
  by_cases h0 : (m.types.get type).valueSize = 0
  · refine ⟨m, ?_, rfl, ?_, fun _ _ => rfl⟩
    · show EStateM.Result.ok () (if (m.types.get type).valueSize = 0 then m else _) = _
      rw [if_pos h0]
    · have hzero (n : UInt64) : extend (m.types.get type) n = 0 := by rw [extend, extendWord, if_pos h0]
      rw [bits_location h, hzero, ← hx, hzero]
  · have hv : Memory.isValid addr = true := by
      rw [Machine.canAccess, Bool.or_eq_true, decide_eq_true_eq] at h
      exact h.resolve_left h0
    have hsize : (m.types.get type).valueSize ≤ 8 := Kind.valueSize_le _
    refine ⟨{ m with memory := m.memory.write addr (m.types.get type).valueSize word }, ?_, rfl, ?_, fun a ha => ?_⟩
    · show EStateM.Result.ok () (if (m.types.get type).valueSize =
        0 then m else if Memory.isValid addr then _ else _) = _
      rw [if_neg h0, if_pos hv]
    · let m₁ : Machine := { m with memory := m.memory.write addr (m.types.get type).valueSize word }
      refine (bits_location (m := m₁) h).trans ?_
      show EStateM.Result.ok (extend (m.types.get type) ((m.memory.write addr _ word).read addr _)) _ = _
      rw [Memory.read_write_eq m.memory addr hsize word, extend_masked, hx]
    · exact Memory.byte_write_of_outside m.memory hsize ha word

/-- After a field of the struct at an address has been overridden, it reads as it was given, also in an expression,
and no other byte has changed. -/
structure Overridden (m : Machine) (id : TypeId) (addr : UInt64) (name : NameId) (site : FieldSite) (word : UInt64)
    (m' : Machine) : Prop where
  reads : ∃ w, fieldAt? id addr name m' = .ok (some w) m' ∧
      (addr ≠ 0 → member (.value id addr) name m' = .ok w m') ∧
    w.type = site.field.type ∧ bits w m' = .ok word m'
  rest {a : UInt64} : ¬(a - (addr + site.offset)).toNat < (m.types.get site.field.type).valueSize →
    m'.memory.byte a = m.memory.byte a

theorem overrideField_overridden {id : TypeId} {addr : UInt64} {name : NameId} {site : FieldSite}
    (hm : Later .initial m.types)
    (hn : m.types.Nested (m.types.size + 1) id) (hs : m.types.locateField id name = some site)
    (hi : site.field.inlined = none)
    (hc : castBits site.field.type v m = .ok word m₁)
    (ha : Machine.canAccess (addr + site.offset) (m.types.get site.field.type).valueSize = true) :
    ∃ m', overrideField id addr name v m = .ok () m' ∧ Overridden m id addr name site word m' := by
  have hfield : site.field ∈ (m.types.get site.owner).fields := by
    rw [locateField, locate_find] at hs
    exact mem_sites (List.mem_of_find?_eq_some hs)
  have htype := (hm.keeps sane_initial).sane.field_lt hfield
  obtain ⟨hg, hmemory, hx⟩ := castBits_value hm htype hc
  have hget := hg.get htype
  rw [← hget] at ha hx
  obtain ⟨m', hpoke, htypes, hbits, hrest⟩ := poke_bits ha hx
  refine ⟨m', ?_, ?_, fun {a} h => hmemory ▸ hrest a (hget.symm ▸ h)⟩
  · rw [overrideField, get_bind, hs]
    dsimp only
    rw [hi]
    exact (bind_ok hc).trans ((bind_ok rfl).trans hpoke)
  have hwalk : m'.types.walkField id addr name = some (site.placed addr) := by
    have hn' := (hn.grows hg).mono (Nat.succ_le_succ hg.size_le)
    rw [htypes, walkField_locateField hn', locateField_grows hg hn, hs]
    rfl
  have haddr : (site.placed addr).addr = addr + site.offset := site.placed_addr addr
  obtain ⟨w, hw, htype', hword⟩ := fieldAt?_value hwalk hi (haddr.symm ▸ hbits) (htypes.symm ▸ hx)
  refine ⟨w, hw, fun h0 => ?_, htype', hword⟩
  have hid : m'.types.kind id = .struct := by
    rw [htypes, kind, hg.get (lt_of_struct hn.struct)]
    exact hn.struct
  have haddr : bits (.value id addr) m' = .ok addr m' := by
    show EStateM.Result.ok (extend (m'.types.get id) addr) m' = _
    rw [extend_wide]
    rw [TypeInfo.valueSize, show (m'.types.get id).kind = .struct from hid]
    decide
  rw [member, bind_ok haddr, if_neg h0]
  exact (bind_ok hw).trans rfl

/-- Of every struct that has been validated, the field that is located and the one that is found in memory are
the first of the name in the order of declaration. What a field is given when a struct is made is what is read
of it. -/
theorem overrideField_read {id : TypeId} (hm : Later .initial m.types) (hs : m.types.kind id = .struct)
    (hv : m.types.validate (m.types.size + 1) [] id = .ok ()) (addr : UInt64) (name : NameId) :
    m.types.locateField id name = (m.types.sites (m.types.size + 1) id).find? (·.field.name == some name) ∧
      m.types.walkField id addr name = (m.types.locateField id name).map (·.placed addr) ∧
      ∀ {site v word m₁}, m.types.locateField id name = some site → site.field.inlined = none →
        castBits site.field.type v m = .ok word m₁ →
        Machine.canAccess (addr + site.offset) (m.types.get site.field.type).valueSize = true →
        ∃ m', overrideField id addr name v m = .ok () m' ∧ Overridden m id addr name site word m' := by
  have hn := validate_iff.mp hv hs
  exact ⟨locate_find _ _, walkField_locateField hn addr, overrideField_overridden hm hn⟩

theorem castBits_short (hm : Later .initial m.types) (hid : target < m.types.size)
    (hs : (m.types.get target).valueSize < 8)
    (v : Variable) : ∃ word m₁, castBits target v m = .ok word m₁ := by
  have hr := resolveType_short hm hid hs
  generalize { m with types := (m.types.constant TypeTable.type).2 } = m₀ at hr
  obtain ⟨m₁, hb, -⟩ := bits_valueIn v m₀
  obtain ⟨m₂, hb', -⟩ := bits_valueIn v m₁
  have hd : ∃ double, asDouble v m₁ = .ok double m₂ := ⟨_, (bind_ok hb').trans ((bind_ok rfl).trans rfl)⟩
  obtain ⟨double, hd⟩ := hd
  have hcast : ∃ word, cast target v m = .ok (.value target word) m₂ :=
    ⟨_, (bind_ok hr).trans ((bind_ok rfl).trans
      ((bind_ok hb).trans ((bind_ok rfl).trans ((bind_ok hd).trans rfl))))⟩
  obtain ⟨word, hcast⟩ := hcast
  exact ⟨_, _, (bind_ok hcast).trans rfl⟩

def single : TypeInfo :=
  { kind := .struct, shape := .struct [{ name := some 60, type := int32, value := 7 }], size := 4, alignment := 4 }

def around : TypeInfo where
  kind := .struct
  shape := .struct [{ name := some 61, type := int8 }, { name := none, type := 9, offset := 4, inlined := some 1 }]
  alignment := 4

def singleTypes : List TypeInfo :=
  primitiveKinds.map (plainInfo · {}) ++ [(ofTypes (primitiveKinds.map (plainInfo · {}))).joined single]

def aroundTypes : List TypeInfo := singleTypes ++ [(ofTypes singleTypes).joined around]

theorem singleTypes_nameless : ∀ t ∈ singleTypes, t.flags.closed = false ∧ ∀ name, t.shape ≠ .deferred name :=
  List.forall_mem_append.mpr ⟨List.forall_mem_map.mpr fun _ _ => ⟨rfl, nofun⟩,
    List.forall_mem_singleton.mpr ⟨rfl, nofun⟩⟩

theorem aroundTypes_comprised : ∃ ts : TypeTable, ts.Comprises aroundTypes := by
  obtain ⟨ts₁, -, h₁⟩ :=
    comprises_initial.ask (.struct [{ name := some 60, type := int32, value := 7 }] none) (t := single)
    (by decide +kernel) ⟨by decide, nofun⟩ (by decide +kernel)
  obtain ⟨ts₂, -, h₂⟩ := (show ts₁.Comprises singleTypes from h₁).ask
    (.struct [{ name := some 61, type := int8 }, { name := none, type := 9, inlined := some 1 }] none) (t := around)
    (by decide +kernel) ⟨by decide, nofun⟩ (by decide +kernel)
  exact ⟨ts₂, h₂⟩

theorem overrideField_read_around : ∃ ts : TypeTable, ts.Comprises aroundTypes ∧
    let m : Machine := { types := ts }
    let site : FieldSite := ⟨9, 4, { name := some 60, type := int32, value := 7 }⟩
    m.types.kind 10 = .struct ∧ m.types.validate (m.types.size + 1) [] 10 = .ok () ∧
      m.types.locateField 10 60 = some site ∧ Machine.canAccess (0x200000000000 + site.offset) 4 = true ∧
      ∃ word m₁ m', castBits int32 (.value int64 7) m = .ok word m₁ ∧
        overrideField 10 0x200000000000 60 (.value int64 7) m = .ok () m' ∧
        Overridden m 10 0x200000000000 60 site word m' := by
  obtain ⟨ts, h⟩ := aroundTypes_comprised
  have hm : Later .initial ts := h.later
  refine ⟨ts, h, ?_⟩
  intro m site
  obtain ⟨types, interned, closed, closedConst⟩ := ts
  obtain rfl : types = aroundTypes.toArray := h.types
  have hs : m.types.kind 10 = .struct := rfl
  have hv : m.types.validate (m.types.size + 1) [] 10 = .ok () := rfl
  have hl : m.types.locateField 10 60 = some site := rfl
  have ha : Machine.canAccess (0x200000000000 + site.offset) 4 = true := by decide +kernel
  obtain ⟨word, m₁, hc⟩ := castBits_short (m := m) hm (show int32 < aroundTypes.length by decide)
    (show ((ofTypes aroundTypes).get int32).valueSize < 8 by decide) (.value int64 7)
  obtain ⟨m', ho⟩ := (overrideField_read (m := m) hm hs hv 0x200000000000 60).2.2 hl rfl hc ha
  exact ⟨hs, hv, hl, ha, word, m₁, m', hc, ho⟩

end

end Exec

end LevelScript
