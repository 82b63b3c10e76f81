import LevelScript.Proofs.FieldAccess
import LevelScript.Proofs.Release
import LevelScript.Proofs.Resolved

/-!
# The type of a member, by value and by type

A member of a struct is searched for in the structs without a name that it has inside, too. A member of its type is
only searched for among the fields that the struct itself declares. The two agree unless an unnamed struct inside
has a field of the name that comes first.
-/

namespace LevelScript

namespace TypeTable

section
variable {ts : TypeTable} {id : TypeId} {name : NameId}

/-- The first field of the name in an unnamed struct inside that is declared before the struct's own field of the
name, if it has one. -/
def inherited? (ts : TypeTable) (id : TypeId) (name : NameId) : Option Field :=
  ((ts.get id).fields.takeWhile (·.name != some name)).findSome? fun f =>
    if f.inlined.isSome && f.name.isNone then (ts.locateField f.type name).map (·.field) else none

theorem locateIn_own {owner : TypeId} {inner : TypeId → Option FieldSite} (fields : List Field) :
    (locateIn owner name inner fields).map (·.field) =
      ((fields.takeWhile (·.name != some name)).findSome? fun f =>
        if f.inlined.isSome && f.name.isNone then (inner f.type).map (·.field) else none).or
        (fields.find? (·.name == some name)) := by
  induction fields with
  | nil => rfl
  | cons f fs ih =>
    rw [locateIn]
    by_cases hc : (f.inlined.isSome && f.name.isNone) = true
    · have hn : f.name = none := Option.isNone_iff_eq_none.mp (Bool.and_eq_true_iff.mp hc).2
      have htake : (f :: fs).takeWhile (·.name != some name) = f ::
        fs.takeWhile (·.name != some name) := by simp [hn]
      have hfind : (f :: fs).find? (·.name == some name) = fs.find? (·.name == some name) := by simp [hn]
      rw [if_pos hc, htake, hfind, List.findSome?_cons, if_pos hc]
      cases inner f.type with
      | none => exact ih
      | some s => rfl
    · rw [if_neg hc]
      by_cases hn : f.name = some name
      · simp [hn]
      · have htake : (f :: fs).takeWhile (·.name != some name) = f ::
          fs.takeWhile (·.name != some name) := by simp [hn]
        have hfind : (f :: fs).find? (·.name == some name) = fs.find? (·.name == some name) := by simp [hn]
        rw [if_neg hn, htake, hfind, List.findSome?_cons, if_neg hc]
        exact ih

/-- The search through unnamed structs finds what is inherited, or else the struct's own field. -/
theorem locateField_own (h : ts.Nested (ts.size + 1) id) (name : NameId) :
    (ts.locateField id name).map (·.field) = (ts.inherited? id name).or (ts.field? id name) := by
  have hinner : ts.locateField id name = locateIn id name (ts.locateField · name) (ts.get id).fields := by
    refine locateIn_congr fun f hf hi hn => ?_
    exact (locate_nested (h.field_unnamed hf hi hn) (Nat.le_succ _)).symm
  rw [hinner]
  exact locateIn_own _

/-- What is found by value has the type that is found by type just if the same holds of what is inherited. -/
theorem member_types_iff (h : ts.Nested (ts.size + 1) id) :
    (ts.locateField id name).map (·.field.type) = (ts.field? id name).map (·.type) ↔
      ∀ f, ts.inherited? id name = some f → (ts.field? id name).map (·.type) = some f.type := by
  have hown := congrArg (Option.map Field.type) (locateField_own h name)
  rw [Option.map_map] at hown
  rw [show (ts.locateField id name).map (·.field.type) = _ from hown]
  cases ts.inherited? id name with
  | none => simp
  | some f => simp [eq_comm]

end

end TypeTable

open TypeTable

namespace Exec

/-- A search for a member gives something that is right for its type, or the error that there is no such field. -/
inductive Searches (x : Exec Variable) (m : Machine) (name : NameId) (Right : TypeId → Variable → Prop) :
    Option TypeId → Prop where
  | found {c : TypeId} {w : Variable} {m' : Machine} : x m = .ok w m' → Right c w → Searches x m name Right (some c)
  | missing (m' : Machine) : x m = (raise (.fieldNotFound (m.names.text name)) : Exec Variable) m' →
      Searches x m name Right none

section
variable {m m₁ : Machine} {id : TypeId} {addr : UInt64} {name : NameId} {v : Variable}

theorem member_searches (hn : m.types.Nested (m.types.size + 1) id) (hv : v.type = id)
    (hb : bits v m = .ok addr m₁) (h0 : addr ≠ 0)
    (name : NameId) :
    Searches (member v name) m name (fun c w => w.type = c) ((m.types.locateField id name).map (·.field.type)) := by
  obtain ⟨m₂, hb', pending, hm₂⟩ := bits_valueIn v m
  cases hb.symm.trans hb'
  subst hm₂
  have hwalk : m.types.walkField id (v.valueIn m.types m.memory) name =
      (m.types.locateField id name).map (·.placed (v.valueIn m.types m.memory)) := walkField_locateField hn _
  cases hl : m.types.locateField id name with
  | none =>
    rw [hl] at hwalk
    refine .missing (m.withFault pending) ?_
    rw [member, bind_ok hb, if_neg h0, hv]
    dsimp only
    rw [bind_ok (fieldAt?_missing (m := m.withFault pending) hwalk)]
    rfl
  | some site =>
    rw [hl] at hwalk
    obtain ⟨w, m', hw, -, ht, -⟩ := fieldAt?_found (m := m.withFault pending) hwalk
    have hfound : member v name m = .ok w m' := by
      rw [member, bind_ok hb, if_neg h0, hv]
      dsimp only
      rw [bind_ok hw]
      rfl
    exact .found hfound ht

theorem memberType_searches (hr : resolveType id m = .ok id m₁) (hg : m.types.Grows m₁.types)
    (hnames : m₁.names = m.names)
    (hk : m.types.kind id = .struct) (name : NameId) :
    Searches (memberType id name) m name (fun c w => w = typeValue c) ((m.types.field? id name).map (·.type)) := by
  have hget := hg.get (lt_of_struct hk)
  have hk₁ : m₁.types.kind id = .struct := by rw [kind, hget]; exact hk
  have hf : m₁.types.field? id name = m.types.field? id name := by rw [field?, field?, hget]
  cases hl : m.types.field? id name with
  | none =>
    refine .missing m₁ ?_
    rw [memberType, bind_ok hr, get_bind, hk₁]
    dsimp only
    rw [hf, hl, ← hnames]
    rfl
  | some f =>
    have hfound : memberType id name m = .ok (typeValue f.type) m₁ := by
      rw [memberType, bind_ok hr, get_bind, hk₁]
      dsimp only
      rw [hf, hl]
      rfl
    exact .found hfound rfl

end

end Exec

namespace TypeTable

section
variable {ts ts' : TypeTable} {made : List TypeId} {lookup : Lookup} {id r S : TypeId}

/-- For every accepted struct type that is, or is below, what resolving gave, and a value of it that is not
null: a member of the value is what `locateField` finds in it and in the unnamed structs inside, and has its
type; a member of the type is what `field?` finds among its own fields. The two are the same just if each
field that it inherits has the type of an own field of that name. -/
theorem members_agree (h : History ts made) (hm : (TypeOp.resolve lookup id).Mentions (ts.Within made))
    (hd : Distinct (ts.registered ++ (TypeOp.resolve lookup id).asked ts))
    (hr : ts.resolve lookup id = (.ok r, ts')) {path : List TypeStep} (hS : ts'.follow r path = some S)
    (hk : ts'.kind S = .struct)
    (hv : ts'.validate (ts'.size + 1) [] S = .ok ()) {m m₁ : Machine} (hT : Later ts' m.types)
    {v : Variable} {addr : UInt64} (ht : v.type = S) (hb : Exec.bits v m = .ok addr m₁) (h0 : addr ≠ 0)
    (name : NameId) :
    Exec.Searches (Exec.member v name) m name (fun c w => w.type = c)
    ((m.types.locateField S name).map (·.field.type)) ∧
      Exec.Searches (Exec.memberType S name) m name (fun c w => w = Exec.typeValue c)
      ((m.types.field? S name).map (·.type)) ∧
      ((m.types.locateField S name).map (·.field.type) = (m.types.field? S name).map (·.type) ↔
        ∀ f, m.types.inherited? S name = some f → (m.types.field? S name).map (·.type) = some f.type) := by
  obtain ⟨hkept, hl, hfixed⟩ := h.fixed hm hd hr
  have hg := (hT.keeps hkept.sane).grows
  have hlt := lt_of_struct hk
  have hkm : m.types.kind S = .struct := by
    rw [kind, hg.get hlt]
    exact hk
  have hn : m.types.Nested (m.types.size + 1) S :=
    ((validate_iff.mp hv hk).grows hg).mono (Nat.succ_le_succ hg.size_le)
  have hresolve := (hfixed.below hkept.sane hS hv).resolveType hkept hl hT
  refine ⟨Exec.member_searches hn ht hb h0 name, ?_, member_types_iff hn⟩
  exact Exec.memberType_searches hresolve (m.types.constant_grows _) rfl hkm name

end

/-! ### A field that only a value has -/

theorem Comprises.registered {ts : TypeTable} {types : List TypeInfo} (h : ts.Comprises types) :
    ∀ t ∈ ts.registered, t ∈ types := by
  intro t ht
  have hm := (List.mem_filter.mp ht).1
  rwa [h.types] at hm

/-- A history in which a type joins that no other one has the hash of. -/
theorem Comprises.ask_history {ts : TypeTable} {types : List TypeInfo} {made : List TypeId} {t : TypeInfo}
    (h : ts.Comprises types)
    (hh : History ts made) (op : TypeOp) (hr : op.request (ofTypes types) = some t)
    (hm : op.Mentions (ts.Within made)) (hp : ∀ depth, op ≠ .parentRef depth)
    (hn : ((types ++ [t]).map TypeInfo.computeHash).Nodup) :
    ∃ ts', ts'.Comprises (types ++ [(ofTypes types).joined t]) ∧ History ts' (types.length :: made) := by
  obtain ⟨hk, hu⟩ := hh.usable
  have hlt : op.Mentions (· < types.length) := hm.imp fun id hid => h.size ▸ (hid.usable hk.sane hu).known
  have hnew : ∀ u ∈ types, u.computeHash ≠ t.computeHash := by
    intro u hu he
    rw [List.map_append, List.nodup_append] at hn
    exact hn.2.2 _ (List.mem_map_of_mem hu) _ (List.mem_singleton_self _) he
  obtain ⟨ts', hrun, hc⟩ := h.ask op hr hlt hnew
  refine ⟨ts', hc, .step (r := .ok types.length) hh hm hp ((distinct_of_nodup hn).mono fun u hu => ?_) hrun⟩
  rw [TypeOp.asked_request ((request_congr h.get op).trans hr)] at hu
  exact List.mem_append.mpr ((List.mem_append.mp hu).imp_left (h.registered u))

/-- A struct with another one inside that has no name: a value has the field of that one, but its type does not. -/
theorem members_agree_around : ∃ ts made, History ts made ∧
    (TypeOp.resolve (fun _ => .missing) 10).Mentions (ts.Within made) ∧
    Distinct (ts.registered ++ (TypeOp.resolve (fun _ => .missing) 10).asked ts) ∧ ts.resolve
    (fun _ => .missing) 10 = (.ok 10, ts) ∧
    ts.kind 10 = .struct ∧ ts.validate (ts.size + 1) [] 10 = .ok () ∧
    let m : Machine := { types := ts }
    Exec.Searches (Exec.member (.value 10 0x200000000000) 60) m 60 (fun c w => w.type = c) (some int32) ∧
      Exec.Searches (Exec.memberType 10 60) m 60 (fun c w => w = Exec.typeValue c) none := by
  have hfirst : Distinct (primitiveKinds.map (plainInfo · {})) := distinct_of_nodup (by decide +kernel)
  have hd₀ : Distinct initial.registered := hfirst.mono comprises_initial.registered
  have h₀ : History initial [int8, int32] := (History.initial.primitive .int32 rfl hd₀).primitive .int8 rfl hd₀
  obtain ⟨ts₁, hc₁, hh₁⟩ := comprises_initial.ask_history h₀
    (.struct [{ name := some 60, type := int32, value := 7 }] none) (t := Exec.single) (by decide +kernel)
    ⟨List.forall_mem_singleton.mpr ⟨int32, by decide, [], rfl⟩, nofun⟩ nofun (by decide +kernel)
  obtain ⟨ts, hc, hh⟩ := (show ts₁.Comprises Exec.singleTypes from hc₁).ask_history hh₁
    (.struct [{ name := some 61, type := int8 }, { name := none, type := 9, inlined := some 1 }] none)
      (t := Exec.around) (by decide +kernel)
    ⟨List.forall_mem_cons.mpr ⟨⟨int8, by decide, [], rfl⟩,
      List.forall_mem_singleton.mpr ⟨9, by decide, [], rfl⟩⟩, nofun⟩ nofun (by decide +kernel)
  have hc : ts.Comprises Exec.aroundTypes := hc
  have hnameless : ts.Nameless :=
    hc.nameless (List.forall_mem_append.mpr ⟨Exec.singleTypes_nameless, List.forall_mem_singleton.mpr ⟨rfl, nofun⟩⟩)
  have hkeeps := hc.later.keeps sane_initial
  have hl := hkeeps.laid laid_initial
  have hlt : 10 < ts.size := hc.size ▸ (by decide)
  have hm : (TypeOp.resolve (fun _ => .missing) 10).Mentions (ts.Within [10, 9, int8, int32]) :=
    ⟨⟨10, List.mem_cons_self .., [], rfl⟩, nofun⟩
  have hd : Distinct (ts.registered ++ (TypeOp.resolve (fun _ => .missing) 10).asked ts) := by
    have haround : Distinct Exec.aroundTypes := distinct_of_nodup (by decide +kernel)
    refine haround.mono fun t ht => hc.registered t ?_
    refine (List.mem_append.mp ht).elim id ?_
    exact (hnameless.free hkeeps.sane).asked hkeeps.sane hl _ [] 10
      (Nat.lt_of_lt_of_le hlt (by omega)) hlt (List.forall_mem_nil _) t
  obtain ⟨hp, hk, hv, hlocate, hfield⟩ : (ts.get 10).containsParent = false ∧ ts.kind 10 = .struct ∧
      ts.validate (ts.size + 1) [] 10 = .ok () ∧ (ts.locateField 10 60).map (·.field.type) = some int32 ∧
      (ts.field? 10 60).map (·.type) = none := by
    obtain ⟨types, interned, closed, closedConst⟩ := ts
    obtain rfl : types = Exec.aroundTypes.toArray := hc.types
    exact ⟨rfl, rfl, rfl, rfl, rfl⟩
  have hr : ts.resolve (fun _ => .missing) 10 = (.ok 10, ts) :=
    (hnameless.free hkeeps.sane).resolve hkeeps.sane hl hlt hp hv
  refine ⟨ts, _, hh, hm, hd, hr, hk, hv, ?_⟩
  intro m
  have hb : Exec.bits (.value 10 0x200000000000) m = .ok 0x200000000000 m := by
    show EStateM.Result.ok (extend (ts.get 10) 0x200000000000) m = _
    rw [Exec.extend_wide]
    rw [TypeInfo.valueSize, show (ts.get 10).kind = .struct from hk]
    decide
  obtain ⟨hvalue, htype, -⟩ := members_agree hh hm hd hr follow_nil hk hv (m := m) .refl rfl hb (by decide) 60
  exact ⟨hlocate ▸ hvalue, hfield ▸ htype⟩

end TypeTable

end LevelScript
