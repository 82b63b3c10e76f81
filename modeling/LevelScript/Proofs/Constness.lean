import LevelScript.Proofs.Meaning
import LevelScript.Proofs.Outcome

/-!
# What resolving does to constness

A type below a resolved one is constant if the type that stands there, or that its name leads to, is. What was
constant about a name itself is gone with the name. Where a type is constant, what has it can only be read.
-/

namespace LevelScript

namespace TypeTable

/-- The type where a way leads, names on the way being followed but not one that stands at its end. -/
inductive Stands (ts : TypeTable) (lookup : Lookup) : TypeId → List TypeStep → TypeId → Prop where
  | here {id : TypeId} : Stands ts lookup id [] id
  | step {id u c d : TypeId} {t : TypeInfo} {s : TypeStep} {path : List TypeStep} : Named ts lookup id u →
      ts.types[u]? = some t → t.shape.next? s = some c → Stands ts lookup c path d →
      Stands ts lookup id (s :: path) d

section
variable {ts : TypeTable} {lookup : Lookup} {id c v : TypeId} {path : List TypeStep}

theorem Stands.reaches (h : Stands ts lookup id path c) (hn : Named ts lookup c v) :
    Reaches ts lookup id path v := by
  induction h with
  | here => exact .nil hn
  | step hu ht hs _ ih => exact .cons hu ht hs (ih hn)

theorem Reaches.stands (h : Reaches ts lookup id path v) : ∃ c, Stands ts lookup id path c ∧
    Named ts lookup c v := by
  induction h with
  | nil hn => exact ⟨_, .here, hn⟩
  | cons hu ht hs _ ih =>
    obtain ⟨c, hc, hn⟩ := ih
    exact ⟨c, .step hu ht hs hc, hn⟩

end

def IsName (ts : TypeTable) (id : TypeId) : Prop := ∃ name, (ts.get id).shape = .deferred name

def IsConst (ts : TypeTable) (id : TypeId) : Prop := (ts.get id).isConst = true

theorem isConst_of_label {t u : TypeInfo} (h : u.label = t.label) : u.isConst = t.isConst :=
  congrArg (fun shown : Kind × TypeFlags × TypeShape => shown.2.1.isConst) h

end TypeTable

open TypeTable

namespace Exec

section
variable {m m' : Machine} {v v' : Variable} {w : TypeId}

/-- There is nothing of this type that could be assigned to: no variable, no field and nothing that a pointer
points at. -/
structure ReadOnly (m : Machine) (w : TypeId) : Prop where
  loaded {name : NameId} {v : Variable} {m' : Machine} : load? name m = .ok (some v) m' → v.type = w →
      v.isLvalue = false
  field {id : TypeId} {addr : UInt64} {name : NameId} {v : Variable} {m' : Machine} :
    fieldAt? id addr name m = .ok (some v) m' → v.type = w → v.isLvalue = false
  pointee {pointer : TypeId} {addr : UInt64} {v : Variable} {m' : Machine} :
    elementAt pointer addr m = .ok v m' → v.type = w → v.isLvalue = false

theorem toValue_ok (h : toValue v m = .ok v' m') : v'.type = v.type ∧ v'.isLvalue = false := by
  obtain ⟨word, m₁, -, h⟩ := bind_eq_ok h
  cases h
  exact ⟨rfl, rfl⟩

/-- A variable that is turned into its value if its type is constant, and what is made of it. -/
theorem guarded_ok {β : Type} {isConst : Bool} {f : Variable → Exec β} {b : β}
    (h : (if isConst then toValue v >>= f else pure v >>= f : Exec β) m = .ok b m') :
    ∃ v' m₁, f v' m₁ = .ok b m' ∧ v'.type = v.type ∧ (isConst = true → v'.isLvalue = false) := by
  cases isConst with
  | true =>
    obtain ⟨v', m₁, hv, h⟩ := bind_eq_ok h
    obtain ⟨ht, hl⟩ := toValue_ok hv
    exact ⟨v', m₁, h, ht, fun _ => hl⟩
  | false => exact ⟨v, m, h, rfl, nofun⟩

theorem load?_const {name : NameId} (h : load? name m = .ok (some v) m') (hc : m.types.IsConst v.type) :
    v.isLvalue = false := by
  rw [load?, get_bind] at h
  cases hv : m.scopes.lookup name m.base with
  | none =>
    rw [hv] at h
    cases h
  | some found =>
    rw [hv] at h
    obtain ⟨w, m₁, h, ht, hl⟩ := guarded_ok h
    cases h
    have hc : m.types.IsConst w.type := hc
    rw [ht] at hc
    exact hl hc

theorem fieldAt?_const {id : TypeId} {addr : UInt64} {name : NameId} (h : fieldAt? id addr name m = .ok (some v) m')
    (hc : m.types.IsConst v.type) : v.isLvalue = false := by
  rw [fieldAt?, get_bind] at h
  cases hp : m.types.walkField id addr name with
  | none =>
    rw [hp] at h
    cases h
  | some place =>
    rw [hp] at h
    dsimp only at h
    by_cases hi : place.field.inlined.isSome = true
    · rw [if_pos hi] at h
      cases h
      rfl
    rw [if_neg hi] at h
    obtain ⟨t, m₁, ht, h⟩ := bind_eq_ok h
    cases ht
    obtain ⟨w, m₂, h, hwt, hl⟩ := guarded_ok h
    have hv : v.type = w.type ∧ v.isLvalue = w.isLvalue := by
      split at h <;> cases h <;> exact ⟨rfl, rfl⟩
    rw [hv.1, hwt] at hc
    rw [hv.2]
    exact hl hc

theorem elementAt_const {pointer : TypeId} {addr : UInt64} (h : elementAt pointer addr m = .ok v m')
    (hc : m.types.IsConst v.type) : v.isLvalue = false := by
  obtain ⟨p, m₁, hp, h⟩ := bind_eq_ok h
  cases hp
  obtain ⟨t, m₂, ht, h⟩ := bind_eq_ok h
  cases ht
  obtain ⟨word, m₃, -, h⟩ := bind_eq_ok h
  by_cases hb : (m.types.get (((m.types.get pointer).base?).getD TypeTable.void)).isConst = true
  · rw [if_pos hb] at h
    exact (toValue_ok h).2
  · rw [if_neg hb] at h
    cases h
    exact absurd hc hb

theorem readOnly_of_const (h : m.types.IsConst w) : ReadOnly m w where
  loaded hv ht := load?_const hv (ht ▸ h)
  field hv ht := fieldAt?_const hv (ht ▸ h)
  pointee hv ht := elementAt_const hv (ht ▸ h)

end

end Exec

namespace TypeTable

/-- Where `c` stands, which leads to `v`, there is `w` in the result. -/
structure Carries (ts ts' : TypeTable) (c v w : TypeId) : Prop where
  same : ts'.IsConst w ↔ ts.IsConst v
  /-- Constness of the type that stands there is lost just for a name that leads to what is not constant. -/
  kept : (ts'.IsConst w ↔ ts.IsConst c ∨ ts.IsName c ∧ ts.IsConst v) ↔ ¬(ts.IsName c ∧ ts.IsConst c ∧ ¬ts.IsConst v)
  readOnly {m : Machine} : ts'.Grows m.types → ts.IsConst v → Exec.ReadOnly m w

section
variable {ts ts' : TypeTable} {lookup : Lookup} {id r c v w : TypeId}

theorem Carries.of_label {t u : TypeInfo} (hn : Named ts lookup c v) (ht : ts.types[v]? = some t)
    (hu : ts'.types[w]? = some u)
    (hl : u.label = t.label) : Carries ts ts' c v w := by
  have hsame : ts'.IsConst w ↔ ts.IsConst v := by
    rw [IsConst, IsConst, get_eq hu, get_eq ht, isConst_of_label hl]
  refine ⟨hsame, ?_, fun {m} hg hv => Exec.readOnly_of_const ?_⟩
  · rw [hsame]
    by_cases hc : ts.IsName c
    · simp only [hc, true_and]
      tauto
    · -- what is no name stands for itself
      have hvc : v = c := by
        cases hn with
        | here => rfl
        | through hc' hd => exact absurd ⟨_, (get_eq hc').symm ▸ hd⟩ hc
      simp [hc, hvc]
  · rw [IsConst, hg.get (lt_of_lookup hu)]
    exact hsame.mpr hv

/-- In every history without mistakes, at every place of what resolving gives stands a type that is constant just if
what stood at that place, or what its name led to, was. So all that was constant stays so, and can only be read from
then on, except for a name that was constant itself and leads to what is not. -/
theorem resolve_constness {made : List TypeId} (h : History ts made)
    (hm : (TypeOp.resolve lookup id).Mentions (ts.Within made))
    (hd : Distinct (ts.registered ++ (TypeOp.resolve lookup id).asked ts))
    (hr : ts.resolve lookup id = (.ok r, ts')) :
    (∀ path c v, Stands ts lookup id path c → Named ts lookup c v → ∃ w, ts'.follow r path = some w ∧
      Carries ts ts' c v w) ∧
      ∀ path w, ts'.follow r path = some w → ∃ c v, Stands ts lookup id path c ∧ Named ts lookup c v ∧
      Carries ts ts' c v w := by
  have hsame := h.unfolds hm hd hr
  constructor
  · intro path c v hc hn
    obtain ⟨w, t, u, hw, ht, hu, hl⟩ := hsame.reached (hc.reaches hn)
    exact ⟨w, hw, .of_label hn ht hu hl⟩
  · intro path w hw
    obtain ⟨v, t, u, hv, ht, hu, hl, -, -⟩ := hsame.only hw
    obtain ⟨c, hc, hn⟩ := hv.stands
    exact ⟨c, v, hc, hn, .of_label hn ht hu hl⟩

end

/-! ### A constant name -/

def constName : TypeInfo := { listed (nameOf 100) with flags := { isConst := true } }

theorem constName_nodup :
    ((primitiveKinds.map (plainInfo · {}) ++ [nameOf 100, constName]).map TypeInfo.computeHash).Nodup := by
  decide +kernel

/-- A name that has been made constant resolves to what it leads to, which is not. -/
theorem resolve_constness_name : ∃ ts ts' made, History ts made ∧
    (TypeOp.resolve flaggedLookup 10).Mentions (ts.Within made) ∧
    Distinct (ts.registered ++ (TypeOp.resolve flaggedLookup 10).asked ts) ∧
    ts.resolve flaggedLookup 10 = (.ok int32, ts') ∧
    ts.IsName 10 ∧ ts.IsConst 10 ∧ Carries ts ts' 10 int32 int32 ∧ ¬ts'.IsConst int32 := by
  have hreq (ts : TypeTable) (h : ts.get 9 = listed (nameOf 100)) :
      (TypeOp.constant 9).request ts = some constName := by
    rw [TypeOp.request, h]
    rfl
  obtain ⟨_, ts, -, -, -, hh, hm, hd, hr, hname, hint⟩ :=
    flagged_resolves constName_nodup hreq rfl rfl (fun _ h => h) (by rintro _ ⟨⟩)
  have hn : Named ts flaggedLookup 10 int32 := .through hname rfl rfl (.here hint (by rintro _ ⟨⟩))
  obtain ⟨w, hw, hcarries⟩ := (resolve_constness hh hm hd hr).1 [] 10 int32 .here hn
  cases hw
  refine ⟨ts, ts, _, hh, hm, hd, hr, ⟨100, ?_⟩, ?_, hcarries, ?_⟩
  · rw [get_eq hname]
    rfl
  · rw [IsConst, get_eq hname]
    rfl
  · rw [IsConst, get_eq hint]
    decide

end TypeTable

end LevelScript
