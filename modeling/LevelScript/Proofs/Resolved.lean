import LevelScript.Proofs.Entry
import LevelScript.Proofs.Repeats

/-!
# What is resolved stays so

No name is below what resolving gave, and its open types are found by their hashes with the layout that
they have. So whoever resolves it again, as casts and calls do, gets it back as it is.
-/

namespace LevelScript

namespace TypeTable

section
variable {ts ts' T : TypeTable} {lookup : Lookup} {id r : TypeId}

/-! ## Nothing is left to resolve -/

theorem SameUnfolding.complete (h : SameUnfolding ts lookup id ts' r) : Complete ts' r := by
  intro path w t name hf ht
  obtain ⟨_, _, u, _, _, hu, -, hd, -⟩ := h.only hf
  cases Option.some.inj (hu.symm.trans ht)
  exact hd name

/-- Types without a deferred name below them. -/
theorem Complete.free (h : Complete ts id) (hs : ts.Sane) (hid : id < ts.size) :
    ts.FreeOfNames fun c => ∃ path, ts.follow id path = some c where
  known := by
    rintro c ⟨path, hf⟩
    exact hs.follow_lt hid hf
  unnamed := by
    rintro c name ⟨path, hf⟩
    exact h path c _ name hf (lookup_of_lt (hs.follow_lt hid hf))
  next := by
    rintro c d s ⟨path, hf⟩ - hn
    refine ⟨path ++ [s], ?_⟩
    rw [follow_append, hf]
    exact follow_one (lookup_of_lt (hs.follow_lt hid hf)) hn

/-- What has no reference to an enclosing type below it has no mark of one. -/
theorem Usable.whole (hs : ts.Sane) (h : ts.Usable id) : (ts.get id).containsParent = false := by
  induction id using Nat.strongRecOn with
  | _ id ih =>
    have ht := lookup_of_lt h.known
    have hmark := hs.marked ht
    by_cases hc : (ts.get id).flags.closed = true
    · simpa [hc] using hmark
    have ho : (ts.get id).flags.closed = false := Bool.eq_false_iff.mpr hc
    rw [hmark, ho, Bool.not_false, Bool.true_and]
    apply Bool.eq_false_iff.mpr
    intro hp
    obtain ⟨depth, hd⟩ | ⟨s, c, hn, hp⟩ := shapeContainsParent_iff.mp hp
    · exact h.noMarker follow_nil ht hd
    · rw [ih c (hs.next_open ht ho hn) (h.next hs ht hn)] at hp
      cases hp

/-- What resolving gives has passed the check of inline fields. -/
theorem validate_of_resolve (hr : ts.resolve lookup id = (.ok r, ts')) :
    ts'.validate (ts'.size + 1) [] r = .ok () := by
  rw [resolve_eq] at hr
  obtain ⟨found, ts₁, -, hr⟩ := andThen_ok hr
  cases hv : ts₁.validate (ts₁.size + 1) [] found with
  | error e =>
    simp only [hv] at hr
    cases hr
  | ok =>
    simp only [hv] at hr
    cases hr
    exact hv

/-- A type that can be resolved, passes the check of inline fields and has no deferred name below it. -/
structure Fixed (ts : TypeTable) (id : TypeId) : Prop where
  usable : ts.Usable id
  complete : Complete ts id
  accepted : ts.validate (ts.size + 1) [] id = .ok ()

/-- It resolves to itself in every table that has it. -/
theorem Fixed.same (hr : ts.Fixed r) (h : ts.Sane) (hg : ts.Grows T) (hT : T.Sane) (hl : T.Laid) (lookup : Lookup) :
    T.resolve lookup r = (.ok r, T) := by
  have hp : Placed ts [] r := ⟨hr.usable.known, List.forall_mem_nil _, .nil⟩
  have hlt := hg.lt hr.usable.known
  refine ((hr.complete.grows h hg hr.usable.known).free hT hlt).resolve hT hl ⟨[], follow_nil⟩
    ((hr.usable.grows h hg).whole hT) ?_
  rw [hg.validate h hp List.not_mem_nil (Nat.le_refl _) (Nat.succ_le_succ hg.size_le)]
  exact hr.accepted

/-- So is what is below it, if it would pass the check itself. -/
theorem Fixed.below (hr : ts.Fixed r) (h : ts.Sane) {path : List TypeStep} (hf : ts.follow r path = some id)
    (hv : ts.validate (ts.size + 1) [] id = .ok ()) : ts.Fixed id where
  usable := hr.usable.below h hf
  complete path' w t name hf' := hr.complete (path ++ path') w t name (by rw [follow_append, hf]; exact hf')
  accepted := hv

/-- A machine that has such a type in its table gets it back, whatever its own names mean. -/
theorem Fixed.resolveType (hr : ts.Fixed r) (hk : ts.Kept) (hl : ts.Laid) {m : Machine} (hT : Later ts m.types) :
    Exec.resolveType r m = .ok r { m with types := (m.types.constant type).2 } := by
  have hconst := (hT.constantType (hk.stock.trans (hT.keeps hk.sane).grows)).keeps hk.sane
  exact Exec.resolveType_same fun lookup => hr.same hk.sane hconst.grows hconst.sane (hconst.laid hl) lookup

end

/-! ## Nothing new is asked for -/

section
variable {α : Type} {ts : TypeTable} {lookup : Lookup} {Q : TypeInfo → Prop}

theorem askedAll_same {resolve : TypeId → Resolver TypeId} {asked : TypeId → TypeTable → List TypeInfo}
    {get : α → TypeId} :
    ∀ {as : List α}, (∀ a ∈ as, resolve (get a) ts = (.ok (get a), ts) ∧ ∀ t ∈ asked (get a) ts, Q t) →
      ∀ t ∈ askedAll resolve asked get as ts, Q t
  | [], _ => List.forall_mem_nil _
  | a :: as, h => by
    rw [List.forall_mem_cons] at h
    rw [askedAll, h.1.1]
    exact List.forall_mem_append.mpr ⟨h.1.2, askedAll_same h.2⟩

theorem askedBelow_same {resolve : TypeId → Resolver TypeId} {asked : TypeId → TypeTable → List TypeInfo}
    {shape : TypeShape}
    (h : ∀ s c, shape.next? s = some c → resolve c ts = (.ok c, ts) ∧ ∀ t ∈ asked c ts, Q t) :
    ∀ t ∈ askedBelow resolve asked shape ts, Q t := by
  cases shape with
  | plain | deferred | parent => exact List.forall_mem_nil _
  | pointer base => exact (h .pointee base rfl).2
  | function result params =>
    obtain ⟨hr, ha⟩ := h .result result rfl
    rw [askedBelow, hr]
    refine List.forall_mem_append.mpr ⟨ha, askedAll_same fun p hp => ?_⟩
    obtain ⟨s, hn⟩ := TypeShape.next?_param result hp
    exact h s _ hn
  | struct fields =>
    refine askedAll_same fun f hf => ?_
    obtain ⟨s, hn⟩ := TypeShape.next?_field hf
    exact h s _ hn

theorem mem_registered {id : TypeId} (hid : id < ts.size) (ho : (ts.get id).flags.closed = false) :
    ts.get id ∈ ts.registered := by
  refine List.mem_filter.mpr ⟨List.mem_of_getElem? (i := id) ?_, by rw [ho]; rfl⟩
  rw [Array.getElem?_toList]
  exact lookup_of_lt hid

/-- Without names, a walk asks for what it finds. -/
theorem FreeOfNames.asked {P : TypeId → Prop} (hP : ts.FreeOfNames P) (h : ts.Sane) (hl : ts.Laid) :
    ∀ (n : Nat) (ancestors : List TypeId) (id : TypeId), id < n → P id → (∀ a ∈ ancestors, id < a) →
    ∀ t ∈ askedInner lookup n ancestors id ts, t ∈ ts.registered
  | n + 1, ancestors, id, hlt, hid, ha => by
    have ht := lookup_of_lt (hP.known hid)
    have hout : ancestors.contains id = false := by
      apply Bool.eq_false_iff.mpr
      intro hc
      exact Nat.lt_irrefl _ (ha id (List.contains_iff_mem.mp hc))
    rw [askedInner, hout]
    by_cases hc : (ts.get id).flags.closed = true
    · simp [hc]
    have ho : (ts.get id).flags.closed = false := Bool.eq_false_iff.mpr hc
    have below (s : TypeStep) (c : TypeId) (hn : (ts.get id).shape.next? s = some c) :
        TypeTable.resolveInner lookup n (id :: ancestors) c ts = (.ok c, ts) ∧
          ∀ t ∈ askedInner lookup n (id :: ancestors) c ts, t ∈ ts.registered := by
      have hlt' : c < id := h.next_open ht ho hn
      have hn' : c < n := Nat.lt_of_lt_of_le hlt' (Nat.le_of_lt_succ hlt)
      have ha' : ∀ a ∈ id :: ancestors, c < a :=
        List.forall_mem_cons.mpr ⟨hlt', fun a hm => Nat.lt_trans hlt' (ha a hm)⟩
      exact ⟨hP.resolveInner h hl n _ c hn' (hP.next hid ho hn) ha',
        hP.asked h hl n _ c hn' (hP.next hid ho hn) ha'⟩
    simp only [Bool.false_eq_true, if_false, ho]
    split
    · exact List.forall_mem_nil _
    · exact List.forall_mem_nil _
    case h_3 name hs => exact absurd hs (hP.unnamed hid)
    case h_4 =>
      rw [resolveBelow_same fun s c hn => (below s c hn).1]
      refine List.forall_mem_append.mpr ⟨askedBelow_same below, List.forall_mem_singleton.mpr ?_⟩
      rw [show ts.withLayout { ts.get id with shape := (ts.get id).shape } = ts.get id from hl id _ ht ho]
      exact mem_registered (hP.known hid) ho

end

/-! ## Resolving again -/

section
variable {ts ts' : TypeTable} {made : List TypeId} {lookup : Lookup} {id r : TypeId}

theorem History.fixed (h : History ts made) (hm : (TypeOp.resolve lookup id).Mentions (ts.Within made))
    (hd : Distinct (ts.registered ++ (TypeOp.resolve lookup id).asked ts))
    (hr : ts.resolve lookup id = (.ok r, ts')) :
    ts'.Kept ∧ ts'.Laid ∧ ts'.Fixed r := by
  have hsame := h.unfolds hm hd hr
  obtain ⟨hk, hu⟩ := h.usable
  have hmu := hm.imp fun id hid => hid.usable hk.sane hu
  have hkeeps : ts.Keeps (ts.resolve lookup id).2 :=
    resolve_keeps hk.sane hmu.1.known fun name target he => (hmu.2 name target he).known
  rw [hr] at hkeeps
  exact ⟨h.after hm hr, hkeeps.laid ((h.later.keeps sane_initial).laid laid_initial), hsame.usable,
    hsame.complete, validate_of_resolve hr⟩

/-- In every history without mistakes, what resolving gave resolves to itself from then on: whatever joins the
table, and even if no name means anything any more. Nothing joins the table then. So it is for a machine with
such a table, whose own lookup finds the names of its program. -/
theorem resolved_stays (h : History ts made) (hm : (TypeOp.resolve lookup id).Mentions (ts.Within made))
    (hd : Distinct (ts.registered ++ (TypeOp.resolve lookup id).asked ts))
    (hr : ts.resolve lookup id = (.ok r, ts')) :
    (∀ (T : TypeTable) (g : Lookup), Later ts' T → T.resolve g r = (.ok r, T)) ∧
      ∀ m : Machine, Later ts' m.types →
      Exec.resolveType r m = .ok r { m with types := (m.types.constant type).2 } := by
  obtain ⟨hk, hl, hres⟩ := h.fixed hm hd hr
  constructor
  · intro T g hT
    have hkeeps := hT.keeps hk.sane
    exact hres.same hk.sane hkeeps.grows hkeeps.sane (hkeeps.laid hl) g
  · intro m hT
    exact hres.resolveType hk hl hT

/-- A pointer to itself stays so after it has been made constant, when its name is gone. -/
theorem resolved_stays_cyclic : ∃ ts ts' made r, History ts made ∧
    (TypeOp.resolve cyclicLookup 10).Mentions (ts.Within made) ∧
    Distinct (ts.registered ++ (TypeOp.resolve cyclicLookup 10).asked ts) ∧
    ts.resolve cyclicLookup 10 = (.ok r, ts') ∧
    Later ts' (ts'.constant r).2 ∧ (ts'.constant r).2.resolve
    (fun _ => .missing) r = (.ok r, (ts'.constant r).2) := by
  obtain ⟨ts, hl, hh, hn, hp⟩ := cyclic_history
  obtain ⟨r, ts', hr⟩ := cyclic_resolves hl hh hn hp
  obtain ⟨hm, hd⟩ := cyclic_request hl hn hp
  have hlt := (hh.unfolds hm hd hr).usable.known
  have hT : Later ts' ((TypeOp.constant r).run ts').2 := .step .refl hlt
  exact ⟨ts, ts', _, r, hh, hm, hd, hr, hT, (resolved_stays hh hm hd hr).1 _ _ hT⟩

end

end TypeTable

end LevelScript
