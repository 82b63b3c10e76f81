import LevelScript.Proofs.Unfolding

/-!
# The walk over a type

Where the walk over a type comes to an ancestor it leaves a reference to it, and else it asks for a copy made
of what it found. The type it gives unfolds as the one it began with, if references mean the ancestors and no
request is mistaken. Its fuel is enough: the ancestors differ, and between two of them at most one name is
looked up.
-/

namespace LevelScript

namespace TypeTable

/-- Types that are made of one another and that names lead to: none refers to an enclosing type, and no
closed one has a deferred name below it. -/
structure Source (ts : TypeTable) (lookup : Lookup) (M : TypeId → Prop) : Prop where
  known {id : TypeId} : M id → id < ts.size
  next {id c : TypeId} {t : TypeInfo} {s : TypeStep} : M id → ts.types[id]? = some t →
      t.shape.next? s = some c → M c
  named {id target : TypeId} {t : TypeInfo} {name : NameId} : M id → ts.types[id]? = some t →
      t.shape = .deferred name →
    lookup name = .type target → M target
  noMarker {id : TypeId} {t : TypeInfo} {depth : Nat} : M id → ts.types[id]? = some t → t.shape ≠ .parent depth
  complete {id v : TypeId} {t : TypeInfo} {path : List TypeStep} {name : NameId} : M id → ts.IsClosed id →
    ts.follow id path = some v → ts.types[v]? = some t → t.shape ≠ .deferred name

/-- In `ts'`, `o` unfolds as `id` does in `ts`, if references to enclosing types mean the ancestors. -/
inductive Resolved (ts ts' : TypeTable) (lookup : Lookup) : List TypeId → TypeId → TypeId → Prop where
  | ancestor {A : List TypeId} {id v o : TypeId} {k : Nat} {u : TypeInfo} : Named ts lookup id v →
      A.idxOf? v = some k →
      ts'.types[o]? = some u → u.shape = .parent (k + 1) → u.flags.closed = false → Resolved ts ts' lookup A id o
  | closed {A : List TypeId} {id v : TypeId} {t : TypeInfo} : Named ts lookup id v → v ∉ A → ts.types[v]? = some t →
      t.flags.closed = true → Resolved ts ts' lookup A id v
  | node {A : List TypeId} {id v o : TypeId} {t u : TypeInfo} : Named ts lookup id v → v ∉ A →
      ts.types[v]? = some t →
      ts'.types[o]? = some u → t.flags.closed = false → u.flags.closed = false → u.label = t.label →
      (∀ s c d, t.shape.next? s = some c → u.shape.next? s = some d → Resolved ts ts' lookup (v :: A) c d) →
      Resolved ts ts' lookup A id o

section
variable {ts ts' T : TypeTable} {lookup : Lookup} {M : TypeId → Prop} {A : List TypeId}
  {id v o c : TypeId} {t : TypeInfo}

theorem Source.of_named (hS : Source ts lookup M) (h : Named ts lookup id v) (hid : M id) : M v := by
  induction h with
  | here => exact hid
  | through ht hd hl _ ih => exact ih (hS.named hid ht hd hl)

theorem Resolved.grows (h : Resolved ts ts' lookup A id o) (hg : ts'.Grows T) : Resolved ts T lookup A id o := by
  induction h with
  | ancestor hn hk hu hs ho => exact .ancestor hn hk (hg _ _ hu) hs ho
  | closed hn hv ht hc => exact .closed hn hv ht hc
  | node hn hv ht hu htc huc hl _ ih => exact .node hn hv ht (hg _ _ hu) htc huc hl ih

theorem Resolved.of_named (h : Named ts lookup id v) (hr : Resolved ts ts' lookup A v o) :
    Resolved ts ts' lookup A id o := by
  cases hr with
  | ancestor hn hk hu hs ho => exact .ancestor (h.trans hn) hk hu hs ho
  | closed hn hv ht hc => exact .closed (h.trans hn) hv ht hc
  | node hn hv ht hu htc huc hl hc => exact .node (h.trans hn) hv ht hu htc huc hl hc

theorem Sane.follow_lt (hs : ts.Sane) : ∀ {path : List TypeStep} {id : TypeId}, id < ts.size →
    ts.follow id path = some v → v < ts.size
  | [], _, hid, h => by
    cases h
    exact hid
  | s :: path, id, _, h => by
    obtain ⟨t, c, ht, hc, h⟩ := follow_cons_some h
    exact hs.follow_lt (hs.next_lt ht hc) h

theorem Grows.follow_back (hg : ts.Grows ts') (hs : ts.Sane) :
    ∀ {path : List TypeStep} {id : TypeId}, id < ts.size →
    ts'.follow id path = some v → ts.follow id path = some v
  | [], _, _, h => h
  | s :: path, id, hid, h => by
    have ht := lookup_of_lt hid
    obtain ⟨t, c, ht', hc, h⟩ := follow_cons_some h
    cases Option.some.inj ((hg _ _ ht).symm.trans ht')
    rw [follow_cons ht hc]
    exact hg.follow_back hs (hs.next_lt ht hc) h

/-- No deferred name is left below a resolved type. -/
theorem Resolved.noDeferred (hS : Source ts lookup M) (hs : ts.Sane) (hg : ts.Grows ts')
    (h : Resolved ts ts' lookup A id o)
    (hid : M id) {path : List TypeStep} (hf : ts'.follow o path = some v) (ht : ts'.types[v]? = some t)
    {name : NameId} :
    t.shape ≠ .deferred name := by
  intro hd
  induction h generalizing path with
  | ancestor hn hk hu hsh =>
    cases path with
    | nil =>
      cases hf
      cases Option.some.inj (ht.symm.trans hu)
      cases hsh.symm.trans hd
    | cons s path =>
      obtain ⟨u', c, hu', hc, -⟩ := follow_cons_some hf
      cases Option.some.inj (hu.symm.trans hu')
      rw [hsh] at hc
      cases s <;> cases hc
  | closed hn _ hv hc =>
    have hM := hS.of_named hn hid
    have hf := hg.follow_back hs (hS.known hM) hf
    have hw := lookup_of_lt (hs.follow_lt (hS.known hM) hf)
    cases Option.some.inj ((hg _ _ hw).symm.trans ht)
    exact hS.complete hM ⟨_, hv, hc⟩ hf hw hd
  | node hn _ hv hu _ _ hl _ ih =>
    cases path with
    | nil =>
      cases hf
      cases Option.some.inj (ht.symm.trans hu)
      obtain ⟨t', ht', hnd⟩ := hn.exists
      cases Option.some.inj (hv.symm.trans ht')
      exact hnd _ (TypeInfo.deferred_of_label hl hd)
    | cons s path =>
      obtain ⟨u', d, hu', hc, hf⟩ := follow_cons_some hf
      cases Option.some.inj (hu.symm.trans hu')
      obtain ⟨c, hct⟩ := TypeInfo.next?_of_label hl hc
      exact ih s c d hct hc (hS.next (hS.of_named hn hid) hv hct) hf

end

/-! ## Where the walk is -/

def HasDeferred (ts : TypeTable) (id : TypeId) : Prop :=
  ∃ path v t name, ts.follow id path = some v ∧ ts.types[v]? = some t ∧ t.shape = .deferred name

/-- The walk is at `id`, with these ancestors: they differ and are no names, and each has `id` below it or else a
deferred name. -/
structure Visit (ts : TypeTable) (M : TypeId → Prop) (A : List TypeId) (id : TypeId) : Prop where
  inside : M id
  ancestors : ∀ a ∈ A, M a ∧ ∃ t, ts.types[a]? = some t ∧ ∀ name, t.shape ≠ .deferred name
  nodup : A.Nodup
  pending : ∀ a ∈ A, ts.HasDeferred a ∨ ∃ path, ts.follow a path = some id

section
variable {ts : TypeTable} {lookup : Lookup} {M : TypeId → Prop} {A : List TypeId} {id c : TypeId}
  {t : TypeInfo} {s : TypeStep}

theorem Visit.length_le (h : Visit ts M A id) (hS : Source ts lookup M) : A.length ≤ ts.size := by
  have hs : A ⊆ List.range ts.size := fun a ha => List.mem_range.mpr (hS.known (h.ancestors a ha).1)
  have hle := (h.nodup.subperm hs).length_le
  rwa [List.length_range] at hle

theorem Visit.next (h : Visit ts M A id) (hS : Source ts lookup M) (ht : ts.types[id]? = some t) (hid : id ∉ A)
    (hd : ∀ name, t.shape ≠ .deferred name) (hs : t.shape.next? s = some c) : Visit ts M (id :: A) c where
  inside := hS.next h.inside ht hs
  ancestors := List.forall_mem_cons.mpr ⟨⟨h.inside, t, ht, hd⟩, h.ancestors⟩
  nodup := List.nodup_cons.mpr ⟨hid, h.nodup⟩
  pending := by
    refine List.forall_mem_cons.mpr ⟨.inr ⟨[s], (follow_cons ht hs).trans rfl⟩, fun a ha => ?_⟩
    refine (h.pending a ha).imp_right fun ⟨path, hp⟩ => ⟨path ++ [s], ?_⟩
    rw [follow_append, hp, Option.bind_some, follow_cons ht hs]
    rfl

theorem Visit.named (h : Visit ts M A id) {name : NameId} (ht : ts.types[id]? = some t)
    (hd : t.shape = .deferred name) (hc : M c) : Visit ts M A c where
  inside := hc
  ancestors := h.ancestors
  nodup := h.nodup
  pending a ha := .inl ((h.pending a ha).elim (fun hp => hp) fun ⟨path, hp⟩ => ⟨path, id, t, name, hp, ht, hd⟩)

end

/-! ## Names -/

/-- Names lead to a type that is none, or to an error: what has been visited differs. -/
theorem followDefers_named {ts ts₁ : TypeTable} {lookup : Lookup} {M : TypeId → Prop}
    (hk : ∀ {id}, M id → id < ts.size)
    (hnext : ∀ {id name target}, M id → (ts.get id).shape = .deferred name → lookup name = .type target →
      M target) (hg : ts.Grows ts₁) :
    ∀ {n : Nat} {visited : List TypeId} {id target : TypeId}, visited.Nodup → (∀ v ∈ visited, v < ts₁.size) →
      ts₁.size + 1 ≤ n + visited.length → M id → ts₁.followDefers lookup n visited id = .ok target →
      Named ts lookup id target
  | 0, visited, _, _, hd, hv, hn, _, _ => by
    have hs : visited ⊆ List.range ts₁.size := fun a ha => List.mem_range.mpr (hv a ha)
    have hle := (hd.subperm hs).length_le
    rw [List.length_range] at hle
    omega
  | n + 1, visited, id, target, hd, hv, hn, hid, h => by
    have ht := lookup_of_lt (hk hid)
    rw [followDefers, get_eq (hg _ _ ht)] at h
    split at h
    case h_1 name hname =>
      split at h
      · cases h
      case isFalse hc =>
        split at h
        · cases h
        · cases h
        case h_3 next hl =>
          refine .through ht hname hl (followDefers_named hk hnext hg (List.nodup_cons.mpr ⟨fun hm => hc ?_, hd⟩)
            (List.forall_mem_cons.mpr ⟨hg.lt (hk hid), hv⟩) ?_ (hnext hid hname hl) h)
          · exact List.contains_iff_mem.mpr hm
          · rw [List.length_cons]
            omega
    case h_2 hname =>
      cases h
      exact .here ht hname

/-! ## The walk -/

structure Ready (ts : TypeTable) (types : List TypeInfo) (ts₁ : TypeTable) : Prop where
  sane : ts₁.Sane
  grows : ts.Grows ts₁
  covered : Covered types ts₁

/-- Without mistakes, resolving `c` gives a type that `R` holds of. -/
def Resolves (ts : TypeTable) (types : List TypeInfo) (resolve : TypeId → Resolver TypeId)
    (asked : TypeId → TypeTable → List TypeInfo) (R : TypeTable → TypeId → Prop) (c : TypeId) : Prop :=
  ∀ (ts₁ : TypeTable) (o : TypeId) (ts₂ : TypeTable), Ready ts types ts₁ → asked c ts₁ ⊆ types →
    resolve c ts₁ = (.ok o, ts₂) →
    Ready ts types ts₂ ∧ ts₁.Grows ts₂ ∧ R ts₂ o

section
variable {α : Type} {ts ts₁ ts₂ : TypeTable} {types : List TypeInfo} {lookup : Lookup} {A : List TypeId}
  {resolve : TypeId → Resolver TypeId} {asked : TypeId → TypeTable → List TypeInfo}

theorem resolveAll_resolves {get : α → TypeId} {set : α → TypeId → α} :
    ∀ {as as' : List α} {ts₁ : TypeTable},
      (∀ a ∈ as, Resolves ts types resolve asked (Resolved ts · lookup A (get a)) (get a)) →
      Ready ts types ts₁ → askedAll resolve asked get as ts₁ ⊆ types →
      resolveAll resolve get set as ts₁ = (.ok as', ts₂) →
      Ready ts types ts₂ ∧ ts₁.Grows ts₂ ∧
        List.Forall₂ (fun a a' => ∃ d, a' = set a d ∧ Resolved ts ts₂ lookup A (get a) d) as as'
  | [], _, _, _, h, _, hr => by
    cases hr
    exact ⟨h, .refl _, .nil⟩
  | a :: as, as', ts₁, hw, h, ha, hr => by
    rw [resolveAll_cons] at hr
    obtain ⟨d, ts₃, hd, hr⟩ := andThen_ok hr
    obtain ⟨ds, ts₄, hds, hr⟩ := andThen_ok hr
    cases hr
    rw [askedAll, List.append_subset, hd] at ha
    obtain ⟨h₃, hg₃, hR⟩ := hw a (List.mem_cons_self ..) _ _ _ h ha.1 hd
    obtain ⟨h₄, hg₄, hRs⟩ := resolveAll_resolves (fun b hb => hw b (List.mem_cons_of_mem _ hb)) h₃ ha.2 hds
    exact ⟨h₄, hg₃.trans hg₄, .cons ⟨d, rfl, hR.grows hg₄⟩ hRs⟩

theorem resolveBelow_resolves {shape shape' : TypeShape}
    (hw : ∀ s c, shape.next? s = some c → Resolves ts types resolve asked (Resolved ts · lookup A c) c)
    (h : Ready ts types ts₁) (ha : askedBelow resolve asked shape ts₁ ⊆ types)
    (hr : resolveBelow resolve shape ts₁ = (.ok shape', ts₂)) :
    Ready ts types ts₂ ∧ shape.Alike (Resolved ts ts₂ lookup A) shape' := by
  cases shape with
  | plain | deferred | parent =>
    cases hr
    exact ⟨h, rfl, fun {s _ _} hc => by cases s <;> cases hc⟩
  | pointer base =>
    obtain ⟨d, ts₃, hd, hr⟩ := andThen_ok hr
    cases hr
    obtain ⟨h₃, -, hR⟩ := hw .pointee base rfl _ _ _ h ha hd
    exact ⟨h₃, .pointer hR⟩
  | function result params =>
    obtain ⟨d, ts₃, hd, hr⟩ := andThen_ok hr
    obtain ⟨ds, ts₄, hds, hr⟩ := andThen_ok hr
    cases hr
    rw [askedBelow, List.append_subset, hd] at ha
    obtain ⟨h₃, -, hR⟩ := hw .result result rfl _ _ _ h ha.1 hd
    obtain ⟨h₄, hg₄, hRs⟩ := resolveAll_resolves (fun p hp => by
      obtain ⟨s, hs⟩ := TypeShape.next?_param result hp
      exact hw s _ hs) h₃ ha.2 hds
    exact ⟨h₄, .function (hR.grows hg₄) hRs⟩
  | struct fields =>
    obtain ⟨ds, ts₃, hds, hr⟩ := andThen_ok hr
    cases hr
    obtain ⟨h₃, -, hRs⟩ := resolveAll_resolves (fun f hf => by
      obtain ⟨s, hs⟩ := TypeShape.next?_field hf
      exact hw s _ hs) h ha hds
    exact ⟨h₃, .struct hRs⟩

theorem Ready.register (h : Ready ts types ts₁) (hd : Distinct types) {t : TypeInfo} (ht : t ∈ types)
    (ho : t.flags.closed = false)
    (hc : ∀ s c, t.shape.next? s = some c → c < ts₁.size) (hl : ts₁.Laid → ts₁.withLayout t = t) :
    Ready ts types (ts₁.register t).2 ∧ ts₁.Grows (ts₁.register t).2 ∧
    ∃ u, (ts₁.register t).2.types[(ts₁.register t).1]? = some u ∧
      u.form = t.form ∧ u.flags.closed = false := by
  have ha := h.sane.register ho hc hl
  exact ⟨⟨ha.adds.sane, h.grows.trans ha.adds.grows, ha.covered h.covered ht⟩, ha.adds.grows,
    ha.form hd h.covered ht⟩

end

theorem getElem?_of_idxOf? {A : List TypeId} {id : TypeId} {k : Nat} (h : A.idxOf? id = some k) :
    A[k]? = some id := by
  obtain ⟨hk, he, -⟩ := List.idxOf?_eq_some_iff.mp h
  rw [List.getElem?_eq_getElem hk, he]

/-- A reference to the ancestor that `v` is. -/
theorem Ready.marker {ts ts₁ ts₂ : TypeTable} {types : List TypeInfo} {lookup : Lookup} {A : List TypeId}
    {id v o : TypeId} {k : Nat}
    (h : Ready ts types ts₁) (hd : Distinct types) (hn : Named ts lookup id v) (hk : A.idxOf? v = some k)
    (hm : askedMarker A v ⊆ types) (hr : answered (ts₁.parentRef (k + 1)) = (.ok o, ts₂)) :
    Ready ts types ts₂ ∧ ts₁.Grows ts₂ ∧ Resolved ts ts₂ lookup A id o := by
  cases hr
  rw [askedMarker, hk] at hm
  obtain ⟨h₂, hg, u, hu, hf, ho⟩ := h.register hd (hm (List.mem_singleton_self _)) rfl
    (fun s c hn => by cases s <;> cases hn) fun _ => rfl
  exact ⟨h₂, hg, .ancestor hn hk hu (TypeInfo.parent_of_label (TypeInfo.label_of_form hf).symm rfl) ho⟩

section
variable {ts : TypeTable} {types : List TypeInfo} {lookup : Lookup} {M : TypeId → Prop} (hS : Source ts lookup M)
  (hs : ts.Sane) (hl : ∀ name target, lookup name = .type target → target < ts.size) (hd : Distinct types)
include hS hs hl hd

omit hl hd in
/-- The type that a name leads to is resolved, and it is none of the ancestors: nothing is deferred below it. -/
theorem found_notMem {ts₂ : TypeTable} {A : List TypeId} {target found : TypeId} (hv : Visit ts M A target)
    (hp : ∀ a ∈ A, ts.HasDeferred a) (hg : ts.Grows ts₂) (hr : Resolved ts ts₂ lookup A target found) :
    found ∉ A := by
  intro hm
  obtain ⟨path, v, t, name, hf, ht, hdef⟩ := hp found hm
  exact hr.noDeferred hS hs hg hv.inside (hg.follow hf) (hg _ _ ht) hdef

omit hl hd in
theorem copy_resolved {ts₁ ts₂ : TypeTable} {resolve : TypeId → Resolver TypeId}
    {asked : TypeId → TypeTable → List TypeInfo}
    {A : List TypeId} {id o : TypeId} (hd : Distinct types) (hv : M id) (hid : id ∉ A)
    (ho : (ts.get id).flags.closed = false)
    (hc : (ts.get id).shape.isComposed = true)
    (hw : ∀ s c, (ts.get id).shape.next? s = some c →
      Resolves ts types resolve asked (Resolved ts · lookup (id :: A) c) c)
    (hr' : ∀ (T : TypeTable) c, T.Sane → ts.size ≤ T.size → c < T.size → Lands T (resolve c T) Known)
    (h : Ready ts types ts₁)
    (ha : askedBelow resolve asked (ts.get id).shape ts₁ ++ asksAfter (resolveBelow resolve (ts.get id).shape ts₁)
      (fun shape T => [T.withLayout { ts.get id with shape }]) ⊆ types)
    (hr : andThen (resolveBelow resolve (ts.get id).shape ts₁)
      (fun shape T => answered (T.register (T.withLayout { ts.get id with shape }))) = (.ok o, ts₂)) :
    Ready ts types ts₂ ∧ ts₁.Grows ts₂ ∧ Resolved ts ts₂ lookup A id o := by
  have ht := lookup_of_lt (hS.known hv)
  obtain ⟨shape, ts₃, hb, hr⟩ := andThen_ok hr
  cases hr
  rw [List.append_subset, hb] at ha
  have hlands := resolveBelow_lands hr' h.sane h.grows.size_le fun s c hn => h.grows.lt (hs.next_lt ht hn)
  rw [hb] at hlands
  obtain ⟨h₃, halike⟩ := resolveBelow_resolves hw h ha.1 hb
  obtain ⟨h₄, hg₄, u, hu, hf, huo⟩ := h₃.register hd (ha.2 (List.mem_singleton_self _))
    (by rw [withLayout_flags]; exact ho)
    (fun s c hn => hlands.result rfl s c (by rwa [withLayout_next?] at hn)) (fun _ => withLayout_withLayout _)
  rw [withLayout_form] at hf
  refine ⟨h₄, hlands.adds.grows.trans hg₄,
    .node (.here ht (TypeShape.ne_deferred hc)) hid ht hu ho huo ?_ fun s c d hc hd => ?_⟩
  · rw [TypeInfo.label_of_form hf, TypeInfo.label, TypeInfo.label, halike.label]
  · rw [TypeShape.next?_of_form (congrArg (·.2.2) hf)] at hd
    exact (halike.next hc hd).grows hg₄

omit hl hd in
/-- A name is followed to a type that is none, and what that is resolved to stands for the name: it is no
ancestor. -/
theorem name_resolved {ts₁ ts₂ : TypeTable} {resolve : TypeId → Resolver TypeId}
    {asked : TypeId → TypeTable → List TypeInfo} {A : List TypeId} {id o : TypeId} {t : TypeInfo} {name : NameId}
    (hv : Visit ts M A id) (ht : ts.types[id]? = some t) (hsh : t.shape = .deferred name)
    (hw : ∀ target, Visit ts M A target → (∀ t name, ts.types[target]? = some t → t.shape ≠ .deferred name) →
      Resolves ts types resolve asked (Resolved ts · lookup A target) target)
    (h : Ready ts types ts₁)
    (ha : asksAfter (ts₁.followDefers lookup (ts₁.size + 1) [] id, ts₁) (fun target T =>
      asked target T ++ asksAfter (resolve target T) fun found _ => askedMarker A found) ⊆ types)
    (hr : andThen (ts₁.followDefers lookup (ts₁.size + 1) [] id, ts₁) (fun target T =>
      andThen (resolve target T) (orMarker A)) = (.ok o, ts₂)) :
    Ready ts types ts₂ ∧ ts₁.Grows ts₂ ∧ Resolved ts ts₂ lookup A id o := by
  obtain ⟨target, ts₃, ht₃, hrest⟩ := andThen_ok hr
  obtain ⟨found, ts₄, hf₄, hm₄⟩ := andThen_ok hrest
  cases congrArg Prod.snd ht₃
  have hnamed :=
    followDefers_named hS.known (fun hm hs hl => hS.named hm (lookup_of_lt (hS.known hm)) hs hl) h.grows .nil
      (List.forall_mem_nil _) (Nat.le_refl _) hv.inside (congrArg Prod.fst ht₃)
  obtain ⟨tt, htt, hnd⟩ := hnamed.exists
  rw [ht₃] at ha
  obtain ⟨ha, ham⟩ := List.append_subset.mp ha
  have hvt := hv.named ht hsh (hS.of_named hnamed hv.inside)
  obtain ⟨h₄, hg₄, hr₄⟩ :=
    hw target hvt (fun t' name' ht' => Option.some.inj (htt.symm.trans ht') ▸ hnd name') _ _ _ h ha hf₄
  -- each ancestor has a name below it, and nothing resolved has
  have hp (a : TypeId) (hm : a ∈ A) : ts.HasDeferred a := by
    obtain hp | ⟨path, hp⟩ := hv.pending a hm
    · exact hp
    · exact ⟨path, id, _, name, hp, ht, hsh⟩
  have hnot := found_notMem hS hs hvt hp h₄.grows hr₄
  rw [orMarker, List.idxOf?_eq_none_iff.mpr hnot] at hm₄
  cases hm₄
  exact ⟨h₄, hg₄, hr₄.of_named hnamed⟩

theorem resolveInner_resolves : ∀ {n : Nat} {A : List TypeId} {id : TypeId}, Visit ts M A id →
    2 * ts.size + 1 ≤ n + 2 * A.length →
    (∀ t name, ts.types[id]? = some t → t.shape = .deferred name → 2 * ts.size + 2 ≤ n + 2 * A.length) →
    Resolves ts types (resolveInner lookup n A) (askedInner lookup n A) (Resolved ts · lookup A id) id
  | 0, A, id, hv, hn, _, _, _, _, _, _, _ => by
    have hle := hv.length_le hS
    omega
  | n + 1, A, id, hv, hn, hn', ts₁, o, ts₂, h, ha, hr => by
    have ht := lookup_of_lt (hS.known hv.inside)
    have ht₁ := get_eq (h.grows _ _ ht)
    simp only [askedInner, ht₁] at ha
    revert hr
    refine resolveInner_cases
      (C := (· = (.ok o, ts₂) → Ready ts types ts₂ ∧ ts₁.Grows ts₂ ∧ Resolved ts ts₂ lookup A id o))
      (fun k hk hr => ?ancestor) (fun hid hc hr => ?closed) (fun hid hc hp hnd hr => ?plain)
      (fun name hid hc hp hr => ?named) fun hid hc hp hr => ?composed
    case ancestor =>
      have hid : id ∈ A := List.mem_of_getElem? (getElem?_of_idxOf? hk)
      rw [if_pos (List.contains_iff_mem.mpr hid)] at ha
      obtain ⟨-, t, ht', hnd⟩ := hv.ancestors id hid
      exact h.marker hd (.here ht' hnd) hk ha hr
    all_goals rw [ht₁] at hc
    all_goals rw [if_neg fun hin => hid (List.contains_iff_mem.mp hin), hc] at ha
    case closed =>
      cases hr
      refine ⟨h, .refl _, .closed (.here ht fun name => ?_) hid ht hc⟩
      exact hS.complete hv.inside ⟨_, ht, hc⟩ follow_nil ht
    all_goals rw [if_neg Bool.false_ne_true] at ha
    all_goals rw [ht₁] at hp
    case plain =>
      rw [ht₁] at hnd
      cases hr
      refine ⟨h, .refl _, .node (.here ht hnd) hid ht (h.grows _ _ ht) hc hc rfl fun s c d hn => ?_⟩
      rw [TypeShape.next?_eq_none hp] at hn
      cases hn
    case named =>
      -- Following a name does not go deeper, but it ends at a type that is no name, so it costs one step of
      -- fuel.
      have hfuel := hn' _ name ht hp
      rw [hp] at ha
      exact name_resolved hS hs hv ht hp (fun target hvt hnd => resolveInner_resolves hvt (by omega)
        fun t name ht hd => absurd hd (hnd t name ht)) h ha hr
    case composed =>
      rw [ht₁] at hr
      have hw (s : TypeStep) (c : TypeId) (hn : (ts.get id).shape.next? s = some c) :
          Resolves ts types (resolveInner lookup n (id :: A)) (askedInner lookup n (id :: A))
            (Resolved ts · lookup (id :: A) c) c := by
        have hfuel : 2 * ts.size + 2 ≤ n + 2 * (id :: A).length := by
          rw [List.length_cons]
          omega
        exact resolveInner_resolves (hv.next hS ht hid (TypeShape.ne_deferred hp) hn) (Nat.le_of_succ_le hfuel)
          fun _ _ _ _ => hfuel
      refine copy_resolved hS hs hd hv.inside hid hc hp hw
        (fun T c => resolveInner_lands hl n (id :: A) c T) h ?_ hr
      cases hsh : (ts.get id).shape with
      | plain | deferred | parent => rw [hsh] at hp; cases hp
      | pointer | function | struct => rw [hsh] at ha; exact ha

end

end TypeTable

end LevelScript
