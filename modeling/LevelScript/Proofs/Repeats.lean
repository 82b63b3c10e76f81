import LevelScript.Proofs.InlineNesting
import LevelScript.Proofs.Meaning

/-!
# Asking the table twice

What a table has once answered it answers again, whatever was asked in between, and nothing joins it then.
What was asked for by its hash is found by its hash, and a copy is kept as the copy of its type. A walk over a
type comes by the same types, all of which were there the first time: its fuel, which grows with the table,
was enough both times.
-/

namespace LevelScript

namespace TypeTable

/-! ## What lasts -/

/-- All of the table is in `T`, at the same places and as the same copies. -/
structure Lasts (ts T : TypeTable) : Prop where
  keeps : ts.Keeps T
  closed {id c : TypeId} : ts.closed[id]? = some c → T.closed[id]? = some c
  closedConst {id c : TypeId} : ts.closedConst[id]? = some c → T.closedConst[id]? = some c

section
variable {ts ts' T : TypeTable} {id c : TypeId}

theorem Lasts.refl (h : ts.Sane) : ts.Lasts ts := ⟨.refl h, fun hc => hc, fun hc => hc⟩

theorem Lasts.trans (h : ts.Lasts ts') (h' : ts'.Lasts T) : ts.Lasts T :=
  ⟨h.keeps.trans h'.keeps, h'.closed ∘ h.closed, h'.closedConst ∘ h.closedConst⟩

theorem Adds.lasts (h : ts.Adds T) : ts.Lasts T where
  keeps := h.keeps
  closed hc := by rwa [h.closed]
  closedConst hc := by rwa [h.closedConst]

/-- Only a new copy is written down. -/
theorem getElem?_insert_new {copies : Std.HashMap TypeId TypeId} {o new : TypeId} (hn : copies[o]? = none)
    (h : copies[id]? = some c) : (copies.insert o new)[id]? = some c := by
  rw [Std.HashMap.getElem?_insert]
  split
  case isTrue he =>
    rw [← eq_of_beq he, hn] at h
    cases h
  case isFalse => exact h

theorem constClosed_lasts (h : ts.Sane) (hid : ts.IsClosed id) : ts.Lasts (ts.constClosed id).2 := by
  have hk := constClosed_keeps h hid
  revert hk
  unfold constClosed
  split
  · exact fun _ => .refl h
  case h_2 hn => exact fun hk => ⟨hk, fun hc => hc, getElem?_insert_new hn⟩

theorem closeRoot_lasts (h : ts.Sane) (hid : id < ts.size) : ts.Lasts (ts.closeRoot id).2 := by
  obtain ⟨hk, hconst⟩ := closeRoot_keeps h hid
  refine ⟨hk, fun ho => ?_, fun hc => by rwa [hconst]⟩
  cases hc : ts.closed[id]? with
  | some new =>
    rw [closeRoot_found hc]
    exact ho
  | none =>
    rw [closeRoot_new hc, remembered, (close_adds (ts.size + 1) [] id ts h hid (List.forall_mem_nil _)).adds.closed]
    exact getElem?_insert_new hc ho

theorem closeRoot_known (ts : TypeTable) (id : TypeId) :
    (ts.closeRoot id).2.closed[id]? = some (ts.closeRoot id).1 := by
  cases hc : ts.closed[id]? with
  | some new => rw [closeRoot_found hc, hc]
  | none =>
    rw [closeRoot_new hc, remembered, Std.HashMap.getElem?_insert]
    exact if_pos (beq_self_eq_true _)

theorem tied_lasts {lookup : Lookup} (h : ts.Sane) (hid : id < ts.size)
    (hl : ∀ name target, lookup name = .type target → target < ts.size) : ts.Lasts (ts.tied lookup id).2 := by
  obtain ⟨ha, hr⟩ := resolveInner_lands hl (2 * ts.size + 2) [] id ts h (Nat.le_refl _) hid
  rw [tied]
  rcases hf : resolveInner lookup (2 * ts.size + 2) [] id ts with ⟨_ | found, ts₁⟩
  · rw [hf] at ha
    exact ha.lasts
  · rw [hf] at ha hr
    simp only [andThen, answered]
    split
    · exact ha.lasts.trans (closeRoot_lasts ha.sane (hr rfl))
    · exact ha.lasts

end

end TypeTable

open TypeTable

section
variable {ts : TypeTable} {op : TypeOp}

theorem TypeOp.run_lasts (h : ts.Sane) (hm : op.Mentions (· < ts.size)) : ts.Lasts (op.run ts).2 := by
  obtain ⟨t, hr, hrun⟩ | ⟨id, rfl, hc, hrun⟩ | ⟨lookup, id, rfl⟩ | ⟨r, hrun, -⟩ := op.run_cases ts
  · rw [hrun]
    exact (run_answers h hm hr).adds.lasts
  · rw [hrun]
    exact constClosed_lasts h ⟨_, lookup_of_lt hm, hc⟩
  · show ts.Lasts (ts.resolve lookup id).2
    rw [(ts.resolve_tied lookup id).1]
    exact tied_lasts h hm.1 hm.2
  · rw [hrun]
    exact .refl h

theorem Later.lasts {T : TypeTable} (h : ts.Sane) (hl : Later ts T) : ts.Lasts T := by
  induction hl with
  | refl => exact .refl h
  | step _ hm ih => exact ih.trans (TypeOp.run_lasts ih.keeps.sane hm)

end

namespace TypeTable

/-! ## Steps of the walk -/

theorem Answers.again {ts T : TypeTable} {t : TypeInfo} {r : TypeId × TypeTable} (h : ts.Answers t r)
    (hT : r.2.Lasts T) :
    T.register t = (r.1, T) := by
  obtain ⟨u, hu, hh, ho⟩ := h.entry
  have hi := hT.keeps.sane.listed (hT.keeps.grows _ _ hu) ho
  rw [hh] at hi
  exact register_found hi

/-- A step that adds to the table. In a later table that has all of this, `y` comes to the same and adds nothing. -/
structure Settles {α : Type} (ts : TypeTable) (x y : TypeTable → Walked α) (P : α → TypeTable → Prop) : Prop where
  lands : Lands ts (x ts) P
  again {T : TypeTable} : (x ts).2.Lasts T → y T = ((x ts).1, T)

section
variable {α β : Type} {ts ts₀ : TypeTable} {lookup lookup' : Lookup} {id : TypeId}

theorem Settles.ok {P : α → TypeTable → Prop} {a : α} (h : ts.Sane) (ha : P a ts) :
    Settles ts (fun ts => (.ok a, ts)) (fun ts => (.ok a, ts)) P := ⟨.ok h ha, fun _ => rfl⟩

theorem Settles.error {P : α → TypeTable → Prop} {e : TypeError} (h : ts.Sane) :
    Settles ts (fun ts => (.error e, ts)) (fun ts => (.error e, ts)) P := ⟨⟨.refl h, nofun⟩, fun _ => rfl⟩

theorem Settles.congr {x x' y y' : TypeTable → Walked α} {P : α → TypeTable → Prop} (h : Settles ts x y P)
    (hx : x' ts = x ts)
    (hy : ∀ T, ts.Grows T → y' T = y T) : Settles ts x' y' P where
  lands := by
    rw [hx]
    exact h.lands
  again {T} hT := by
    rw [hx] at hT ⊢
    rw [hy T (h.lands.adds.grows.trans hT.keeps.grows), h.again hT]

theorem Settles.andThen {x y : TypeTable → Walked α} {f g : α → TypeTable → Walked β} {P : α → TypeTable → Prop}
    {Q : β → TypeTable → Prop} (h : Settles ts x y P)
    (hf : ∀ a ts₁, ts.Adds ts₁ → P a ts₁ → Settles ts₁ (f a) (g a) Q) :
    Settles ts (fun ts => andThen (x ts) f) (fun ts => andThen (y ts) g) Q where
  lands := h.lands.andThen fun a ts₁ ha hp => (hf a ts₁ ha hp).lands
  again {T} hT := by
    obtain ⟨hl, ha⟩ := h
    rcases hx : x ts with ⟨e | a, ts₁⟩
    · simp only [hx] at ha hT ⊢
      rw [ha hT]
      rfl
    · rw [hx] at hl ha
      simp only [hx] at hT ⊢
      have hs := hf a ts₁ hl.adds (hl.result rfl)
      rw [ha (hs.lands.adds.lasts.trans hT)]
      exact hs.again hT

theorem register_settles (h : ts.Sane) {t : TypeInfo} (ho : t.flags.closed = false)
    (hc : ∀ s c, t.shape.next? s = some c → c < ts.size) (hl : ts.Laid → ts.withLayout t = t) :
    Settles ts (fun ts => answered (ts.register t)) (fun ts => answered (ts.register t)) Known where
  lands := register_lands h ho hc hl
  again hT := congrArg answered ((h.register ho hc hl).again hT)

theorem copy_settles (h : ts.Sane) {t : TypeInfo} (ho : t.flags.closed = false)
    (hc : ∀ s c, t.shape.next? s = some c → c < ts.size) :
    Settles ts (fun ts => answered (ts.register (ts.withLayout t)))
    (fun ts => answered (ts.register (ts.withLayout t))) Known := by
  have hs := register_settles h (t := ts.withLayout t) (by rwa [withLayout_flags])
    (fun s c hn => hc s c (by rwa [withLayout_next?] at hn)) fun _ => withLayout_withLayout t
  exact hs.congr rfl fun T hg => by rw [hg.withLayout hc]

theorem parentRef_settles (h : ts.Sane) (depth : Nat) :
    Settles ts (fun ts => answered (ts.parentRef depth)) (fun ts => answered (ts.parentRef depth)) Known :=
  register_settles h rfl (fun s c hs => by cases s <;> cases hs) fun _ => rfl

theorem orMarker_settles (h : ts.Sane) (ancestors : List TypeId) (hid : id < ts.size) :
    Settles ts (orMarker ancestors id) (orMarker ancestors id) Known := by
  unfold orMarker
  cases ancestors.idxOf? id with
  | none => exact .ok h hid
  | some k => exact parentRef_settles h (k + 1)

theorem resolveAll_settles {resolve resolve' : TypeId → Resolver TypeId} {get : α → TypeId} {set : α → TypeId → α}
    (hr : ∀ (ts : TypeTable) c, ts.Sane → ts₀.Grows ts → c < ts₀.size → Settles ts (resolve c) (resolve' c) Known)
    (hg : ∀ a c, get (set a c) = c) : ∀ (as : List α) (ts : TypeTable), ts.Sane → ts₀.Grows ts →
    (∀ a ∈ as, get a < ts₀.size) →
    Settles ts (resolveAll resolve get set as) (resolveAll resolve' get set as)
    (fun as' ts' => ∀ a ∈ as', get a < ts'.size)
  | [], ts, h, _, _ => .ok h nofun
  | a :: as, ts, h, hs, ha => by
    rw [funext (resolveAll_cons resolve get set a as), funext (resolveAll_cons resolve' get set a as)]
    refine (hr ts _ h hs (ha a (List.mem_cons_self ..))).andThen fun id ts₁ h₁ hid => ?_
    refine (resolveAll_settles hr hg as ts₁ h₁.sane (hs.trans h₁.grows) fun b hb =>
      ha b (List.mem_cons_of_mem _ hb)).andThen fun as' ts₂ h₂ has => .ok h₂.sane ?_
    intro b hb
    obtain rfl | hb := List.mem_cons.mp hb
    · rw [hg]
      exact h₂.grows.lt hid
    · exact has b hb

theorem resolveBelow_settles {resolve resolve' : TypeId → Resolver TypeId}
    (hr : ∀ (ts : TypeTable) c, ts.Sane → ts₀.Grows ts → c < ts₀.size → Settles ts (resolve c) (resolve' c) Known)
    (h : ts.Sane) (hs : ts₀.Grows ts) {shape : TypeShape} (hc : ∀ s c, shape.next? s = some c → c < ts₀.size) :
    Settles ts (resolveBelow resolve shape) (resolveBelow resolve' shape)
      (fun shape ts' => ∀ s c, shape.next? s = some c → c < ts'.size) := by
  cases shape with
  | plain | deferred | parent => exact .ok h fun s c hn => hs.lt (hc s c hn)
  | pointer base =>
    refine (hr ts base h hs (hc .pointee base rfl)).andThen fun base ts₁ h₁ hb => .ok h₁.sane fun s c hn => ?_
    cases s <;> cases hn
    exact hb
  | function result params =>
    have hp (p : Param) (hp : p ∈ params) : p.type < ts₀.size := by
      obtain ⟨s, hn⟩ := TypeShape.next?_param result hp
      exact hc s _ hn
    refine (hr ts result h hs (hc .result result rfl)).andThen fun result ts₁ h₁ hres => ?_
    refine (resolveAll_settles hr (fun _ _ => rfl) params ts₁ h₁.sane (hs.trans h₁.grows) hp).andThen
      fun params ts₂ h₂ hps => .ok h₂.sane fun s c hn => ?_
    obtain rfl | ⟨p, hp, rfl⟩ := TypeShape.next?_function hn
    · exact h₂.grows.lt hres
    · exact hps p hp
  | struct fields =>
    have hf (f : Field) (hf : f ∈ fields) : f.type < ts₀.size := by
      obtain ⟨s, hn⟩ := TypeShape.next?_field hf
      exact hc s _ hn
    refine (resolveAll_settles hr (fun _ _ => rfl) fields ts h hs hf).andThen fun fields ts₁ h₁ hfs =>
      .ok h₁.sane fun s c hn => ?_
    obtain ⟨f, hf, rfl⟩ := TypeShape.next?_struct hn
    exact hfs f hf

end

/-! ## Names -/

def SameNames (ts : TypeTable) (lookup lookup' : Lookup) : Prop :=
  ∀ (id : TypeId) (name : NameId), (ts.get id).shape = .deferred name → lookup' name = lookup name

section
variable {ts T : TypeTable} {lookup lookup' : Lookup} {A : List TypeId} {id c : TypeId}

/-- There are not more different types than the table has. -/
theorem length_le_size (hd : A.Nodup) (hA : ∀ a ∈ A, a < ts.size) : A.length ≤ ts.size := by
  have hs : A ⊆ List.range ts.size := fun a ha => List.mem_range.mpr (hA a ha)
  have hle := (hd.subperm hs).length_le
  rwa [List.length_range] at hle

/-- Names lead to the same type or the same error in a table that has grown. -/
theorem Grows.followDefers (hg : ts.Grows T) (hl : ∀ name target, lookup name = .type target → target < ts.size)
    (hn : ts.SameNames lookup lookup') : ∀ {n m : Nat} {visited : List TypeId} {id : TypeId}, visited.Nodup →
      (∀ v ∈ visited, v < ts.size) → id < ts.size → ts.size + 1 ≤ n + visited.length →
      ts.size + 1 ≤ m + visited.length →
      T.followDefers lookup' m visited id = ts.followDefers lookup n visited id
  | 0, _, visited, _, hd, hv, _, hn', _ => by
    have hle := length_le_size hd hv
    omega
  | _ + 1, 0, visited, _, hd, hv, _, _, hm' => by
    have hle := length_le_size hd hv
    omega
  | n + 1, m + 1, visited, id, hd, hv, hid, hn', hm' => by
    rw [TypeTable.followDefers, TypeTable.followDefers, hg.get hid]
    cases hs : (ts.get id).shape with
    | deferred name =>
      dsimp only
      by_cases hc : visited.contains id = true
      · rw [if_pos hc, if_pos hc]
      · rw [if_neg hc, if_neg hc, hn id name hs]
        cases ht : lookup name with
        | missing | notAType => rfl
        | type target =>
          refine hg.followDefers hl hn (List.nodup_cons.mpr ⟨fun h => hc (List.contains_iff_mem.mpr h), hd⟩)
            (List.forall_mem_cons.mpr ⟨hid, hv⟩) (hl name target ht) ?_ ?_ <;> (rw [List.length_cons]; omega)
    | _ => rfl

theorem Grows.followDefers_from (hg : ts.Grows T)
    (hl : ∀ name target, lookup name = .type target → target < ts.size) (hn : ts.SameNames lookup lookup')
    (hid : id < ts.size) :
    T.followDefers lookup' (T.size + 1) [] id = ts.followDefers lookup (ts.size + 1) [] id :=
  hg.followDefers hl hn .nil (List.forall_mem_nil _) hid (Nat.le_refl _) (Nat.succ_le_succ hg.size_le)

theorem named_of_followDefers {target : TypeId}
    (hl : ∀ name target, lookup name = .type target → target < ts.size) (hid : id < ts.size)
    (h : ts.followDefers lookup (ts.size + 1) [] id = .ok target) : Named ts lookup id target :=
  followDefers_named (fun hid => hid) (fun _ _ he => hl _ _ he) (.refl ts) .nil (List.forall_mem_nil _)
    (Nat.le_refl _) hid h

/-! ## The walk -/

/-- Where a walk is: at a type of the table, around which are different ones. -/
structure Placed (ts : TypeTable) (A : List TypeId) (id : TypeId) : Prop where
  inside : id < ts.size
  around : ∀ a ∈ A, a < ts.size
  nodup : A.Nodup

/-- Fuel for the walk from a type: two steps for every type that may still come to be around it, and one for
the type itself if it is a name. -/
structure Fuelled (ts : TypeTable) (n : Nat) (A : List TypeId) (id : TypeId) : Prop where
  enough : 2 * ts.size + 1 ≤ n + 2 * A.length
  forName {name : NameId} : (ts.get id).shape = .deferred name → 2 * ts.size + 2 ≤ n + 2 * A.length

theorem Placed.below (h : Placed ts A id) (hid : id ∉ A) (hc : c < ts.size) : Placed ts (id :: A) c :=
  ⟨hc, List.forall_mem_cons.mpr ⟨h.inside, h.around⟩, List.nodup_cons.mpr ⟨hid, h.nodup⟩⟩

theorem Fuelled.below {n : Nat} (h : Fuelled ts (n + 1) A id) : Fuelled ts n (id :: A) c := by
  have he := h.enough
  constructor <;> (rw [List.length_cons]; omega)

theorem Fuelled.named {n : Nat} {name : NameId} (h : Fuelled ts (n + 1) A id)
    (hs : (ts.get id).shape = .deferred name)
    (hc : ∀ name, (ts.get c).shape ≠ .deferred name) : Fuelled ts n A c where
  enough := by
    have := h.forName hs
    omega
  forName hs := absurd hs (hc _)

/-- The walk goes on from where names lead, without them around it. -/
theorem Placed.named {name : NameId} {target : TypeId} (h : Placed ts A id)
    (hl : ∀ name target, lookup name = .type target → target < ts.size) (hs : (ts.get id).shape = .deferred name)
    (he : ts.followDefers lookup (ts.size + 1) [] id = .ok target) :
    Placed ts A target ∧ ∀ {n : Nat}, Fuelled ts (n + 1) A id → Fuelled ts n A target := by
  obtain ⟨t, ht, hd⟩ := (named_of_followDefers hl h.inside he).exists
  exact ⟨⟨lt_of_lookup ht, h.around, h.nodup⟩, fun hn => hn.named hs (get_eq ht ▸ hd)⟩

theorem Fuelled.pos {n : Nat} (h : Fuelled ts n A id) (hp : Placed ts A id) : ∃ k, n = k + 1 := by
  have he := h.enough
  have hle := length_le_size hp.nodup hp.around
  exact ⟨n - 1, by omega⟩

section
variable {ts₀ : TypeTable} (h₀ : ts₀.Sane) (hl : ∀ name target, lookup name = .type target → target < ts₀.size)
  (hn : ts₀.SameNames lookup lookup')
include h₀ hl hn

/-- The walk at a type that is none of those around it. -/
theorem visit_settles {n m : Nat}
    (ih : ∀ {A : List TypeId} {id : TypeId} {ts : TypeTable}, Placed ts₀ A id → Fuelled ts₀ n A id →
      Fuelled ts₀ m A id → ts.Sane → ts₀.Grows ts →
        Settles ts (resolveInner lookup n A id) (resolveInner lookup' m A id) Known)
    (hp : Placed ts₀ A id) (hid : id ∉ A) (hfn : Fuelled ts₀ (n + 1) A id) (hfm : Fuelled ts₀ (m + 1) A id)
    (ho : (ts₀.get id).flags.closed = false) (h : ts.Sane) (hg : ts₀.Grows ts) :
    Settles ts (visit lookup n A id) (visit lookup' m A id) Known := by
  have ht := lookup_of_lt hp.inside
  have below (shape : TypeShape) (hs : (ts₀.get id).shape = shape) :
      Settles ts
        (fun ts => andThen (resolveBelow (resolveInner lookup n (id :: A)) shape ts) fun shape ts =>
          answered (ts.register (ts.withLayout { ts₀.get id with shape })))
        (fun ts => andThen (resolveBelow (resolveInner lookup' m (id :: A)) shape ts) fun shape ts =>
          answered (ts.register (ts.withLayout { ts₀.get id with shape }))) Known := by
    subst hs
    refine (resolveBelow_settles (fun T c hT hgT hc => ih (hp.below hid hc) hfn.below hfm.below hT hgT) h hg
      fun s c => h₀.next_lt ht).andThen fun shape ts₁ h₁ hc => ?_
    exact copy_settles h₁.sane ho hc
  cases hs : (ts₀.get id).shape with
  | plain | parent =>
    refine (Settles.ok h (hg.lt hp.inside)).congr ?_ fun T hT => ?_
    · simp only [visit, hg.get hp.inside, hs]
    · simp only [visit, (hg.trans hT).get hp.inside, hs]
  | deferred name =>
    let rest (lookup : Lookup) (n : Nat) (target : TypeId) (ts : TypeTable) : Walked TypeId :=
      andThen (resolveInner lookup n A target ts) fun found ts => orMarker A found ts
    let target := ts₀.followDefers lookup (ts₀.size + 1) [] id
    have hf (T : TypeTable) (hT : ts₀.Grows T) : T.followDefers lookup' (T.size + 1) [] id = target :=
      hT.followDefers_from hl hn hp.inside
    have hf' : ts.followDefers lookup (ts.size + 1) [] id = target :=
      hg.followDefers_from hl (fun _ _ _ => rfl) hp.inside
    have hs' : Settles ts (fun ts => andThen (target, ts) (rest lookup n))
        (fun ts => andThen (target, ts) (rest lookup' m)) Known := by
      cases he : target with
      | error e => exact .error h
      | ok target =>
        obtain ⟨hptarget, hfuel⟩ := hp.named hl hs he
        exact (ih hptarget (hfuel hfn) (hfuel hfm) h hg).andThen fun found ts₁ h₁ hf =>
          orMarker_settles h₁.sane A hf
    refine hs'.congr ?_ fun T hT => ?_
    · simp only [visit, hg.get hp.inside, hs, hf', rest]
    · simp only [visit, (hg.trans hT).get hp.inside, hs, hf T (hg.trans hT), rest]
  | _ =>
    refine (below _ hs).congr ?_ fun T hT => ?_
    · simp only [visit, hg.get hp.inside, hs]
    · simp only [visit, (hg.trans hT).get hp.inside, hs]

/-- A walk with enough fuel comes to the same with other fuel that is enough. -/
theorem resolveInner_settles : ∀ {n m : Nat} {A : List TypeId} {id : TypeId} {ts : TypeTable}, Placed ts₀ A id →
    Fuelled ts₀ n A id → Fuelled ts₀ m A id → ts.Sane → ts₀.Grows ts →
    Settles ts (resolveInner lookup n A id) (resolveInner lookup' m A id) Known := by
  intro n
  induction n with
  | zero =>
    intro m A id ts hp hfn
    obtain ⟨k, hk⟩ := hfn.pos hp
    cases hk
  | succ n ih =>
    intro m A id ts hp hfn hfm h hg
    obtain ⟨m, rfl⟩ := hfm.pos hp
    cases hk : A.idxOf? id with
    | some k =>
      exact (parentRef_settles h (k + 1)).congr (resolveInner_ancestor hk) fun T _ => resolveInner_ancestor hk
    | none =>
      cases hc : (ts₀.get id).flags.closed with
      | true =>
        refine (Settles.ok h (hg.lt hp.inside)).congr (resolveInner_closed hk ?_) fun T hT =>
          resolveInner_closed hk ?_
        · rw [hg.get hp.inside, hc]
        · rw [(hg.trans hT).get hp.inside, hc]
      | false =>
        refine (visit_settles h₀ hl hn ih hp (List.idxOf?_eq_none_iff.mp hk) hfn hfm hc h hg).congr
          (resolveInner_visit hk ?_)
          fun T hT => resolveInner_visit hk ?_
        · rw [hg.get hp.inside, hc]
        · rw [(hg.trans hT).get hp.inside, hc]

end

end

/-! ## Inline fields -/

section
variable {ts T : TypeTable}

theorem validateFields_congr {path : List TypeId} {check check' : TypeId → Except TypeError Unit} :
    ∀ {fields : List Field}, (∀ f ∈ fields, ts.kind f.type = T.kind f.type) →
      (∀ f ∈ fields, f.type ∉ path → check f.type = check' f.type) →
      ts.validateFields path check fields = T.validateFields path check' fields
  | [], _, _ => rfl
  | f :: fs, hk, hc => by
    rw [List.forall_mem_cons] at hk hc
    rw [validateFields, validateFields, hk.1, validateFields_congr hk.2 hc.2]
    by_cases hp : f.type ∈ path
    · have hp' : path.contains f.type = true := List.contains_iff_mem.mpr hp
      simp only [hp', Bool.true_or, if_true]
      rfl
    · rw [hc.1 hp]

/-- Whether inline fields form a tree does not change: the structs around a struct differ. -/
theorem Grows.validate (hg : ts.Grows T) (h : ts.Sane) :
    ∀ {n m : Nat} {path : List TypeId} {id : TypeId}, Placed ts path id →
    id ∉ path → ts.size + 1 ≤ n + path.length → ts.size + 1 ≤ m + path.length →
    T.validate m path id = ts.validate n path id
  | 0, _, _, _, hp, _, hn, _ => by
    have hle := length_le_size hp.nodup hp.around
    omega
  | _ + 1, 0, _, _, hp, _, _, hm => by
    have hle := length_le_size hp.nodup hp.around
    omega
  | n + 1, m + 1, path, id, hp, hid, hn, hm => by
    rw [TypeTable.validate, TypeTable.validate, hg.get hp.inside]
    have hlt (f : Field) (hf : f ∈ (ts.get id).fields) : f.type < ts.size := h.field_lt hf
    split
    · rfl
    · refine validateFields_congr (fun f hf => congrArg TypeInfo.kind (hg.get (hlt f hf))) fun f hf hout => ?_
      refine hg.validate h (hp.below hid (hlt f hf)) hout ?_ ?_ <;> (rw [List.length_cons]; omega)

end

/-! ## Resolving -/

section
variable {ts ts₁ T : TypeTable} {lookup lookup' : Lookup} {id c : TypeId} {A : List TypeId}

theorem Closes.lt (h : Closes ts A id c) (hA : ∀ a ∈ A, a < ts.size) : c < ts.size := by
  cases h with
  | whole hu | stray hu => exact lt_of_lookup hu
  | marker _ _ hk => exact hA c (List.mem_of_getElem? hk)
  | copy _ _ _ _ hw => exact lt_of_lookup hw

/-- A type that refers to an enclosing one has its copy by now. -/
theorem tie_again (h : ts.Sane) (hid : id < ts.size)
    (hT : (if (ts.get id).containsParent then ts.closeRoot id else (id, ts)).2.Lasts T) : ts.Lasts T ∧
      (if (T.get id).containsParent then T.closeRoot id else (id, T)) =
        ((if (ts.get id).containsParent then ts.closeRoot id else (id, ts)).1, T) := by
  cases hc : (ts.get id).containsParent with
  | false =>
    rw [hc] at hT
    have hT : ts.Lasts T := hT
    rw [hT.keeps.grows.get hid, hc]
    exact ⟨hT, rfl⟩
  | true =>
    rw [hc, if_pos rfl] at hT
    have h₁ := (closeRoot_lasts h hid).trans hT
    rw [h₁.keeps.grows.get hid, hc, if_pos rfl, if_pos rfl]
    exact ⟨h₁, closeRoot_found (hT.closed (ts.closeRoot_known id))⟩

theorem Grows.fuelled (hg : ts.Grows T) (id : TypeId) : Fuelled ts (2 * T.size + 2) [] id := by
  have hle := hg.size_le
  constructor <;> (rw [List.length_nil]; omega)

theorem tied_again (h : ts.Sane) (hid : id < ts.size)
    (hl : ∀ name target, lookup name = .type target → target < ts.size)
    (hn : ts.SameNames lookup lookup') (hT : (ts.tied lookup id).2.Lasts T) :
    T.tied lookup' id = ((ts.tied lookup id).1, T) := by
  have hg := (tied_lasts h hid hl).keeps.grows.trans hT.keeps.grows
  have hp : Placed ts [] id := ⟨hid, List.forall_mem_nil _, .nil⟩
  obtain ⟨⟨hadds, hf⟩, ha⟩ :=
    resolveInner_settles h hl hn hp ((Grows.refl ts).fuelled id) (hg.fuelled id) h (.refl ts)
  rw [tied] at hT
  rw [tied, tied]
  rcases hw : resolveInner lookup (2 * ts.size + 2) [] id ts with ⟨e | found, ts₁⟩
  · rw [hw] at ha hT
    rw [ha hT]
    rfl
  · rw [hw] at ha hT hadds hf
    simp only [andThen, answered] at hT ⊢
    obtain ⟨h₁, htie⟩ := tie_again hadds.sane (hf rfl) hT
    rw [ha h₁]
    simp only [htie]

theorem resolve_again (h : ts.Kept) (hid : id < ts.size)
    (hl : ∀ name target, lookup name = .type target → target < ts.size)
    (hn : ts.SameNames lookup lookup') (hT : (ts.resolve lookup id).2.Lasts T) :
    T.resolve lookup' id = ((ts.resolve lookup id).1, T) := by
  obtain ⟨-, -, hc⟩ := tied_closes h.sane h.copies hid hl
  have hsane := (tied_lasts h.sane hid hl).keeps.sane
  rw [(ts.resolve_tied lookup id).1] at hT
  have ht := tied_again h.sane hid hl hn hT
  rw [resolve_eq, resolve_eq, ht]
  rcases hr : ts.tied lookup id with ⟨e | r, ts₁⟩
  · rfl
  · rw [hr] at hc hT hsane
    obtain ⟨o, -, -, -, hcl⟩ := hc r rfl
    have hp : Placed ts₁ [] r := ⟨hcl.lt (List.forall_mem_nil _), List.forall_mem_nil _, .nil⟩
    have hv : T.validate (T.size + 1) [] r = ts₁.validate (ts₁.size + 1) [] r :=
      hT.keeps.grows.validate hsane hp List.not_mem_nil (Nat.le_refl _) (Nat.succ_le_succ hT.keeps.grows.size_le)
    simp only [andThen, hv]

end

end TypeTable

open TypeTable

/-! ## Histories -/

namespace TypeOp

/-- The same request: names that the table has mean the same. -/
inductive Same (ts : TypeTable) : TypeOp → TypeOp → Prop where
  | refl (op : TypeOp) : Same ts op op
  | resolve {lookup lookup' : Lookup} (id : TypeId) : ts.SameNames lookup lookup' →
      Same ts (resolve lookup id) (resolve lookup' id)

section
variable {ts T : TypeTable} {op op' : TypeOp} {id : TypeId}

theorem checkFields_congr :
    ∀ {fields : List Field} {seen : List NameId}, (∀ f ∈ fields, ts.get f.type = T.get f.type) →
    ts.checkFields seen fields = T.checkFields seen fields
  | [], _, _ => rfl
  | f :: fs, seen, h => by
    rw [List.forall_mem_cons] at h
    simp only [checkFields, h.1, checkFields_congr h.2]

/-- What is asked for is no matter of what has joined. -/
theorem request_grows (hg : ts.Grows T) (hm : op.Mentions (· < ts.size)) : op.request T = op.request ts := by
  cases op with
  | primitive | pointer | function | deferred | parentRef | resolve => rfl
  | unsign id | constant id | mutableOf id => simp only [request, hg.get hm]
  | struct fields base =>
    have hf (f : Field) (hf : f ∈ withBase fields base) : f.type < ts.size :=
      (mem_withBase hf).elim (hm.2 _) (hm.1 f)
    have hl := hg.withLayout (t := { kind := .struct, shape := .struct (withBase fields base) }) fun s c hs => by
      obtain ⟨f, hf', rfl⟩ := TypeShape.next?_struct hs
      exact hf f hf'
    simp only [request, hl, checkFields_congr fun f hf' => hg.get (hf f hf')]

/-- What is asked of the table again is answered as before, and nothing joins it. -/
theorem run_again (h : ts.Kept) (hm : op.Mentions (· < ts.size)) (hs : Same ts op op')
    (hT : (op.run ts).2.Lasts T) :
    op'.run T = ((op.run ts).1, T) := by
  cases hs with
  | resolve id hn => exact resolve_again h hm.1 hm.2 hn hT
  | refl =>
    have hg := (run_lasts h.sane hm).keeps.grows.trans hT.keeps.grows
    cases hr : op.request ts with
    | some t =>
      rw [run_request hr] at hT ⊢
      rw [run_request ((request_grows hg hm).trans hr)]
      exact congrArg answered ((run_answers h.sane hm hr).again hT)
    | none =>
      cases op with
      | primitive kind =>
        simp only [request] at hr
        split at hr
        case isTrue hk =>
          obtain ⟨id, hk⟩ := Option.isSome_iff_exists.mp hk
          simp only [run, TypeTable.primitive, hk, answered]
        case isFalse => cases hr
      | unsign id | mutableOf id =>
        simp only [request] at hr
        split at hr
        case isTrue hc => simp only [run, TypeTable.unsign, TypeTable.mutableOf, hg.get hm, if_pos hc, answered]
        case isFalse => cases hr
      | constant id =>
        simp only [request] at hr
        split at hr
        case isTrue hc =>
          simp only [run, TypeTable.constant, hg.get hm, if_pos hc] at hT ⊢
          have hknown := (h.constClosed ⟨_, lookup_of_lt hm, hc⟩).2
          simp only [TypeTable.constClosed, hT.closedConst hknown, answered]
        case isFalse => cases hr
      | struct fields base =>
        simp only [request] at hr
        split at hr
        case h_1 => cases hr
        case h_2 e hc =>
          have hf (f : Field) (hf : f ∈ withBase fields base) : ts.get f.type = T.get f.type :=
            (hg.get ((mem_withBase hf).elim (hm.2 _) (hm.1 f))).symm
          have hcT := (checkFields_congr hf).symm.trans hc
          simp only [run, struct_eq, hc, hcT, Except.map]
      | resolve lookup id => exact resolve_again h hm.1 hm.2 (fun _ _ _ => rfl) hT
      | pointer | function | deferred | parentRef => cases hr

/-- The answer to a request is in the table. -/
theorem run_known (h : ts.Kept) (hm : op.Mentions (· < ts.size)) (hr : (op.run ts).1 = .ok id) :
    id < (op.run ts).2.size := by
  obtain ⟨t, hq, hrun⟩ | ⟨id', rfl, hc, hrun⟩ | ⟨lookup, id', rfl⟩ | ⟨r, hrun, hold⟩ := op.run_cases ts
  · rw [hrun] at hr ⊢
    obtain ⟨u, hu, -⟩ := (run_answers h.sane hm hq).entry
    cases hr
    exact lt_of_lookup hu
  · rw [hrun] at hr ⊢
    obtain ⟨hk, hknown⟩ := h.constClosed ⟨_, lookup_of_lt hm, hc⟩
    obtain ⟨-, u, -, hu, -⟩ := hk.constant _ _ hknown
    cases hr
    exact lt_of_lookup hu
  · obtain ⟨-, -, hcl⟩ := tied_closes h.sane h.copies hm.1 hm.2
    obtain ⟨ht, ho⟩ := ts.resolve_tied lookup id'
    obtain ⟨o, -, -, -, hcl⟩ := hcl id (ho id hr)
    show id < (ts.resolve lookup id').2.size
    rw [ht]
    exact hcl.lt (List.forall_mem_nil _)
  · rw [hrun] at hr ⊢
    obtain ⟨kind, hk⟩ | hP := hold id hr
    · exact lt_of_lookup (h.stock _ _ (stocked_initial.primitive hk))
    · exact hP _ hm

end

end TypeOp

theorem Later.kept {ts T : TypeTable} (h : ts.Kept) (hl : Later ts T) : T.Kept := by
  induction hl with
  | refl => exact h
  | step _ hm ih => exact TypeOp.run_kept ih hm

namespace TypeTable

section
variable {ts : TypeTable}

theorem History.later {made : List TypeId} (h : History ts made) : Later .initial ts := by
  induction h with
  | initial => exact .refl
  | @step ts _ _ op _ hh hm _ _ hrun ih =>
    obtain ⟨hk, hu⟩ := hh.usable
    have hl := ih.step (hm.imp fun id hid => (hid.usable hk.sane hu).known)
    rwa [hrun] at hl

/-- In every history, what a table has given an index stays as it is, and a request that was made once is
answered in the same way, with the same type or the same error, whatever was asked for in between. Nothing
joins the table then. -/
theorem history_repeats {T : TypeTable} {op op' : TypeOp} (h : Later initial ts) (hm : op.Mentions (· < ts.size))
    (hT : Later (op.run ts).2 T) (hs : TypeOp.Same ts op op') :
    (∀ (id : TypeId) (t : TypeInfo), (op.run ts).2.types[id]? = some t → T.types[id]? = some t) ∧
      (∀ id, (op.run ts).1 = .ok id → id < (op.run ts).2.size) ∧ op'.run T = ((op.run ts).1, T) := by
  have hk := h.kept kept_initial
  have hl := hT.lasts (TypeOp.run_kept hk hm).sane
  exact ⟨hl.keeps.grows, fun _ => TypeOp.run_known hk hm, TypeOp.run_again hk hm hs hl⟩

def cyclicOnly : Lookup := fun name => if name = 100 then .type 10 else .missing

theorem cyclic_sameNames (hs : initial.Grows ts) (hz : ts.size = 11) (hn : ts.get 9 = listed (nameOf 100))
    (hp : ts.get 10 = listed (pointerTo 9)) : ts.SameNames cyclicLookup cyclicOnly := by
  have cases (n : Nat) : n < 9 ∨ n = 9 ∨ n = 10 ∨ 11 ≤ n := by omega
  intro id name hd
  obtain hlt | rfl | rfl | hge : id < 9 ∨ id = 9 ∨ id = 10 ∨ 11 ≤ id := cases id
  · have hlt : id < initial.size := hlt.trans_eq (congrArg List.length initial_types.2).symm
    have hm : initial.get id ∈ primitiveKinds.map (plainInfo · {}) := by
      rw [← initial_types.2]
      exact List.mem_of_getElem? (by rw [Array.getElem?_toList]; exact lookup_of_lt hlt)
    obtain ⟨kind, -, hk⟩ := List.mem_map.mp hm
    rw [hs.get hlt, ← hk] at hd
    cases hd
  · rw [hn] at hd
    cases hd
    rfl
  · rw [hp] at hd
    cases hd
  · rw [get, Array.getElem?_eq_none (hz.trans_le hge)] at hd
    cases hd

/-- A pointer to itself is resolved again after it has been made constant, when other names are gone. -/
theorem history_repeats_cyclic : ∃ ts T r, Later initial ts ∧
    (TypeOp.resolve cyclicLookup 10).Mentions (· < ts.size) ∧
    Later ((TypeOp.resolve cyclicLookup 10).run ts).2 T ∧
    TypeOp.Same ts (.resolve cyclicLookup 10) (.resolve cyclicOnly 10) ∧
    ((TypeOp.resolve cyclicLookup 10).run ts).1 = .ok r ∧ (TypeOp.resolve cyclicOnly 10).run T = (.ok r, T) := by
  obtain ⟨ts, hl, hh, hn, hp⟩ := cyclic_history
  obtain ⟨r, ts', hr⟩ := cyclic_resolves hl hh hn hp
  have hlt : 10 < ts.size := by
    rw [hl.size]
    decide
  have hm : (TypeOp.resolve cyclicLookup 10).Mentions (· < ts.size) :=
    ⟨hlt, fun _ _ he => DeferTarget.type.inj he ▸ hlt⟩
  have hrun : ((TypeOp.resolve cyclicLookup 10).run ts).1 = .ok r := congrArg Prod.fst hr
  have hT : Later ((TypeOp.resolve cyclicLookup 10).run ts).2
      ((TypeOp.constant r).run ((TypeOp.resolve cyclicLookup 10).run ts).2).2 :=
    .step .refl (TypeOp.run_known hh.usable.1 hm hrun)
  have hs := TypeOp.Same.resolve 10 (cyclic_sameNames hh.usable.1.stock hl.size hn hp)
  exact ⟨ts, _, r, hh.later, hm, hT, hs, hrun, (history_repeats hh.later hm hT hs).2.2.trans (by rw [hrun])⟩

end

end TypeTable

end LevelScript
