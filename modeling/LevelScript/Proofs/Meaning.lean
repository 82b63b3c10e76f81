import LevelScript.Proofs.InlineNesting
import LevelScript.Proofs.SameUnfolding
import Mathlib.Data.List.Nodup

/-!
# Resolving keeps what a type means

The types that requests make of one another have no references to enclosing types below them, and a closed
one has no deferred name below it. Every request keeps that, and so does resolving, since what it gives unfolds
to the same. So each of them can be resolved, and unfolds to what it did.
-/

namespace LevelScript

namespace TypeTable

def Within (ts : TypeTable) (made : List TypeId) (id : TypeId) : Prop :=
  ∃ m ∈ made, ∃ path, ts.follow m path = some id

/-- No reference to an enclosing type is below, and no deferred name is below a closed type. -/
structure Usable (ts : TypeTable) (id : TypeId) : Prop where
  known : id < ts.size
  noMarker {v : TypeId} {t : TypeInfo} {path : List TypeStep} {depth : Nat} : ts.follow id path = some v →
    ts.types[v]? = some t → t.shape ≠ .parent depth
  complete {v : TypeId} {path : List TypeStep} : ts.follow id path = some v → ts.IsClosed v → Complete ts v

section
variable {ts ts' : TypeTable} {id c v : TypeId} {t u : TypeInfo} {path : List TypeStep}

theorem IsClosed.back (h : ts'.IsClosed id) (hg : ts.Grows ts') (hid : id < ts.size) : ts.IsClosed id := by
  obtain ⟨t, ht, hc⟩ := h
  have hl := lookup_of_lt hid
  cases Option.some.inj (ht.symm.trans (hg _ _ hl))
  exact ⟨_, hl, hc⟩

theorem Grows.entry_back (hg : ts.Grows ts') (hid : id < ts.size) (ht : ts'.types[id]? = some t) :
    ts.types[id]? = some t := by
  have hl := lookup_of_lt hid
  cases Option.some.inj (ht.symm.trans (hg _ _ hl))
  exact hl

theorem Complete.grows (h : Complete ts id) (hs : ts.Sane) (hg : ts.Grows ts') (hid : id < ts.size) :
    Complete ts' id := by
  intro path w t name hf ht
  have hf := hg.follow_back hs hid hf
  exact h path w t name hf (hg.entry_back (hs.follow_lt hid hf) ht)

theorem Usable.grows (h : Usable ts id) (hs : ts.Sane) (hg : ts.Grows ts') : Usable ts' id where
  known := hg.lt h.known
  noMarker hf ht := by
    have hf := hg.follow_back hs h.known hf
    exact h.noMarker hf (hg.entry_back (hs.follow_lt h.known hf) ht)
  complete hf hc := by
    have hf := hg.follow_back hs h.known hf
    have hv := hs.follow_lt h.known hf
    exact (h.complete hf (hc.back hg hv)).grows hs hg hv

/-- What is below such a type is such a type. -/
theorem Usable.below (h : Usable ts id) (hs : ts.Sane) (hf : ts.follow id path = some v) : Usable ts v where
  known := hs.follow_lt h.known hf
  noMarker hf' := h.noMarker (by rw [follow_append, hf]; exact hf')
  complete hf' := h.complete (by rw [follow_append, hf]; exact hf')

theorem Usable.next {s : TypeStep} (h : Usable ts id) (hs : ts.Sane) (ht : ts.types[id]? = some t)
    (hc : t.shape.next? s = some c) :
    Usable ts c := h.below hs (follow_one ht hc)

/-- A type made of such types is one, if it is no reference; a closed one must have no deferred name below it. -/
theorem usable_of_next (ht : ts.types[id]? = some t) (hm : ∀ depth, t.shape ≠ .parent depth)
    (hc : t.flags.closed = true → Complete ts id) (hn : ∀ s c, t.shape.next? s = some c → Usable ts c) :
    Usable ts id where
  known := lt_of_lookup ht
  noMarker {_ _ path _} hf hv := by
    cases path with
    | nil =>
      cases hf
      cases Option.some.inj (ht.symm.trans hv)
      exact hm _
    | cons s path =>
      obtain ⟨t', c, ht', hs, hf⟩ := follow_cons_some hf
      cases Option.some.inj (ht.symm.trans ht')
      exact (hn s c hs).noMarker hf hv
  complete {_ path} hf hv := by
    cases path with
    | nil =>
      cases hf
      obtain ⟨t', ht', hcl⟩ := hv
      cases Option.some.inj (ht.symm.trans ht')
      exact hc hcl
    | cons s path =>
      obtain ⟨t', c, ht', hs, hf⟩ := follow_cons_some hf
      cases Option.some.inj (ht.symm.trans ht')
      exact (hn s c hs).complete hf hv

theorem Usable.copy (h : Usable ts id) (hs : ts.Sane) (hg : ts.Grows ts') (ht : ts.types[id]? = some t)
    (hu : ts'.types[c]? = some u)
    (hsh : u.shape = t.shape) (hcl : t.flags.closed = true) : Usable ts' c := by
  have hnext {s : TypeStep} {d : TypeId} (hd : u.shape.next? s = some d) : t.shape.next? s = some d := hsh ▸ hd
  refine usable_of_next hu (fun depth => hsh ▸ h.noMarker follow_nil ht) (fun _ path w x name hf hx => ?_)
    fun s d hd => (h.next hs ht (hnext hd)).grows hs hg
  have hcomp : Complete ts id := h.complete follow_nil ⟨t, ht, hcl⟩
  cases path with
  | nil =>
    cases hf
    cases Option.some.inj (hu.symm.trans hx)
    rw [hsh]
    exact hcomp [] id t name rfl ht
  | cons s path =>
    obtain ⟨u', d, hu', hd, hf⟩ := follow_cons_some hf
    cases Option.some.inj (hu.symm.trans hu')
    exact hcomp.grows hs hg h.known (s :: path) w x name ((follow_cons (hg _ _ ht) (hnext hd)).trans hf) hx

/-- Such types can be resolved if names lead to such types. -/
theorem source_usable {lookup : Lookup} (hs : ts.Sane)
    (hl : ∀ name target, lookup name = .type target → ts.Usable target) :
    Source ts lookup ts.Usable where
  known h := h.known
  next h ht hc := h.next hs ht hc
  named _ _ _ h := hl _ _ h
  noMarker h ht := h.noMarker follow_nil ht
  complete h hc hf ht := h.complete follow_nil hc _ _ _ _ hf ht

end

/-! ## Resolving -/

/-- In `ts'`, `r` unfolds as `id` does in `ts` if every deferred name is what `lookup` makes of it. -/
structure SameUnfolding (ts : TypeTable) (lookup : Lookup) (id : TypeId) (ts' : TypeTable) (r : TypeId) : Prop where
  /-- Where a way leads from `id`, it leads from `r` to a type that shows the same. -/
  reached {path : List TypeStep} {v : TypeId} : Reaches ts lookup id path v → ∃ w t u, ts'.follow r path = some w ∧
    ts.types[v]? = some t ∧ ts'.types[w]? = some u ∧ u.label = t.label
  /-- There are no other ways from `r`, and none leads to a deferred name or a reference to an enclosing type. -/
  only {path : List TypeStep} {w : TypeId} : ts'.follow r path = some w → ∃ v t u, Reaches ts lookup id path v ∧
    ts.types[v]? = some t ∧ ts'.types[w]? = some u ∧ u.label = t.label ∧ (∀ name, u.shape ≠ .deferred name) ∧
    ∀ depth, u.shape ≠ .parent depth
  /-- Where a pointer field leads back to its struct from `id`, it does so from `r`. -/
  returns {path : List TypeStep} {v : TypeId} {i : Nat} : Reaches ts lookup id path v →
    Reaches ts lookup v [.field i, .pointee] v →
      ∃ w, ts'.follow r path = some w ∧ ts'.follow w [.field i, .pointee] = some w

section
variable {ts ts' : TypeTable} {lookup : Lookup} {M : TypeId → Prop} {id r : TypeId}

theorem Matches.sameUnfolding {v₀ : TypeId} (hS : Source ts lookup M) (hs : ts.Sane) (hs' : ts'.Sane)
    (hg : ts.Grows ts')
    (hn : Named ts lookup id v₀) (h : Matches ts ts' lookup v₀ r) (hM : M id) :
    SameUnfolding ts lookup id ts' r where
  reached hr := by
    obtain ⟨hMv, w, hw, hm⟩ := Matches.follow hS hs' hg hr hn h hM
    obtain ⟨t, u, ht, hu, hl⟩ := hm.entries hS hg hMv
    exact ⟨w, t, u, hw, ht, hu, hl⟩
  only hw := by
    obtain ⟨v, hr, hMv, hm⟩ := Matches.reaches hS hs' hg hn h hM hw
    obtain ⟨t, u, ht, hu, hl⟩ := hm.entries hS hg hMv
    obtain ⟨t', ht', hnd⟩ := hr.exists
    cases Option.some.inj (ht.symm.trans ht')
    exact ⟨v, t, u, hr, ht, hu, hl, fun name hd => hnd name (TypeInfo.deferred_of_label hl hd),
      fun depth hp => hS.noMarker hMv ht (TypeInfo.parent_of_label hl hp)⟩
  returns {_ v i} hr hloop := by
    obtain ⟨hMv, w, hw, hm⟩ := Matches.follow hS hs' hg hr hn h hM
    obtain ⟨t, ht, hnd⟩ := hr.exists
    obtain _ | ⟨hu, htu, hc, hptr⟩ := hloop
    obtain rfl := hu.eq_of_shape ht hnd
    obtain _ | ⟨hp, htp, hc₂, hend⟩ := hptr
    obtain ⟨hv⟩ := hend
    exact ⟨w, hw, hm.returns hS hs hs' hg hMv htu hc hp htp hc₂ hv⟩

/-- What unfolds as a type of names and structure does can be used again. -/
theorem SameUnfolding.usable (h : SameUnfolding ts lookup id ts' r) : ts'.Usable r where
  known := by
    obtain ⟨_, _, _, _, _, hu, -⟩ := h.only follow_nil
    exact lt_of_lookup hu
  noMarker hf ht := by
    obtain ⟨_, _, u, _, _, hu, -, -, hm⟩ := h.only hf
    cases Option.some.inj (hu.symm.trans ht)
    exact hm _
  complete {_ path} hf _ path' w x name hf' hx := by
    have hf : ts'.follow r (path ++ path') = some w := by
      rw [follow_append, hf]
      exact hf'
    obtain ⟨_, _, u, _, _, hu, -, hd, -⟩ := h.only hf
    cases Option.some.inj (hu.symm.trans hx)
    exact hd name

theorem tied_closes (h : ts.Sane) (hk : ts.KnowsCopies) (hid : id < ts.size)
    (hl : ∀ name target, lookup name = .type target → target < ts.size) :
    (ts.tied lookup id).2.KnowsCopies ∧ (ts.tied lookup id).2.closedConst = ts.closedConst ∧
      ∀ r, (ts.tied lookup id).1 = .ok r → ∃ o ts₁, resolveInner lookup (2 * ts.size + 2) [] id ts = (.ok o, ts₁) ∧
        ts₁.Grows (ts.tied lookup id).2 ∧ Closes (ts.tied lookup id).2 [] o r := by
  obtain ⟨ha, hr⟩ := resolveInner_lands hl (2 * ts.size + 2) [] id ts h (Nat.le_refl _) hid
  rw [tied]
  rcases hf : resolveInner lookup (2 * ts.size + 2) [] id ts with ⟨_ | o, ts₁⟩
  · rw [hf] at ha
    exact ⟨hk.adds ha, ha.closedConst, by rintro _ ⟨⟩⟩
  · rw [hf] at ha hr
    have ho : o < ts₁.size := hr rfl
    simp only [andThen, answered]
    split
    case isTrue =>
      obtain ⟨hk', hc⟩ := closeRoot_closes ha.sane (hk.adds ha) ho
      obtain ⟨hkeeps, hconst⟩ := closeRoot_keeps ha.sane ho
      exact ⟨hk', hconst.trans ha.closedConst, fun r hr => ⟨o, ts₁, rfl, hkeeps.grows, Except.ok.inj hr ▸ hc⟩⟩
    case isFalse hp =>
      refine ⟨hk.adds ha, ha.closedConst, fun r hr => ⟨o, ts₁, rfl, .refl _, Except.ok.inj hr ▸ ?_⟩⟩
      exact .whole (lookup_of_lt ho) (Bool.eq_false_iff.mpr hp)

/-- Without mistakes, what resolving gives unfolds to the same. -/
theorem resolve_same (h : ts.Sane) (hk : ts.KnowsCopies) (hS : Source ts lookup M) (hid : M id)
    (hl : ∀ name target, lookup name = .type target → target < ts.size)
    (hd : Distinct (ts.registered ++ (TypeOp.resolve lookup id).asked ts))
    (hr : ts.resolve lookup id = (.ok r, ts')) :
    SameUnfolding ts lookup id ts' r := by
  have hkeeps := resolve_keeps h (hS.known hid) hl
  obtain ⟨ht, ho⟩ := ts.resolve_tied lookup id
  obtain ⟨-, -, hc⟩ := tied_closes h hk (hS.known hid) hl
  rw [← ht, hr] at hc
  obtain ⟨o, ts₁, hf, hg₁, hcl⟩ := hc r (ho r (by rw [hr]))
  rw [hr] at hkeeps
  have hv : Visit ts M [] id := ⟨hid, nofun, .nil, nofun⟩
  have hready : Ready ts (ts.registered ++ (TypeOp.resolve lookup id).asked ts) ts :=
    ⟨h, .refl ts, covered_registered ts _⟩
  obtain ⟨-, -, hres⟩ :=
    resolveInner_resolves hS h hl hd hv (Nat.le_succ _) (fun _ _ _ _ => Nat.le_refl _) ts o ts₁ hready
    (List.subset_append_right ..) hf
  obtain ⟨v, hn, hm⟩ := Stacked.nil.link hS hkeeps.sane hkeeps.grows hid (hres.grows hg₁) hcl fun _ _ => nofun
  exact hm.sameUnfolding hS h hkeeps.sane hkeeps.grows hn hid

end

/-! ## Histories -/

/-- A table and the types that were asked of it from the start, in terms of one another and of their parts.
No request was mistaken. References to enclosing types are left to resolving. -/
inductive History : TypeTable → List TypeId → Prop where
  | initial : History .initial []
  | step {ts ts' : TypeTable} {made : List TypeId} {op : TypeOp} {r : Except TypeError TypeId} : History ts made →
      op.Mentions (ts.Within made) → (∀ depth, op ≠ .parentRef depth) → Distinct (ts.registered ++ op.asked ts) →
      op.run ts = (r, ts') → History ts' (r.toOption.toList ++ made)

def KnowsConstant (ts : TypeTable) : Prop := ∀ (id c : TypeId), ts.closedConst[id]? = some c →
  ∃ t u, ts.types[id]? = some t ∧ ts.types[c]? = some u ∧ t.flags.closed = true ∧ u.shape = t.shape

structure Kept (ts : TypeTable) : Prop where
  sane : ts.Sane
  stock : initial.Grows ts
  copies : ts.KnowsCopies
  constant : ts.KnowsConstant

theorem kept_initial : Kept initial where
  sane := sane_initial
  stock := .refl _
  copies o c h := by
    rw [adds_initial.closed] at h
    simp at h
  constant id c h := by
    rw [adds_initial.closedConst] at h
    simp at h

section
variable {ts ts' : TypeTable} {id r : TypeId}

theorem KnowsConstant.grows (h : ts.KnowsConstant) (hg : ts.Grows ts') (hc : ts'.closedConst = ts.closedConst) :
    ts'.KnowsConstant := by
  intro id c hid
  rw [hc] at hid
  obtain ⟨t, u, ht, hu, hrest⟩ := h id c hid
  exact ⟨t, u, hg _ _ ht, hg _ _ hu, hrest⟩

theorem Kept.adds (h : ts.Kept) (ha : ts.Adds ts') : ts'.Kept :=
  ⟨ha.sane, h.stock.trans ha.grows, h.copies.adds ha, h.constant.grows ha.grows ha.closedConst⟩

theorem Kept.resolve (h : ts.Kept) {lookup : Lookup} (hid : id < ts.size)
    (hl : ∀ name target, lookup name = .type target → target < ts.size) : (ts.resolve lookup id).2.Kept := by
  have hkeeps := resolve_keeps h.sane hid hl
  obtain ⟨hc, hconst, -⟩ := tied_closes h.sane h.copies hid hl
  rw [← (ts.resolve_tied lookup id).1] at hc hconst
  exact ⟨hkeeps.sane, h.stock.trans hkeeps.grows, hc, h.constant.grows hkeeps.grows hconst⟩

/-- The constant copy of a closed type is known as such. -/
theorem Kept.constClosed (h : ts.Kept) (hid : ts.IsClosed id) :
    (ts.constClosed id).2.Kept ∧ (ts.constClosed id).2.closedConst[id]? = some (ts.constClosed id).1 := by
  have hkeeps := constClosed_keeps h.sane hid
  obtain ⟨t, ht, hcl⟩ := hid
  revert hkeeps
  unfold TypeTable.constClosed
  split
  case h_1 c hc => exact fun _ => ⟨h, hc⟩
  case h_2 =>
    intro hkeeps
    refine ⟨⟨hkeeps.sane, h.stock.trans hkeeps.grows, h.copies.grows hkeeps.grows rfl, fun id' c hc => ?_⟩, ?_⟩
    · rw [Std.HashMap.getElem?_insert] at hc
      split at hc
      case isTrue he =>
        cases hc
        cases eq_of_beq he
        refine ⟨t, _, hkeeps.grows _ _ ht, pushed_last .., hcl, ?_⟩
        rw [get_eq ht]
      case isFalse =>
        obtain ⟨t', u, ht', hu, hrest⟩ := h.constant id' c hc
        exact ⟨t', u, hkeeps.grows _ _ ht', hkeeps.grows _ _ hu, hrest⟩
    · rw [Std.HashMap.getElem?_insert]
      exact if_pos (beq_self_eq_true _)

end

end TypeTable

open TypeTable

namespace TypeOp

section
variable {ts : TypeTable} {op : TypeOp} {t : TypeInfo}

theorem Mentions.imp {P Q : TypeId → Prop} (h : op.Mentions P) (hpq : ∀ id, P id → Q id) : op.Mentions Q := by
  cases op with
  | primitive | deferred | parentRef => trivial
  | unsign | constant | mutableOf | pointer => exact hpq _ h
  | function => exact ⟨hpq _ h.1, fun p hp => hpq _ (h.2 p hp)⟩
  | struct => exact ⟨fun f hf => hpq _ (h.1 f hf), fun b hb => hpq _ (h.2 b hb)⟩
  | resolve => exact ⟨hpq _ h.1, fun name target ht => hpq _ (h.2 name target ht)⟩

theorem run_kept (h : ts.Kept) (hm : op.Mentions (· < ts.size)) : (op.run ts).2.Kept := by
  obtain ⟨t, hr, hrun⟩ | ⟨id, rfl, hc, hrun⟩ | ⟨lookup, id, rfl⟩ | ⟨r, hrun, -⟩ := op.run_cases ts
  · rw [hrun]
    exact h.adds (run_answers h.sane hm hr).adds
  · rw [hrun]
    exact (h.constClosed ⟨_, lookup_of_lt hm, hc⟩).1
  · exact h.resolve hm.1 hm.2
  · rw [hrun]
    exact h

/-- What is asked for is no reference and made of what the request mentions, or of what is below that. -/
theorem request_usable (h : ts.Sane) (hm : op.Mentions ts.Usable) (hp : ∀ depth, op ≠ .parentRef depth)
    (hr : op.request ts = some t) :
    (∀ depth, t.shape ≠ .parent depth) ∧ ∀ s c, t.shape.next? s = some c → ts.Usable c := by
  obtain ⟨id, flags, rfl, hid, -⟩ | ⟨-, -, hn, hmark⟩ := request_cases hm hr
  · have ht := lookup_of_lt hid.known
    exact ⟨fun depth hsh => hid.noMarker follow_nil ht hsh, fun s c hn => hid.next h ht hn⟩
  · exact ⟨fun depth hsh => hp depth (hmark depth hsh), hn⟩

/-- Without mistakes, such types are made of such types. -/
theorem run_usable (h : ts.Kept) (hm : op.Mentions ts.Usable) (hp : ∀ depth, op ≠ .parentRef depth)
    (hd : Distinct (ts.registered ++ op.asked ts)) {id : TypeId} (hid : (op.run ts).1 = .ok id) :
    (op.run ts).2.Usable id := by
  have hlt : op.Mentions (· < ts.size) := hm.imp fun _ h => h.known
  obtain ⟨t, hr, hrun⟩ | ⟨id', rfl, hc, hrun⟩ | ⟨lookup, id', rfl⟩ | ⟨r, hrun, hold⟩ := op.run_cases ts
  · rw [hrun] at hid ⊢
    cases hid
    have ha := run_answers h.sane hlt hr
    have ht : t ∈ ts.registered ++ op.asked ts :=
      List.mem_append_right _ (by rw [asked_request hr]; exact List.mem_singleton_self t)
    obtain ⟨u, hu, hf, ho⟩ := ha.form hd (covered_registered ts _) ht
    obtain ⟨hmark, hnext⟩ := request_usable h.sane hm hp hr
    have hfs : u.shape.form = t.shape.form := congrArg (·.2.2) hf
    refine usable_of_next hu (fun depth hsh => ?_) (fun hcl => ?_) fun s c hn => ?_
    · exact hmark depth (TypeInfo.parent_of_label (TypeInfo.label_of_form hf) hsh)
    · rw [ho] at hcl
      cases hcl
    · rw [TypeShape.next?_of_form hfs] at hn
      exact (hnext s c hn).grows h.sane ha.adds.grows
  · rw [hrun] at hid ⊢
    cases hid
    have hcl : ts.IsClosed id' := ⟨_, lookup_of_lt hm.known, hc⟩
    obtain ⟨hk, hknown⟩ := h.constClosed hcl
    have hg := (constClosed_keeps h.sane hcl).grows
    obtain ⟨t, u, ht, hu, hct, hsh⟩ := hk.constant _ _ hknown
    exact (hm.grows h.sane hg).copy hk.sane (.refl _) ht hu hsh hct
  · rcases hr : ts.resolve lookup id' with ⟨r, ts'⟩
    simp only [run, hr] at hid ⊢
    subst hid
    exact (resolve_same h.sane h.copies (source_usable h.sane hm.2) hm.1 hlt.2 hd hr).usable
  · rw [hrun] at hid ⊢
    obtain ⟨kind, hk⟩ | hP := hold id hid
    · have hu := h.stock _ _ (stocked_initial.primitive hk)
      refine usable_of_next hu (by rintro _ ⟨⟩) ?_ fun s c hn => by cases s <;> cases hn
      rintro ⟨⟩
    · exact hP _ hm

end

end TypeOp

namespace TypeTable

section
variable {ts ts' : TypeTable} {made : List TypeId}

theorem Within.usable {id : TypeId} (h : ts.Within made id) (hs : ts.Sane)
    (hu : ∀ m ∈ made, ts.Usable m) : ts.Usable id := by
  obtain ⟨m, hm, path, hf⟩ := h
  exact (hu m hm).below hs hf

/-- In the course of a history only such types are made. -/
theorem History.usable (h : History ts made) : ts.Kept ∧ ∀ m ∈ made, ts.Usable m := by
  induction h with
  | initial => exact ⟨kept_initial, nofun⟩
  | @step ts ts' made op r _ hm hp hd hr ih =>
    obtain ⟨hk, hu⟩ := ih
    have hmu : op.Mentions ts.Usable := hm.imp fun id hid => hid.usable hk.sane hu
    have hlt : op.Mentions (· < ts.size) := hmu.imp fun id hid => hid.known
    have hkept := TypeOp.run_kept hk hlt
    have hg := (TypeOp.run_keeps hk.sane hlt).grows
    have hnew (id : TypeId) : (op.run ts).1 = .ok id → (op.run ts).2.Usable id := TypeOp.run_usable hk hmu hp hd
    rw [hr] at hkept hg hnew
    refine ⟨hkept, fun m hmem => ?_⟩
    obtain hmem | hmem := List.mem_append.mp hmem
    · cases r with
      | error => cases hmem
      | ok id => exact hnew m (congrArg _ (List.mem_singleton.mp hmem).symm)
    · exact (hu m hmem).grows hk.sane hg

section
variable {lookup : Lookup} {id r : TypeId} (h : History ts made)
  (hm : (TypeOp.resolve lookup id).Mentions (ts.Within made))
  (hd : Distinct (ts.registered ++ (TypeOp.resolve lookup id).asked ts))
  (hr : ts.resolve lookup id = (.ok r, ts'))
include h hm hr

/-- The table after resolving in the course of a history. -/
theorem History.after : ts'.Kept := by
  obtain ⟨hk, hu⟩ := h.usable
  have hkept := TypeOp.run_kept hk (hm.imp fun id hid => (hid.usable hk.sane hu).known)
  rwa [show (TypeOp.resolve lookup id).run ts = (.ok r, ts') from hr] at hkept

include hd

theorem History.unfolds : SameUnfolding ts lookup id ts' r := by
  obtain ⟨hk, hu⟩ := h.usable
  have hmu := hm.imp fun id hid => hid.usable hk.sane hu
  exact resolve_same hk.sane hk.copies (source_usable hk.sane hmu.2) hmu.1
    (fun name target ht => (hmu.2 name target ht).known) hd hr

end

/-- In every history without mistakes, what resolving gives unfolds to the same, and nothing in it is left to
resolve. -/
theorem resolve_unfolds {lookup : Lookup} {id r : TypeId} (h : History ts made)
    (hm : (TypeOp.resolve lookup id).Mentions (ts.Within made))
    (hd : Distinct (ts.registered ++ (TypeOp.resolve lookup id).asked ts))
    (hr : ts.resolve lookup id = (.ok r, ts')) : SameUnfolding ts lookup id ts' r := h.unfolds hm hd hr

end

/-! ## Tables of known types -/

theorem Distinct.mono {types types' : List TypeInfo} (h : Distinct types')
    (hs : ∀ t ∈ types, t ∈ types') : Distinct types :=
  fun a ha b hb => h a (hs a ha) b (hs b hb)

/-- Types that are covered by distinct ones are distinct. -/
theorem Covered.distinct {types more : List TypeInfo} {ts : TypeTable} (h : Covered types ts) (hd : Distinct types)
    (hm : ∀ a ∈ more, ∃ b ∈ types, b.computeHash = a.computeHash ∧ b.form = a.form) :
    Distinct (ts.registered ++ more) := by
  have hcov {a : TypeInfo} (ha : a ∈ ts.registered ++ more) : ∃ b ∈ types, b.computeHash = a.computeHash ∧
      b.form = a.form := by
    obtain ha | ha := List.mem_append.mp ha
    · obtain ⟨ha, ho⟩ := List.mem_filter.mp ha
      obtain ⟨id, hid⟩ := List.getElem?_of_mem ha
      rw [Array.getElem?_toList] at hid
      exact h id a hid (Bool.not_eq_eq_eq_not.mp ho)
    · exact hm a ha
  intro a ha b hb he
  obtain ⟨a', ha', hha, hfa⟩ := hcov ha
  obtain ⟨b', hb', hhb, hfb⟩ := hcov hb
  rw [← hfa, ← hfb]
  exact hd a' ha' b' hb' (hha.trans (he.trans hhb.symm))

theorem History.primitive {ts : TypeTable} {made : List TypeId} {id : TypeId} (h : History ts made) (kind : Kind)
    (hk : primitiveKinds.idxOf? kind = some id) (hd : Distinct ts.registered) : History ts (id :: made) := by
  have hrun : (TypeOp.primitive kind).run ts = (.ok id, ts) := by
    simp only [TypeOp.run, TypeTable.primitive, hk, answered]
  have hasked : (TypeOp.primitive kind).asked ts = [] := by
    simp only [TypeOp.asked, TypeOp.request, hk, Option.isSome_some, if_true, Option.toList_none]
  have hd : Distinct (ts.registered ++ (TypeOp.primitive kind).asked ts) := by rwa [hasked, List.append_nil]
  have hm : (TypeOp.primitive kind).Mentions (ts.Within made) := trivial
  exact .step (r := .ok id) h hm (by rintro _ ⟨⟩) hd hrun

structure Lists (types : List TypeInfo) (ts : TypeTable) (n : Nat) : Prop where
  sane : ts.Sane
  covered : Covered types ts
  size : ts.size = n
  hashes : ts.types.toList.map TypeInfo.computeHash = (types.take n).map TypeInfo.computeHash

theorem lists_initial (more : List TypeInfo) : Lists (primitiveKinds.map (plainInfo · {}) ++ more) initial 9 where
  sane := sane_initial
  covered _ t ht _ := ⟨t, List.mem_append_left _ (initial_types.2 ▸
    List.mem_of_getElem? (by rw [Array.getElem?_toList]; exact ht)), rfl, rfl⟩
  size := congrArg List.length initial_types.2
  hashes := by
    rw [initial_types.2]
    rfl

section
variable {types : List TypeInfo} {ts : TypeTable} {n : Nat} {t : TypeInfo}
  (hn : (types.map TypeInfo.computeHash).Nodup)
include hn

theorem distinct_of_nodup : Distinct types := fun _ ha _ hb he =>
  congrArg TypeInfo.form (List.inj_on_of_nodup_map hn ha hb he)

theorem Lists.register (h : Lists types ts n) (ht : types[n]? = some t) (hp : TypeOp.Proper ts t) :
    ∃ ts', ts.register t = (n, ts') ∧ Lists types ts' (n + 1) ∧ ts.Grows ts' ∧
      ts'.types[n]? = some (ts.joined t) := by
  have hnew : ts.interned[t.computeHash]? = none := by
    cases hi : ts.interned[t.computeHash]? with
    | none => rfl
    | some id =>
      obtain ⟨u, hu, hh, -⟩ := h.sane.found hi
      rw [← Array.getElem?_toList] at hu
      have hm : t.computeHash ∈ (types.take n).map TypeInfo.computeHash :=
        h.hashes ▸ hh ▸ List.mem_map_of_mem (List.mem_of_getElem? hu)
      have hm' : t ∈ types.drop n := List.mem_of_getElem? (i := 0) (by rw [List.getElem?_drop]; exact ht)
      rw [← List.take_append_drop n types, List.map_append, List.nodup_append] at hn
      exact absurd rfl (hn.2.2 _ hm _ (List.mem_map_of_mem hm'))
  have ha := h.sane.register hp.isOpen hp.next hp.laid
  have hr := register_joins hnew
  have hlast := ts.added_last (ts.joined t)
  rw [show ts.types.size = n from h.size] at hlast
  rw [h.size] at hr
  rw [hr] at ha
  refine ⟨_, hr, ⟨ha.adds.sane, ha.covered h.covered (List.mem_of_getElem? ht), ?_, ?_⟩, ha.adds.grows, hlast⟩
  · exact (Array.size_push _).trans (congrArg (· + 1) h.size)
  · rw [added, Array.toList_push, List.map_append, h.hashes, List.take_add_one, ht, List.map_append]
    rfl

theorem Lists.ask (h : Lists types ts n) {made : List TypeId} (op : TypeOp) (hh : History ts made)
    (ht : types[n]? = some t)
    (hr : op.request ts = some t) (hm : op.Mentions (ts.Within made)) (hp : ∀ depth, op ≠ .parentRef depth) :
    ∃ ts', op.run ts = (.ok n, ts') ∧ Lists types ts' (n + 1) ∧ History ts' (n :: made) ∧ ts.Grows ts' ∧
    ts'.types[n]? = some (ts.joined t) := by
  obtain ⟨hk, hu⟩ := hh.usable
  have hlt : op.Mentions (· < ts.size) := hm.imp fun id hid => (hid.usable hk.sane hu).known
  obtain ⟨ts', hreg, hl, hg, hlast⟩ := h.register hn ht (TypeOp.request_proper hk.sane hlt hr)
  have hrun : op.run ts = (.ok n, ts') := by
    rw [TypeOp.run_request hr, hreg]
    rfl
  refine ⟨ts', hrun, hl, .step (r := .ok n) hh hm hp ?_ hrun, hg, hlast⟩
  refine h.covered.distinct (distinct_of_nodup hn) fun a ha => ?_
  rw [TypeOp.asked_request hr] at ha
  exact ⟨t, List.mem_of_getElem? ht, List.mem_singleton.mp ha ▸ rfl, List.mem_singleton.mp ha ▸ rfl⟩

end

/-! ### A pointer to what a name means, which is that pointer -/

def pointerTo (base : TypeId) : TypeInfo := { kind := .pointer, shape := .pointer base }

def nameOf (name : NameId) : TypeInfo := { kind := .deferred, shape := .deferred name }

/-- All types that are asked for, with the first ones. -/
def cyclic : List TypeInfo :=
  primitiveKinds.map (plainInfo · {}) ++ [nameOf 100, pointerTo 9, marker 1, pointerTo 11]

theorem cyclic_nodup : (cyclic.map TypeInfo.computeHash).Nodup := by decide +kernel

def cyclicLookup : Lookup := fun _ => .type 10

def listed (t : TypeInfo) : TypeInfo := { t with hash := t.computeHash }

theorem cyclic_history : ∃ ts, Lists cyclic ts 11 ∧ History ts [10, 9] ∧ ts.get 9 = listed (nameOf 100) ∧
    ts.get 10 = listed (pointerTo 9) := by
  obtain ⟨ts₁, -, hl₁, hh₁, -, he₁⟩ :=
    (lists_initial _).ask cyclic_nodup (.deferred 100) .initial rfl rfl trivial nofun
  obtain ⟨ts₂, -, hl₂, hh₂, hg, he₂⟩ :=
    hl₁.ask cyclic_nodup (.pointer 9) hh₁ rfl rfl ⟨9, List.mem_singleton_self _, [], rfl⟩ nofun
  refine ⟨ts₂, hl₂, hh₂, get_eq (hg _ _ he₁), ?_⟩
  rw [get_eq he₂, joined]
  show { pointerTo 9 with
    hash := (pointerTo 9).computeHash, containsParent := (ts₁.get 9).containsParent : TypeInfo } = _
  rw [get_eq he₁]
  rfl

/-- The walk meets the pointer again behind the name. -/
theorem cyclic_walk {ts : TypeTable} (hl : Lists cyclic ts 11) (hn : ts.get 9 = listed (nameOf 100))
    (hp : ts.get 10 = listed (pointerTo 9)) :
    ∃ ts' u, resolveInner cyclicLookup 24 [] 10 ts = (.ok 12, ts') ∧ ts'.types[12]? = some u ∧ u.kind = .pointer ∧
      askedInner cyclicLookup 24 [] 10 ts = [marker 1, { listed (pointerTo 9) with shape := .pointer 11 }] ∧
      u.isConst = false ∧ u.shape = .pointer 11 ∧ u.containsParent = true ∧
      ∃ v, ts'.types[11]? = some v ∧ v.shape = .parent 1 ∧ v.containsParent = true := by
  obtain ⟨ts₁, hr₁, hl₁, -, he₁⟩ := hl.register cyclic_nodup (t := marker 1) rfl
    ⟨rfl, fun s c hs => (by cases s <;> cases hs), fun _ => rfl⟩
  obtain ⟨ts₂, hr₂, -, hg, he₂⟩ := hl₁.register cyclic_nodup (t := pointerTo 11) rfl
    ⟨rfl, fun s c hs => (by cases s <;> cases hs; rw [hl₁.size]; decide), fun _ => rfl⟩
  have hfollow : ts.followDefers cyclicLookup (ts.size + 1) [] 9 = .ok 10 := by
    rw [hl.size, followDefers, hn]
    show ts.followDefers cyclicLookup 11 [9] 10 = .ok 10
    rw [followDefers, hp]
    rfl
  have hmarker : resolveInner cyclicLookup 22 [10] 10 ts = (.ok 11, ts₁) := by
    rw [resolveInner_ancestor (k := 0) rfl]
    exact congrArg answered hr₁
  have hname : resolveInner cyclicLookup 23 [10] 9 ts = (.ok 11, ts₁) := by
    rw [resolveInner_visit rfl (by rw [hn]; rfl), visit, hn]
    show andThen (ts.followDefers cyclicLookup (ts.size + 1) [] 9, ts) _ = _
    rw [hfollow]
    show andThen (resolveInner cyclicLookup 22 [10] 10 ts) (orMarker [10]) = _
    rw [hmarker]
    rfl
  refine ⟨ts₂, _, ?_, he₂, rfl, ?_, rfl, rfl, congrArg TypeInfo.containsParent (get_eq he₁), _,
    hg _ _ he₁, rfl, rfl⟩
  · rw [resolveInner_visit rfl (by rw [hp]; rfl), visit, hp]
    show andThen (andThen (resolveInner cyclicLookup 23 [10] 9 ts) _) _ = _
    rw [hname]
    exact congrArg answered hr₂
  · rw [askedInner, hp]
    show askedInner cyclicLookup 23 [10] 9 ts ++
      asksAfter (andThen (resolveInner cyclicLookup 23 [10] 9 ts) _) _ = _
    rw [hname, askedInner, hn]
    show asksAfter (ts.followDefers cyclicLookup (ts.size + 1) [] 9, ts) _ ++ _ = _
    rw [hfollow]
    show (_ ++ asksAfter (resolveInner cyclicLookup 22 [10] 10 ts) _) ++ _ = _
    rw [hmarker]
    rfl

/-- A type that is no struct has no inline fields, so that it resolves. -/
theorem resolve_of_kind {ts : TypeTable} {lookup : Lookup} {id r : TypeId} (hr : (ts.tied lookup id).1 = .ok r)
    (hk : (ts.tied lookup id).2.kind r ≠ .struct) : ts.resolve lookup id = (.ok r, (ts.tied lookup id).2) := by
  have hv : (ts.tied lookup id).2.validate ((ts.tied lookup id).2.size + 1) [] r = .ok () := validate_of_kind hk
  rw [resolve_eq, show ts.tied lookup id = (.ok r, (ts.tied lookup id).2) from Prod.ext hr rfl]
  simp only [andThen, hv]
  rfl

/-- The pointer that it resolves to points to itself. -/
theorem cyclic_knot {ts : TypeTable} (hl : Lists cyclic ts 11) (hh : History ts [10, 9])
    (hn : ts.get 9 = listed (nameOf 100))
    (hp : ts.get 10 = listed (pointerTo 9)) : ∃ r ts', ts.resolve cyclicLookup 10 = (.ok r, ts') ∧
      ∃ w, ts'.types[r]? = some w ∧ w.isConst = false ∧ w.shape = .pointer r := by
  obtain ⟨ts₁, u, hw, hu, hk, -, hconst, hshape, hmarked, v, hv, hparent, hmarker⟩ := cyclic_walk hl hn hp
  have hok : ∃ r, (ts.tied cyclicLookup 10).1 = .ok r := by
    rw [tied, hl.size, hw]
    exact ⟨_, rfl⟩
  obtain ⟨r, hr⟩ := hok
  have hlt : 10 < ts.size := by
    rw [hl.size]
    decide
  have hkept := hh.usable.1
  have hnames (name : NameId) (target : TypeId) (he : cyclicLookup name = .type target) : target < ts.size :=
    DeferTarget.type.inj he ▸ hlt
  obtain ⟨-, -, hc⟩ := tied_closes hkept.sane hkept.copies hlt hnames
  obtain ⟨o, ts₂, ho, hg, hc⟩ := hc r hr
  rw [hl.size, hw] at ho
  cases ho
  replace hu := hg _ _ hu
  replace hv := hg _ _ hv
  cases hc with
  | whole hu' hwhole =>
    cases Option.some.inj (hu.symm.trans hu')
    cases hwhole.symm.trans hmarked
  | stray hu' hs =>
    cases Option.some.inj (hu.symm.trans hu')
    cases hs.symm.trans hshape
  | marker _ _ hm => cases hm
  | @copy _ _ _ _ w hu' _ _ _ hw _ hl hnext =>
    cases Option.some.inj (hu.symm.trans hu')
    have hkw : w.kind = u.kind := congrArg (·.1) hl
    have hcw : w.isConst = u.isConst := congrArg (·.2.1.isConst) hl
    refine ⟨r, _, resolve_of_kind hr ?_, w, hw, hcw.trans hconst, ?_⟩
    · rw [kind, get_eq hw, hkw, hk]
      rintro ⟨⟩
    · have hlw : w.shape.label = .pointer 0 := by
        rw [show w.shape.label = u.shape.label from congrArg (·.2.2) hl, hshape]
        rfl
      cases hsw : w.shape with
      | pointer e =>
        -- The reference below it is tied to the copy.
        have hbelow : Closes _ [r] 11 e := hnext .pointee 11 e (by rw [hshape]; rfl) (by rw [hsw]; rfl)
        cases hbelow with
        | whole hv' hwhole =>
          cases Option.some.inj (hv.symm.trans hv')
          cases hwhole.symm.trans hmarker
        | marker hv' hs hk =>
          cases Option.some.inj (hv.symm.trans hv')
          cases hparent.symm.trans hs
          cases hk
          rfl
        | stray hv' hs hk =>
          cases Option.some.inj (hv.symm.trans hv')
          cases hparent.symm.trans hs
          rcases hk with hk | hk <;> cases hk
        | copy hv' hs =>
          cases Option.some.inj (hv.symm.trans hv')
          exact absurd hparent (hs 1)
      | _ => rw [hsw] at hlw; cases hlw

theorem cyclic_resolves {ts : TypeTable} (hl : Lists cyclic ts 11) (hh : History ts [10, 9])
    (hn : ts.get 9 = listed (nameOf 100))
    (hp : ts.get 10 = listed (pointerTo 9)) : ∃ r ts', ts.resolve cyclicLookup 10 = (.ok r, ts') := by
  obtain ⟨r, ts', hr, -⟩ := cyclic_knot hl hh hn hp
  exact ⟨r, ts', hr⟩

/-- The pointer and what its name means have been made, and no two types have one hash. -/
theorem cyclic_request {ts : TypeTable} (hl : Lists cyclic ts 11) (hn : ts.get 9 = listed (nameOf 100))
    (hp : ts.get 10 = listed (pointerTo 9)) :
    (TypeOp.resolve cyclicLookup 10).Mentions (ts.Within [10, 9]) ∧
      Distinct (ts.registered ++ (TypeOp.resolve cyclicLookup 10).asked ts) := by
  obtain ⟨-, -, -, -, -, hasked, -⟩ := cyclic_walk hl hn hp
  constructor
  · have h10 : ts.Within [10, 9] 10 := ⟨10, List.mem_cons_self .., [], rfl⟩
    exact ⟨h10, fun _ _ he => DeferTarget.type.inj he ▸ h10⟩
  · rw [TypeOp.asked, hl.size, hasked]
    refine hl.covered.distinct (distinct_of_nodup cyclic_nodup) (List.forall_mem_cons.mpr ⟨⟨marker 1, ?_, rfl, rfl⟩,
      List.forall_mem_singleton.mpr ⟨pointerTo 11, ?_, rfl, rfl⟩⟩)
    · exact List.mem_of_getElem? (i := 11) rfl
    · exact List.mem_of_getElem? (i := 12) rfl

theorem resolve_unfolds_cyclic : ∃ ts ts' made r, History ts made ∧
    (TypeOp.resolve cyclicLookup 10).Mentions (ts.Within made) ∧
    Distinct (ts.registered ++ (TypeOp.resolve cyclicLookup 10).asked ts) ∧
    ts.resolve cyclicLookup 10 = (.ok r, ts') ∧ SameUnfolding ts cyclicLookup 10 ts' r := by
  obtain ⟨ts, hl, hh, hn, hp⟩ := cyclic_history
  obtain ⟨r, ts', hr⟩ := cyclic_resolves hl hh hn hp
  obtain ⟨hm, hd⟩ := cyclic_request hl hn hp
  exact ⟨ts, ts', _, r, hh, hm, hd, hr, resolve_unfolds hh hm hd hr⟩

/-! ### A name with flags -/

def unsignedName : TypeInfo := { listed (nameOf 100) with flags := { unsigned := true } }

def flagged : List TypeInfo := primitiveKinds.map (plainInfo · {}) ++ [nameOf 100, unsignedName]

theorem flagged_nodup : (flagged.map TypeInfo.computeHash).Nodup := by decide +kernel

def flaggedLookup : Lookup := fun _ => .type int32

/-- A name and a copy of it with flags have been made, and the copy resolves to what the name means. -/
theorem flagged_resolves {op : TypeOp} {t : TypeInfo}
    (hn : ((primitiveKinds.map (plainInfo · {}) ++ [nameOf 100, t]).map TypeInfo.computeHash).Nodup)
    (hreq : ∀ ts : TypeTable, ts.get 9 = listed (nameOf 100) → op.request ts = some t)
    (hs : t.shape = .deferred 100) (ho : t.flags.closed = false)
    (hop : ∀ P : TypeId → Prop, P 9 → op.Mentions P) (hp : ∀ depth, op ≠ .parentRef depth) :
    ∃ ts ts', History ts [9, int32] ∧ ts.get 9 = listed (nameOf 100) ∧ op.run ts = (.ok 10, ts') ∧
      History ts' [10, 9, int32] ∧ (TypeOp.resolve flaggedLookup 10).Mentions (ts'.Within [10, 9, int32]) ∧
      Distinct (ts'.registered ++ (TypeOp.resolve flaggedLookup 10).asked ts') ∧
      ts'.resolve flaggedLookup 10 = (.ok int32, ts') ∧
      ts'.types[10]? = some (ts.joined t) ∧ ts'.types[int32]? = some (plainInfo .int32 {}) := by
  have hl₀ := lists_initial [nameOf 100, t]
  have hd₀ : Distinct initial.registered :=
    (hl₀.covered.distinct (distinct_of_nodup hn) (List.forall_mem_nil _)).mono fun _ => List.mem_append_left _
  have h₀ : History initial [int32] := History.initial.primitive .int32 rfl hd₀
  obtain ⟨ts₁, -, hl₁, hh₁, hg₁, he₁⟩ := hl₀.ask hn (.deferred 100) h₀ rfl rfl trivial (by rintro _ ⟨⟩)
  have hget₁ : ts₁.get 9 = listed (nameOf 100) := get_eq he₁
  obtain ⟨ts₂, hrun, hl₂, hh₂, hg₂, he₂⟩ :=
    hl₁.ask hn op hh₁ rfl (hreq ts₁ hget₁) (hop _ ⟨9, List.mem_cons_self .., [], rfl⟩) hp
  have hint : ts₂.types[int32]? = some (plainInfo .int32 {}) := hg₂ _ _ (hg₁ _ _ (stocked_initial.primitive rfl))
  have hshape : (ts₂.get 10).shape = .deferred 100 := by rw [get_eq he₂, joined, hs]
  have hopen : (ts₂.get 10).flags.closed = false := by rw [get_eq he₂, joined, ho]
  have hget := get_eq hint
  -- From here on the walk is evaluated: the name leads to the integer, and no type is added.
  have hfollow : ts₂.followDefers flaggedLookup (ts₂.size + 1) [] 10 = .ok int32 := by
    rw [hl₂.size, followDefers, hshape]
    show ts₂.followDefers flaggedLookup 11 [10] int32 = .ok int32
    rw [followDefers, hget]
    rfl
  have hplain : resolveInner flaggedLookup 23 [] int32 ts₂ = (.ok int32, ts₂) := by
    rw [resolveInner_visit rfl (by rw [hget]; rfl), visit, hget]
    rfl
  have htied : ts₂.tied flaggedLookup 10 = (.ok int32, ts₂) := by
    rw [tied, hl₂.size, resolveInner_visit rfl hopen, visit, hshape]
    show andThen (andThen (ts₂.followDefers flaggedLookup (ts₂.size + 1) [] 10, ts₂) _) _ = _
    rw [hfollow]
    show andThen (andThen (resolveInner flaggedLookup 23 [] int32 ts₂) _) _ = _
    rw [hplain]
    show answered (if (ts₂.get int32).containsParent then _ else _) = _
    rw [hget]
    rfl
  have hasked : askedInner flaggedLookup 24 [] 10 ts₂ = [] := by
    rw [askedInner, hshape, hopen]
    show asksAfter (ts₂.followDefers flaggedLookup (ts₂.size + 1) [] 10, ts₂) _ = _
    rw [hfollow]
    show askedInner flaggedLookup 23 [] int32 ts₂ ++ asksAfter (resolveInner flaggedLookup 23 [] int32 ts₂) _ = _
    rw [hplain, askedInner, hget]
    rfl
  have hres := resolve_of_kind (congrArg Prod.fst htied) (by rw [htied, kind, hget]; rintro ⟨⟩)
  rw [htied] at hres
  have hm : (TypeOp.resolve flaggedLookup 10).Mentions (ts₂.Within [10, 9, int32]) := by
    have hwithin {id : TypeId} (hid : id ∈ [10, 9, int32]) : ts₂.Within [10, 9, int32] id := ⟨id, hid, [], rfl⟩
    exact ⟨hwithin (by decide), fun _ _ he => DeferTarget.type.inj he ▸ hwithin (by decide)⟩
  have hd : Distinct (ts₂.registered ++ (TypeOp.resolve flaggedLookup 10).asked ts₂) := by
    rw [TypeOp.asked, hl₂.size, hasked]
    exact hl₂.covered.distinct (distinct_of_nodup hn) (List.forall_mem_nil _)
  exact ⟨ts₁, ts₂, hh₁, hget₁, hrun, hh₂, hm, hd, hres, he₂, hint⟩

/-- What a name means does not get the flags that the name has. -/
theorem resolve_drops_unsigned : ∃ ts ts', History ts [9, int32] ∧ (ts.get 9).shape = .deferred 100 ∧
    (TypeOp.unsign 9).run ts = (.ok 10, ts') ∧ History ts' [10, 9, int32] ∧
    (TypeOp.resolve flaggedLookup 10).Mentions (ts'.Within [10, 9, int32]) ∧
    Distinct (ts'.registered ++ (TypeOp.resolve flaggedLookup 10).asked ts') ∧
    ts'.resolve flaggedLookup 10 = (.ok int32, ts') ∧ (ts'.get 10).unsigned = true ∧
    (ts'.get int32).unsigned = false := by
  have hreq (ts : TypeTable) (h : ts.get 9 = listed (nameOf 100)) :
      (TypeOp.unsign 9).request ts = some unsignedName := by
    rw [TypeOp.request, h]
    rfl
  obtain ⟨ts, ts', hh, hget, hrun, hh', hm, hd, hr, hname, hint⟩ :=
    flagged_resolves flagged_nodup hreq rfl rfl (fun _ h => h) (by rintro _ ⟨⟩)
  refine ⟨ts, ts', hh, ?_, hrun, hh', hm, hd, hr, ?_, ?_⟩
  · rw [hget]
    rfl
  · rw [get_eq hname]
    rfl
  · rw [get_eq hint]
    rfl

end TypeTable

end LevelScript
