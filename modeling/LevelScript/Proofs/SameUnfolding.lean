import LevelScript.Proofs.Knots
import LevelScript.Proofs.Resolving

/-!
# A resolved type unfolds to the same

Resolving a type and tying its references keeps what it unfolds to. The two unfoldings are walked side by
side: as long as a type of the source is below others that the walk had as ancestors, the type of the result
is below their copies, in the same order.
-/

namespace LevelScript

namespace TypeTable

section
variable {ts ts' : TypeTable} {lookup : Lookup} {M : TypeId → Prop}

/-- A type of the source and its copy, below such types: they show the same, and what they are made of belongs
together, with themselves as the next types around it. -/
structure Paired (ts ts' : TypeTable) (lookup : Lookup) (A S : List TypeId) (v w : TypeId) : Prop where
  fresh : v ∉ A
  entries : ∃ t u, ts.types[v]? = some t ∧ ts'.types[w]? = some u ∧ u.label = t.label ∧ t.flags.closed = false ∧
    ∀ s c e, t.shape.next? s = some c → u.shape.next? s = some e →
      ∃ d, Resolved ts ts' lookup (v :: A) c d ∧ Closes ts' (w :: S) d e

/-- One step from the innermost types around leads to `v` and to `w`. -/
def Arrives (ts ts' : TypeTable) (lookup : Lookup) (A S : List TypeId) (v w : TypeId) : Prop :=
  ∀ a ∈ A.head?, ∀ x ∈ S.head?, ∃ s c t u, ts.types[a]? = some t ∧ t.shape.next? s = some c ∧ Named ts lookup c v ∧
    ts'.types[x]? = some u ∧ u.shape.next? s = some w

inductive Stacked (ts ts' : TypeTable) (lookup : Lookup) : List TypeId → List TypeId → Prop where
  | nil : Stacked ts ts' lookup [] []
  | cons {A S : List TypeId} {v w : TypeId} : Stacked ts ts' lookup A S → Paired ts ts' lookup A S v w →
      Arrives ts ts' lookup A S v w → Stacked ts ts' lookup (v :: A) (w :: S)

def Complete (ts : TypeTable) (v : TypeId) : Prop := ∀ path w t name, ts.follow v path = some w →
    ts.types[w]? = some t →
  t.shape ≠ .deferred name

theorem Complete.named {u c v : TypeId} {path : List TypeStep} (h : Complete ts u) (hs : ts.Sane) (hu : u < ts.size)
    (hc : ts.follow u path = some c) (hn : Named ts lookup c v) : v = c :=
  have ht := lookup_of_lt (hs.follow_lt hu hc)
  hn.eq_of_shape ht fun name => h path c _ name hc ht

theorem Source.complete_of_closed (hS : Source ts lookup M) {u : TypeId} (hu : M u) (hc : ts.IsClosed u) :
    Complete ts u :=
  fun _ _ _ _ hf hw => hS.complete hu hc hf hw

/-- The types belong together: one is the copy of the other, or both are the same. -/
inductive Matches (ts ts' : TypeTable) (lookup : Lookup) (v w : TypeId) : Prop where
  | copied {A S : List TypeId} : Stacked ts ts' lookup (v :: A) (w :: S) → Matches ts ts' lookup v w
  | same : v = w → Complete ts v → Matches ts ts' lookup v w

namespace Stacked

theorem length {A S : List TypeId} (h : Stacked ts ts' lookup A S) : A.length = S.length := by
  induction h with
  | nil => rfl
  | cons _ _ _ ih => rw [List.length_cons, List.length_cons, ih]

theorem nodup {A S : List TypeId} (h : Stacked ts ts' lookup A S) : A.Nodup := by
  induction h with
  | nil => exact .nil
  | cons _ hp _ ih => exact List.nodup_cons.mpr ⟨hp.fresh, ih⟩

theorem outer {A S : List TypeId} (h : Stacked ts ts' lookup A S) {k : Nat} {v w : TypeId} (hv : A[k]? = some v)
    (hw : S[k]? = some w) : ∃ A' S', Stacked ts ts' lookup (v :: A') (w :: S') := by
  induction h generalizing k with
  | nil => cases hv
  | cons hs hp ha ih =>
    cases k with
    | zero =>
      cases hv
      cases hw
      exact ⟨_, _, .cons hs hp ha⟩
    | succ k => exact ih hv hw

/-- Each type is one step below the next one. -/
theorem arrives {A S : List TypeId} (h : Stacked ts ts' lookup A S) {k : Nat} {a x v w : TypeId}
    (ha : A[k + 1]? = some a)
    (hx : S[k + 1]? = some x) (hv : A[k]? = some v) (hw : S[k]? = some w) :
    ∃ s c t u, ts.types[a]? = some t ∧ t.shape.next? s = some c ∧ Named ts lookup c v ∧
      ts'.types[x]? = some u ∧ u.shape.next? s = some w := by
  induction h generalizing k with
  | nil => cases hv
  | cons _ _ har ih =>
    cases k with
    | zero =>
      cases hv
      cases hw
      rw [List.getElem?_cons_succ, ← List.head?_eq_getElem?] at ha hx
      exact har a ha x hx
    | succ k => exact ih ha hx hv hw

end Stacked

theorem containsParent_next {T : TypeTable} (h : T.Sane) {o d : TypeId} {u : TypeInfo} {s : TypeStep}
    (hu : T.types[o]? = some u)
    (ho : u.flags.closed = false) (hp : u.containsParent = false) (hs : u.shape.next? s = some d) :
    ∃ x, T.types[d]? = some x ∧ x.containsParent = false := by
  have hd := lookup_of_lt (h.next_lt hu hs)
  refine ⟨_, hd, ?_⟩
  rw [h.marked hu, ho] at hp
  cases hc : (T.get d).containsParent with
  | false => rfl
  | true =>
    rw [shapeContainsParent_iff.mpr (.inr ⟨s, d, hs, hc⟩)] at hp
    cases hp

/-- What is resolved and then copied is a type around, or a closed type, or a copy of its own. -/
theorem resolved_copied (hS : Source ts lookup M) (hs' : ts'.Sane) (hg : ts.Grows ts') {A S : List TypeId}
    {c d e : TypeId}
    (hlen : A.length = S.length) (hM : M c) (hr : Resolved ts ts' lookup A c d) (hc : Closes ts' S d e) :
    ∃ v, Named ts lookup c v ∧ ((∃ k : Nat, A[k]? = some v ∧ S[k]? = some e) ∨
      v ∉ A ∧ (e = v ∧ ts.IsClosed v ∨ Paired ts ts' lookup A S v e)) := by
  cases hr with
  | @ancestor _ _ v _ k u hn hk hu hsh ho =>
    have hv := getElem?_of_idxOf? hk
    refine ⟨v, hn, .inl ⟨k, hv, ?_⟩⟩
    cases hc with
    | whole hu' hp =>
      cases Option.some.inj (hu.symm.trans hu')
      rw [hs'.marked hu, ho, hsh] at hp
      cases hp
    | marker hu' hsh' hk' =>
      cases Option.some.inj (hu.symm.trans hu')
      cases hsh.symm.trans hsh'
      exact hk'
    | stray hu' hsh' hk' =>
      cases Option.some.inj (hu.symm.trans hu')
      cases hsh.symm.trans hsh'
      obtain hk' | hk' := hk'
      · cases hk'
      · have hlt := (List.getElem?_eq_some_iff.mp hv).1
        rw [hlen] at hlt
        exact absurd hk' (by rw [Nat.add_sub_cancel, List.getElem?_eq_getElem hlt]; exact nofun)
    | copy hu' hm =>
      cases Option.some.inj (hu.symm.trans hu')
      exact absurd hsh (hm _)
  | @closed _ _ _ t hn hv ht hcl =>
    have hMd := hS.of_named hn hM
    have ht' := hg _ _ ht
    refine ⟨d, hn, .inr ⟨hv, .inl ⟨?_, t, ht, hcl⟩⟩⟩
    cases hc with
    | whole => rfl
    | marker hu hsh =>
      cases Option.some.inj (ht'.symm.trans hu)
      exact absurd hsh (hS.noMarker hMd ht)
    | stray => rfl
    | copy hu _ hp =>
      cases Option.some.inj (ht'.symm.trans hu)
      rw [hs'.marked ht', hcl] at hp
      cases hp
  | @node _ _ v _ t u hn hv ht hu htc huc hl hch =>
    -- the shape of a copy is no reference, since that of the source is none
    have hnm (depth : Nat) : u.shape ≠ .parent depth := fun hsh =>
      hS.noMarker (hS.of_named hn hM) ht (TypeInfo.parent_of_label hl hsh)
    refine ⟨v, hn, .inr ⟨hv, .inr ?_⟩⟩
    cases hc with
    | whole hu' hp =>
      cases Option.some.inj (hu.symm.trans hu')
      refine ⟨hv, t, u, ht, hu, hl, htc, fun s c' d' hc' hd' => ⟨d', hch s c' d' hc' hd', ?_⟩⟩
      obtain ⟨x, hx, hpx⟩ := containsParent_next hs' hu huc hp hd'
      exact .whole hx hpx
    | marker hu' hsh =>
      cases Option.some.inj (hu.symm.trans hu')
      exact absurd hsh (hnm _)
    | stray hu' hsh =>
      cases Option.some.inj (hu.symm.trans hu')
      exact absurd hsh (hnm _)
    | @copy _ _ _ _ w hu' _ _ _ hw _ hlw hcl =>
      cases Option.some.inj (hu.symm.trans hu')
      refine ⟨hv, t, w, ht, hw, hlw.trans hl, htc, fun s c' e' hc' he' => ?_⟩
      obtain ⟨d', hd'⟩ := TypeInfo.next?_of_label hl.symm hc'
      exact ⟨d', hch s c' d' hc' hd', hcl s d' e' hd' he'⟩

/-- What is resolved and then copied belongs to what it was made of. -/
theorem Stacked.link (hS : Source ts lookup M) (hs' : ts'.Sane) (hg : ts.Grows ts') {A S : List TypeId}
    {c d e : TypeId} (h : Stacked ts ts' lookup A S) (hM : M c) (hr : Resolved ts ts' lookup A c d)
    (hc : Closes ts' S d e)
    (ha : ∀ v, Named ts lookup c v → Arrives ts ts' lookup A S v e) : ∃ v, Named ts lookup c v ∧
    Matches ts ts' lookup v e := by
  obtain ⟨v, hn, ⟨k, hv, he⟩ | ⟨-, ⟨rfl, hcl⟩ | hp⟩⟩ := resolved_copied hS hs' hg h.length hM hr hc
  · obtain ⟨A', S', hst⟩ := h.outer hv he
    exact ⟨v, hn, .copied hst⟩
  · exact ⟨e, hn, .same rfl (hS.complete_of_closed (hS.of_named hn hM) hcl)⟩
  · exact ⟨v, hn, .copied (.cons h hp (ha v hn))⟩

namespace Matches

variable {v w c e : TypeId} {t u : TypeInfo} {s : TypeStep}

theorem entries (h : Matches ts ts' lookup v w) (hS : Source ts lookup M) (hg : ts.Grows ts') (hM : M v) :
    ∃ t u, ts.types[v]? = some t ∧ ts'.types[w]? = some u ∧ u.label = t.label := by
  cases h with
  | copied hst =>
    obtain _ | ⟨-, hp, -⟩ := hst
    obtain ⟨t, u, ht, hu, hl, -⟩ := hp.entries
    exact ⟨t, u, ht, hu, hl⟩
  | same he _ =>
    subst he
    have ht := lookup_of_lt (hS.known hM)
    exact ⟨_, _, ht, hg _ _ ht, rfl⟩

/-- Types that belong together are made of types that belong together. -/
theorem step (h : Matches ts ts' lookup v w) (hS : Source ts lookup M) (hs' : ts'.Sane)
    (hg : ts.Grows ts') (hM : M v) (ht : ts.types[v]? = some t) (hu : ts'.types[w]? = some u)
    (hc : t.shape.next? s = some c) (he : u.shape.next? s = some e) :
    ∃ v', Named ts lookup c v' ∧ Matches ts ts' lookup v' e := by
  cases h with
  | copied hst =>
    have hst' := hst
    obtain _ | ⟨-, hp, -⟩ := hst'
    obtain ⟨t', u', ht', hu', hl, -, hb⟩ := hp.entries
    cases Option.some.inj (ht.symm.trans ht')
    cases Option.some.inj (hu.symm.trans hu')
    obtain ⟨d, hr, hcl⟩ := hb s c e hc he
    refine hst.link hS hs' hg (hS.next hM ht hc) hr hcl fun v' hn a ha x hx => ?_
    cases ha
    cases hx
    exact ⟨s, c, t, u, ht, hc, hn, hu, he⟩
  | same hvw hcomp =>
    subst hvw
    cases Option.some.inj ((hg _ _ ht).symm.trans hu)
    cases hc.symm.trans he
    have hMc := hS.next hM ht hc
    have htc := lookup_of_lt (hS.known hMc)
    have hf : ts.follow v [s] = some c := follow_cons ht hc
    refine ⟨c, .here htc fun name => hcomp [s] c _ name hf htc, .same rfl fun path x tx name hx htx => ?_⟩
    exact hcomp (s :: path) x tx name ((follow_cons ht hc).trans hx) htx

/-- Where a way leads from the source, it leads from the result to a type that belongs to it. -/
theorem follow (hS : Source ts lookup M) (hs' : ts'.Sane) (hg : ts.Grows ts') {path : List TypeStep}
    {id v₀ : TypeId} (hr : Reaches ts lookup id path v) (hn : Named ts lookup id v₀)
    (h : Matches ts ts' lookup v₀ e) (hM : M id) :
    M v ∧ ∃ w, ts'.follow e path = some w ∧ Matches ts ts' lookup v w := by
  induction hr generalizing v₀ e with
  | nil hv =>
    cases hn.unique hv
    exact ⟨hS.of_named hn hM, e, rfl, h⟩
  | cons hu ht hc _ ih =>
    cases hn.unique hu
    have hMu := hS.of_named hn hM
    obtain ⟨t', x, ht', hx, hl⟩ := h.entries hS hg hMu
    cases Option.some.inj (ht.symm.trans ht')
    obtain ⟨e', he'⟩ := TypeInfo.next?_of_label hl.symm hc
    obtain ⟨v', hn', h'⟩ := h.step hS hs' hg hMu ht hx hc he'
    rw [follow_cons hx he']
    exact ih hn' h' (hS.next hMu ht hc)

/-- Every way from the result is one from the source. -/
theorem reaches (hS : Source ts lookup M) (hs' : ts'.Sane) (hg : ts.Grows ts') :
    ∀ {path : List TypeStep} {id v₀ e : TypeId},
    Named ts lookup id v₀ → Matches ts ts' lookup v₀ e → M id → ts'.follow e path = some w →
      ∃ v, Reaches ts lookup id path v ∧ M v ∧ Matches ts ts' lookup v w
  | [], id, v₀, e, hn, h, hM, hf => by
    cases hf
    exact ⟨v₀, .nil hn, hS.of_named hn hM, h⟩
  | s :: path, id, v₀, e, hn, h, hM, hf => by
    have hMu := hS.of_named hn hM
    obtain ⟨t, u, ht, hu, hl⟩ := h.entries hS hg hMu
    obtain ⟨u', e', hu', he', hf⟩ := follow_cons_some hf
    cases Option.some.inj (hu.symm.trans hu')
    obtain ⟨c, hc⟩ := TypeInfo.next?_of_label hl he'
    obtain ⟨v', hn', h'⟩ := h.step hS hs' hg hMu ht hu hc he'
    obtain ⟨v, hv, hMv, hm⟩ := reaches hS hs' hg hn' h' (hS.next hMu ht hc) hf
    exact ⟨v, .cons hn ht hc hv, hMv, hm⟩

/-- A pointer field that leads back to its struct does so in the result. -/
theorem returns (h : Matches ts ts' lookup v w) (hS : Source ts lookup M) (hs : ts.Sane) (hs' : ts'.Sane)
    (hg : ts.Grows ts')
    (hM : M v) {i : Nat} {p c₂ : TypeId} {tp : TypeInfo} (ht : ts.types[v]? = some t)
    (hc : t.shape.next? (.field i) = some c)
    (hp : Named ts lookup c p) (htp : ts.types[p]? = some tp) (hc₂ : tp.shape.next? .pointee = some c₂)
    (hv : Named ts lookup c₂ v) : ts'.follow w [.field i, .pointee] = some w := by
  have hMc := hS.next hM ht hc
  have hMp := hS.of_named hp hMc
  have hMc₂ := hS.next hMp htp hc₂
  -- a struct and a pointer are two types
  have hne : p ≠ v := fun he => by
    subst he
    cases Option.some.inj (ht.symm.trans htp)
    cases hsh : t.shape <;> rw [hsh] at hc hc₂ <;> first | cases hc | cases hc₂
  cases h with
  | @copied A S hst =>
    have hst' := hst
    obtain _ | ⟨-, hpair, -⟩ := hst'
    obtain ⟨t', u, ht', hu, hl, hopen, hb⟩ := hpair.entries
    cases Option.some.inj (ht.symm.trans ht')
    obtain ⟨e, he⟩ := TypeInfo.next?_of_label hl.symm hc
    obtain ⟨d, hr, hcl⟩ := hb _ c e hc he
    rw [follow_cons hu he]
    obtain ⟨p', hp', hcase⟩ := resolved_copied hS hs' hg hst.length hMc hr hcl
    cases hp.unique hp'
    obtain ⟨k, hk, hke⟩ | ⟨hnot, ⟨rfl, hclosed⟩ | hpe⟩ := hcase
    · -- the pointer is one of the types around, and what lies one step below it is the struct
      cases k with
      | zero => cases hk; exact absurd rfl hne
      | succ k =>
        have hlt := (List.getElem?_eq_some_iff.mp hk).1
        have hlt' := (List.getElem?_eq_some_iff.mp hke).1
        have hkv := List.getElem?_eq_getElem (Nat.lt_of_succ_lt hlt)
        have hkw := List.getElem?_eq_getElem (Nat.lt_of_succ_lt hlt')
        obtain ⟨s, b, tp', x, htp', hb', hn, hx, hw'⟩ := hst.arrives hk hke hkv hkw
        cases Option.some.inj (htp.symm.trans htp')
        obtain rfl : s = .pointee := by
          cases hsh : tp.shape <;> rw [hsh] at hc₂ hb' <;> cases hc₂
          cases s <;> cases hb'
          rfl
        cases hc₂.symm.trans hb'
        rw [hn.unique hv] at hkv
        cases (List.getElem?_inj (j := 0) (Nat.lt_of_succ_lt hlt) hst.nodup).mp hkv
        exact (follow_cons hx hw').trans rfl
    · -- a closed pointer has no open struct that comes later below it
      have hcomp := hS.complete_of_closed hMp hclosed
      have hf : ts.follow e [.pointee] = some c₂ := follow_cons htp hc₂
      cases hcomp.named hs (hS.known hMp) hf hv
      have hf : ts.follow e [.pointee, .field i] = some c := (follow_cons htp hc₂).trans (follow_cons ht hc)
      cases hcomp.named hs (hS.known hMp) hf hp
      obtain ⟨t', ht', hlt | hcl⟩ := hs.below htp hc₂
      · exact absurd (hs.next_open ht hopen hc) (Nat.not_lt_of_gt hlt)
      · cases Option.some.inj (ht.symm.trans ht')
        rw [hopen] at hcl
        cases hcl.2
    · obtain ⟨tp', x, htp', hx, hlx, -, hbx⟩ := hpe.entries
      cases Option.some.inj (htp.symm.trans htp')
      obtain ⟨e₂, he₂⟩ := TypeInfo.next?_of_label hlx.symm hc₂
      obtain ⟨d₂, hr₂, hcl₂⟩ := hbx _ _ _ hc₂ he₂
      have hlen : (p :: v :: A).length = (e :: w :: S).length := congrArg (· + 1) hst.length
      obtain ⟨v', hv', ⟨k, hk, hke⟩ | ⟨hnot', -⟩⟩ := resolved_copied hS hs' hg hlen hMc₂ hr₂ hcl₂
      · cases hv.unique hv'
        -- the struct is the next type around
        have hnd : (p :: v :: A).Nodup := List.nodup_cons.mpr ⟨hpe.fresh, hst.nodup⟩
        cases (List.getElem?_inj (j := 1) (List.getElem?_eq_some_iff.mp hk).1 hnd).mp hk
        cases hke
        exact (follow_cons hx he₂).trans rfl
      · cases hv.unique hv'
        exact absurd (List.mem_cons_of_mem _ (List.mem_cons_self ..)) hnot'
  | same hvw hcomp =>
    subst hvw
    have hlt := hS.known hM
    cases hcomp.named hs hlt (follow_one ht hc) hp
    have hf : ts.follow v [.field i, .pointee] = some c₂ := (follow_cons ht hc).trans (follow_cons htp hc₂)
    cases hcomp.named hs hlt hf hv
    exact hg.follow hf

end Matches

end

end TypeTable

end LevelScript
