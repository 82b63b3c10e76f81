import LevelScript.Proofs.Functions

/-!
# Numbers of functions

Functions are made under a new number, taken back and made again under a number of the same type, in any
order. The addresses, the places and the released numbers that the table keeps beside its functions say at
all times what the functions say.
-/

namespace LevelScript

namespace FunctionTable

def first (made : List (Nat × ScriptFunction)) (id : Nat) : Option ScriptFunction :=
  (made.find? (·.1 = id)).map (·.2)

/-- A new function has no place, or one that leads nowhere. -/
def Unplaced (t : FunctionTable) (f : ScriptFunction) : Prop := ∀ key, f.key = some key → t.cached? key = none

/-- A table after any operations, with all functions that were made, in order, and with the numbers that were found
for a function of a type and not used yet. -/
inductive Arises : FunctionTable → List (Nat × ScriptFunction) → List ((Nat × UInt64) × TypeId) → Prop where
  | start : Arises {} [] []
  | made {t made found} (f) : Arises t made found → (∀ p ∈ made, p.2.stub ≠ f.stub) → t.Unplaced f →
      Arises (t.insert t.nextId f) (made ++ [(t.nextId, f)]) found
  | found {t t' made found type new} : Arises t made found → t.reuse type = some (new, t') →
      Arises t' made ((new, type) :: found)
  | again {t made found id} (f) : Arises t made found → ((id, f.stub), f.type) ∈ found → t.Unplaced f →
      Arises (t.insert id f) (made ++ [(id, f)]) (found.filter (·.1.1 ≠ id))
  | released {t t' made found id f} : Arises t made found → t.release id = some (f, t') → Arises t' made found

/-- What the table keeps beside its functions agrees with them. -/
structure Logged (t : FunctionTable) (made : List (Nat × ScriptFunction))
    (found : List ((Nat × UInt64) × TypeId)) : Prop where
  sizes : t.stubs.size = t.slots.size
  stub {id f} : (id, f) ∈ made → t.stubs[id]? = some f.stub
  live {id f} : t.get? id = some f → (id, f) ∈ made
  type {id f g} : (id, f) ∈ made → (id, g) ∈ made → f.type = g.type
  apart {a b f g} : (a, f) ∈ made → (b, g) ∈ made → f.stub = g.stub → a = b
  known {addr id} : t.byAddr[addr]? = some id ↔ ∃ f, t.get? id = some f ∧ f.stub = addr
  cached : t.CacheExact
  once (type) : (t.spare type).Nodup
  spare {type id} : id ∈ t.spare type ↔ (∃ f, (id, f) ∈ made ∧ f.type = type) ∧ t.get? id = none ∧
      ∀ p ∈ found, p.1.1 ≠ id
  found {id stub type} : ((id, stub), type) ∈ found →
    t.get? id = none ∧ ∃ f, (id, f) ∈ made ∧ f.stub = stub ∧ f.type = type

section
variable {t t' : FunctionTable} {made : List (Nat × ScriptFunction)} {found : List ((Nat × UInt64) × TypeId)}
variable {id : Nat} {f g : ScriptFunction} {type : TypeId} {new : Nat × UInt64}

theorem Logged.start : Logged {} [] [] where
  sizes := rfl
  stub := nofun
  live hg := by simp [get?] at hg
  type := nofun
  apart := nofun
  known := by simp [get?]
  cached := by
    intro key id
    simp [get?]
  once := by simp [FunctionTable.spare]
  spare := by simp [FunctionTable.spare]
  found := nofun

theorem Logged.lt (hl : t.Logged made found) (hm : (id, f) ∈ made) : id < t.slots.size :=
  hl.sizes ▸ (Array.getElem?_eq_some_iff.mp (hl.stub hm)).1

theorem Logged.same (hl : t.Logged made found) (hf : (id, f) ∈ made) (hg : (id, g) ∈ made) : f.stub = g.stub :=
  Option.some.inj ((hl.stub hf).symm.trans (hl.stub hg))

theorem byAddr_insert (t : FunctionTable) (id : Nat) (f : ScriptFunction) (addr : UInt64) :
    (t.insert id f).byAddr[addr]? = if f.stub = addr then some id else t.byAddr[addr]? := by
  rw [insert, Std.HashMap.getElem?_insert]
  simp only [beq_iff_eq]

theorem byAddr_remove (t : FunctionTable) (id : Nat) (f : ScriptFunction) (addr : UInt64) :
    (t.remove id f).byAddr[addr]? = if f.stub = addr then none else t.byAddr[addr]? := by
  rw [remove, Std.HashMap.getElem?_erase]
  simp only [beq_iff_eq]

/-- A number that no function has gets one, with the address and the type that the number has had before. -/
theorem Logged.insert (hl : t.Logged made found) (hle : id ≤ t.slots.size) (hdead : t.get? id = none)
    (hsame : ∀ g, (id, g) ∈ made → g.stub = f.stub ∧ g.type = f.type)
    (hapart : ∀ k g, (k, g) ∈ made → g.stub = f.stub → k = id)
    (hspare : ∀ type, id ∉ t.spare type) (hnew : t.Unplaced f) :
    (t.insert id f).Logged (made ++ [(id, f)]) (found.filter (·.1.1 ≠ id)) where
  sizes := by rw [size_stubs_insert, size_insert, hl.sizes]
  stub {k g} hm := by
    obtain hm | hm := List.mem_append.mp hm
    · rw [stubs_insert _ _ _ _ (.inl (hl.sizes ▸ hl.lt hm))]
      split
      case isTrue hk =>
        rw [(hsame g (hk ▸ hm)).1]
      case isFalse => exact hl.stub hm
    · cases List.mem_singleton.mp hm
      rw [stubs_insert _ _ _ _ (.inr rfl), if_pos rfl]
  live {k g} hg := by
    rw [get?_insert] at hg
    split at hg
    case isTrue hk =>
      cases hg
      exact List.mem_append_right _ (hk ▸ List.mem_singleton_self _)
    case isFalse => exact List.mem_append_left _ (hl.live hg)
  type {k g g'} hg hg' := by
    obtain hg | hg := List.mem_append.mp hg <;> obtain hg' | hg' := List.mem_append.mp hg'
    · exact hl.type hg hg'
    · cases List.mem_singleton.mp hg'
      exact (hsame g hg).2
    · cases List.mem_singleton.mp hg
      exact (hsame g' hg').2.symm
    · cases List.mem_singleton.mp hg
      cases List.mem_singleton.mp hg'
      rfl
  apart {a b g g'} hg hg' hs := by
    obtain hg | hg := List.mem_append.mp hg <;> obtain hg' | hg' := List.mem_append.mp hg'
    · exact hl.apart hg hg' hs
    · cases List.mem_singleton.mp hg'
      exact hapart a g hg hs
    · cases List.mem_singleton.mp hg
      exact (hapart b g' hg' hs.symm).symm
    · cases List.mem_singleton.mp hg
      cases List.mem_singleton.mp hg'
      rfl
  known {addr k} := by
    rw [byAddr_insert, get?_insert]
    by_cases ha : f.stub = addr
    · -- the address is that of no other live function
      rw [if_pos ha]
      refine ⟨fun hk => ⟨f, ?_, ha⟩, fun ⟨g, hg, hga⟩ => ?_⟩
      · rw [if_pos (Option.some.inj hk).symm]
      · split at hg
        case isTrue hk => rw [hk]
        case isFalse => rw [hapart k g (hl.live hg) (hga.trans ha.symm)]
    · rw [if_neg ha, hl.known]
      split
      case isTrue hk =>
        subst hk
        refine ⟨fun ⟨g, hg, _⟩ => (nomatch hdead.symm.trans hg), fun ⟨g, hg, hga⟩ => ?_⟩
        cases hg
        exact absurd hga ha
      case isFalse => rfl
  cached := hl.cached.insert hdead hnew
  once := hl.once
  spare {type k} := by
    show k ∈ t.spare type ↔ _
    rw [get?_insert]
    by_cases hk : k = id
    · subst hk
      rw [if_pos rfl]
      exact iff_of_false (hspare type) fun ⟨_, hn, _⟩ => nomatch hn
    · have hmade (g) : (k, g) ∈ made ++ [(id, f)] ↔ (k, g) ∈ made := by simp [hk]
      have hfound : (∀ p ∈ found.filter (·.1.1 ≠ id), p.1.1 ≠ k) ↔ ∀ p ∈ found, p.1.1 ≠ k := by
        refine ⟨fun h p hp he => h p (List.mem_filter.mpr ⟨hp, ?_⟩) he, fun h p hp => h p (List.mem_filter.mp hp).1⟩
        exact decide_eq_true (he ▸ hk)
      rw [if_neg hk, hl.spare, hfound]
      simp only [hmade]
  found {k stub type} hm := by
    obtain ⟨hm, hk⟩ := List.mem_filter.mp hm
    obtain ⟨hd, g, hg, h⟩ := hl.found hm
    refine ⟨?_, g, List.mem_append_left _ hg, h⟩
    rw [get?_insert, if_neg (of_decide_eq_true hk), hd]

theorem Logged.insert_new (hl : t.Logged made found) (hs : ∀ p ∈ made, p.2.stub ≠ f.stub) (hnew : t.Unplaced f) :
    (t.insert t.nextId f).Logged (made ++ [(t.nextId, f)]) found := by
  have habove {g} : (t.nextId, g) ∉ made := fun hg => Nat.lt_irrefl _ (hl.lt hg)
  have hfound : found.filter (·.1.1 ≠ t.nextId) = found := by
    refine List.filter_eq_self.mpr fun p hp => decide_eq_true ?_
    obtain ⟨-, g, hg, -⟩ := hl.found hp
    exact fun he => habove (he ▸ hg)
  have hl := hl.insert (f := f) (Nat.le_refl t.nextId)
    (Option.eq_none_iff_forall_ne_some.mpr fun g hg => habove (hl.live hg))
    (fun g hg => absurd hg habove) (fun k g hg he => absurd he (hs _ hg)) (fun type hm => ?_) hnew
  · rwa [hfound] at hl
  · obtain ⟨⟨g, hg, -⟩, -⟩ := hl.spare.mp hm
    exact habove hg

theorem Logged.insert_again (hl : t.Logged made found) (hm : ((id, f.stub), f.type) ∈ found) (hnew : t.Unplaced f) :
    (t.insert id f).Logged (made ++ [(id, f)]) (found.filter (·.1.1 ≠ id)) := by
  obtain ⟨hdead, g, hg, hstub, htype⟩ := hl.found hm
  exact hl.insert (Nat.le_of_lt (hl.lt hg)) hdead
    (fun g' hg' => ⟨(hl.same hg' hg).trans hstub, (hl.type hg' hg).trans htype⟩)
    (fun k g' hg' he => hl.apart hg' hg (he.trans hstub.symm))
    (fun _ hs => (hl.spare.mp hs).2.2 _ hm rfl) hnew

theorem Logged.stub_of_reuse (hl : t.Logged made found) (h : t.reuse type = some (new, t')) :
    (∃ f, (new.1, f) ∈ made) ∧ ∀ f, (new.1, f) ∈ made → f.stub = new.2 ∧ f.type = type := by
  obtain ⟨more, hmore, haddr, -⟩ := reuse_some h
  obtain ⟨⟨g, hg, htype⟩, -⟩ := hl.spare.mp (hmore ▸ List.mem_cons_self)
  refine ⟨⟨g, hg⟩, fun f hf => ⟨?_, (hl.type hf hg).trans htype⟩⟩
  rw [haddr, hl.stub hf]
  rfl

theorem Logged.reuse (hl : t.Logged made found) (h : t.reuse type = some (new, t')) :
    t'.Logged made ((new, type) :: found) := by
  obtain ⟨⟨g, hg⟩, hnew⟩ := hl.stub_of_reuse h
  obtain ⟨more, hmore, -, rfl⟩ := reuse_some h
  obtain ⟨hnot, honce⟩ := List.nodup_cons.mp (hmore ▸ hl.once type)
  obtain ⟨-, hdead, -⟩ := hl.spare.mp (hmore ▸ List.mem_cons_self : new.1 ∈ t.spare type)
  refine { hl with once := fun other => ?_, spare := fun {other k} => ?_, found := fun {k stub other} hm => ?_ }
  · rw [spare_free]
    split
    case isTrue => exact honce
    case isFalse => exact hl.once other
  · -- all that was there before, but the number that was found
    have hrest : ((∃ f, (k, f) ∈ made ∧ f.type = other) ∧ t.get? k = none ∧ ∀ p ∈ (new, type) :: found, p.1.1 ≠ k) ↔
        k ∈ t.spare other ∧ new.1 ≠ k := by
      rw [hl.spare, List.forall_mem_cons]
      exact ⟨fun ⟨hm, hd, hne, h⟩ => ⟨⟨hm, hd, h⟩, hne⟩, fun ⟨⟨hm, hd, h⟩, hne⟩ => ⟨hm, hd, hne, h⟩⟩
    refine Iff.trans ?_ hrest.symm
    rw [spare_free]
    split
    case isTrue ht =>
      subst ht
      rw [hmore, List.mem_cons]
      refine ⟨fun hk => ⟨.inr hk, fun he => hnot (he ▸ hk)⟩, fun ⟨hk, hne⟩ => hk.resolve_left (Ne.symm hne)⟩
    case isFalse ht =>
      refine ⟨fun hk => ⟨hk, ?_⟩, And.left⟩
      rintro rfl
      obtain ⟨⟨f, hf, hother⟩, -⟩ := hl.spare.mp hk
      exact ht ((hnew f hf).2.symm.trans hother)
  · obtain hm | hm := List.mem_cons.mp hm
    · cases hm
      exact ⟨hdead, g, hg, hnew g hg⟩
    · exact hl.found hm

theorem Logged.remove (hl : t.Logged made found) (hf : t.get? id = some f) : (t.remove id f).Logged made found where
  sizes := hl.sizes.trans Array.size_setIfInBounds.symm
  stub := hl.stub
  live hg := hl.live (get?_of_remove hg).2
  type := hl.type
  apart := hl.apart
  known {addr k} := by
    rw [byAddr_remove, get?_remove]
    by_cases hk : k = id
    · subst hk
      rw [if_pos rfl]
      refine iff_of_false (fun h => ?_) (fun ⟨g, hg, _⟩ => nomatch hg)
      split at h
      · cases h
      case isFalse ha =>
        obtain ⟨g, hg, hga⟩ := hl.known.mp h
        cases hf.symm.trans hg
        exact ha hga
    · rw [if_neg hk]
      split
      case isTrue ha =>
        refine iff_of_false nofun fun ⟨g, hg, hga⟩ => hk ?_
        -- Two functions that were handed out at one address are one.
        exact hl.apart (hl.live hg) (hl.live hf) (hga.trans ha.symm)
      case isFalse => exact hl.known
  cached := hl.cached.remove hf
  once type := by
    rw [spare_remove]
    split
    case isTrue =>
      refine List.nodup_cons.mpr ⟨fun hm => ?_, hl.once type⟩
      cases hf.symm.trans (hl.spare.mp hm).2.1
    case isFalse => exact hl.once type
  spare {type k} := by
    rw [spare_remove, get?_remove]
    by_cases hk : k = id
    · subst hk
      rw [if_pos rfl]
      have hm := hl.live hf
      have hnot (p) (hp : p ∈ found) : p.1.1 ≠ k := by
        rintro rfl
        cases hf.symm.trans (hl.found hp).1
      split
      case isTrue ht => exact iff_of_true List.mem_cons_self ⟨⟨f, hm, ht⟩, rfl, hnot⟩
      case isFalse ht =>
        refine iff_of_false (fun hk => ?_) fun ⟨⟨g, hg, hgt⟩, _⟩ => ht ((hl.type hm hg).trans hgt)
        cases hf.symm.trans (hl.spare.mp hk).2.1
    · rw [if_neg hk, ← hl.spare]
      split
      case isTrue => rw [List.mem_cons, or_iff_right hk]
      case isFalse => rfl
  found hm := by
    obtain ⟨hdead, h⟩ := hl.found hm
    refine ⟨?_, h⟩
    rw [get?_remove]
    split
    · rfl
    · exact hdead

theorem Arises.logged (h : Arises t made found) : t.Logged made found := by
  induction h with
  | start => exact .start
  | made f _ hs hnew ih => exact ih.insert_new hs hnew
  | found _ hr ih => exact ih.reuse hr
  | again f _ hm hnew ih => exact ih.insert_again hm hnew
  | released _ hr ih =>
    obtain ⟨f, hf, he⟩ := Option.map_eq_some_iff.mp hr
    cases he
    exact ih.remove hf

end

theorem mem_of_first {made : List (Nat × ScriptFunction)} {id : Nat} {f : ScriptFunction}
    (h : first made id = some f) :
    (id, f) ∈ made := by
  obtain ⟨⟨k, g⟩, hp, rfl⟩ := Option.map_eq_some_iff.mp h
  have hk : decide (k = id) = true := List.find?_some (p := fun p : Nat × ScriptFunction => p.1 = id) hp
  exact of_decide_eq_true hk ▸ List.mem_of_find?_eq_some hp

theorem first_of_mem {made : List (Nat × ScriptFunction)} {id : Nat} {f : ScriptFunction} (h : (id, f) ∈ made) :
    ∃ g, first made id = some g := by
  obtain ⟨p, hp⟩ :=
    Option.isSome_iff_exists.mp (List.find?_isSome.mpr ⟨_, h, decide_eq_true rfl⟩ : (made.find? (·.1 = id)).isSome)
  exact ⟨p.2, by rw [first, hp]; rfl⟩

/-- What a table of functions can be relied on for, when it has had the functions `made` and has found numbers
again. -/
structure Dependable (t : FunctionTable) (made : List (Nat × ScriptFunction))
    (found : List ((Nat × UInt64) × TypeId)) :
    Prop where
  classified (addr : UInt64) (id : Nat) : t.classify addr = .script id ↔ ∃ f, t.get? id = some f ∧ f.stub = addr
  cached (key : Nat × Nat) (stub : UInt64) :
    t.cached? key = some stub ↔ ∃ id f, t.get? id = some f ∧ f.key = some key ∧ f.stub = stub
  keyedOnce {key : Nat × Nat} {a b : Nat} {f g : ScriptFunction} : t.get? a = some f → t.get? b = some g →
    f.key = some key → g.key = some key → a = b
  spareOnce (type : TypeId) : (t.spare type).Nodup
  spare (type : TypeId) (id : Nat) : id ∈ t.spare type ↔
    (∃ f, first made id = some f ∧ f.type = type) ∧ t.get? id = none ∧ ∀ p ∈ found, p.1.1 ≠ id
  live {id : Nat} {f : ScriptFunction} : t.get? id = some f → (id, f) ∈ made
  reused {type : TypeId} {id : Nat} {stub : UInt64} {t' : FunctionTable} : t.reuse type = some ((id, stub), t') →
    (∃ f, (id, f) ∈ made) ∧ ∀ f, (id, f) ∈ made → f.stub = stub ∧ f.type = type

/-- Whatever is done with the table: an address stands for the live function that is entered there and for no
other, and a place leads to the one live function that has it. The free list of a type has the numbers that
were first used for the type, that no function has now and that have not been found again, each of them once.
A number that is found for a type comes with the address that all its functions have had, and all of them were
of the type. -/
theorem numbers_keep_addresses {t : FunctionTable} {made : List (Nat × ScriptFunction)}
    {found : List ((Nat × UInt64) × TypeId)} (h : Arises t made found) : t.Dependable made found := by
  have hl := h.logged
  refine { classified := fun addr id => ?_, cached := fun key stub => ⟨fun hc => ?_, ?_⟩
           keyedOnce := fun {key a b f g} hf hg hk hk' => ?_, spareOnce := hl.once, spare := fun type id => ?_
           live := hl.live, reused := hl.stub_of_reuse }
  · rw [← hl.known, classify]
    cases t.byAddr[addr]? <;> simp
  · obtain ⟨id, f, hid, hf, hs⟩ := cached?_some hc
    obtain ⟨g, hg, hk⟩ := (hl.cached key id).mp hid
    cases hf.symm.trans hg
    exact ⟨id, f, hf, hk, hs⟩
  · rintro ⟨id, f, hf, hk, hs⟩
    rw [cached?_of ((hl.cached key id).mpr ⟨f, hf, hk⟩) hf, hs]
  · have hb := (hl.cached key b).mpr ⟨g, hg, hk'⟩
    rw [(hl.cached key a).mpr ⟨f, hf, hk⟩] at hb
    exact Option.some.inj hb
  · rw [hl.spare]
    refine and_congr_left' ⟨?_, ?_⟩
    · rintro ⟨f, hf, ht⟩
      obtain ⟨g, hg⟩ := first_of_mem hf
      exact ⟨g, hg, (hl.type (mem_of_first hg) hf).trans ht⟩
    · rintro ⟨f, hf, ht⟩
      exact ⟨f, mem_of_first hf, ht⟩

theorem reuse_remove (t : FunctionTable) (id : Nat) (f : ScriptFunction) :
    ∃ t', (t.remove id f).reuse f.type = some ((id, t.stubs[id]?.getD 0), t') := by
  simp [reuse, remove]

/-- A function is made, released and made again. -/
theorem numbers_keep_addresses_again :
    ∃ t made found, Arises t made found ∧ made.length = 2 ∧ t.classify 0x1000 = .script 0 ∧ t.cached?
    (1, 2) = some 0x1000 := by
  let f : ScriptFunction := { (default : ScriptFunction) with type := 42, stub := 0x1000, key := some (1, 2) }
  have made : Arises (insert {} 0 f) [(0, f)] [] := .made f .start nofun fun key _ => by simp [cached?]
  have release : (insert {} 0 f).release 0 = some (f, (insert {} 0 f).remove 0 f) := rfl
  have released : Arises ((insert {} 0 f).remove 0 f) [(0, f)] [] := .released made release
  obtain ⟨t, hr⟩ := reuse_remove (insert {} 0 f) 0 f
  have found : Arises t [(0, f)] [((0, 0x1000), 42)] := .found released hr
  have dead (k : Nat) : t.get? k = none := by
    rw [get?_reuse hr, get?_remove]
    split
    · rfl
    case isFalse hk => rw [get?_insert, if_neg hk, get?, Array.getElem?_empty, Option.getD_none]
  have again := found.again f (List.mem_singleton_self _) fun key _ => by simp [cached?, dead]
  have h := numbers_keep_addresses again
  have live := get?_insert_self t 0 f
  exact ⟨_, _, _, again, rfl, (h.classified _ _).mpr ⟨f, live, rfl⟩, (h.cached _ _).mpr ⟨0, f, live, rfl, rfl⟩⟩

end FunctionTable

end LevelScript
