import LevelScript.Proofs.TypeGraph

/-!
# Resolving adds to the table

Resolving asks for types on its way and then copies what contains itself. Whatever the names refer to and
however it ends, all that was in the table is still there, and the table is as sane as before.
-/

namespace LevelScript

namespace TypeShape

def isComposed : TypeShape → Bool
  | pointer _ | struct _ | function .. => true
  | plain | deferred _ | parent _ => false

theorem ne_deferred {shape : TypeShape} (h : shape.isComposed = true) (name : NameId) : shape ≠ .deferred name := by
  rintro rfl
  cases h

theorem next?_eq_none {shape : TypeShape} (h : shape.isComposed = false) (s : TypeStep) : shape.next? s = none := by
  cases shape with
  | plain | deferred | parent => cases s <;> rfl
  | pointer | function | struct => cases h

theorem next?_function {result c : TypeId} {params : List Param} {s : TypeStep}
    (h : (function result params).next? s = some c) : c = result ∨ ∃ p ∈ params, p.type = c := by
  cases s with
  | result => exact .inl (Option.some.inj h).symm
  | param i =>
    obtain ⟨p, hp, rfl⟩ := Option.map_eq_some_iff.mp h
    exact .inr ⟨p, List.mem_of_getElem? hp, rfl⟩
  | _ => cases h

theorem next?_struct {fields : List Field} {c : TypeId} {s : TypeStep} (h : (struct fields).next? s = some c) :
    ∃ f ∈ fields, f.type = c := by
  cases s with
  | field i =>
    obtain ⟨f, hf, rfl⟩ := Option.map_eq_some_iff.mp h
    exact ⟨f, List.mem_of_getElem? hf, rfl⟩
  | _ => cases h

end TypeShape

namespace TypeTable

/-! ## Steps of the walk -/

/-- What a step of the walk comes to: a result or an error, and the table after it. -/
abbrev Walked (α : Type) := Except TypeError α × TypeTable

section
variable {α β : Type}

def andThen (r : Walked α) (f : α → TypeTable → Walked β) : Walked β :=
  match r with
  | (.ok a, ts) => f a ts
  | (.error e, ts) => (.error e, ts)

def answered (r : α × TypeTable) : Walked α := (.ok r.1, r.2)

theorem andThen_ok {r : Walked α} {f : α → TypeTable → Walked β} {b : β} {ts : TypeTable}
    (h : andThen r f = (.ok b, ts)) :
    ∃ a ts₁, r = (.ok a, ts₁) ∧ f a ts₁ = (.ok b, ts) := by
  obtain ⟨_ | a, ts₁⟩ := r
  · cases h
  · exact ⟨a, ts₁, rfl, h⟩

theorem resolver_bind (x : Resolver α) (f : α → Resolver β) (ts : TypeTable) : (x >>= f) ts = andThen (x ts) f := by
  simp only [bind, ExceptT.bind, ExceptT.mk, StateT.bind, ExceptT.bindCont, andThen]
  rcases x ts with ⟨_ | _, _⟩ <;> rfl

theorem resolveAll_cons (resolve : TypeId → Resolver TypeId) (get : α → TypeId) (set : α → TypeId → α) (a : α)
    (as : List α) (ts : TypeTable) : resolveAll resolve get set (a :: as) ts =
      andThen (resolve (get a) ts) fun id ts => andThen (resolveAll resolve get set as ts) fun as ts =>
        (.ok (set a id :: as), ts) := by
  rw [resolveAll, resolver_bind]
  congr 1
  funext id ts
  rw [resolver_bind]
  rfl

end

def resolveBelow (resolve : TypeId → Resolver TypeId) : TypeShape → TypeTable → Walked TypeShape
  | .pointer base, ts => andThen (resolve base ts) fun base ts => (.ok (.pointer base), ts)
  | .function result params, ts =>
    andThen (resolve result ts) fun result ts =>
      andThen (resolveAll resolve Param.type setParamType params ts) fun params ts =>
        (.ok (.function result params), ts)
  | .struct fields, ts =>
    andThen (resolveAll resolve Field.type setFieldType fields ts) fun fields ts => (.ok (.struct fields), ts)
  | shape, ts => (.ok shape, ts)

def orMarker (ancestors : List TypeId) (id : TypeId) (ts : TypeTable) : Walked TypeId :=
  match ancestors.idxOf? id with
  | none => (.ok id, ts)
  | some k => answered (ts.parentRef (k + 1))

theorem ancestorRef_eq (id : TypeId) (ancestors : List TypeId) (ts : TypeTable) :
    ancestorRef id ancestors ts = match ancestors.idxOf? id with
      | none => (.ok none, ts)
      | some k => (.ok (some (ts.parentRef (k + 1)).1), (ts.parentRef (k + 1)).2) := by
  unfold ancestorRef
  cases ancestors.idxOf? id <;> rfl

section
variable {lookup : Lookup} {n : Nat} {ancestors : List TypeId} {id : TypeId} {ts : TypeTable}

theorem resolveInner_ancestor {k : Nat} (h : ancestors.idxOf? id = some k) :
    resolveInner lookup (n + 1) ancestors id ts = answered (ts.parentRef (k + 1)) := by
  rw [resolveInner, resolver_bind, ancestorRef_eq, h]
  rfl

theorem resolveInner_closed (h : ancestors.idxOf? id = none) (hc : (ts.get id).flags.closed = true) :
    resolveInner lookup (n + 1) ancestors id ts = (.ok id, ts) := by
  rw [resolveInner, resolver_bind, ancestorRef_eq, h]
  show (if (ts.get id).flags.closed then pure id else _ : Resolver TypeId) ts = _
  rw [if_pos hc]
  rfl

/-- The walk at an open type that is no ancestor. -/
def visit (lookup : Lookup) (n : Nat) (ancestors : List TypeId) (id : TypeId) (ts : TypeTable) : Walked TypeId :=
  let t := ts.get id
  match t.shape with
  | .plain | .parent _ => (.ok id, ts)
  | .deferred _ =>
    andThen (ts.followDefers lookup (ts.size + 1) [] id, ts) fun target ts =>
      andThen (resolveInner lookup n ancestors target ts) fun found ts => orMarker ancestors found ts
  | shape =>
    andThen (resolveBelow (resolveInner lookup n (id :: ancestors)) shape ts) fun shape ts =>
      answered (ts.register (ts.withLayout { t with shape }))

theorem resolveInner_visit (h : ancestors.idxOf? id = none) (hc : (ts.get id).flags.closed = false) :
    resolveInner lookup (n + 1) ancestors id ts = visit lookup n ancestors id ts := by
  rw [resolveInner, resolver_bind, ancestorRef_eq, h]
  show (if (ts.get id).flags.closed then pure id else _ : Resolver TypeId) ts = _
  rw [if_neg (by rw [hc]; exact Bool.false_ne_true), visit]
  cases (ts.get id).shape with
  | plain | parent => rfl
  | deferred name =>
    simp only
    rw [resolver_bind]
    refine congrArg _ (funext fun target => funext fun ts => ?_)
    rw [resolver_bind]
    refine congrArg _ (funext fun found => funext fun ts => ?_)
    rw [resolver_bind, ancestorRef_eq, orMarker]
    cases ancestors.idxOf? found <;> rfl
  | pointer base =>
    simp only [resolveBelow]
    rw [resolver_bind]
    rcases resolveInner lookup n (id :: ancestors) base ts with ⟨_ | _, _⟩ <;> rfl
  | function result params =>
    simp only [resolveBelow]
    rw [resolver_bind]
    rcases resolveInner lookup n (id :: ancestors) result ts with ⟨_ | result', ts'⟩
    · rfl
    · simp only [andThen]
      rw [resolver_bind]
      rcases resolveAll (resolveInner lookup n (id :: ancestors)) Param.type setParamType params ts'
        with ⟨_ | _, _⟩ <;> rfl
  | struct fields =>
    simp only [resolveBelow]
    rw [resolver_bind]
    rcases resolveAll (resolveInner lookup n (id :: ancestors)) Field.type setFieldType fields ts
      with ⟨_ | _, _⟩ <;> rfl

/-- A walk ends at an ancestor and at what is closed or has nothing below it. It follows a name, and it makes anew
what is made of others. -/
theorem resolveInner_cases {C : Walked TypeId → Prop}
    (ancestor : ∀ k, ancestors.idxOf? id = some k → C (answered (ts.parentRef (k + 1))))
    (closed : id ∉ ancestors → (ts.get id).flags.closed = true → C (.ok id, ts))
    (plain : id ∉ ancestors → (ts.get id).flags.closed = false → (ts.get id).shape.isComposed = false →
      (∀ name, (ts.get id).shape ≠ .deferred name) → C (.ok id, ts))
    (named : ∀ name, id ∉ ancestors → (ts.get id).flags.closed = false → (ts.get id).shape = .deferred name →
      C (andThen (ts.followDefers lookup (ts.size + 1) [] id, ts) fun target ts =>
        andThen (resolveInner lookup n ancestors target ts) (orMarker ancestors)))
    (composed : id ∉ ancestors → (ts.get id).flags.closed = false → (ts.get id).shape.isComposed = true →
      C (andThen (resolveBelow (resolveInner lookup n (id :: ancestors)) (ts.get id).shape ts) fun shape T =>
        answered (T.register (T.withLayout { ts.get id with shape })))) :
    C (resolveInner lookup (n + 1) ancestors id ts) := by
  cases ha : ancestors.idxOf? id with
  | some k => exact resolveInner_ancestor ha ▸ ancestor k ha
  | none =>
    have hout : id ∉ ancestors := List.idxOf?_eq_none_iff.mp ha
    cases ho : (ts.get id).flags.closed with
    | true => exact resolveInner_closed ha ho ▸ closed hout ho
    | false =>
      rw [resolveInner_visit ha ho, visit]
      cases hs : (ts.get id).shape with
      | plain | parent => exact plain hout ho (by rw [hs]; rfl) (by rw [hs]; exact nofun)
      | deferred name => exact named name hout ho hs
      | _ =>
        have h := composed hout ho (by rw [hs]; rfl)
        rwa [hs] at h

end

/-! ## Walks only add -/

section
variable {α β : Type} {ts : TypeTable}

/-- The table has only grown, and `P` holds of the result, if there is one. -/
structure Lands (ts : TypeTable) (r : Walked α) (P : α → TypeTable → Prop) : Prop where
  adds : ts.Adds r.2
  result {a : α} : r.1 = .ok a → P a r.2

theorem Lands.andThen {r : Walked α} {f : α → TypeTable → Walked β} {P : α → TypeTable → Prop}
    {Q : β → TypeTable → Prop}
    (h : Lands ts r P) (hf : ∀ a ts₁, ts.Adds ts₁ → P a ts₁ → Lands ts₁ (f a ts₁) Q) :
    Lands ts (andThen r f) Q := by
  obtain ⟨_ | a, ts₁⟩ := r
  · exact ⟨h.adds, nofun⟩
  · obtain ⟨ha, hq⟩ := hf a ts₁ h.adds (h.result rfl)
    exact ⟨h.adds.trans ha, hq⟩

theorem Lands.ok {P : α → TypeTable → Prop} {a : α} (h : ts.Sane) (ha : P a ts) : Lands ts (.ok a, ts) P :=
  ⟨.refl h, fun he => Except.ok.inj he ▸ ha⟩

def Known (id : TypeId) (ts : TypeTable) : Prop := id < ts.size

theorem register_lands (h : ts.Sane) {t : TypeInfo} (ho : t.flags.closed = false)
    (hc : ∀ s c, t.shape.next? s = some c → c < ts.size) (hl : ts.Laid → ts.withLayout t = t) :
    Lands ts (answered (ts.register t)) Known := by
  obtain ⟨ha, -, u, hu, -⟩ := h.register ho hc hl
  exact ⟨ha, fun he => Except.ok.inj he ▸ lt_of_lookup hu⟩

theorem parentRef_lands (h : ts.Sane) (depth : Nat) : Lands ts (answered (ts.parentRef depth)) Known :=
  register_lands h rfl (fun s c hs => by cases s <;> cases hs) fun _ => rfl

theorem orMarker_lands (h : ts.Sane) (ancestors : List TypeId) {id : TypeId} (hid : id < ts.size) :
    Lands ts (orMarker ancestors id ts) Known := by
  unfold orMarker
  split
  · exact .ok h hid
  · exact parentRef_lands h _

end

section
variable {α : Type} {lookup : Lookup} {size : Nat} (hl : ∀ name target, lookup name = .type target → target < size)
include hl

theorem followDefers_lt {ts : TypeTable} (hs : size ≤ ts.size) :
    ∀ (n : Nat) (visited : List TypeId) {id target : TypeId},
    id < ts.size → ts.followDefers lookup n visited id = .ok target → target < ts.size
  | 0, _, _, _, hid, h => Except.ok.inj h ▸ hid
  | n + 1, visited, id, target, hid, h => by
    unfold followDefers at h
    split at h
    · split at h
      · cases h
      · split at h
        · cases h
        · cases h
        case h_3 next ht => exact followDefers_lt hs n _ (Nat.lt_of_lt_of_le (hl _ _ ht) hs) h
    · exact Except.ok.inj h ▸ hid

omit hl in
theorem resolveAll_lands {resolve : TypeId → Resolver TypeId} {get : α → TypeId} {set : α → TypeId → α}
    (hr : ∀ (ts : TypeTable) c, ts.Sane → size ≤ ts.size → c < ts.size → Lands ts (resolve c ts) Known)
    (hg : ∀ a c, get (set a c) = c) : ∀ (as : List α) (ts : TypeTable), ts.Sane → size ≤ ts.size →
    (∀ a ∈ as, get a < ts.size) →
    Lands ts (resolveAll resolve get set as ts) (fun as' ts' => ∀ a ∈ as', get a < ts'.size)
  | [], ts, h, _, _ => .ok h nofun
  | a :: as, ts, h, hs, ha => by
    rw [resolveAll_cons]
    refine (hr ts _ h hs (ha a (List.mem_cons_self ..))).andThen fun id ts₁ h₁ hid => ?_
    refine (resolveAll_lands hr hg as ts₁ h₁.sane (hs.trans h₁.grows.size_le) fun b hb =>
      h₁.grows.lt (ha b (List.mem_cons_of_mem _ hb))).andThen fun as' ts₂ h₂ has => .ok h₂.sane ?_
    intro b hb
    obtain rfl | hb := List.mem_cons.mp hb
    · rw [hg]
      exact h₂.grows.lt hid
    · exact has b hb

omit hl in
theorem resolveBelow_lands {resolve : TypeId → Resolver TypeId}
    (hr : ∀ (ts : TypeTable) c, ts.Sane → size ≤ ts.size → c < ts.size → Lands ts (resolve c ts) Known)
    {ts : TypeTable} (h : ts.Sane) (hs : size ≤ ts.size) {shape : TypeShape}
    (hc : ∀ s c, shape.next? s = some c → c < ts.size) :
    Lands ts (resolveBelow resolve shape ts) (fun shape ts' => ∀ s c, shape.next? s = some c → c < ts'.size) := by
  cases shape with
  | plain | deferred | parent => exact .ok h fun s c hn => hc s c hn
  | pointer base =>
    refine (hr ts base h hs (hc .pointee base rfl)).andThen fun base ts₁ h₁ hb => .ok h₁.sane fun s c hn => ?_
    cases s <;> cases hn
    exact hb
  | function result params =>
    have hp (p : Param) (hp : p ∈ params) : p.type < ts.size := by
      obtain ⟨s, hn⟩ := TypeShape.next?_param result hp
      exact hc s _ hn
    refine (hr ts result h hs (hc .result result rfl)).andThen fun result ts₁ h₁ hres => ?_
    refine (resolveAll_lands hr (fun _ _ => rfl) params ts₁ h₁.sane (hs.trans h₁.grows.size_le) fun p hm =>
      h₁.grows.lt (hp p hm)).andThen fun params ts₂ h₂ hps => .ok h₂.sane fun s c hn => ?_
    obtain rfl | ⟨p, hp, rfl⟩ := TypeShape.next?_function hn
    · exact h₂.grows.lt hres
    · exact hps p hp
  | struct fields =>
    have hf (f : Field) (hf : f ∈ fields) : f.type < ts.size := by
      obtain ⟨s, hn⟩ := TypeShape.next?_field hf
      exact hc s _ hn
    refine (resolveAll_lands hr (fun _ _ => rfl) fields ts h hs hf).andThen fun fields ts₁ h₁ hfs =>
      .ok h₁.sane fun s c hn => ?_
    obtain ⟨f, hf, rfl⟩ := TypeShape.next?_struct hn
    exact hfs f hf

theorem resolveInner_lands : ∀ (n : Nat) (ancestors : List TypeId) (id : TypeId) (ts : TypeTable), ts.Sane →
    size ≤ ts.size → id < ts.size → Lands ts (resolveInner lookup n ancestors id ts) Known
  | 0, _, _, _, h, _, hid => .ok h hid
  | n + 1, ancestors, id, ts, h, hs, hid => by
    refine resolveInner_cases (C := (ts.Lands · Known)) (fun k _ => parentRef_lands h _) (fun _ _ => .ok h hid)
      (fun _ _ _ _ => .ok h hid) (fun name _ _ _ => ?named) fun _ ho _ => ?composed
    case named =>
      refine .andThen (P := Known) ⟨.refl h, fun he => followDefers_lt hl hs _ _ hid he⟩ fun target ts₁ h₁ ht => ?_
      have hinner := resolveInner_lands n ancestors target ts₁ h₁.sane (hs.trans h₁.grows.size_le) ht
      exact hinner.andThen fun found ts₂ h₂ hf => orMarker_lands h₂.sane ancestors hf
    case composed =>
      have hbelow := resolveBelow_lands (fun ts c => resolveInner_lands n (id :: ancestors) c ts) h hs
        fun s c => h.next_lt (lookup_of_lt hid)
      refine hbelow.andThen fun shape ts₁ h₁ hc =>
        register_lands h₁.sane ?_ (fun s c hn => ?_) fun _ => withLayout_withLayout _
      · rw [withLayout_flags]
        exact ho
      · rw [withLayout_next?] at hn
        exact hc s c hn

end

/-! ## Closing only adds -/

/-- The copy of an open type, before what it is made of is copied. -/
def closedCopy (t : TypeInfo) : TypeInfo :=
  { t with flags := { t.flags with closed := true }, hash := hashMix t.hash 8, containsParent := false }

def closeBelow (close : TypeId → TypeTable → TypeId × TypeTable) : TypeShape → TypeTable → TypeShape × TypeTable
  | .pointer base, ts =>
    let r := close base ts
    (.pointer r.1, r.2)
  | .function result params, ts =>
    let r := close result ts
    let p := closeAll close Param.type setParamType params r.2
    (.function r.1 p.1, p.2)
  | .struct fields, ts =>
    let p := closeAll close Field.type setFieldType fields ts
    (.struct p.1, p.2)
  | shape, ts => (shape, ts)

section
variable {n : Nat} {stack : List TypeId} {id : TypeId} {ts : TypeTable}

theorem close_whole (h : (ts.get id).containsParent = false) : close (n + 1) stack id ts = (id, ts) := by
  rw [close]
  simp only [h, Bool.not_false, if_true]

theorem close_marker {depth : Nat} (h : (ts.get id).containsParent = true)
    (hs : (ts.get id).shape = .parent depth) :
    close (n + 1) stack id ts = (if depth = 0 then id else (stack[depth - 1]?).getD id, ts) := by
  rw [close]
  simp only [h, hs, Bool.not_true, Bool.false_eq_true, if_false]
  split <;> rfl

theorem close_copy (h : (ts.get id).containsParent = true) (hs : ∀ depth, (ts.get id).shape ≠ .parent depth) :
    close (n + 1) stack id ts =
      let r := closeBelow (close n (ts.size :: stack)) (ts.get id).shape (ts.pushed (closedCopy (ts.get id)))
      (ts.size, r.2.replaced ts.size (r.2.withLayout { closedCopy (ts.get id) with shape := r.1 })) := by
  rw [close]
  generalize ts.get id = t at h hs
  obtain ⟨kind, shape, flags, hash, size, alignment, _⟩ := t
  cases h
  cases shape with
  | parent depth => exact absurd rfl (hs depth)
  | _ => rfl

/-- Closing leaves what has no reference in it, replaces a reference, and copies all else. -/
theorem close_cases {C : TypeId × TypeTable → Prop} (whole : (ts.get id).containsParent = false → C (id, ts))
    (marker : ∀ depth, (ts.get id).containsParent = true → (ts.get id).shape = .parent depth →
      C (if depth = 0 then id else (stack[depth - 1]?).getD id, ts))
    (copy : (ts.get id).containsParent = true → (∀ depth, (ts.get id).shape ≠ .parent depth) →
      let r := closeBelow (close n (ts.size :: stack)) (ts.get id).shape (ts.pushed (closedCopy (ts.get id)))
      C (ts.size, r.2.replaced ts.size (r.2.withLayout { closedCopy (ts.get id) with shape := r.1 }))) :
    C (close (n + 1) stack id ts) := by
  cases hp : (ts.get id).containsParent with
  | false => exact close_whole hp ▸ whole hp
  | true =>
    by_cases hm : ∃ depth, (ts.get id).shape = .parent depth
    · obtain ⟨depth, hm⟩ := hm
      exact close_marker hp hm ▸ marker depth hp hm
    · have hm (depth : Nat) : (ts.get id).shape ≠ .parent depth := fun hd => hm ⟨depth, hd⟩
      exact close_copy hp hm ▸ copy hp hm

end

/-- From a type of the table, closing gives that type or a closed one. -/
structure Copies (ts : TypeTable) (id : TypeId) (r : TypeId × TypeTable) : Prop where
  adds : ts.Adds r.2
  interned : r.2.interned = ts.interned
  result : r.1 = id ∨ r.2.IsClosed r.1

section
variable {α : Type}

theorem closeAll_adds {close : TypeId → TypeTable → TypeId × TypeTable} (get : α → TypeId) (set : α → TypeId → α)
    {stack : List TypeId} (hg : ∀ a c, get (set a c) = c)
    (hr : ∀ (ts : TypeTable) c, ts.Sane → (∀ s ∈ stack, ts.IsClosed s) →
      c < ts.size → ts.Copies c (close c ts)) :
    ∀ (as : List α) (ts : TypeTable), ts.Sane → (∀ s ∈ stack, ts.IsClosed s) → (∀ a ∈ as, get a < ts.size) →
      ts.Adds (closeAll close get set as ts).2 ∧ (closeAll close get set as ts).2.interned = ts.interned ∧
      ∀ a ∈ (closeAll close get set as ts).1,
        (∃ b ∈ as, get a = get b) ∨ (closeAll close get set as ts).2.IsClosed (get a)
  | [], ts, h, _, _ => ⟨.refl h, rfl, nofun⟩
  | a :: as, ts, h, hs, ha => by
    obtain ⟨h₁, hi₁, hc⟩ := hr ts _ h hs (ha a (List.mem_cons_self ..))
    obtain ⟨h₂, hi₂, hm⟩ := closeAll_adds get set hg hr as _ h₁.sane (fun s hm => (hs s hm).grows h₁.grows)
      (fun b hb => h₁.grows.lt (ha b (List.mem_cons_of_mem _ hb)))
    refine ⟨h₁.trans h₂, hi₂.trans hi₁, fun b hb => ?_⟩
    obtain rfl | hb := List.mem_cons.mp hb
    · rw [hg]
      exact hc.imp (fun he => ⟨a, List.mem_cons_self .., he⟩) (fun hc => hc.grows h₂.grows)
    · exact (hm b hb).imp_left fun ⟨b', hb', he⟩ => ⟨b', List.mem_cons_of_mem _ hb', he⟩

theorem closeBelow_adds {close : TypeId → TypeTable → TypeId × TypeTable} {stack : List TypeId}
    (hr : ∀ (ts : TypeTable) c, ts.Sane → (∀ s ∈ stack, ts.IsClosed s) → c < ts.size → ts.Copies c (close c ts))
    {ts : TypeTable} (h : ts.Sane) (hs : ∀ s ∈ stack, ts.IsClosed s) {shape : TypeShape}
    (hc : ∀ s c, shape.next? s = some c → c < ts.size) :
    ts.Adds (closeBelow close shape ts).2 ∧ (closeBelow close shape ts).2.interned = ts.interned ∧
    ∀ s c, (closeBelow close shape ts).1.next? s = some c →
      (∃ s', shape.next? s' = some c) ∨ (closeBelow close shape ts).2.IsClosed c := by
  cases shape with
  | plain | deferred | parent => exact ⟨.refl h, rfl, fun s c hn => .inl ⟨s, hn⟩⟩
  | pointer base =>
    obtain ⟨h₁, hi, hb⟩ := hr ts base h hs (hc .pointee base rfl)
    refine ⟨h₁, hi, fun s c hn => ?_⟩
    cases s <;> cases hn
    exact hb.imp_left fun he => ⟨.pointee, congrArg some he.symm⟩
  | function result params =>
    obtain ⟨h₁, hi₁, hres⟩ := hr ts result h hs (hc .result result rfl)
    obtain ⟨h₂, hi₂, hps⟩ := closeAll_adds Param.type setParamType (fun _ _ => rfl) hr params _ h₁.sane
      (fun s hm => (hs s hm).grows h₁.grows) (fun p hp => by
        obtain ⟨s, hn⟩ := TypeShape.next?_param result hp
        exact h₁.grows.lt (hc s _ hn))
    refine ⟨h₁.trans h₂, hi₂.trans hi₁, fun s c hn => ?_⟩
    obtain rfl | ⟨p, hp, rfl⟩ := TypeShape.next?_function hn
    · exact hres.imp (fun he => ⟨.result, congrArg some he.symm⟩) (fun hc => hc.grows h₂.grows)
    · refine (hps p hp).imp_left fun ⟨q, hq, he⟩ => ?_
      rw [he]
      exact TypeShape.next?_param _ hq
  | struct fields =>
    obtain ⟨h₁, hi, hfs⟩ := closeAll_adds Field.type setFieldType (fun _ _ => rfl) hr fields ts h hs (fun f hf => by
      obtain ⟨s, hn⟩ := TypeShape.next?_field hf
      exact hc s _ hn)
    refine ⟨h₁, hi, fun s c hn => ?_⟩
    obtain ⟨f, hf, rfl⟩ := TypeShape.next?_struct hn
    refine (hfs f hf).imp_left fun ⟨g, hg, he⟩ => ?_
    rw [he]
    exact TypeShape.next?_field hg

end

/-- A copy has been put into the place that was kept for it. -/
theorem Copies.copied {ts ts₁ : TypeTable} {t u : TypeInfo} {id : TypeId} (h : ts.Sane)
    (ha : (ts.pushed t).Adds ts₁) (hi : ts₁.interned = ts.interned) (hn : ts₁.IsClosed ts.size)
    (ho : u.flags.closed = true) (hp : u.containsParent = false)
    (hc : ∀ s c, u.shape.next? s = some c → ∃ v, ts₁.types[c]? = some v ∧ (c < ts.size ∨ v.flags.closed = true)) :
    ts.Copies id (ts.size, ts₁.replaced ts.size u) := by
  have hs := ha.sane.replaced hn ho hp hc
  have hg : ts.Grows (ts₁.replaced ts.size u) := fun i v hv => by
    rw [replaced_other _ (Nat.ne_of_gt (lt_of_lookup hv))]
    exact ha.grows _ _ (ts.pushed_grows t _ _ hv)
  obtain ⟨v, hv, -⟩ := hn
  exact ⟨⟨hs, hg, ha.closed, ha.closedConst, h.laid hs hg hi⟩, hi, .inr ⟨u, replaced_same u (lt_of_lookup hv), ho⟩⟩

theorem close_adds : ∀ (n : Nat) (stack : List TypeId) (id : TypeId) (ts : TypeTable), ts.Sane → id < ts.size →
    (∀ s ∈ stack, ts.IsClosed s) → ts.Copies id (close n stack id ts)
  | 0, _, _, _, h, _, _ => ⟨.refl h, rfl, .inl rfl⟩
  | n + 1, stack, id, ts, h, hid, hs => by
    refine close_cases (C := ts.Copies id) (fun _ => ⟨.refl h, rfl, .inl rfl⟩) (fun depth _ _ => ?marker)
      fun _ _ => ?copy
    case marker =>
      refine ⟨.refl h, rfl, ?_⟩
      split
      · exact .inl rfl
      · cases hk : stack[depth - 1]? with
        | none => exact .inl rfl
        | some s => exact .inr (hs s (List.mem_of_getElem? hk))
    case copy =>
      have hlt (s : TypeStep) (c : TypeId) (hn : (ts.get id).shape.next? s = some c) : c < ts.size :=
        h.next_lt (lookup_of_lt hid) hn
      have hg := ts.pushed_grows (closedCopy (ts.get id))
      have hnew : (ts.pushed (closedCopy (ts.get id))).IsClosed ts.size := ⟨_, pushed_last .., rfl⟩
      have hstack : ∀ s ∈ ts.size :: stack, (ts.pushed (closedCopy (ts.get id))).IsClosed s :=
        List.forall_mem_cons.mpr ⟨hnew, fun s hm => (hs s hm).grows hg⟩
      have hsane : (ts.pushed (closedCopy (ts.get id))).Sane := h.pushed rfl rfl hlt
      obtain ⟨h₂, hi, hc⟩ := closeBelow_adds (fun T c hT hsT hcT => close_adds n (ts.size :: stack) c T hT hcT hsT)
        hsane hstack fun s c hn => hg.lt (hlt s c hn)
      have hclosed := hnew.grows h₂.grows
      refine .copied h h₂ hi hclosed ?_ ?_ fun s c hn => ?_
      · rw [withLayout_flags]
        rfl
      · rw [withLayout_containsParent]
        rfl
      · rw [withLayout_next?] at hn
        obtain ⟨s', hn⟩ | ⟨t, ht, hct⟩ := hc s c hn
        · have hlt := hlt s' c hn
          exact ⟨_, h₂.grows _ _ (hg _ _ (lookup_of_lt hlt)), .inl hlt⟩
        · exact ⟨t, ht, .inr hct⟩

def remembered (ts : TypeTable) (id new : TypeId) : TypeTable := { ts with closed := ts.closed.insert id new }

theorem Sane.remembered {ts : TypeTable} (h : ts.Sane) (id new : TypeId) : (ts.remembered id new).Sane :=
  ⟨h.found, h.listed, h.below, h.marked⟩

theorem closeRoot_found {ts : TypeTable} {id new : TypeId} (h : ts.closed[id]? = some new) :
    ts.closeRoot id = (new, ts) := by
  unfold closeRoot
  simp only [h]

theorem closeRoot_new {ts : TypeTable} {id : TypeId} (h : ts.closed[id]? = none) : ts.closeRoot id =
    ((close (ts.size + 1) [] id ts).1,
      (close (ts.size + 1) [] id ts).2.remembered id (close (ts.size + 1) [] id ts).1) := by
  unfold closeRoot
  simp only [h]
  rfl

theorem closeRoot_keeps {ts : TypeTable} (h : ts.Sane) {id : TypeId} (hid : id < ts.size) :
    ts.Keeps (ts.closeRoot id).2 ∧ (ts.closeRoot id).2.closedConst = ts.closedConst := by
  cases hc : ts.closed[id]? with
  | some new =>
    rw [closeRoot_found hc]
    exact ⟨.refl h, rfl⟩
  | none =>
    rw [closeRoot_new hc]
    have ha := (close_adds (ts.size + 1) [] id ts h hid nofun).adds
    generalize close (ts.size + 1) [] id ts = r at ha
    have layout (u : TypeInfo) : (r.2.remembered id r.1).withLayout u = r.2.withLayout u :=
      withLayout_congr fun _ _ _ => rfl
    exact ⟨⟨ha.sane.remembered _ _, ha.grows,
      fun hl i u hu ho => (layout u).trans (ha.laid hl i u hu ho)⟩, ha.closedConst⟩

/-! ## Resolving -/

/-- The type `id` with every deferred name replaced, before its inline fields are looked at. -/
def tied (ts : TypeTable) (lookup : Lookup) (id : TypeId) : Walked TypeId :=
  andThen (resolveInner lookup (2 * ts.size + 2) [] id ts) fun found ts =>
    answered (if (ts.get found).containsParent then ts.closeRoot found else (found, ts))

theorem resolve_eq (ts : TypeTable) (lookup : Lookup) (id : TypeId) : ts.resolve lookup id =
    andThen (ts.tied lookup id) fun r ts => (do ts.validate (ts.size + 1) [] r; return r, ts) := by
  unfold resolve tied
  rcases resolveInner lookup (2 * ts.size + 2) [] id ts with ⟨_ | found, ts₁⟩
  · rfl
  · simp only [andThen, answered]
    generalize (if (ts₁.get found).containsParent then ts₁.closeRoot found else (found, ts₁)) = r
    cases r.2.validate (r.2.size + 1) [] r.1 <;> rfl

/-- Only structs have inline fields to check. -/
theorem validate_of_kind {ts : TypeTable} {id : TypeId} {n : Nat} {path : List TypeId} (hk : ts.kind id ≠ .struct) :
    ts.validate (n + 1) path id = .ok () := by
  rw [validate]
  exact if_pos (bne_iff_ne.mpr hk)

/-- What the walk leaves as it is is the result if it is accepted. -/
theorem resolve_of_same {ts : TypeTable} {lookup : Lookup} {id : TypeId}
    (hi : resolveInner lookup (2 * ts.size + 2) [] id ts = (.ok id, ts)) (hp : (ts.get id).containsParent = false)
    (hv : ts.validate (ts.size + 1) [] id = .ok ()) : ts.resolve lookup id = (.ok id, ts) := by
  have htied : ts.tied lookup id = (.ok id, ts) := by
    rw [tied, hi]
    simp only [andThen, answered, hp]
    rfl
  rw [resolve_eq, htied]
  simp only [andThen, hv]
  rfl

/-- The check of inline fields leaves the table and the answer as they are. -/
theorem resolve_tied (ts : TypeTable) (lookup : Lookup) (id : TypeId) :
    (ts.resolve lookup id).2 = (ts.tied lookup id).2 ∧
    ∀ r, (ts.resolve lookup id).1 = .ok r → (ts.tied lookup id).1 = .ok r := by
  rw [resolve_eq]
  rcases ts.tied lookup id with ⟨_ | r, ts₁⟩
  · exact ⟨rfl, nofun⟩
  · cases hv : ts₁.validate (ts₁.size + 1) [] r with
    | error => exact ⟨rfl, fun _ h => by simp only [andThen, hv] at h; cases h⟩
    | ok => exact ⟨rfl, fun _ h => by simp only [andThen, hv] at h; exact h⟩

/-- Resolving adds to the table, whatever it comes to. -/
theorem resolve_keeps {ts : TypeTable} {lookup : Lookup} (h : ts.Sane) {id : TypeId} (hid : id < ts.size)
    (hl : ∀ name target, lookup name = .type target → target < ts.size) : ts.Keeps (ts.resolve lookup id).2 := by
  obtain ⟨ha, hr⟩ := resolveInner_lands hl (2 * ts.size + 2) [] id ts h (Nat.le_refl _) hid
  rw [(resolve_tied ts lookup id).1, tied]
  rcases hf : resolveInner lookup (2 * ts.size + 2) [] id ts with ⟨_ | found, ts₁⟩
  · rw [hf] at ha
    exact ha.keeps
  · rw [hf] at ha hr
    simp only [andThen, answered]
    split
    · exact ha.keeps.trans (closeRoot_keeps ha.sane (hr rfl)).1
    · exact ha.keeps

/-! ### Types without names -/

/-- None of these types is a name, and the open ones are made of such types. -/
structure FreeOfNames (ts : TypeTable) (P : TypeId → Prop) : Prop where
  known {id : TypeId} : P id → id < ts.size
  unnamed {id : TypeId} {name : NameId} : P id → (ts.get id).shape ≠ .deferred name
  next {id c : TypeId} {s : TypeStep} : P id → (ts.get id).flags.closed = false →
      (ts.get id).shape.next? s = some c → P c

def Nameless (ts : TypeTable) : Prop :=
  ∀ id < ts.size, (ts.get id).flags.closed = false ∧ ∀ name, (ts.get id).shape ≠ .deferred name

section
variable {α : Type} {lookup : Lookup} {ts : TypeTable}

theorem resolveAll_same {resolve : TypeId → Resolver TypeId} {get : α → TypeId} {set : α → TypeId → α}
    (hs : ∀ a, set a (get a) = a) :
    ∀ {as : List α}, (∀ a ∈ as, resolve (get a) ts = (.ok (get a), ts)) →
    resolveAll resolve get set as ts = (.ok as, ts)
  | [], _ => rfl
  | a :: as, h => by
    rw [List.forall_mem_cons] at h
    rw [resolveAll_cons, h.1]
    simp only [andThen, resolveAll_same hs h.2, hs]

theorem resolveBelow_same {resolve : TypeId → Resolver TypeId} {shape : TypeShape}
    (h : ∀ s c, shape.next? s = some c → resolve c ts = (.ok c, ts)) :
    resolveBelow resolve shape ts = (.ok shape, ts) := by
  cases shape with
  | plain | deferred | parent => rfl
  | pointer base => rw [resolveBelow, h .pointee base rfl]; rfl
  | function result params =>
    rw [resolveBelow, h .result result rfl]
    show andThen (resolveAll resolve Param.type setParamType params ts) _ = _
    rw [resolveAll_same (fun _ => rfl) fun p hp => ?_]
    · rfl
    · obtain ⟨s, hn⟩ := TypeShape.next?_param result hp
      exact h s _ hn
  | struct fields =>
    rw [resolveBelow, resolveAll_same (fun _ => rfl) fun f hf => ?_]
    · rfl
    · obtain ⟨s, hn⟩ := TypeShape.next?_field hf
      exact h s _ hn

/-- Without names, what a type is made of is as it is, and so is the type. -/
theorem FreeOfNames.resolveInner {P : TypeId → Prop} (hP : ts.FreeOfNames P) (h : ts.Sane) (hl : ts.Laid) :
    ∀ (n : Nat) (ancestors : List TypeId) (id : TypeId), id < n → P id → (∀ a ∈ ancestors, id < a) →
      resolveInner lookup n ancestors id ts = (.ok id, ts)
  | n + 1, ancestors, id, hlt, hid, ha => by
    have ht := lookup_of_lt (hP.known hid)
    have hidx : ancestors.idxOf? id = none := List.idxOf?_eq_none_iff.mpr fun hm => Nat.lt_irrefl _ (ha id hm)
    by_cases hc : (ts.get id).flags.closed = true
    · exact resolveInner_closed hidx hc
    have ho : (ts.get id).flags.closed = false := Bool.eq_false_iff.mpr hc
    have hbelow : resolveBelow (TypeTable.resolveInner lookup n (id :: ancestors)) (ts.get id).shape ts =
        (.ok (ts.get id).shape, ts) := by
      refine resolveBelow_same fun s c hc => ?_
      have hlt' : c < id := h.next_open ht ho hc
      refine hP.resolveInner h hl n _ c (Nat.lt_of_lt_of_le hlt' (Nat.le_of_lt_succ hlt)) (hP.next hid ho hc) ?_
      exact List.forall_mem_cons.mpr ⟨hlt', fun a hm => Nat.lt_trans hlt' (ha a hm)⟩
    have hregister :
        answered (ts.register (ts.withLayout { ts.get id with shape := (ts.get id).shape })) = (.ok id, ts) := by
      rw [show ts.withLayout { ts.get id with shape := (ts.get id).shape } = ts.get id from hl id _ ht ho,
        register_found (h.listed ht ho)]
      rfl
    rw [resolveInner_visit hidx ho, visit]
    split
    · rfl
    · rfl
    case h_3 name hs => exact absurd hs (hP.unnamed hid)
    case h_4 =>
      rw [hbelow]
      exact hregister

/-- Without names, an accepted type resolves to itself. -/
theorem FreeOfNames.resolve {P : TypeId → Prop} (hP : ts.FreeOfNames P) (h : ts.Sane) (hl : ts.Laid)
    {id : TypeId} (hid : P id)
    (hp : (ts.get id).containsParent = false) (hv : ts.validate (ts.size + 1) [] id = .ok ()) :
    ts.resolve lookup id = (.ok id, ts) := by
  have hlt : id < 2 * ts.size + 2 := Nat.lt_of_lt_of_le (hP.known hid) (by omega)
  exact resolve_of_same (hP.resolveInner h hl _ [] id hlt hid nofun) hp hv

theorem Nameless.free (hn : ts.Nameless) (h : ts.Sane) : ts.FreeOfNames (· < ts.size) where
  known hid := hid
  unnamed hid := (hn _ hid).2 _
  next hid _ hc := h.next_lt (lookup_of_lt hid) hc

end

end TypeTable

end LevelScript
