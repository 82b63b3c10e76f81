import LevelScript.Proofs.TypeSizes
import LevelScript.Proofs.Unbounded

/-!
# Names that lead nowhere

Names can lead back to where they came from, and a name may mean no type. From a type, resolving meets what the type
is made of and what names mean, and it goes no further at closed types. It ends in an error about a name just if it
meets one that leads nowhere, and the error is about such a name.
-/

namespace LevelScript

open Relation (ReflTransGen TransGen)

def TypeShape.parts : TypeShape → List TypeId
  | pointer base => [base]
  | function result params => result :: params.map Param.type
  | struct fields => fields.map Field.type
  | plain | deferred _ | parent _ => []

theorem TypeShape.parts_eq_nil {shape : TypeShape} (h : shape.isComposed = false) : shape.parts = [] := by
  cases shape with
  | plain | deferred | parent => rfl
  | pointer | function | struct => cases h

theorem TypeShape.mem_parts {shape : TypeShape} {c : TypeId} : c ∈ shape.parts ↔ ∃ s, shape.next? s = some c := by
  constructor
  · intro hc
    cases shape with
    | plain | deferred | parent => cases hc
    | pointer base => exact ⟨.pointee, by rw [List.mem_singleton.mp hc]; rfl⟩
    | struct fields =>
      obtain ⟨f, hf, rfl⟩ := List.mem_map.mp hc
      exact next?_field hf
    | function result params =>
      obtain rfl | hc := List.mem_cons.mp hc
      · exact ⟨.result, rfl⟩
      · obtain ⟨p, hp, rfl⟩ := List.mem_map.mp hc
        exact next?_param result hp
  · rintro ⟨s, hs⟩
    cases shape with
    | plain | deferred | parent => cases s <;> cases hs
    | pointer base =>
      cases s <;> cases hs
      exact List.mem_singleton_self _
    | struct fields =>
      obtain ⟨f, hf, rfl⟩ := next?_struct hs
      exact List.mem_map_of_mem hf
    | function result params =>
      obtain rfl | ⟨p, hp, rfl⟩ := next?_function hs
      · exact List.mem_cons_self ..
      · exact List.mem_cons_of_mem _ (List.mem_map_of_mem hp)

def TypeError.AboutName : TypeError → Prop
  | deferRecurses _ | deferNotFound _ | deferNotAType _ => True
  | _ => False

namespace TypeTable

/-! ## Names -/

def Means (ts : TypeTable) (lookup : Lookup) (id c : TypeId) : Prop :=
  ∃ name, (ts.get id).shape = .deferred name ∧ lookup name = .type c

def OnCycle (ts : TypeTable) (lookup : Lookup) (id : TypeId) : Prop := TransGen (ts.Means lookup) id id

/-- A name that leads nowhere, and the error about it. -/
inductive Wrong (ts : TypeTable) (lookup : Lookup) : TypeId → TypeError → Prop where
  | recurses {id : TypeId} {name : NameId} : (ts.get id).shape = .deferred name → ts.OnCycle lookup id →
      Wrong ts lookup id (.deferRecurses name)
  | missing {id : TypeId} {name : NameId} : (ts.get id).shape = .deferred name → lookup name = .missing →
      Wrong ts lookup id (.deferNotFound name)
  | notAType {id : TypeId} {name : NameId} : (ts.get id).shape = .deferred name →
      lookup name = .notAType → Wrong ts lookup id (.deferNotAType name)

section
variable {ts : TypeTable} {lookup : Lookup} {id c d : TypeId} {e : TypeError}

theorem Means.unique (h : ts.Means lookup id c) (h' : ts.Means lookup id d) : c = d := by
  obtain ⟨name, hs, hc⟩ := h
  obtain ⟨_, hs', hd⟩ := h'
  cases hs.symm.trans hs'
  exact DeferTarget.type.inj (hc.symm.trans hd)

theorem Wrong.name (h : ts.Wrong lookup id e) : ∃ name, (ts.get id).shape = .deferred name := by
  cases h <;> exact ⟨_, ‹_›⟩

theorem OnCycle.step (h : ts.OnCycle lookup id) (hm : ts.Means lookup id c) : ts.OnCycle lookup c := by
  obtain ⟨c', hc, hback⟩ := TransGen.head'_iff.mp h
  cases hm.unique hc
  exact TransGen.tail'_iff.mpr ⟨id, hback, hc⟩

theorem OnCycle.steps (h : ts.OnCycle lookup id) (hc : ReflTransGen (ts.Means lookup) id c) :
    ts.OnCycle lookup c := by
  induction hc with
  | refl => exact h
  | tail _ hm ih => exact ih.step hm

/-- A name that leads to a type does not lead back to itself. -/
theorem Named.not_onCycle (h : Named ts lookup id c) : ¬ts.OnCycle lookup id := by
  induction h with
  | here ht hs =>
    intro hc
    obtain ⟨_, ⟨name, hname, -⟩, -⟩ := TransGen.head'_iff.mp hc
    exact hs name (get_eq ht ▸ hname)
  | through ht hs hl _ ih => exact fun hc => ih (hc.step ⟨_, by rw [get_eq ht, hs], hl⟩)

theorem Named.means (h : Named ts lookup id c) : ReflTransGen (ts.Means lookup) id c := by
  induction h with
  | here => exact .refl
  | through ht hs hl _ ih => exact .head ⟨_, by rw [get_eq ht, hs], hl⟩ ih

theorem Named.not_wrong (h : Named ts lookup id c) : ¬ts.Wrong lookup id e := by
  intro hw
  have hmeant : ∀ name, (ts.get id).shape = .deferred name → ∃ d, lookup name = .type d := by
    intro name hs
    cases h with
    | here ht hno => exact absurd (get_eq ht ▸ hs) (hno name)
    | through ht hd hl =>
      rw [get_eq ht, hd] at hs
      cases hs
      exact ⟨_, hl⟩
  cases hw with
  | recurses _ hc => exact h.not_onCycle hc
  | missing hs hl | notAType hs hl =>
    obtain ⟨d, hd⟩ := hmeant _ hs
    rw [hl] at hd
    cases hd

end

/-! ## Following names -/

/-- If names lead nowhere, following them finds the one that is wrong: what has been visited leads to where it
is. -/
theorem followDefers_error {ts : TypeTable} {lookup : Lookup} {e : TypeError} :
    ∀ {n : Nat} {visited : List TypeId} {id : TypeId},
    (∀ v ∈ visited, TransGen (ts.Means lookup) v id) → ts.followDefers lookup n visited id = .error e →
      ∃ d, ReflTransGen (ts.Means lookup) id d ∧ ts.Wrong lookup d e
  | n + 1, visited, id, hv, h => by
    rw [followDefers] at h
    cases hs : (ts.get id).shape with
    | deferred name =>
      rw [hs] at h
      dsimp only at h
      by_cases hc : visited.contains id = true
      · rw [if_pos hc] at h
        cases h
        exact ⟨id, .refl, .recurses hs (hv id (List.contains_iff_mem.mp hc))⟩
      rw [if_neg hc] at h
      cases hname : lookup name with
      | missing =>
        rw [hname] at h
        cases h
        exact ⟨id, .refl, .missing hs hname⟩
      | notAType =>
        rw [hname] at h
        cases h
        exact ⟨id, .refl, .notAType hs hname⟩
      | type next =>
        rw [hname] at h
        have hmeans : ts.Means lookup id next := ⟨name, hs, hname⟩
        have hvisited : ∀ v ∈ id :: visited, TransGen (ts.Means lookup) v next :=
          List.forall_mem_cons.mpr ⟨.single hmeans, fun v hm => (hv v hm).tail hmeans⟩
        obtain ⟨d, hd, hw⟩ := followDefers_error hvisited h
        exact ⟨d, .head hmeans hd, hw⟩
    | _ =>
      rw [hs] at h
      cases h

/-! ## What a walk comes by -/

/-- An open type is made of the other one, or a name means it. -/
inductive Meets (ts : TypeTable) (lookup : Lookup) (id c : TypeId) : Prop where
  | part : (ts.get id).flags.closed = false → c ∈ (ts.get id).shape.parts → Meets ts lookup id c
  | name : ts.Means lookup id c → Meets ts lookup id c

/-- What is met on ways that do not come by the types around. -/
inductive Comes (ts : TypeTable) (lookup : Lookup) (A : List TypeId) : TypeId → TypeId → Prop where
  | here {id : TypeId} : id ∉ A → Comes ts lookup A id id
  | step {id c d : TypeId} : id ∉ A → ts.Meets lookup id c → Comes ts lookup A c d → Comes ts lookup A id d

section
variable {ts : TypeTable} {lookup : Lookup} {A : List TypeId} {id c d target : TypeId} {e : TypeError}

theorem Comes.out (h : ts.Comes lookup A id c) : id ∉ A := by
  cases h <;> assumption

theorem Comes.of_meets (h : ReflTransGen (ts.Meets lookup) id c) : ts.Comes lookup [] id c := by
  induction h using ReflTransGen.head_induction_on with
  | refl => exact .here List.not_mem_nil
  | head hm _ ih => exact .step List.not_mem_nil hm ih

/-- A way from `c` comes by `id`, and then there is a last time, or it does not. -/
theorem Comes.last (h : ts.Comes lookup A c d) (id : TypeId) :
    ts.Comes lookup (id :: A) c d ∨ d = id ∨ ∃ b, ts.Meets lookup id b ∧ ts.Comes lookup (id :: A) b d := by
  induction h with
  | @here c hc =>
    by_cases he : c = id
    · exact .inr (.inl he)
    · exact .inl (.here (List.not_mem_cons_of_ne_of_not_mem he hc))
  | @step c b d hc hm _ ih =>
    obtain hb | hlast := ih
    · by_cases he : c = id
      · subst he
        exact .inr (.inr ⟨b, hm, hb⟩)
      · exact .inl (.step (List.not_mem_cons_of_ne_of_not_mem he hc) hm hb)
    · exact .inr hlast

theorem Comes.parts (h : ts.Comes lookup A id c) : c = id ∨ ∃ b, ts.Meets lookup id b ∧
    ts.Comes lookup (id :: A) b c :=
  (h.last id).resolve_left fun hc => hc.out (List.mem_cons_self ..)

/-- A way from a name goes along the names, and from where they lead. -/
theorem Comes.through (h : ts.Comes lookup A id c) (hn : Named ts lookup id target) :
    Named ts lookup c target ∨ ts.Comes lookup A target c := by
  induction hn with
  | here => exact .inr h
  | @through id m target t name ht hs hl hn ih =>
    cases h with
    | here => exact .inl (.through ht hs hl hn)
    | step _ hm h =>
      refine ih ?_
      cases hm with
      | part _ hp =>
        rw [get_eq ht, hs] at hp
        cases hp
      | name hm => exact hm.unique ⟨name, by rw [get_eq ht, hs], hl⟩ ▸ h

theorem meets_of_means (h : ReflTransGen (ts.Means lookup) id c) : ReflTransGen (ts.Meets lookup) id c := by
  induction h with
  | refl => exact .refl
  | tail _ hm ih => exact ih.tail (.name hm)

/-- From a type that is no name and stands for itself, nothing else is met, and nothing is wrong with it. -/
theorem Comes.alone (h : ts.Comes lookup A id c) (hs : ∀ name, (ts.get id).shape ≠ .deferred name)
    (hp : (ts.get id).flags.closed = true ∨ (ts.get id).shape.parts = []) : ¬ts.Wrong lookup c e := by
  cases h with
  | here =>
    intro hw
    obtain ⟨name, hname⟩ := hw.name
    exact hs name hname
  | step _ hm =>
    cases hm with
    | part ho hn =>
      obtain hc | hp := hp
      · rw [hc] at ho
        cases ho
      · rw [hp] at hn
        cases hn
    | name hm =>
      obtain ⟨name, hname, -⟩ := hm
      exact absurd hname (hs name)

end

/-! ## Steps of the walk -/

/-- If a step ends well, so did these calls; if it does not, it was one of them. -/
structure Calls {α : Type} (Good : TypeTable → Prop) (resolve : TypeId → Resolver TypeId) (r : Walked α)
    (calls : List TypeId) : Prop where
  well {a : α} : r.1 = .ok a → ∀ c ∈ calls, ∃ T, Good T ∧ ∃ b, (resolve c T).1 = .ok b
  error {e : TypeError} : r.1 = .error e → ∃ c ∈ calls, ∃ T, Good T ∧ (resolve c T).1 = .error e

section
variable {α β : Type} {Good : TypeTable → Prop} {P : TypeId → Prop} {resolve : TypeId → Resolver TypeId}
  {T : TypeTable} {calls : List TypeId}

theorem Calls.ok {a : α} : Calls Good resolve (.ok a, T) [] := ⟨fun _ => List.forall_mem_nil _, nofun⟩

theorem Calls.cons {c : TypeId} {f : TypeId → TypeTable → Walked α} (hT : Good T)
    (hf : ∀ a T₁, resolve c T = (.ok a, T₁) → Calls Good resolve (f a T₁) calls) :
    Calls Good resolve (andThen (resolve c T) f) (c :: calls) := by
  rcases hc : resolve c T with ⟨e | a, T₁⟩
  · refine ⟨nofun, ?_⟩
    rintro _ ⟨⟩
    exact ⟨c, List.mem_cons_self .., T, hT, by rw [hc]⟩
  · obtain ⟨hwell, herror⟩ := hf a T₁ hc
    refine ⟨fun ha => List.forall_mem_cons.mpr ⟨⟨T, hT, a, by rw [hc]⟩, hwell ha⟩, fun he => ?_⟩
    obtain ⟨c', hc', hT'⟩ := herror he
    exact ⟨c', List.mem_cons_of_mem _ hc', hT'⟩

theorem Calls.map {r : Walked α} {f : α → β} (h : Calls Good resolve r calls) :
    Calls Good resolve (andThen r fun a T => (.ok (f a), T)) calls := by
  obtain ⟨e | a, T⟩ := r
  · refine ⟨nofun, ?_⟩
    rintro _ ⟨⟩
    exact h.error rfl
  · exact ⟨fun _ => h.well rfl, nofun⟩

variable (hr : ∀ T c, Good T → P c → Good (resolve c T).2)
include hr

theorem resolveAll_calls {get : α → TypeId} {set : α → TypeId → α} :
    ∀ {as : List α} {T : TypeTable}, Good T → (∀ a ∈ as, P (get a)) →
    Calls Good resolve (resolveAll resolve get set as T) (as.map get)
  | [], _, _, _ => .ok
  | a :: as, T, hT, hp => by
    rw [List.forall_mem_cons] at hp
    have hg := hr T (get a) hT hp.1
    rw [resolveAll_cons]
    refine .cons hT fun id T₁ he => ?_
    rw [he] at hg
    exact (resolveAll_calls hg hp.2).map

theorem resolveBelow_calls {shape : TypeShape} (hT : Good T) (hp : ∀ c ∈ shape.parts, P c) :
    Calls Good resolve (resolveBelow resolve shape T) shape.parts := by
  cases shape with
  | plain | deferred | parent => exact .ok
  | pointer base => exact .cons hT fun _ _ _ => .ok
  | struct fields => exact (resolveAll_calls hr hT (List.forall_mem_map.mp hp)).map
  | function result params =>
    rw [TypeShape.parts, List.forall_mem_cons] at hp
    have hg := hr T result hT hp.1
    refine .cons hT fun result T₁ he => ?_
    rw [he] at hg
    exact (resolveAll_calls hr hg (List.forall_mem_map.mp hp.2)).map

end

/-! ## The walk -/

/-- Nothing is wrong with what a walk comes by that ends well. If it does not end well, its error is about something
that it may come by. -/
structure Tells {α : Type} (ts : TypeTable) (lookup : Lookup) (A : List TypeId) (id : TypeId)
    (r : Walked α) : Prop where
  well {a : α} {c : TypeId} {e : TypeError} : r.1 = .ok a → ts.Comes lookup A id c → ¬ts.Wrong lookup c e
  error {e : TypeError} : r.1 = .error e → ∃ d, ReflTransGen (ts.Meets lookup) id d ∧ ts.Wrong lookup d e

section
variable {α β : Type} {ts : TypeTable} {lookup : Lookup} {A : List TypeId} {id target : TypeId}

theorem Tells.ok {r : α × TypeTable} (h : ∀ c e, ts.Comes lookup A id c → ¬ts.Wrong lookup c e) :
    ts.Tells lookup A id (answered r) := ⟨fun _ => h _ _, nofun⟩

theorem Tells.failed {T : TypeTable} {d : TypeId} {e : TypeError}
    (hd : ReflTransGen (ts.Meets lookup) id d) (hw : ts.Wrong lookup d e) :
    ts.Tells lookup A id ((.error e, T) : Walked α) := ⟨nofun, fun he => by cases he; exact ⟨d, hd, hw⟩⟩

theorem Tells.ending {r : Walked α} {f : α → TypeTable → Walked β} (h : ts.Tells lookup A id r)
    (hf : ∀ a T e, (f a T).1 ≠ .error e) :
    ts.Tells lookup A id (andThen r f) := by
  obtain ⟨e | a, T⟩ := r
  · exact ⟨nofun, fun he => h.error (by cases he; rfl)⟩
  · exact ⟨fun _ => h.well rfl, fun he => absurd he (hf a T _)⟩

theorem Tells.named {r : Walked α} (h : ts.Tells lookup A target r) (hn : Named ts lookup id target) :
    ts.Tells lookup A id r where
  well ha hc := (hc.through hn).elim Named.not_wrong (h.well ha)
  error he := by
    obtain ⟨d, hd, hw⟩ := h.error he
    exact ⟨d, (meets_of_means hn.means).trans hd, hw⟩

/-- A type tells what all types tell that it is made of. -/
theorem Tells.composed {r : Walked α} {Good : TypeTable → Prop} {resolve : TypeId → Resolver TypeId}
    (hr : Calls Good resolve r (ts.get id).shape.parts) (ho : (ts.get id).flags.closed = false)
    (hd : ∀ name, (ts.get id).shape ≠ .deferred name)
    (h : ∀ T, Good T → ∀ c ∈ (ts.get id).shape.parts, ts.Tells lookup (id :: A) c (resolve c T)) :
    ts.Tells lookup A id r where
  well {a c e} ha hc := by
    obtain rfl | ⟨b, hm, hb⟩ := hc.parts
    · intro hw
      obtain ⟨name, hs⟩ := hw.name
      exact hd name hs
    · cases hm with
      | name hm =>
        obtain ⟨name, hs, -⟩ := hm
        exact absurd hs (hd name)
      | part _ hm =>
        obtain ⟨T, hT, _, hok⟩ := hr.well ha b hm
        exact (h T hT b hm).well hok hb
  error {e} he := by
    obtain ⟨c, hc, T, hT, herror⟩ := hr.error he
    obtain ⟨d, hd, hw⟩ := (h T hT c hc).error herror
    exact ⟨d, .head (.part ho hc) hd, hw⟩

theorem answered_ok (r : α × TypeTable) (e : TypeError) : (answered r).1 ≠ .error e := nofun

theorem orMarker_ok (A : List TypeId) (id : TypeId) (ts : TypeTable) (e : TypeError) :
    (orMarker A id ts).1 ≠ .error e := by
  unfold orMarker
  split <;> exact nofun

end

section
variable {lookup : Lookup} {ts₀ : TypeTable} (h₀ : ts₀.Sane)
  (hl : ∀ name target, lookup name = .type target → target < ts₀.size)
  (hopen : ∀ {id name}, (ts₀.get id).shape = .deferred name → (ts₀.get id).flags.closed = false)
include h₀ hl hopen

theorem walk_tells : ∀ {n : Nat} {A : List TypeId} {id : TypeId} {ts : TypeTable}, Placed ts₀ A id →
    Fuelled ts₀ n A id → ts.Sane →
    ts₀.Grows ts → ts₀.Tells lookup A id (resolveInner lookup n A id ts) := by
  intro n
  induction n with
  | zero =>
    intro A id ts hp hn
    obtain ⟨k, hk⟩ := hn.pos hp
    cases hk
  | succ n ih =>
    intro A id ts hp hn h hg
    have hget := hg.get hp.inside
    refine resolveInner_cases (C := (ts₀.Tells lookup A id)) (fun k hk => ?ancestor) (fun _ hc => ?closed)
      (fun _ _ hs hd => ?plain) (fun name _ _ hs => ?named) fun hout hc hs => ?composed
    case ancestor =>
      have hin : id ∈ A := by
        by_contra hout
        rw [List.idxOf?_eq_none_iff.mpr hout] at hk
        cases hk
      exact .ok fun _ _ hcomes => absurd hin hcomes.out
    case closed =>
      rw [hget] at hc
      refine .ok (r := (id, ts)) fun _ _ hcomes => hcomes.alone (fun name hs => ?_) (.inl hc)
      rw [hopen hs] at hc
      cases hc
    case plain =>
      rw [hget] at hs hd
      exact .ok (r := (id, ts)) fun _ _ hcomes => hcomes.alone hd (.inr (TypeShape.parts_eq_nil hs))
    case named =>
      rw [hget] at hs
      rw [hg.followDefers_from hl (fun _ _ _ => rfl) hp.inside]
      cases he : ts₀.followDefers lookup (ts₀.size + 1) [] id with
      | error e =>
        -- Following the names fails at some type `d` that they lead to, and the unfolding meets that one as well.
        obtain ⟨d, hd, hw⟩ := followDefers_error (List.forall_mem_nil _) he
        exact .failed (meets_of_means hd) hw
      | ok target =>
        obtain ⟨hptarget, hfuel⟩ := hp.named hl hs he
        exact ((ih hptarget (hfuel hn) h hg).ending (orMarker_ok A)).named (named_of_followDefers hl hp.inside he)
    case composed =>
      rw [hget] at hc hs ⊢
      have hlt {c : TypeId} (hc : c ∈ (ts₀.get id).shape.parts) : c < ts₀.size := by
        obtain ⟨s, hs⟩ := TypeShape.mem_parts.mp hc
        exact h₀.next_lt (lookup_of_lt hp.inside) hs
      have hcalls : Calls (fun ts => ts.Sane ∧ ts₀.Grows ts) (resolveInner lookup n (id :: A))
          (resolveBelow (resolveInner lookup n (id :: A)) (ts₀.get id).shape ts) (ts₀.get id).shape.parts := by
        refine resolveBelow_calls (P := (· < ts₀.size)) (fun T c hT hc => ?_) ⟨h, hg⟩ fun c hc => hlt hc
        have ha := (resolveInner_lands hl n (id :: A) c T hT.1 hT.2.size_le (hT.2.lt hc)).adds
        exact ⟨ha.sane, hT.2.trans ha.grows⟩
      have hbelow : ts₀.Tells lookup A id (resolveBelow (resolveInner lookup n (id :: A)) (ts₀.get id).shape ts) :=
        .composed hcalls hc (TypeShape.ne_deferred hs) fun T hT c hc =>
          ih (hp.below hout (hlt hc)) hn.below hT.1 hT.2
      exact hbelow.ending fun _ _ => answered_ok _

end

/-! ## Resolving -/

section
variable {ts : TypeTable} {lookup : Lookup} {id c d : TypeId} {e : TypeError} {name : NameId}

theorem Wrong.about (h : ts.Wrong lookup id e) : e.AboutName := by
  cases h <;> trivial

theorem validateFields_error {path : List TypeId} {check : TypeId → Except TypeError Unit}
    (hc : ∀ c e, check c = .error e → ¬e.AboutName) :
    ∀ {fields : List Field}, ts.validateFields path check fields = .error e → ¬e.AboutName
  | f :: fs, h => by
    have rest : ts.validateFields path check fs = .error e → ¬e.AboutName := validateFields_error hc
    rw [validateFields] at h
    by_cases hi : f.inlined.isSome = true
    · rw [if_pos hi] at h
      dsimp only at h
      by_cases hp : (path.contains f.type || ts.kind f.type == .parent) = true
      · rw [if_pos hp] at h
        cases h
        exact id
      rw [if_neg hp] at h
      cases hk : ts.kind f.type with
      | struct =>
        rw [hk] at h
        cases hv : check f.type with
        | error e' =>
          rw [hv] at h
          cases h
          exact hc _ _ hv
        | ok =>
          rw [hv] at h
          exact rest h
      | pointer =>
        rw [hk] at h
        dsimp only at h
        by_cases hn : f.name.isNone = true
        · rw [if_pos hn] at h
          cases h
          exact id
        · rw [if_neg hn] at h
          exact rest h
      | _ =>
        rw [hk] at h
        cases h
        exact id
    · rw [if_neg hi] at h
      exact rest h

/-- The check of inline fields has nothing to say about names. -/
theorem validate_error :
    ∀ {n : Nat} {path : List TypeId} {id : TypeId} {e : TypeError}, ts.validate n path id = .error e → ¬e.AboutName
  | n + 1, path, id, e, h => by
    rw [validate] at h
    split at h
    · cases h
    · exact validateFields_error (fun c e => validate_error) h

/-- Resolving ends in an error about a name just if it meets one that leads nowhere. The error is about such a
name. -/
theorem resolve_wrong (h : Later initial ts) (hm : (TypeOp.resolve lookup id).Mentions (· < ts.size)) :
    (∀ e, (ts.resolve lookup id).1 = .error e → e.AboutName → ∃ d, ReflTransGen (ts.Meets lookup) id d ∧
      ts.Wrong lookup d e) ∧
      ((∃ d e, ReflTransGen (ts.Meets lookup) id d ∧ ts.Wrong lookup d e) →
        ∃ e, (ts.resolve lookup id).1 = .error e ∧ e.AboutName) := by
  have hs := (h.keeps sane_initial).sane
  have htells : ts.Tells lookup [] id (resolveInner lookup (2 * ts.size + 2) [] id ts) :=
    walk_tells hs hm.2 h.open_of_deferred ⟨hm.1, List.forall_mem_nil _,
      .nil⟩ ((Grows.refl ts).fuelled id) hs (.refl ts)
  rw [resolve_eq, tied]
  rcases hw : resolveInner lookup (2 * ts.size + 2) [] id ts with ⟨e | found, ts₁⟩
  · rw [hw] at htells
    refine ⟨?_, fun _ => ?_⟩
    · rintro _ ⟨⟩ -
      exact htells.error rfl
    · obtain ⟨d, -, hwrong⟩ := htells.error rfl
      exact ⟨e, rfl, hwrong.about⟩
  · rw [hw] at htells
    constructor
    · intro e he hn
      dsimp only [andThen, answered] at he
      generalize (if (ts₁.get found).containsParent then ts₁.closeRoot found else (found, ts₁)) = r at he
      cases hv : r.2.validate (r.2.size + 1) [] r.1 with
      | ok =>
        rw [hv] at he
        cases he
      | error =>
        rw [hv] at he
        cases he
        exact absurd hn (validate_error hv)
    · rintro ⟨d, e, hd, hwrong⟩
      exact absurd hwrong (htells.well rfl (.of_meets hd))

/-- Names that lead to a cycle go on from there for ever. -/
theorem means_of_cycle (hc : ReflTransGen (ts.Means lookup) id c) (hcycle : ts.OnCycle lookup c)
    (hd : ReflTransGen (ts.Means lookup) id d) :
    ∃ b, ts.Means lookup d b := by
  have hgoes : ∃ b, TransGen (ts.Means lookup) d b := by
    obtain hcd | hdc := ReflTransGen.total_of_right_unique (fun _ _ _ h h' => h.unique h') hc hd
    · exact ⟨d, hcycle.steps hcd⟩
    · obtain rfl | hdc := Relation.reflTransGen_iff_eq_or_transGen.mp hdc
      · exact ⟨c, hcycle⟩
      · exact ⟨c, hdc⟩
  obtain ⟨_, hb⟩ := hgoes
  obtain ⟨b, hb, -⟩ := TransGen.head'_iff.mp hb
  exact ⟨b, hb⟩

/-- Names that lead to a cycle are seen to do so at once, and nothing joins the table. -/
theorem resolve_cycle (h : Later initial ts) (hm : (TypeOp.resolve lookup id).Mentions (· < ts.size))
    (hc : ReflTransGen (ts.Means lookup) id c) (hcycle : ts.OnCycle lookup c) :
    ∃ d name, ReflTransGen (ts.Means lookup) id d ∧ ts.OnCycle lookup d ∧ (ts.get d).shape = .deferred name ∧
      ts.resolve lookup id = (.error (.deferRecurses name), ts) := by
  obtain ⟨_, name, hs, -⟩ := means_of_cycle hc hcycle .refl
  cases hf : ts.followDefers lookup (ts.size + 1) [] id with
  | ok target =>
    have hnamed := named_of_followDefers hm.2 hm.1 hf
    obtain ⟨b, name, hname, -⟩ := means_of_cycle hc hcycle hnamed.means
    obtain ⟨t, ht, hd⟩ := hnamed.exists
    exact absurd (get_eq ht ▸ hname) (hd name)
  | error e =>
    have hr : ts.resolve lookup id = (.error e, ts) := by
      rw [resolve_eq, tied, resolveInner_visit rfl (h.open_of_deferred hs), visit, hs]
      dsimp only
      rw [hf]
      rfl
    obtain ⟨d, hd, hw⟩ := followDefers_error (List.forall_mem_nil _) hf
    obtain ⟨b, name', hname, hmeans⟩ := means_of_cycle hc hcycle hd
    cases hw with
    | recurses hs hd' => exact ⟨d, _, hd, hd', hs, hr⟩
    | missing hs hl | notAType hs hl =>
      cases hs.symm.trans hname
      rw [hl] at hmeans
      cases hmeans

/-- In every table that has come about by requests and for all names that mean types of it, resolving ends, without
a bound on how deep it goes. If names lead from the type to a cycle of names, that is what is said, of a name on the
cycle, and the table is as before. If that happens below the type or behind a name, it is said of a name met on a
cycle, and it is said of no others. -/
theorem resolve_ends (h : Later initial ts) (hm : (TypeOp.resolve lookup id).Mentions (· < ts.size)) :
    (∀ r, Program.Runs lookup (Program.resolving ts id) r ↔ r = ts.resolve lookup id) ∧
      (∀ c, ReflTransGen (ts.Means lookup) id c → ts.OnCycle lookup c →
        ∃ d name, ReflTransGen (ts.Means lookup) id d ∧ ts.OnCycle lookup d ∧ (ts.get d).shape = .deferred name ∧
          ts.resolve lookup id = (.error (.deferRecurses name), ts)) ∧
      ((∀ d name, ReflTransGen (ts.Meets lookup) id d → (ts.get d).shape = .deferred name →
        ∃ c, lookup name = .type c) →
        ((∃ name, (ts.resolve lookup id).1 = .error (.deferRecurses name)) ↔
          ∃ c, ReflTransGen (ts.Meets lookup) id c ∧ ts.OnCycle lookup c)) ∧
      ∀ name, (ts.resolve lookup id).1 = .error (.deferRecurses name) →
        ∃ d, ReflTransGen (ts.Meets lookup) id d ∧ ts.OnCycle lookup d ∧ (ts.get d).shape = .deferred name := by
  have hs := (h.keeps sane_initial).sane
  have hruns : Program.Runs lookup (Program.resolving ts id) (ts.resolve lookup id) :=
    Program.resolving_runs hs hm.1 hm.2
  obtain ⟨hwrong, hmet⟩ := resolve_wrong h hm
  have hsaid (name : NameId) (he : (ts.resolve lookup id).1 = .error (.deferRecurses name)) :
      ∃ d, ReflTransGen (ts.Meets lookup) id d ∧ ts.OnCycle lookup d ∧ (ts.get d).shape = .deferred name := by
    obtain ⟨d, hd, hw⟩ := hwrong _ he trivial
    cases hw with
    | recurses hs hc => exact ⟨d, hd, hc, hs⟩
  refine ⟨fun r => ⟨fun hr => hr.unique hruns, fun hr => hr ▸ hruns⟩,
    fun c hc hcycle => resolve_cycle h hm hc hcycle,
    fun hall => ⟨fun ⟨name, he⟩ => ?_, fun ⟨c, hc, hcycle⟩ => ?_⟩, hsaid⟩
  · obtain ⟨d, hd, hc, -⟩ := hsaid name he
    exact ⟨d, hd, hc⟩
  · obtain ⟨_, name, hs, -⟩ := means_of_cycle .refl hcycle .refl
    obtain ⟨e, he, hn⟩ := hmet ⟨c, _, hc, .recurses hs hcycle⟩
    obtain ⟨d, hd, hw⟩ := hwrong e he hn
    cases hw with
    | recurses => exact ⟨_, he⟩
    | missing hs hl | notAType hs hl =>
      obtain ⟨b, hb⟩ := hall d _ hd hs
      rw [hl] at hb
      cases hb

/-- A name that means itself does not resolve, nor does a pointer to it. -/
theorem resolve_ends_at_cycle : ∃ ts, Later initial ts ∧
    (∀ id ∈ [9, 10], (TypeOp.resolve (fun _ => .type 9) id).Mentions (· < ts.size)) ∧
    ts.resolve (fun _ => .type 9) 9 = (.error (.deferRecurses 100), ts) ∧
    Program.Runs (fun _ => .type 9) (Program.resolving ts 10) (ts.resolve (fun _ => .type 9) 10) ∧
    (ts.resolve (fun _ => .type 9) 10).1 = .error (.deferRecurses 100) := by
  obtain ⟨ts, hl, hh, hn, hp⟩ := cyclic_history
  have hm : ∀ id ∈ [9, 10], (TypeOp.resolve (fun _ => .type 9) id).Mentions (· < ts.size) := by
    intro id hid
    rw [hl.size]
    refine ⟨?_, fun _ _ he => ?_⟩
    · revert id
      decide
    · cases he
      decide
  have hloop : ts.Means (fun _ => .type 9) 9 9 := ⟨100, by rw [hn]; rfl, rfl⟩
  have hcycle : ts.OnCycle (fun _ => .type 9) 9 := .single hloop
  have hmet : ts.Meets (fun _ => .type 9) 10 9 :=
    .part (by rw [hp]; rfl) (by rw [hp]; exact List.mem_singleton_self 9)
  -- from the pointer, nothing but the name is met
  have honly {d : TypeId} (hd : ReflTransGen (ts.Meets fun _ => .type 9) 10 d) : d = 10 ∨ d = 9 := by
    induction hd with
    | refl => exact .inl rfl
    | tail _ hm ih =>
      cases hm with
      | name hm =>
        obtain ⟨_, -, he⟩ := hm
        cases he
        exact .inr rfl
      | part _ hc =>
        obtain rfl | rfl := ih
        · rw [hp] at hc
          exact .inr (List.mem_singleton.mp hc)
        · rw [hn] at hc
          cases hc
  have hname {d : TypeId} {name : NameId} (hd : ReflTransGen (ts.Meets fun _ => .type 9) 10 d)
    (hs : (ts.get d).shape = .deferred name) :
      name = 100 := by
    obtain rfl | rfl := honly hd
    · rw [hp] at hs
      cases hs
    · rw [hn] at hs
      cases hs
      rfl
  obtain ⟨-, hat, -, -⟩ := resolve_ends hh.later (hm 9 (by decide))
  obtain ⟨hruns, -, hbelow, hsaid⟩ := resolve_ends hh.later (hm 10 (by decide))
  obtain ⟨d, name, hd, -, hs, hr⟩ := hat 9 .refl hcycle
  cases hname (.head hmet (meets_of_means hd)) hs
  obtain ⟨name, hr'⟩ := (hbelow fun _ _ _ _ => ⟨9, rfl⟩).mpr ⟨9, .single hmet, hcycle⟩
  obtain ⟨d, hd, -, hs⟩ := hsaid name hr'
  cases hname hd hs
  exact ⟨ts, hh.later, hm, hr, (hruns _).mpr rfl, hr'⟩

end

end TypeTable

end LevelScript
