import LevelScript.Proofs.Repeats

/-!
# Resolving without a bound

Resolving follows names, walks over a type, ties cycles and checks inline fields, and the definitions of all four
have a bound on their depth. Here they are as programs that call themselves and one another as deeply as they like.
For every type of a table such a program ends, whatever the names mean, and it comes to what the bounded definitions
give: they are never cut short.
-/

namespace LevelScript

namespace TypeTable

/-! ## Programs -/

inductive Call where
  /-- Follows names to a type that is none. -/
  | follow (visited : List TypeId) (id : TypeId)
  /-- Replaces names below a type. -/
  | walk (ancestors : List TypeId) (id : TypeId)
  /-- Copies a type that refers to enclosing types. -/
  | tie (stack : List TypeId) (id : TypeId)
  | check (path : List TypeId) (id : TypeId)

/-- It is done, or it calls and goes on with what the call comes to. -/
inductive Program where
  | done (r : Walked TypeId)
  | call (c : Call) (ts : TypeTable) (next : Walked TypeId → Program)

namespace Program

section
variable {α : Type}

def onOk (next : α → TypeTable → Program) : Walked α → Program
  | (.ok a, ts) => next a ts
  | (.error e, ts) => .done (.error e, ts)

def callAll (make : TypeId → Call) (get : α → TypeId) (set : α → TypeId → α) :
    List α → TypeTable → (List α → TypeTable → Program) → Program
  | [], ts, next => next [] ts
  | a :: as, ts, next =>
    .call (make (get a)) ts (onOk fun id ts => callAll make get set as ts fun as ts => next (set a id :: as) ts)

end

def callBelow (make : TypeId → Call) : TypeShape → TypeTable → (TypeShape → TypeTable → Program) → Program
  | .pointer base, ts, next => .call (make base) ts (onOk fun base ts => next (.pointer base) ts)
  | .function result params, ts, next =>
    .call (make result) ts (onOk fun result ts =>
      callAll make Param.type setParamType params ts fun params ts => next (.function result params) ts)
  | .struct fields, ts, next => callAll make Field.type setFieldType fields ts fun fields ts =>
    next (.struct fields) ts
  | shape, ts, next => next shape ts

/-- Goes on if the inline fields are structs that pass the check, or named pointers. -/
def checkInline (path : List TypeId) (ts : TypeTable) (next : Program) : List Field → Program
  | [] => next
  | f :: fs =>
    if f.inlined.isSome then
      let kind := ts.kind f.type
      if path.contains f.type || kind == .parent then .done (.error (.inlineRecurses f.name), ts)
      else match kind with
        | .struct => .call (.check path f.type) ts (onOk fun _ _ => checkInline path ts next fs)
        | .pointer => if f.name.isNone then .done (.error .inlinePointerUnnamed, ts)
          else checkInline path ts next fs
        | _ => .done (.error (.inlineNotComposite f.name), ts)
    else checkInline path ts next fs

def body (lookup : Lookup) (ts : TypeTable) : Call → Program
  | .follow visited id =>
    match (ts.get id).shape with
    | .deferred name =>
      if visited.contains id then .done (.error (.deferRecurses name), ts)
      else match lookup name with
        | .missing => .done (.error (.deferNotFound name), ts)
        | .notAType => .done (.error (.deferNotAType name), ts)
        | .type target => .call (.follow (id :: visited) target) ts .done
    | _ => .done (.ok id, ts)
  | .walk ancestors id =>
    match ancestors.idxOf? id with
    | some k => .done (answered (ts.parentRef (k + 1)))
    | none =>
      let t := ts.get id
      if t.flags.closed then .done (.ok id, ts)
      else match t.shape with
        | .plain | .parent _ => .done (.ok id, ts)
        | .deferred _ =>
          .call (.follow [] id) ts (onOk fun target ts =>
            .call (.walk ancestors target) ts (onOk fun found ts => .done (orMarker ancestors found ts)))
        | shape =>
          callBelow (.walk (id :: ancestors)) shape ts fun shape ts =>
            .done (answered (ts.register (ts.withLayout { t with shape })))
  | .tie stack id =>
    let t := ts.get id
    if !t.containsParent then .done (.ok id, ts)
    else match t.shape with
      | .parent depth => .done (.ok (if depth = 0 then id else (stack[depth - 1]?).getD id), ts)
      | shape =>
        callBelow (.tie (ts.size :: stack)) shape (ts.pushed (closedCopy t)) fun shape T =>
          .done (.ok ts.size, T.replaced ts.size (T.withLayout { closedCopy t with shape }))
  | .check path id =>
    if ts.kind id != .struct then .done (.ok id, ts)
    else checkInline (id :: path) ts (.done (.ok id, ts)) (ts.get id).fields

def resolving (ts : TypeTable) (id : TypeId) : Program :=
  .call (.walk [] id) ts (onOk fun found ts =>
    if (ts.get found).containsParent then
      match ts.closed[found]? with
      | some c => .call (.check [] c) ts .done
      | none => .call (.tie [] found) ts (onOk fun new T => .call (.check [] new) (T.remembered found new) .done)
    else .call (.check [] found) ts .done)

/-- A program ends, and this is what it comes to. -/
inductive Runs (lookup : Lookup) : Program → Walked TypeId → Prop where
  | done {r : Walked TypeId} : Runs lookup (.done r) r
  | call {c : Call} {ts : TypeTable} {next : Walked TypeId → Program} {r r' : Walked TypeId} :
      Runs lookup (body lookup ts c) r → Runs lookup (next r) r' → Runs lookup (.call c ts next) r'

section
variable {lookup : Lookup}

/-- A program does not end in two ways. -/
theorem Runs.unique {p : Program} {r r' : Walked TypeId} (h : Runs lookup p r) (h' : Runs lookup p r') :
    r = r' := by
  induction h generalizing r' with
  | done =>
    cases h'
    rfl
  | call _ _ ih ih' =>
    cases h' with
    | call hc hn =>
      cases ih hc
      exact ih' hn

/-! ## Calls for what a type is made of -/

section
variable {α β : Type}

theorem onOk_andThen (next : β → TypeTable → Program) (x : Walked α) (f : α → TypeTable → Walked β) :
    onOk next (andThen x f) = onOk (fun a ts => onOk next (f a ts)) x := by
  rcases x with ⟨_ | _, _⟩ <;> rfl

theorem runs_onOk {c : Call} {ts : TypeTable} {next : TypeId → TypeTable → Program} {x r : Walked TypeId}
    (h : Runs lookup (body lookup ts c) x) (hn : Runs lookup (onOk next x) r) :
    Runs lookup (.call c ts (onOk next)) r := .call h hn

variable {Good : TypeTable → Prop} {P : TypeId → Prop} {make : TypeId → Call} {resolve : TypeId → Resolver TypeId}
  (hr : ∀ ts c, Good ts → P c → Good (resolve c ts).2 ∧ Runs lookup (body lookup ts (make c)) (resolve c ts))
include hr

theorem callAll_runs {get : α → TypeId} {set : α → TypeId → α} : ∀ {as : List α} {ts : TypeTable}
    {next : List α → TypeTable → Program} {r : Walked TypeId}, Good ts → (∀ a ∈ as, P (get a)) →
      Runs lookup (onOk next (resolveAll resolve get set as ts)) r → Runs lookup (callAll make get set as ts next) r
  | [], _, _, _, _, _, h => h
  | a :: as, ts, next, r, hg, hp, h => by
    rw [List.forall_mem_cons] at hp
    obtain ⟨hg₁, hrun⟩ := hr ts (get a) hg hp.1
    rw [resolveAll_cons, onOk_andThen] at h
    refine runs_onOk hrun ?_
    rcases hx : resolve (get a) ts with ⟨e | id, ts₁⟩
    · rwa [hx] at h
    · rw [hx] at h hg₁
      refine callAll_runs hg₁ hp.2 ?_
      rwa [onOk, onOk_andThen] at h

theorem callBelow_runs {shape : TypeShape} {ts : TypeTable} {next : TypeShape → TypeTable → Program}
    {r : Walked TypeId} (hg : Good ts) (hp : ∀ s c, shape.next? s = some c → P c)
    (h : Runs lookup (onOk next (resolveBelow resolve shape ts)) r) :
    Runs lookup (callBelow make shape ts next) r := by
  cases shape with
  | plain | deferred | parent => exact h
  | pointer base =>
    refine runs_onOk (hr ts base hg (hp .pointee base rfl)).2 ?_
    rwa [resolveBelow, onOk_andThen] at h
  | function result params =>
    obtain ⟨hg₁, hrun⟩ := hr ts result hg (hp .result result rfl)
    rw [resolveBelow, onOk_andThen] at h
    refine runs_onOk hrun ?_
    rcases hx : resolve result ts with ⟨e | id, ts₁⟩
    · rwa [hx] at h
    · rw [hx] at h hg₁
      refine callAll_runs hr hg₁ (fun p hm => ?_) ?_
      · obtain ⟨s, hn⟩ := TypeShape.next?_param result hm
        exact hp s _ hn
      · rwa [onOk, onOk_andThen] at h
  | struct fields =>
    refine callAll_runs hr hg (fun f hf => ?_) ?_
    · obtain ⟨s, hn⟩ := TypeShape.next?_field hf
      exact hp s _ hn
    · rwa [resolveBelow, onOk_andThen] at h

end

/-! ## Names -/

/-- Following names ends in every table: what has been visited differs. -/
theorem follow_runs {ts : TypeTable} : ∀ {n : Nat} {visited : List TypeId} {id : TypeId}, visited.Nodup →
    (∀ v ∈ visited, v < ts.size) →
    ts.size + 1 ≤ n + visited.length → Runs lookup (body lookup ts (.follow visited id))
    (ts.followDefers lookup n visited id, ts)
  | 0, visited, _, hd, hv, hn => by
    have hle := length_le_size hd hv
    omega
  | n + 1, visited, id, hd, hv, hn => by
    rw [body, followDefers]
    cases hs : (ts.get id).shape with
    | deferred name =>
      dsimp only
      by_cases hc : visited.contains id = true
      · rw [if_pos hc, if_pos hc]
        exact .done
      rw [if_neg hc, if_neg hc]
      cases ht : lookup name with
      | missing | notAType => exact .done
      | type target =>
        have hlt : id < ts.size := by
          refine Nat.lt_of_not_le fun hge => ?_
          rw [get, Array.getElem?_eq_none hge] at hs
          cases hs
        refine .call (follow_runs (n := n) (List.nodup_cons.mpr ⟨fun hm => hc (List.contains_iff_mem.mpr hm), hd⟩)
          (List.forall_mem_cons.mpr ⟨hlt, hv⟩) ?_) .done
        rw [List.length_cons]
        omega
    | _ => exact .done

/-! ## The walk -/

theorem walk_runs {ts₀ : TypeTable} (h₀ : ts₀.Sane)
    (hl : ∀ name target, lookup name = .type target → target < ts₀.size) :
    ∀ {n : Nat} {A : List TypeId} {id : TypeId} {ts : TypeTable}, Placed ts₀ A id → Fuelled ts₀ n A id →
    ts.Sane → ts₀.Grows ts →
      Runs lookup (body lookup ts (.walk A id)) (resolveInner lookup n A id ts) := by
  intro n
  induction n with
  | zero =>
    intro A id ts hp hn
    obtain ⟨k, hk⟩ := hn.pos hp
    cases hk
  | succ n ih =>
    intro A id ts hp hn h hg
    rw [body]
    cases hk : A.idxOf? id with
    | some k =>
      rw [resolveInner_ancestor hk]
      exact .done
    | none =>
      dsimp only
      by_cases hc : (ts.get id).flags.closed = true
      · rw [if_pos hc, resolveInner_closed hk hc]
        exact .done
      have ho : (ts.get id).flags.closed = false := Bool.eq_false_iff.mpr hc
      have hout : id ∉ A := List.idxOf?_eq_none_iff.mp hk
      have hget := hg.get hp.inside
      have ht := lookup_of_lt hp.inside
      rw [if_neg hc, resolveInner_visit hk ho, visit]
      -- The composed shapes differ only in what is put together after the calls.
      have below (shape : TypeShape) (hs : (ts.get id).shape = shape)
          {next : TypeShape → TypeTable → Walked TypeId} :
          Runs lookup (callBelow (.walk (id :: A)) shape ts fun shape ts => .done (next shape ts))
            (andThen (resolveBelow (resolveInner lookup n (id :: A)) shape ts) next) := by
        subst hs
        have calls (T : TypeTable) (c : TypeId) (hT : T.Sane ∧ ts₀.Grows T) (hc : c < ts₀.size) :
            ((resolveInner lookup n (id :: A) c T).2.Sane ∧ ts₀.Grows (resolveInner lookup n (id :: A) c T).2) ∧
              Runs lookup (body lookup T (.walk (id :: A) c)) (resolveInner lookup n (id :: A) c T) := by
          have ha := (resolveInner_lands hl n (id :: A) c T hT.1 hT.2.size_le (hT.2.lt hc)).adds
          exact ⟨⟨ha.sane, hT.2.trans ha.grows⟩, ih (hp.below hout hc) hn.below hT.1 hT.2⟩
        refine callBelow_runs calls ⟨h, hg⟩ ?_ ?_
        · intro s c hs
          rw [hget] at hs
          exact h₀.next_lt ht hs
        · rcases resolveBelow (resolveInner lookup n (id :: A)) (ts.get id).shape ts with ⟨_ | _, _⟩ <;> exact .done
      cases hs : (ts.get id).shape with
      | plain | parent => exact .done
      | pointer | function | struct => exact below _ hs
      | deferred name =>
        dsimp only
        have hs₀ : (ts₀.get id).shape = .deferred name := hget ▸ hs
        refine runs_onOk (follow_runs (n := ts.size + 1) .nil (List.forall_mem_nil _) (Nat.le_refl _)) ?_
        have hsame : ts.followDefers lookup (ts.size + 1) [] id = ts₀.followDefers lookup (ts₀.size + 1) [] id :=
          hg.followDefers_from hl (fun _ _ _ => rfl) hp.inside
        -- The walk has only added types, so the names below still lead where they led in the first table.
        rw [hsame]
        cases he : ts₀.followDefers lookup (ts₀.size + 1) [] id with
        | error e => exact .done
        | ok target =>
          obtain ⟨hptarget, hfuel⟩ := hp.named hl hs₀ he
          refine runs_onOk (ih hptarget (hfuel hn) h hg) ?_
          dsimp only [andThen]
          rcases resolveInner lookup n A target ts with ⟨_ | _, _⟩ <;> exact .done

/-! ## Cycles -/

section
variable {α : Type} {close : TypeId → TypeTable → TypeId × TypeTable} {ts : TypeTable}

/-- What cannot fail, as a step of a walk. -/
def sure (close : TypeId → TypeTable → TypeId × TypeTable) : TypeId → Resolver TypeId :=
  fun c ts => answered (close c ts)

theorem resolveAll_sure {get : α → TypeId} {set : α → TypeId → α} : ∀ {as : List α} {ts : TypeTable},
    resolveAll (sure close) get set as ts = answered (closeAll close get set as ts)
  | [], _ => rfl
  | a :: as, ts => by
    rw [resolveAll_cons]
    show andThen (resolveAll (sure close) get set as (close (get a) ts).2) _ = _
    rw [resolveAll_sure]
    rfl

theorem resolveBelow_sure {shape : TypeShape} :
    resolveBelow (sure close) shape ts = answered (closeBelow close shape ts) := by
  cases shape with
  | plain | deferred | parent | pointer => rfl
  | function result params =>
    show andThen (resolveAll (sure close) Param.type setParamType params (close result ts).2) _ = _
    rw [resolveAll_sure]
    rfl
  | struct fields =>
    rw [resolveBelow, resolveAll_sure]
    rfl

end

theorem tie_runs : ∀ {n : Nat} {stack : List TypeId} {id bound : TypeId} {ts : TypeTable},
    Copying stack bound ts → id < bound → id < n →
    Runs lookup (body lookup ts (.tie stack id)) (answered (close n stack id ts))
  | n + 1, stack, id, bound, ts, h, hid, hn => by
    have ht := lookup_of_lt (Nat.lt_of_lt_of_le hid h.inside)
    rw [body]
    dsimp only
    by_cases hp : (ts.get id).containsParent = true
    · rw [if_neg (by rw [hp]; decide)]
      have below (shape : TypeShape) (hs : (ts.get id).shape = shape) (hm : ∀ depth, shape ≠ .parent depth) :
          Runs lookup (callBelow (.tie (ts.size :: stack)) shape (ts.pushed (closedCopy (ts.get id))) fun shape T =>
            .done (.ok ts.size, T.replaced ts.size (T.withLayout { closedCopy (ts.get id) with shape })))
            (answered (close (n + 1) stack id ts)) := by
        subst hs
        rw [close_copy hp hm]
        have calls (T : TypeTable) (c : TypeId) (hT : Copying (ts.size :: stack) id T) (hc : c < id) :
            Copying (ts.size :: stack) id (sure (close n (ts.size :: stack)) c T).2 ∧
              Runs lookup (body lookup T (.tie (ts.size :: stack) c)) (sure (close n (ts.size :: stack)) c T) :=
          ⟨hT.grows (close_adds n _ c T hT.sane (Nat.lt_of_lt_of_le hc hT.inside) hT.closed).adds,
            tie_runs hT hc (Nat.lt_of_lt_of_le hc (Nat.le_of_lt_succ hn))⟩
        refine callBelow_runs calls (h.copied hid) ?_ ?_
        · intro s c hs
          exact h.sane.next_open ht (h.sane.open_of_marked ht hp) hs
        · rw [resolveBelow_sure]
          exact .done
      cases hs : (ts.get id).shape with
      | parent depth =>
        rw [close_marker hp hs]
        exact .done
      | plain | pointer | function | struct | deferred => exact below _ hs nofun
    · rw [close_whole (Bool.eq_false_iff.mpr hp), if_pos (by rw [Bool.eq_false_iff.mpr hp]; decide)]
      exact .done

/-! ## Inline fields -/

theorem checkInline_runs {ts : TypeTable} {path : List TypeId} {check : TypeId → Except TypeError Unit}
    {next : Program} {r : Walked TypeId} :
    ∀ {fields : List Field}, (∀ f ∈ fields, f.type ∉ path → ts.kind f.type = .struct →
        Runs lookup (body lookup ts (.check path f.type)) ((check f.type).map fun _ => f.type, ts)) →
      Runs lookup (onOk (fun _ _ => next) (ts.validateFields path check fields, ts)) r → Runs lookup
      (checkInline path ts next fields) r
  | [], _, h => h
  | f :: fs, hc, h => by
    rw [List.forall_mem_cons] at hc
    have rest : Runs lookup (onOk (fun _ _ => next) (ts.validateFields path check fs, ts)) r →
        Runs lookup (checkInline path ts next fs) r :=
      checkInline_runs hc.2
    rw [validateFields] at h
    rw [checkInline]
    by_cases hi : f.inlined.isSome = true
    · rw [if_pos hi] at h ⊢
      dsimp only at h ⊢
      by_cases hp : (path.contains f.type || ts.kind f.type == .parent) = true
      · rw [if_pos hp] at h ⊢
        exact h
      rw [if_neg hp] at h ⊢
      have hout : f.type ∉ path := by
        intro hm
        simp [hm] at hp
      cases hk : ts.kind f.type with
      | struct =>
        rw [hk] at h
        refine runs_onOk (hc.1 hout hk) ?_
        cases hv : check f.type with
        | error e =>
          rw [hv] at h
          exact h
        | ok =>
          rw [hv] at h
          exact rest h
      | pointer =>
        rw [hk] at h
        dsimp only at h ⊢
        by_cases hn : f.name.isNone = true
        · rw [if_pos hn] at h ⊢
          exact h
        · rw [if_neg hn] at h ⊢
          exact rest h
      | _ =>
        rw [hk] at h
        exact h
    · rw [if_neg hi] at h ⊢
      exact rest h

/-- The structs around a struct differ, so that the check ends. -/
theorem check_runs {ts : TypeTable} : ∀ {n : Nat} {path : List TypeId} {id : TypeId}, path.Nodup →
    (∀ p ∈ path, p < ts.size) →
    id ∉ path → ts.size + 1 ≤ n + path.length →
    Runs lookup (body lookup ts (.check path id)) ((ts.validate n path id).map fun _ => id, ts)
  | 0, path, _, hd, hp, _, hn => by
    have hle := length_le_size hd hp
    omega
  | n + 1, path, id, hd, hp, hid, hn => by
    rw [body, validate]
    by_cases hk : ts.kind id = .struct
    · have hk' : ¬((ts.get id).kind != .struct) = true := by simp [show (ts.get id).kind = .struct from hk]
      rw [if_neg hk', if_neg (by simp [hk])]
      have checks : ∀ f ∈ (ts.get id).fields, f.type ∉ id :: path → ts.kind f.type = .struct →
          Runs lookup (body lookup ts (.check (id :: path) f.type))
              ((ts.validate n (id :: path) f.type).map fun _ => f.type, ts) := by
        intro f _ hout _
        refine check_runs (List.nodup_cons.mpr ⟨hid, hd⟩) (List.forall_mem_cons.mpr ⟨lt_of_struct hk, hp⟩) hout ?_
        rw [List.length_cons]
        omega
      refine checkInline_runs checks ?_
      cases ts.validateFields (id :: path) (ts.validate n (id :: path)) (ts.get id).fields <;> exact .done
    · have hk' : ((ts.get id).kind != .struct) = true := bne_iff_ne.mpr hk
      rw [if_pos hk', if_pos (bne_iff_ne.mpr hk)]
      exact .done

/-! ## Resolving -/

theorem runs_checked {ts : TypeTable} {id : TypeId} :
    Runs lookup (.call (.check [] id) ts .done) (do ts.validate (ts.size + 1) [] id; return id, ts) := by
  refine .call (check_runs (n := ts.size + 1) .nil (List.forall_mem_nil _) List.not_mem_nil (Nat.le_refl _)) ?_
  cases ts.validate (ts.size + 1) [] id <;> exact .done

theorem resolving_runs {ts : TypeTable} {id : TypeId} (h : ts.Sane) (hid : id < ts.size)
    (hl : ∀ name target, lookup name = .type target → target < ts.size) :
    Runs lookup (resolving ts id) (ts.resolve lookup id) := by
  obtain ⟨ha, hr⟩ := resolveInner_lands hl (2 * ts.size + 2) [] id ts h (Nat.le_refl _) hid
  have hp : Placed ts [] id := ⟨hid, List.forall_mem_nil _, .nil⟩
  refine runs_onOk (walk_runs h hl hp ((Grows.refl ts).fuelled id) h (.refl ts)) ?_
  rw [resolve_eq, tied]
  rcases hw : resolveInner lookup (2 * ts.size + 2) [] id ts with ⟨e | found, ts₁⟩
  · exact .done
  rw [hw] at ha hr
  have hlt : found < ts₁.size := hr rfl
  dsimp only [onOk, andThen, answered]
  by_cases hc : (ts₁.get found).containsParent = true
  · rw [if_pos hc, if_pos hc]
    cases hm : ts₁.closed[found]? with
    | some c =>
      rw [closeRoot_found hm]
      exact runs_checked
    | none =>
      rw [closeRoot_new hm]
      have hcopy := Copying.start ha.sane
      exact runs_onOk (tie_runs (n := ts₁.size + 1) hcopy hlt (hlt.trans (Nat.lt_succ_self _))) runs_checked
  · rw [if_neg hc, if_neg hc]
    exact runs_checked

end

end Program

end TypeTable

end LevelScript
