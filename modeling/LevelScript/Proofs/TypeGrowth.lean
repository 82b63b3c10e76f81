import LevelScript.Types.Resolve

/-!
# The table of types only grows

Whatever is asked of the table, also for a number that is no type of it, all that is in the table stays
there under its index. A closed type is set twice, but both times at an index that was new.
-/

namespace LevelScript

namespace TypeTable

/-- All that is in the table stays there. -/
def Grows (ts ts' : TypeTable) : Prop := ∀ (id : TypeId) (t : TypeInfo), ts.types[id]? = some t →
    ts'.types[id]? = some t

theorem Grows.refl (ts : TypeTable) : ts.Grows ts := fun _ _ h => h

theorem Grows.trans {ts ts' ts'' : TypeTable} (h : ts.Grows ts') (h' : ts'.Grows ts'') : ts.Grows ts'' :=
  fun id t ht => h' id t (h id t ht)

def added (ts : TypeTable) (t : TypeInfo) : TypeTable :=
  { ts with types := ts.types.push t, interned := ts.interned.insert t.hash ts.types.size }

theorem added_grows (ts : TypeTable) (t : TypeInfo) : ts.Grows (ts.added t) := by
  intro id u h
  have hid := (Array.getElem?_eq_some_iff.mp h).1
  rw [added, Array.getElem?_push, if_neg (Nat.ne_of_lt hid), h]

theorem added_last (ts : TypeTable) (t : TypeInfo) : (ts.added t).types[ts.types.size]? = some t := by
  rw [added, Array.getElem?_push, if_pos rfl]

/-! ## Requests -/

section
variable (ts : TypeTable) (id : TypeId)

theorem register_grows (t : TypeInfo) : ts.Grows (ts.register t).2 := by
  unfold register
  dsimp only
  split
  · exact .refl ts
  · exact ts.added_grows _

theorem primitive_grows (kind : Kind) : ts.Grows (ts.primitive kind).2 := by
  unfold primitive
  split
  · exact .refl ts
  · exact ts.register_grows _

theorem unsign_grows : ts.Grows (ts.unsign id).2 := by
  unfold unsign
  dsimp only
  split
  · exact .refl ts
  · exact ts.register_grows _

theorem constClosed_grows : ts.Grows (ts.constClosed id).2 := by
  unfold constClosed
  split
  · exact .refl ts
  · exact ts.added_grows _

theorem constant_grows : ts.Grows (ts.constant id).2 := by
  unfold constant
  dsimp only
  split
  · exact ts.constClosed_grows id
  · exact ts.register_grows _

theorem mutableOf_grows : ts.Grows (ts.mutableOf id).2 := by
  unfold mutableOf
  dsimp only
  split
  · exact .refl ts
  · exact ts.register_grows _

theorem pointer_grows : ts.Grows (ts.pointer id).2 := ts.register_grows _

theorem function_grows (params : List Param) (assignable : Bool) : ts.Grows (ts.function id params assignable).2 :=
  ts.register_grows _

theorem deferred_grows (name : NameId) : ts.Grows (ts.deferred name).2 := ts.register_grows _

theorem struct_grows {fields : List Field} {base : Option TypeId} {r : TypeId × TypeTable}
    (h : ts.struct fields base = .ok r) : ts.Grows r.2 := by
  unfold struct at h
  dsimp only at h
  let bases : List Field :=
    base.toList.map fun b => { name := some NameId.super, type := b, inlined := some 1, place := .absolute 0 }
  cases hc : ts.checkFields [] (bases ++ fields) with
  | error e =>
    rw [hc] at h
    cases h
  | ok u =>
    rw [hc] at h
    cases h
    exact ts.register_grows _

end

/-! ## Resolving -/

def Growing (x : Resolver α) : Prop := ∀ ts : TypeTable, ts.Grows (x ts).2

namespace Growing

variable {α β : Type} {x : Resolver α} {f : α → Resolver β}

protected theorem pure (a : α) : Growing (pure a) := fun ts => .refl ts

protected theorem bind (hx : Growing x) (hf : ∀ a, Growing (f a)) : Growing (x >>= f) := by
  intro ts
  have h := hx ts
  simp only [Bind.bind, ExceptT.bind, ExceptT.mk, StateT.bind, ExceptT.bindCont]
  cases hr : x ts with
  | mk r ts₁ =>
    rw [hr] at h
    cases r with
    | ok a => exact h.trans (hf a ts₁)
    | error e => exact h

protected theorem map {g : α → β} (hx : Growing x) : Growing (g <$> x) := hx.bind fun a => .pure (g a)

theorem modifyGet {g : TypeTable → α × TypeTable} (hg : ∀ ts : TypeTable, ts.Grows (g ts).2) :
    Growing (modifyGet g : Resolver α) := hg

theorem table : Growing (getThe TypeTable : Resolver TypeTable) := fun ts => .refl ts

theorem lift (r : Except TypeError α) : Growing (liftM r : Resolver α) := fun ts => by
  cases r <;> exact .refl ts

end Growing

theorem ancestorRef_growing (id : TypeId) (ancestors : List TypeId) : Growing (ancestorRef id ancestors) := by
  unfold ancestorRef
  split
  · exact .pure _
  · exact .map (.modifyGet fun ts => ts.register_grows _)

theorem resolveAll_growing {resolve : TypeId → Resolver TypeId} (hr : ∀ id, Growing (resolve id)) (get : α → TypeId)
    (set : α → TypeId → α) : ∀ as : List α, Growing (resolveAll resolve get set as)
  | [] => .pure _
  | a :: as => .bind (hr (get a)) fun _ => .bind (resolveAll_growing hr get set as) fun _ => .pure _

theorem resolveInner_growing (lookup : Lookup) : ∀ (n : Nat) (ancestors : List TypeId) (id : TypeId),
    Growing (resolveInner lookup n ancestors id)
  | 0, _, _ => .pure _
  | n + 1, ancestors, id => by
    have below := resolveInner_growing lookup n (id :: ancestors)
    rw [resolveInner]
    refine .bind (ancestorRef_growing id ancestors) fun parent => ?_
    cases parent with
    | some parent => exact .pure _
    | none =>
      refine .bind .table fun ts => ?_
      dsimp only
      split
      · exact .pure _
      · split
        · exact .bind (.lift _) fun target => .bind (resolveInner_growing lookup n ancestors target) fun found =>
            .bind (ancestorRef_growing found ancestors) fun _ => .pure _
        · exact .bind (below _) fun _ => .modifyGet fun ts => ts.register_grows _
        · exact .bind (below _) fun _ => .bind (resolveAll_growing below _ _ _) fun _ =>
            .modifyGet fun ts => ts.register_grows _
        · exact .bind (resolveAll_growing below _ _ _) fun _ => .modifyGet fun ts => ts.register_grows _
        · exact .pure _

theorem closeAll_grows {close : TypeId → TypeTable → TypeId × TypeTable}
    (hc : ∀ id (ts : TypeTable), ts.Grows (close id ts).2) (get : α → TypeId) (set : α → TypeId → α) :
    ∀ (as : List α) (ts : TypeTable), ts.Grows (closeAll close get set as ts).2
  | [], ts => .refl ts
  | a :: as, ts => (hc (get a) ts).trans (closeAll_grows hc get set as _)

/-- What is set at a new index changes nothing that was there. -/
theorem Grows.set_new {ts ts' : TypeTable} (h : ts.Grows ts') (t : TypeInfo) :
    ts.Grows { ts' with types := ts'.types.setIfInBounds ts.types.size t } := by
  intro id u hu
  have hid := (Array.getElem?_eq_some_iff.mp hu).1
  rw [Array.getElem?_setIfInBounds, if_neg (Nat.ne_of_gt hid)]
  exact h id u hu

theorem close_grows :
    ∀ (n : Nat) (stack : List TypeId) (id : TypeId) (ts : TypeTable), ts.Grows (close n stack id ts).2
  | 0, _, _, ts => .refl ts
  | n + 1, stack, id, ts => by
    have below := close_grows n (ts.types.size :: stack)
    have opened (t : TypeInfo) : ts.Grows { ts with types := ts.types.push t } := ts.added_grows t
    unfold close
    dsimp only
    split
    · exact .refl ts
    · split
      · split <;> exact .refl ts
      · exact ((opened _).trans (below _ _)).set_new _
      · exact (((opened _).trans (below _ _)).trans (closeAll_grows below _ _ _ _)).set_new _
      · exact ((opened _).trans (closeAll_grows below _ _ _ _)).set_new _
      · exact (opened _).set_new _

theorem closeRoot_grows (ts : TypeTable) (id : TypeId) : ts.Grows (ts.closeRoot id).2 := by
  unfold closeRoot
  split
  · exact .refl ts
  · exact close_grows _ _ _ ts

theorem resolve_grows (ts : TypeTable) (lookup : Lookup) (id : TypeId) : ts.Grows (ts.resolve lookup id).2 := by
  have h := resolveInner_growing lookup (2 * ts.size + 2) [] id ts
  unfold resolve
  split
  case h_1 e ts₁ hr =>
    rw [hr] at h
    exact h
  case h_2 o ts₁ hr =>
    rw [hr] at h
    dsimp only
    split
    all_goals
      split
      all_goals first | exact h | exact h.trans (ts₁.closeRoot_grows o)

end TypeTable

end LevelScript
