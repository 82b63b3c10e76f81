import LevelScript.Proofs.Unfolding

/-!
# Cycles tied from references

An open type with references to enclosing types is copied, and in the copy every reference is the copy that
it means. Types without references stay as they are.
-/

namespace LevelScript

namespace TypeTable

/-- Type `c` is the open type `o` with the references to enclosing types tied to the types of `stack`, the
innermost of which comes first. -/
inductive Closes (ts : TypeTable) : List TypeId → TypeId → TypeId → Prop where
  | whole {stack : List TypeId} {o : TypeId} {u : TypeInfo} : ts.types[o]? = some u → u.containsParent = false →
      Closes ts stack o o
  | marker {stack : List TypeId} {o c : TypeId} {u : TypeInfo} {k : Nat} : ts.types[o]? = some u →
      u.shape = .parent (k + 1) →
      stack[k]? = some c → o ∉ stack → Closes ts stack o c
  /-- There are not so many types around it. -/
  | stray {stack : List TypeId} {o : TypeId} {u : TypeInfo} {depth : Nat} : ts.types[o]? = some u →
      u.shape = .parent depth →
      depth = 0 ∨ stack[depth - 1]? = none → o ∉ stack → Closes ts stack o o
  | copy {stack : List TypeId} {o c : TypeId} {u w : TypeInfo} : ts.types[o]? = some u →
      (∀ depth, u.shape ≠ .parent depth) →
      u.containsParent = true → o ∉ stack → ts.types[c]? = some w → c ∉ stack → w.label = u.label →
      (∀ s d e, u.shape.next? s = some d → w.shape.next? s = some e → Closes ts (c :: stack) d e) →
          Closes ts stack o c

/-- All that is in the table stays there, but for the types of `stack`, which only stay without references. -/
structure GrowsBut (stack : List TypeId) (ts ts' : TypeTable) : Prop where
  same {id : TypeId} {t : TypeInfo} : id ∉ stack → ts.types[id]? = some t → ts'.types[id]? = some t
  whole {id : TypeId} {t : TypeInfo} : id ∈ stack → ts.types[id]? = some t → t.containsParent = false →
    ∃ t', ts'.types[id]? = some t' ∧ t'.containsParent = false

section
variable {ts ts' : TypeTable} {stack : List TypeId} {o c : TypeId}

theorem Grows.but (h : ts.Grows ts') (stack : List TypeId) : GrowsBut stack ts ts' :=
  ⟨fun _ => h _ _, fun _ ht hp => ⟨_, h _ _ ht, hp⟩⟩

theorem GrowsBut.mono (h : GrowsBut stack ts ts') (c : TypeId) : GrowsBut (c :: stack) ts ts' where
  same hid := h.same fun hm => hid (List.mem_cons_of_mem _ hm)
  whole {id t} _ ht hp := by
    by_cases hm : id ∈ stack
    · exact h.whole hm ht hp
    · exact ⟨t, h.same hm ht, hp⟩

theorem Closes.growsBut (h : Closes ts stack o c) (hg : GrowsBut stack ts ts') : Closes ts' stack o c := by
  induction h with
  | @whole stack o u hu hp =>
    by_cases hm : o ∈ stack
    · obtain ⟨u', hu', hp'⟩ := hg.whole hm hu hp
      exact .whole hu' hp'
    · exact .whole (hg.same hm hu) hp
  | marker hu hs hk ho => exact .marker (hg.same ho hu) hs hk ho
  | stray hu hs hk ho => exact .stray (hg.same ho hu) hs hk ho
  | @copy _ _ c _ _ hu hm hp ho hw hc hl _ ih =>
    exact .copy (hg.same ho hu) hm hp ho (hg.same hc hw) hc hl fun s d e hd he => ih s d e hd he (hg.mono c)

theorem Closes.grows (h : Closes ts stack o c) (hg : ts.Grows ts') : Closes ts' stack o c :=
  h.growsBut (hg.but stack)

end

/-! ## Copying -/

structure Copying (stack : List TypeId) (bound : TypeId) (ts : TypeTable) : Prop where
  sane : ts.Sane
  closed : ∀ s ∈ stack, ts.IsClosed s
  above : ∀ s ∈ stack, bound ≤ s
  inside : bound ≤ ts.size

theorem Copying.start {ts : TypeTable} (h : ts.Sane) : Copying [] ts.size ts :=
  ⟨h, List.forall_mem_nil _, List.forall_mem_nil _, Nat.le_refl _⟩

theorem Copying.grows {stack : List TypeId} {bound : TypeId} {ts ts' : TypeTable} (h : Copying stack bound ts)
    (ha : ts.Adds ts') : Copying stack bound ts' :=
  ⟨ha.sane, fun s hs => (h.closed s hs).grows ha.grows, h.above, h.inside.trans ha.grows.size_le⟩

/-- A copy is begun, and what the type is made of lies below it. -/
theorem Copying.copied {stack : List TypeId} {id bound : TypeId} {ts : TypeTable}
    (h : Copying stack bound ts) (hid : id < bound) :
    Copying (ts.size :: stack) id (ts.pushed (closedCopy (ts.get id))) := by
  have hsize : id < ts.size := Nat.lt_of_lt_of_le hid h.inside
  have hg := ts.pushed_grows (closedCopy (ts.get id))
  refine ⟨h.sane.pushed rfl rfl fun s c hn => ?_, ?_, ?_, (hg.lt hsize).le⟩
  · exact h.sane.next_lt (lookup_of_lt hsize) hn
  · exact List.forall_mem_cons.mpr ⟨⟨_, pushed_last .., rfl⟩, fun s hs => (h.closed s hs).grows hg⟩
  · exact List.forall_mem_cons.mpr ⟨hsize.le, fun s hs => hid.le.trans (h.above s hs)⟩

section
variable {α : Type} {close : TypeId → TypeTable → TypeId × TypeTable} {stack : List TypeId} {bound : TypeId}
  (hr : ∀ ts d, Copying stack bound ts → d < bound → ts.Adds (close d ts).2 ∧
    Closes (close d ts).2 stack d (close d ts).1)
include hr

theorem closeAll_closes {get : α → TypeId} {set : α → TypeId → α} :
    ∀ (as : List α) (ts : TypeTable), Copying stack bound ts →
    (∀ a ∈ as, get a < bound) → ts.Adds (closeAll close get set as ts).2 ∧
      List.Forall₂ (fun a a' => ∃ e, a' = set a e ∧ Closes (closeAll close get set as ts).2 stack (get a) e) as
        (closeAll close get set as ts).1
  | [], ts, h, _ => ⟨.refl h.sane, .nil⟩
  | a :: as, ts, h, ha => by
    obtain ⟨h₁, hc⟩ := hr ts _ h (ha a (List.mem_cons_self ..))
    obtain ⟨h₂, hcs⟩ := closeAll_closes as _ (h.grows h₁) fun b hb => ha b (List.mem_cons_of_mem _ hb)
    exact ⟨h₁.trans h₂, .cons ⟨_, rfl, hc.grows h₂.grows⟩ hcs⟩

theorem closeBelow_closes {ts : TypeTable} (h : Copying stack bound ts) {shape : TypeShape}
    (hb : ∀ s c, shape.next? s = some c → c < bound) : ts.Adds (closeBelow close shape ts).2 ∧
      shape.Alike (Closes (closeBelow close shape ts).2 stack) (closeBelow close shape ts).1 := by
  cases shape with
  | plain | deferred | parent => exact ⟨.refl h.sane, rfl, fun {s _ _} hc => by cases s <;> cases hc⟩
  | pointer base =>
    obtain ⟨h₁, hc⟩ := hr ts base h (hb .pointee base rfl)
    exact ⟨h₁, .pointer hc⟩
  | function result params =>
    obtain ⟨h₁, hc⟩ := hr ts result h (hb .result result rfl)
    obtain ⟨h₂, hcs⟩ := closeAll_closes hr params _ (h.grows h₁) fun p hp => by
      obtain ⟨s, hs⟩ := TypeShape.next?_param result hp
      exact hb s _ hs
    exact ⟨h₁.trans h₂, .function (hc.grows h₂.grows) hcs⟩
  | struct fields =>
    obtain ⟨h₁, hcs⟩ := closeAll_closes hr fields ts h fun f hf => by
      obtain ⟨s, hs⟩ := TypeShape.next?_field hf
      exact hb s _ hs
    exact ⟨h₁, .struct hcs⟩

end

/-- Only the place that was kept changes. -/
theorem growsBut_replaced {ts : TypeTable} {id : TypeId} {t : TypeInfo} (stack : List TypeId) (hid : id < ts.size)
    (hp : t.containsParent = false) : GrowsBut (id :: stack) ts (ts.replaced id t) where
  same hi hu := (replaced_other t fun he => hi (List.mem_cons.mpr (.inl he.symm))).trans hu
  whole {i u} _ hu hpu := by
    by_cases he : id = i
    · subst he
      exact ⟨t, replaced_same t hid, hp⟩
    · exact ⟨u, (replaced_other t he).trans hu, hpu⟩

theorem close_closes :
    ∀ {n : Nat} {stack : List TypeId} {id bound : TypeId} {ts : TypeTable}, Copying stack bound ts →
    id < bound → id < n → Closes (close n stack id ts).2 stack id (close n stack id ts).1
  | n + 1, stack, id, bound, ts, h, hid, hn => by
    have ht := lookup_of_lt (Nat.lt_of_lt_of_le hid h.inside)
    have hout : id ∉ stack := fun hm => Nat.not_le_of_lt hid (h.above id hm)
    refine close_cases (C := fun r => Closes r.2 stack id r.1) (.whole ht)
      (fun depth _ hm => ?marker) fun hp hm => ?copy
    case marker =>
      cases depth with
      | zero => exact .stray ht hm (.inl rfl) hout
      | succ k =>
        cases hk : stack[k]? with
        | none =>
          simp only [Nat.add_sub_cancel, hk]
          exact .stray ht hm (.inr hk) hout
        | some c =>
          simp only [Nat.add_sub_cancel, hk]
          exact .marker ht hm hk hout
    case copy =>
      have hlt (s : TypeStep) (c : TypeId) (hn : (ts.get id).shape.next? s = some c) : c < id :=
        h.sane.next_open ht (h.sane.open_of_marked ht hp) hn
      have hsize : id < ts.size := lt_of_lookup ht
      have hg := ts.pushed_grows (closedCopy (ts.get id))
      have hcopy := h.copied hid
      have hr (T : TypeTable) (d : TypeId) (hT : Copying (ts.size :: stack) id T) (hd : d < id) :
          T.Adds (close n (ts.size :: stack) d T).2 ∧
            Closes (close n (ts.size :: stack) d T).2 (ts.size :: stack) d (close n (ts.size :: stack) d T).1 :=
        ⟨(close_adds n _ d T hT.sane (Nat.lt_of_lt_of_le hd hT.inside) hT.closed).adds,
          close_closes hT hd (Nat.lt_of_lt_of_le hd (Nat.le_of_lt_succ hn))⟩
      -- The parts are copied below the new copy, which stands on the stack before its own parts are known.
      obtain ⟨h₂, halike⟩ := closeBelow_closes hr hcopy hlt
      generalize closeBelow (close n (ts.size :: stack)) (ts.get id).shape
        (ts.pushed (closedCopy (ts.get id))) = r at h₂ halike
      have hnew : ts.size < r.2.size := h₂.grows.lt (lt_of_lookup (ts.pushed_last _))
      have hbut :=
        growsBut_replaced stack hnew (r.2.withLayout_containsParent { closedCopy (ts.get id) with shape := r.1 })
      have hnot : ts.size ∉ stack := fun hs => by
        obtain ⟨t, ht, -⟩ := h.closed _ hs
        exact Nat.lt_irrefl _ (lt_of_lookup ht)
      refine .copy ?_ hm hp hout (replaced_same _ hnew) hnot ?_ fun s d e hd he => ?_
      · rw [replaced_other _ (Nat.ne_of_gt hsize)]
        exact h₂.grows _ _ (hg _ _ ht)
      · rw [TypeInfo.label_of_form (withLayout_form ..), TypeInfo.label, TypeInfo.label]
        exact congrArg (fun shape => ((ts.get id).kind, { (ts.get id).flags with closed := false },
          shape)) halike.label
      · rw [withLayout_next?] at he
        exact (halike.next hd he).growsBut hbut

def KnowsCopies (ts : TypeTable) : Prop := ∀ (o c : TypeId), ts.closed[o]? = some c → Closes ts [] o c

theorem KnowsCopies.grows {ts ts' : TypeTable} (h : ts.KnowsCopies) (hg : ts.Grows ts')
    (he : ts'.closed = ts.closed) :
    ts'.KnowsCopies := by
  intro o c hc
  rw [he] at hc
  exact (h o c hc).grows hg

theorem KnowsCopies.adds {ts ts' : TypeTable} (h : ts.KnowsCopies) (ha : ts.Adds ts') : ts'.KnowsCopies :=
  h.grows ha.grows ha.closed

theorem closeRoot_closes {ts : TypeTable} (h : ts.Sane) (ht : ts.KnowsCopies) {id : TypeId} (hid : id < ts.size) :
    (ts.closeRoot id).2.KnowsCopies ∧ Closes (ts.closeRoot id).2 [] id (ts.closeRoot id).1 := by
  cases hc : ts.closed[id]? with
  | some new =>
    rw [closeRoot_found hc]
    exact ⟨ht, ht id new hc⟩
  | none =>
    rw [closeRoot_new hc]
    have ha := (close_adds (ts.size + 1) [] id ts h hid nofun).adds
    have hcopy := Copying.start h
    have hcl := close_closes hcopy hid (hid.trans (Nat.lt_succ_self _))
    generalize close (ts.size + 1) [] id ts = r at ha hcl
    have hg : r.2.Grows (r.2.remembered id r.1) := fun _ _ h => h
    refine ⟨fun o c ho => ?_, hcl.grows hg⟩
    rw [remembered, Std.HashMap.getElem?_insert] at ho
    split at ho
    case isTrue he =>
      cases ho
      cases eq_of_beq he
      exact hcl.grows hg
    case isFalse => exact (ht.adds ha o c ho).grows hg

end TypeTable

end LevelScript
