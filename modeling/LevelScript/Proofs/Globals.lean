import LevelScript.Proofs.Binding
import LevelScript.Proofs.Quiescence

/-!
# Global variables

What a level declares stays there until it is closed, whatever runs, and the outermost level is not closed by
a run. So the global variables of a program stay from one run to the next, and so do the types of its table.
-/

namespace LevelScript

theorem Scopes.Declares.shallower (s : Scopes) : s.Declares (s.depth - 1) s.outer := by
  refine .of_eq fun k name hk => ?_
  show (s.levels.pop[k]?).bind _ = _
  rw [Array.getElem?_pop, if_pos (by rw [depth] at hk; omega)]
  rfl

theorem Scopes.Declares.deeper (s : Scopes) : s.Declares s.depth s.push := by
  refine .of_eq fun k name hk => ?_
  show ((s.levels.push {})[k]?).bind _ = _
  rw [Array.getElem?_push_lt hk, Scopes.var?, Array.getElem?_eq_getElem hk]

/-- At least `d` levels, and the first `d` have the variables that they had. No type goes away. -/
structure Declared (d : Nat) (m m' : Machine) : Prop where
  depth : d ≤ m'.scopes.depth
  declares : m.scopes.Declares d m'.scopes
  types : m.types.Grows m'.types

namespace Declared

variable {d e : Nat} {a b c m m' : Machine}

theorem of_scopes (h : m'.scopes = m.scopes) (ht : m'.types = m.types) : Declared m.scopes.depth m m' :=
  ⟨Nat.le_of_eq (h ▸ rfl), .of_eq fun k name _ => by rw [h], ht ▸ .refl _⟩

theorem trans (h : Declared d a b) (h' : Declared b.scopes.depth b c) : Declared d a c :=
  ⟨Nat.le_trans h.depth h'.depth, h.declares.trans h'.declares h.depth, h.types.trans h'.types⟩

theorem mono (h : Declared e a b) (hd : d ≤ e) : Declared d a b :=
  ⟨Nat.le_trans hd h.depth, h.declares.mono hd, h.types⟩

theorem opened (h : Declared m.scopes.depth m.deeper m') : Declared m.scopes.depth m m' :=
  ⟨h.depth, (Scopes.Declares.deeper m.scopes).trans h.declares (Nat.le_refl _), h.types⟩

theorem closed (h : Declared e a b) (hd : d ≤ e) (hb : d < b.scopes.depth)
    (h' : Declared (b.scopes.depth - 1) b c) :
    Declared d a c := by
  have := h'.depth
  exact ⟨by omega, (h.mono hd).declares.trans h'.declares (by omega), h.types.trans h'.types⟩

/-- To give an allocation to another level changes what the levels own, and no variable. -/
theorem moved (m : Machine) (id : AllocId) (level : Nat) : Declared m.scopes.depth m (m.moved id level) := by
  refine ⟨Nat.le_of_eq (m.depth_moved id level).symm, ?_, .refl _⟩
  unfold Machine.moved
  cases m.heap.get? id with
  | none => exact .addAlloc ..
  | some a =>
    exact (Scopes.Declares.removeAlloc _ m.scopes a.level id).trans (.addAlloc _ _ level id) (Nat.le_refl _)

end Declared

def declaring : Law where
  kept m := Declared m.scopes.depth m
  during d _ := Declared d
  above d _ := Declared d
  failed m := Declared m.scopes.depth m
  wild m := Declared m.scopes.depth m
  kept_trans := .trans
  during_kept h := h
  during_step := .trans
  failed_during h := h
  failed_trans := .trans
  failed_depth h hm := Nat.lt_of_lt_of_le hm h.depth
  wild_failed h := h
  wild_trans := .trans
  wild_parked m e := .of_scopes rfl rfl
  calmly h := ⟨Nat.le_of_eq h.depth.symm, h.declares, h.types⟩
  control m c := .of_scopes rfl rfl
  place m row col := .of_scopes rfl rfl
  place_back h := ⟨h.depth, h.declares, h.types⟩
  opened h := h.opened
  opened_failed {m m'} h := (h.mono m.depth_le_deeper).opened
  closing {m l} _ := ⟨Nat.le_of_eq (Scopes.depth_outer _).symm, .shallower m.scopes, .refl _⟩
  dead h _ := h
  handedOver h _ := h.trans (.of_scopes rfl rfl)
  closed h h' := h.closed (Nat.le_succ _) h.depth h'
  closed_failed {m m₁ m₂} h h' :=
    (h.closed m.depth_le_deeper (Nat.lt_of_lt_of_le m.depth_lt_deeper h.depth) h').opened
  recovering h h' := (h.trans h').trans (.of_scopes rfl rfl)
  leaving h := h.mono (Nat.le_succ _)
  above_closed h hd h' := h.closed (Nat.le_refl _) hd h'
  above_done h _ := h
  called {m m' f} _ h := Declared.opened (m := m) ⟨h.depth, h.declares, h.types⟩
  called_failed {m m' f} _ h :=
    Declared.opened (m := m) ⟨Nat.le_trans m.depth_le_deeper h.depth, h.declares.mono m.depth_le_deeper, h.types⟩
  calledNative h _ := ⟨h.depth, h.declares, h.types⟩
  filed h := ⟨h.depth, h.declares, h.types⟩
  filed_failed h := ⟨h.depth, h.declares, h.types⟩
  added size type inner cleanup _ := ⟨Nat.le_of_eq (Scopes.depth_modifyLevel ..).symm, .addAlloc .., .refl _⟩
  created {m m₁ m₂ found} f inner hs h _ _ _ _ := by
    have hd : m₂.scopes.depth = m.scopes.depth := (Exec.newStub_steady hs h).1.depth
    obtain ⟨functions, code, addresses, rfl⟩ := Exec.newStub_ok hs
    have hc : Declared m.scopes.depth m m₂ := ⟨Nat.le_of_eq hd.symm, h.declares, h.types⟩
    exact hc.trans ⟨Nat.le_of_eq (Scopes.depth_modifyLevel ..).symm, .addAlloc .., .refl _⟩
  released _ := .of_scopes rfl rfl
  moved {m addr id level} _ _ := .moved m id level
  freed _ := ⟨Nat.le_of_eq (Scopes.depth_modifyLevel ..).symm, .removeAlloc .., .refl _⟩

/-! ## Looking up from outside -/

namespace Scopes

variable {s : Scopes} {name : NameId} {v : Variable} {k : Nat}

theorem declaresAt_of_var? (h : s.var? k name = some v) : s.declaresAt k name = true := by
  rw [declaresAt_eq]
  exact Option.isSome_iff_exists.mpr ⟨v, h⟩

theorem declaresAt_of_no_var? (h : s.var? k name = none) : s.declaresAt k name = false := by
  rw [declaresAt_eq, show s.levels[k]?.bind (·.find? name) = none from h]
  rfl

def Hides (s : Scopes) (name : NameId) : Prop := ∃ k v, 0 < k ∧ s.var? k name = some v

theorem lookup_outermost (h : ¬s.Hides name) : s.lookup name 0 = s.global? name := by
  refine lookup_of_none (searchDown_none fun k hk _ => declaresAt_of_no_var? ?_)
  cases hv : s.var? k name with
  | none => rfl
  | some v => exact absurd ⟨k, v, hk, hv⟩ h

/-- A name that inner levels declare means the variable of the innermost of them. -/
theorem lookup_innermost (hk : 0 < k) (h : s.var? k name = some v) (hlast : ∀ j, k < j → s.var? j name = none) :
    s.lookup name 0 = some v := by
  have hsize : k < s.depth := by
    refine Nat.lt_of_not_le fun hn => ?_
    rw [var?, Array.getElem?_eq_none hn] at h
    cases h
  have hsearch := searchDown_eq (declaresAt_of_var? h) (show max 0 1 ≤ k from by omega) hsize
    fun j hj _ => declaresAt_of_no_var? (hlast j hj)
  exact (lookup_of_search hsearch).trans h

theorem not_hides (h : s.depth = 1) : ¬s.Hides name := by
  rintro ⟨k, v, hk, hv⟩
  rw [var?, Array.getElem?_eq_none (show s.levels.size ≤ k from by rw [depth] at h; omega)] at hv
  cases hv

end Scopes

theorem Declared.global {d : Nat} {m m' : Machine} (h : Declared d m m') (hd : 0 < d) {name : NameId} {v : Variable}
    (hn : name ≠ NameId.result) (hv : m.scopes.global? name = some v) : m'.scopes.global? name = some v :=
  h.declares.kept hd hn hv

/-! ## Declarations -/

namespace Exec

theorem declareNew_ok {name : NameId} {v : Variable} {m m' : Machine} (h : declareNew name v m = .ok () m') :
    m' = { m with scopes := m.scopes.add name v } ∧ m'.scopes.var? (m.scopes.depth - 1) name = some v := by
  obtain ⟨declared, m₁, hd, h⟩ := bind_eq_ok h
  rw [declare, modifyGet_eq] at hd
  split at hd
  case isFalse =>
    cases hd
    obtain ⟨_, _, _, h⟩ := bind_eq_ok h
    cases h
  case isTrue hfree =>
    cases hd
    cases h
    refine ⟨rfl, ?_⟩
    rw [Scopes.isFree, Bool.and_eq_true, Bool.not_eq_true', Bool.not_eq_true'] at hfree
    show (m.scopes.add name v).var? _ name = _
    rw [Scopes.add, Scopes.var?_modifyLevel, if_pos rfl]
    have hdepth : m.scopes.depth - 1 < m.scopes.levels.size := by
      have : m.scopes.levels.size ≠ 0 :=
        fun h0 => by rw [Array.isEmpty_iff_size_eq_zero.mpr h0] at hfree; cases hfree.1
      rw [Scopes.depth]
      omega
    have hnone := hfree.2
    rw [Scopes.declaresAt_eq, Option.isSome_eq_false_iff, Option.isNone_iff_eq_none,
      Array.getElem?_eq_getElem hdepth] at hnone
    rw [Array.getElem?_eq_getElem hdepth, Option.bind_some, Level.find?_adding,
      show Level.find? _ name = none from hnone,
      beq_self_eq_true]
    rfl

end Exec

namespace Interp

open Exec

/-- A declaration that calls no native code leaves its variable in the level that was the innermost one. -/
def Adds (x : Run Variable) : Prop :=
  ∀ r (m : Machine), 0 < m.scopes.depth → 0 < m.frames.size → (x r).Ends m
    (fun p m' => m.nativeCalls ≤ m'.nativeCalls ∧ (m'.nativeCalls = m.nativeCalls → ∃ name v,
      p.1 = { v with origin := some { name } } ∧
        (name ≠ NameId.result → m'.scopes.var? (m.scopes.depth - 1) name = some v)))
    (fun _ _ => True)

theorem Adds.after {α : Type} {x : Run α} {f : α → Run Variable} (hx : balance.Follows x) (hf : ∀ a, Adds (f a)) :
    Adds (x >>= f) := by
  intro r m hm hframes
  refine (hx r m hm).bind (fun p m₁ h₁ => ?_) (fun _ _ _ => trivial)
  have h₁ : Balanced m.scopes.depth m m₁ := h₁
  have hn₁ := h₁.1.natives
  refine (hf p.1 p.2 m₁ (Nat.lt_of_lt_of_le hm h₁.1.depth) (Nat.lt_of_lt_of_le hframes h₁.1.frames.size)).mono ?_
    (fun _ _ h => h)
  rintro q m' ⟨hn, hq⟩
  refine ⟨Nat.le_trans hn₁ hn, fun he => ?_⟩
  rw [← (h₁.2 ⟨by omega, hframes⟩).1]
  exact hq (by omega)

theorem Adds.ite {c : Prop} [Decidable c] {x y : Run Variable} (hx : Adds x) (hy : Adds y) :
    Adds (if c then x else y) := by
  split
  · exact hx
  · exact hy

def Gives (x : Run α) (a : α) : Prop := ∀ r m, (x r).Ends m (fun p _ => p.1 = a) (fun _ _ => True)

theorem Gives.pure (a : α) : Gives (pure a : Run α) a := fun _ _ => rfl

theorem Gives.after {α β : Type} {x : Run α} {f : α → Run β} {b : β} (hf : ∀ a, Gives (f a) b) :
    Gives (x >>= f) b :=
  fun _ _ => ends_any.bind (fun p m₁ _ => hf p.1 p.2 m₁) (fun _ _ h => h)

theorem Gives.ite {α : Type} {c : Prop} [Decidable c] {x y : Run α} {a : α} (hx : Gives x a) (hy : Gives y a) :
    Gives (if c then x else y) a := by
  split
  · exact hx
  · exact hy

/-- The variable has been declared, and the rest keeps it. -/
theorem Adds.declared {v : Variable} {name : NameId} {x : Run Variable} (hb : balance.Follows x)
    (hd : declaring.Follows x)
    (hx : Gives x { v with origin := some { name } }) : Adds (do declareNew name v; x) := by
  intro r m hm hframes
  refine ends_bind.mpr (ends_bind.mpr (ends_iff.mpr ⟨fun _ m₁ h₁ => ?_, fun _ _ _ => trivial⟩))
  obtain ⟨rfl, hv⟩ := declareNew_ok h₁
  have hdepth : (m.scopes.add name v).depth = m.scopes.depth := Scopes.depth_modifyLevel ..
  have hb := hb r { m with scopes := m.scopes.add name v } (hdepth.symm ▸ hm)
  have hd := hd r { m with scopes := m.scopes.add name v } (hdepth.symm ▸ hm)
  refine ((hb.and hd).and (hx r _)).mono (fun p m' ⟨⟨hb, hd⟩, hp⟩ => ?_) (fun _ _ _ => trivial)
  have hb : Balanced _ _ m' := hb
  have hd : Declared _ _ m' := hd
  refine ⟨hb.1.natives, fun _ => ⟨name, v, hp, fun hn => ?_⟩⟩
  have hlt : m.scopes.depth - 1 < (m.scopes.add name v).depth := by omega
  exact hd.declares.kept hlt hn hv

theorem declaration_adds {i : Interp} (hi : balance.Sound i) (type : Option Variable) :
    Adds (i.declaration type) := by
  refine .after (.next _) fun external => .after (.next _) fun name => ?_
  -- the body of a function comes last
  have code (v : Variable) (type : TypeId) (kind : Kind) : Adds (do
      declareNew name v
      if ← Run.bool then
        if kind ≠ .function then raise .codeOnNonFunction
        store v (← readFunction type name true)
      return { v with origin := some { name } } : Run Variable) := by
    have rest (L : Law) : L.Follows (do
        if ← Run.bool then
          if kind ≠ .function then raise .codeOnNonFunction
          store v (← readFunction type name true)
        return { v with origin := some { name } } : Run Variable) :=
      .bind (.next _) fun _ => .ite
        (.guarded (.bind (Law.readFunction_follows _ _ _) fun _ =>
          .bind (.calm (store_calm v _)) fun _ => .pure _)) (.pure _)
    have written : Gives (do
        store v (← readFunction type name true)
        return { v with origin := some { name } } : Run Variable) _ :=
      .after fun _ => .after fun _ => .pure _
    exact .declared (rest balance) (rest declaring)
      (.after fun _ => .ite (.ite (.after fun _ => written) written) (.pure _))
  cases type
  all_goals refine .after ?_ fun declared => ?_
  case none.refine_1 => exact .raise _
  case some.refine_1 v => exact .calm (expectType_calm v)
  all_goals
    refine .ite (.after (.map some (.calm (symbolAddress_calm name))) fun symbol => ?_)
      (.after (.pure none) fun symbol => ?_)
    all_goals
      refine .after (Law.declaredType_follows hi declared) fun type => .after .machine fun m => ?_
      cases symbol with
      | none => exact .after (.calm (fresh_calm _ _)) fun v => code v type _
      | some addr =>
        exact .ite (.after (.calm (fresh_calm _ _)) fun v => code v type _)
          (.after (.pure _) fun v => code v type _)

end Interp

end LevelScript
