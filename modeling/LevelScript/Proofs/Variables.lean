import LevelScript.Machine.Run

/-!
# The variables of levels

A variable that has been declared stays until its level is closed, and only the innermost level gets new
ones. The result is the exception: it is replaced wherever it is.
-/

namespace LevelScript

namespace Level

theorem find?_adding (l : Level) (name n : NameId) (v : Variable) :
    (l.adding name v).find? n = (l.find? n).or (if n == name then some v else none) := by
  rw [adding]
  split
  case isTrue h =>
    cases hn : n == name with
    | false => exact (Option.or_none).symm
    | true =>
      rw [declares, ← eq_of_beq hn] at h
      obtain ⟨u, hu⟩ := Option.isSome_iff_exists.mp h
      rw [hu]
      rfl
  case isFalse h =>
    rw [find?, find?, List.lookup_cons]
    cases hn : n == name with
    | false => exact (Option.or_none).symm
    | true =>
      rw [declares, Bool.not_eq_true, Option.isSome_eq_false_iff, Option.isNone_iff_eq_none, ← eq_of_beq hn] at h
      rw [show l.vars.lookup n = none from h]
      rfl

theorem find?_assign (l : Level) {name n : NameId} (hn : n ≠ name) (v : Variable) :
    (l.assign name v).find? n = l.find? n := by
  show (l.assign name v).vars.lookup n = l.vars.lookup n
  unfold assign
  dsimp only
  induction l.vars with
  | nil => rfl
  | cons e es ih =>
    obtain ⟨k, old⟩ := e
    rw [List.map_cons, List.lookup_cons, List.lookup_cons, ih]
    cases hk : n == k with
    | false => rfl
    | true =>
      dsimp only
      rw [if_neg (by rw [← eq_of_beq hk, beq_iff_eq]; exact hn)]

end Level

namespace Scopes

def var? (s : Scopes) (index : Nat) (name : NameId) : Option Variable := s.levels[index]?.bind (·.find? name)

/-- Of the first `d` levels the last one has the variables that it had, and maybe more, and the others have
just those that they had. -/
structure Declares (d : Nat) (s s' : Scopes) : Prop where
  outer {k name} : k + 1 < d → name ≠ NameId.result → s'.var? k name = s.var? k name
  last {k name v} : k + 1 = d → name ≠ NameId.result → s.var? k name = some v → s'.var? k name = some v

section
variable {d e index k : Nat} {a b c s : Scopes} {name : NameId} {v : Variable}

theorem Declares.refl (d : Nat) (s : Scopes) : Declares d s s := ⟨fun _ _ => rfl, fun _ _ h => h⟩

theorem Declares.of_eq (h : ∀ k name, k < d → b.var? k name = a.var? k name) : Declares d a b :=
  ⟨fun hk _ => h _ _ (by omega), fun hk _ hv => (h _ _ (by omega)).trans hv⟩

theorem Declares.kept (h : Declares d a b) (hk : k < d) (hn : name ≠ NameId.result) (hv : a.var? k name = some v) :
    b.var? k name = some v := by
  obtain hk | hk : k + 1 < d ∨ k + 1 = d := by omega
  · rw [h.outer hk hn, hv]
  · exact h.last hk hn hv

theorem Declares.mono (h : Declares e a b) (hd : d ≤ e) : Declares d a b :=
  ⟨fun hk => h.outer (by omega), fun hk hn hv => h.kept (by omega) hn hv⟩

theorem Declares.trans (h : Declares d a b) (h' : Declares e b c) (hd : d ≤ e) : Declares d a c :=
  ⟨fun hk hn => (h'.outer (by omega) hn).trans (h.outer hk hn),
    fun hk hn hv => h'.kept (by omega) hn (h.last hk hn hv)⟩

theorem var?_modifyLevel (s : Scopes) (index : Nat) (f : Level → Level) (k : Nat) (name : NameId) :
    (s.modifyLevel index f).var? k name = if index = k then s.levels[k]?.bind fun l => (f l).find? name
    else s.var? k name := by
  rw [var?, modifyLevel, Array.getElem?_modify]
  split
  · rw [Option.bind_map]
    rfl
  · rfl

theorem Declares.modifyLevel {f : Level → Level} (hf : ∀ l, (f l).vars = l.vars) (d : Nat) (s : Scopes)
    (index : Nat) :
    Declares d s (s.modifyLevel index f) := by
  refine .of_eq fun k name _ => ?_
  rw [var?_modifyLevel]
  split
  · rw [var?]
    cases s.levels[k]? with
    | none => rfl
    | some l => exact congrArg (List.lookup name) (hf l)
  · rfl

theorem Declares.addAlloc (d : Nat) (s : Scopes) (index : Nat) (id : AllocId) :
    Declares d s (s.addAlloc index id) :=
  modifyLevel (f := fun l => { l with allocs := l.allocs.push id }) (fun _ => rfl) d s index

theorem Declares.removeAlloc (d : Nat) (s : Scopes) (index : Nat) (id : AllocId) :
    Declares d s (s.removeAlloc index id) :=
  modifyLevel (f := fun l => { l with allocs := l.allocs.filter (· != id) }) (fun _ => rfl) d s index

theorem Declares.add (s : Scopes) (name : NameId) (v : Variable) : Declares s.depth s (s.add name v) := by
  refine ⟨fun hk _ => ?_, fun _ _ hv => ?_⟩
  · rw [Scopes.add, var?_modifyLevel, if_neg (by omega)]
  · rw [Scopes.add, var?_modifyLevel]
    split
    · rw [var?] at hv
      obtain ⟨l, hl, hv⟩ := Option.bind_eq_some_iff.mp hv
      rw [hl, Option.bind_some, Level.find?_adding, hv]
      rfl
    · exact hv

/-- The result is no variable that stays. -/
theorem Declares.assignResult {base : Nat} {s s' : Scopes} (h : s.assign NameId.result base v = some s') (d : Nat) :
    Declares d s s' := by
  rw [assign, Option.bind_eq_bind, Option.bind_eq_some_iff] at h
  obtain ⟨index, -, h⟩ := h
  cases h
  have same (k : Nat) {name : NameId} (hn : name ≠ NameId.result) :
      (s.modifyLevel index (·.assign NameId.result v)).var? k name = s.var? k name := by
    rw [var?_modifyLevel]
    split
    · rw [var?]
      cases s.levels[k]? with
      | none => rfl
      | some l => exact l.find?_assign hn v
    · rfl
  exact ⟨fun _ hn => same _ hn, fun _ hn hv => (same _ hn).trans hv⟩

end

end Scopes

end LevelScript
