import LevelScript.Proofs.Binding
import LevelScript.Proofs.Faults

/-!
# Captured variables

Whatever happens between the making of a function and its calls, a variable keeps its cell, and a cell changes
by assignments to it alone. So a function that shares what it has captured uses the cells of its creator, one
that has copied it uses cells that no level of the creator ever names, and one that copies it for each call
begins with the values at its making, since nothing can assign to those.
-/

namespace LevelScript

open Exec

theorem Level.mem_adding {l : Level} {name : NameId} {v : Variable} {e : NameId × Variable}
    (h : e ∈ (l.adding name v).vars) : e ∈ l.vars ∨ e = (name, v) := by
  rw [adding] at h
  split at h
  · exact .inl h
  · exact (List.mem_cons.mp h).symm

theorem Level.mem_addingAll {l : Level} {es : List (NameId × Variable)} {e : NameId × Variable}
    (h : e ∈ (l.addingAll es).vars) : e ∈ l.vars ∨ e ∈ es := by
  induction es generalizing l with
  | nil => exact .inl h
  | cons c cs ih =>
    obtain h | h := ih h
    · obtain h | rfl := mem_adding h
      · exact .inl h
      · exact .inr List.mem_cons_self
    · exact .inr (List.mem_cons_of_mem _ h)

namespace Machine

/-! ## Which variables there are -/

def vars (m : Machine) : List (List (NameId × Variable)) := m.scopes.levels.toList.map (·.vars)

def binds (m : Machine) (level : Nat) (name : NameId) : Option Variable := m.vars[level]?.bind (·.lookup name)

def Named (m : Machine) (v : Variable) : Prop := ∃ vs ∈ m.vars, ∃ name, (name, v) ∈ vs

def Captured (m : Machine) (v : Variable) : Prop :=
  ∃ id f, m.functions.get? id = some f ∧ ∃ name, (name, v) ∈ f.captured

/-- A name refers to the variable, or would in a call. -/
def Nameable (m : Machine) (v : Variable) : Prop :=
  m.Named v ∨ ∃ id f, m.functions.get? id = some f ∧ f.capture ≠ .copyPerCall ∧ ∃ name, (name, v) ∈ f.captured

/-- A variable in a cell that `m'` has and `m` does not have, or away from all cells. -/
def Novel (m m' : Machine) (v : Variable) : Prop :=
  ∃ addr, v.storage = .location addr ∧
    (m.addresses.slot.toNat ≤ addr.toNat ∧ Cell.Below m'.addresses.slot addr ∨ Cell.Outside addr)

/-- All variables lie in cells, or away from them, and there is room for more. -/
structure Placed (m : Machine) : Prop where
  room : Cell.Room 0 m.addresses.slot
  named : ∀ v, m.Named v → Cell.Placed m.addresses.slot v
  captured : ∀ v, m.Captured v → Cell.Placed m.addresses.slot v

/-! ## Steps -/

/-- All that neither makes variables or functions nor writes to cells: levels are closed, down to `d` of them at
most, functions are released. -/
structure Elsewhere (d : Nat) (m m' : Machine) : Prop where
  vars : ∃ k, m'.vars = m.vars.take k
  depth : d ≤ m'.vars.length
  functions : ∀ id f, m'.functions.get? id = some f → m.functions.get? id = some f
  types : m.types.Grows m'.types
  slot : m.addresses.slot.toNat ≤ m'.addresses.slot.toNat
  room : Cell.Room 0 m'.addresses.slot
  words : ∀ addr, Cell.Below m.addresses.slot addr → m'.memory.word (addr / 8) = m.memory.word (addr / 8)

/-- What can happen to variables, with the cells that are assigned to. -/
inductive Step (d : Nat) (m : Machine) : List UInt64 → Machine → Prop
  | assigned {v origin word m'} : m.Named v → store { v with origin } word m = .ok () m' →
      Step d m v.address?.toList m'
  | declared {name type word declared m'} : Cell.Room 1 m.addresses.slot →
    (fresh type word >>= declare name) m = .ok declared m' → Step d m [] m'
  | external {name type addr declared m'} : Cell.Outside addr →
    declare name (.atAddress type addr) m = .ok declared m' → Step d m [] m'
  | made {chunk entry len capture type name inner stub m'} : Cell.Room m.visible.length m.addresses.slot →
    createFunction chunk entry len capture type name inner m = .ok stub m' → Step d m [] m'
  | entered {call args f depth m'} : Cell.Room (f.captured.length + args.length + 1) m.addresses.slot →
    enterScript call args m = .ok (f, depth) m' → Step d m [] m'
  | opened : Step d m [] m.deeper
  | elsewhere {m'} : m.Elsewhere d m' → Step d m [] m'

/-- Steps one after the other, with at least `d` levels open all the time. -/
inductive Run (d : Nat) (m : Machine) : List UInt64 → Machine → Prop
  | done : Run d m [] m
  | step {ws ws' m₁ m'} : Run d m ws m₁ → Step d m₁ ws' m' → Run d m (ws ++ ws') m'

/-! ## Levels -/

/-- The levels below `d` stay, with variables such as `Q` says in addition; other levels come and go, and have
no variables but old ones and such as `P` says. -/
structure Extends (d : Nat) (P Q : Variable → Prop) (ls ls' : List (List (NameId × Variable))) : Prop where
  depth : d ≤ ls'.length
  mem : ∀ vs ∈ ls', ∀ e ∈ vs, (∃ vs ∈ ls, e ∈ vs) ∨ P e.2
  bound : ∀ k < d, ∀ name v, ls[k]?.bind (·.lookup name) = some v → ls'[k]?.bind (·.lookup name) = some v
  added : ∀ k < d, ∀ name v, ls'[k]?.bind (·.lookup name) = some v → ls[k]?.bind (·.lookup name) = some v ∨ Q v

namespace Extends

variable {d k : Nat} {P Q : Variable → Prop} {ls : List (List (NameId × Variable))}

theorem refl (hd : d ≤ ls.length) : Extends d P Q ls ls :=
  ⟨hd, fun vs hvs _ he => .inl ⟨vs, hvs, he⟩, fun _ _ _ _ => id, fun _ _ _ _ => .inl⟩

theorem take (hd : d ≤ (ls.take k).length) : Extends d P Q ls (ls.take k) := by
  have hk (j) (hj : j < d) : (ls.take k)[j]? = ls[j]? := by
    rw [List.length_take] at hd
    exact List.getElem?_take_of_lt (by omega)
  refine ⟨hd, fun vs hvs e he => .inl ⟨vs, List.mem_of_mem_take hvs, he⟩, fun j hj name v h => ?_,
    fun j hj name v h => ?_⟩
  · rwa [hk j hj]
  · rw [hk j hj] at h
    exact .inl h

theorem push {vs : List (NameId × Variable)} (hd : d ≤ ls.length) (hP : ∀ e ∈ vs, P e.2) :
    Extends d P Q ls (ls ++ [vs]) := by
  have hk (j) (hj : j < d) : (ls ++ [vs])[j]? = ls[j]? := List.getElem?_append_left (Nat.lt_of_lt_of_le hj hd)
  refine ⟨by rw [List.length_append]; omega, fun us hus e he => ?_, fun j hj name v h => ?_,
    fun j hj name v h => ?_⟩
  · obtain hus | hus := List.mem_append.mp hus
    · exact .inl ⟨us, hus, he⟩
    · rw [List.mem_singleton] at hus
      exact .inr (hP e (hus ▸ he))
  · rwa [hk j hj]
  · rw [hk j hj] at h
    exact .inl h

theorem adding {l : Level} {name : NameId} {v : Variable} (hd : d ≤ ls.length + 1) (hP : P v) (hQ : Q v) :
    Extends d P Q (ls ++ [l.vars]) (ls ++ [(l.adding name v).vars]) := by
  have hfind (n) : (l.adding name v).vars.lookup n = (l.vars.lookup n).or (if n == name then some v else none) :=
    Level.find?_adding l name n v
  refine ⟨by rw [List.length_append]; exact hd, fun vs hvs e he => ?_, fun j hj n u h => ?_, fun j hj n u h => ?_⟩
  · obtain hvs | hvs := List.mem_append.mp hvs
    · exact .inl ⟨vs, List.mem_append_left _ hvs, he⟩
    · rw [List.mem_singleton] at hvs
      subst hvs
      obtain he | rfl := Level.mem_adding he
      · exact .inl ⟨l.vars, List.mem_append_right _ List.mem_cons_self, he⟩
      · exact .inr hP
  · rw [List.getElem?_append] at h ⊢
    split at h
    case isTrue hlt => rwa [if_pos hlt]
    case isFalse hge =>
      rw [if_neg hge]
      obtain h0 | h0 := Nat.eq_zero_or_pos (j - ls.length)
      · rw [h0] at h ⊢
        show (l.adding name v).vars.lookup n = some u
        rw [hfind, show l.vars.lookup n = some u from h]
        rfl
      · rw [List.getElem?_eq_none h0] at h
        cases h
  · rw [List.getElem?_append] at h ⊢
    split at h
    case isTrue hlt =>
      rw [if_pos hlt]
      exact .inl h
    case isFalse hge =>
      rw [if_neg hge]
      obtain h0 | h0 := Nat.eq_zero_or_pos (j - ls.length)
      · rw [h0] at h ⊢
        have h : (l.adding name v).vars.lookup n = some u := h
        rw [hfind, Option.or_eq_some_iff] at h
        refine h.imp id fun ⟨_, hu⟩ => ?_
        rw [Option.ite_none_right_eq_some] at hu
        exact Option.some.inj hu.2 ▸ hQ
      · rw [List.getElem?_eq_none h0] at h
        cases h

end Extends

/-! ## What steps do -/

structure Moves (d : Nat) (ws : List UInt64) (m m' : Machine) : Prop where
  types : m.types.Grows m'.types
  slot : m.addresses.slot.toNat ≤ m'.addresses.slot.toNat
  room : Cell.Room 0 m'.addresses.slot
  depth : d ≤ m'.vars.length
  nameable : ∀ v, m'.Nameable v → m.Nameable v ∨ Novel m m' v
  captured : ∀ v, m'.Captured v → m.Named v ∨ m.Captured v ∨ Novel m m' v
  words : ∀ addr, Cell.Below m.addresses.slot addr → addr ∉ ws →
      m'.memory.word (addr / 8) = m.memory.word (addr / 8)
  written : ∀ addr ∈ ws, ∃ v, v.storage = .location addr ∧ (m.Nameable v ∨ Novel m m' v)
  bound : ∀ k < d, ∀ name v, m.binds k name = some v → m'.binds k name = some v
  added : ∀ k < d, ∀ name v, m'.binds k name = some v → m.binds k name = some v ∨ Novel m m' v

section
variable {d k : Nat} {ws ws' : List UInt64} {m m₁ m' : Machine} {v : Variable} {name : NameId} {addr : UInt64}

theorem Novel.mono {m₀ m₂ : Machine} (h : Novel m m' v) (hl : m₀.addresses.slot.toNat ≤ m.addresses.slot.toNat)
    (hr : m'.addresses.slot.toNat ≤ m₂.addresses.slot.toNat) : Novel m₀ m₂ v := by
  obtain ⟨addr, hv, h⟩ := h
  exact ⟨addr, hv, h.imp_left fun ⟨hlow, hbelow⟩ => ⟨Nat.le_trans hl hlow, hbelow.mono hr⟩⟩

theorem nameable_or (h : m.Nameable v) : m.Named v ∨ m.Captured v :=
  h.imp_right fun ⟨id, f, hf, _, hv⟩ => ⟨id, f, hf, hv⟩

theorem Moves.refl (hroom : Cell.Room 0 m.addresses.slot) (hd : d ≤ m.vars.length) : Moves d [] m m :=
  ⟨.refl _, Nat.le_refl _, hroom, hd, fun _ => .inl, fun _ h => .inr (.inl h), fun _ _ _ => rfl, nofun,
    fun _ _ _ _ => id, fun _ _ _ _ => .inl⟩

theorem Moves.trans (h : Moves d ws m m₁) (h' : Moves d ws' m₁ m') : Moves d (ws ++ ws') m m' where
  types := h.types.trans h'.types
  slot := Nat.le_trans h.slot h'.slot
  room := h'.room
  depth := h'.depth
  nameable v hv := by
    obtain hv | hv := h'.nameable v hv
    · exact (h.nameable v hv).imp_right fun hn => hn.mono (Nat.le_refl _) h'.slot
    · exact .inr (hv.mono h.slot (Nat.le_refl _))
  captured v hv := by
    obtain hv | hv | hv := h'.captured v hv
    · obtain hv | hv := h.nameable v (.inl hv)
      · exact (nameable_or hv).imp_right .inl
      · exact .inr (.inr (hv.mono (Nat.le_refl _) h'.slot))
    · exact (h.captured v hv).imp_right fun hv => hv.imp_right fun hn => hn.mono (Nat.le_refl _) h'.slot
    · exact .inr (.inr (hv.mono h.slot (Nat.le_refl _)))
  words addr hb hw := by
    rw [List.mem_append, not_or] at hw
    rw [h'.words addr (hb.mono h.slot) hw.2, h.words addr hb hw.1]
  written addr hw := by
    obtain hw | hw := List.mem_append.mp hw
    · obtain ⟨v, hv, hk⟩ := h.written addr hw
      exact ⟨v, hv, hk.imp_right fun hn => hn.mono (Nat.le_refl _) h'.slot⟩
    · obtain ⟨v, hv, hk | hn⟩ := h'.written addr hw
      · exact ⟨v, hv, (h.nameable v hk).imp_right fun hn => hn.mono (Nat.le_refl _) h'.slot⟩
      · exact ⟨v, hv, .inr (hn.mono h.slot (Nat.le_refl _))⟩
  bound k hk name v hv := h'.bound k hk name v (h.bound k hk name v hv)
  added k hk name v hv := by
    obtain hv | hv := h'.added k hk name v hv
    · exact (h.added k hk name v hv).imp_right fun hn => hn.mono (Nat.le_refl _) h'.slot
    · exact .inr (hv.mono h.slot (Nat.le_refl _))

theorem Moves.of_extends (hlevels : Extends d (fun v => m.Nameable v ∨ Novel m m' v) (Novel m m') m.vars m'.vars)
    (hheld : ∀ id f, m'.functions.get? id = some f → m.functions.get? id = some f ∨
      ∀ c ∈ f.captured, (f.capture ≠ .copyPerCall ∧ m.Named c.2) ∨ Novel m m' c.2)
    (htypes : m.types.Grows m'.types) (hslot : m.addresses.slot.toNat ≤ m'.addresses.slot.toNat)
    (hroom : Cell.Room 0 m'.addresses.slot)
    (hwords : ∀ addr, Cell.Below m.addresses.slot addr → addr ∉ ws →
      m'.memory.word (addr / 8) = m.memory.word (addr / 8))
    (hwritten : ∀ addr ∈ ws, ∃ v, v.storage = .location addr ∧ (m.Nameable v ∨ Novel m m' v)) :
    Moves d ws m m' where
  types := htypes
  slot := hslot
  room := hroom
  depth := hlevels.depth
  nameable v hv := by
    obtain ⟨vs, hvs, name, hv⟩ | ⟨id, f, hf, hc, name, hv⟩ := hv
    · exact (hlevels.mem vs hvs _ hv).elim (fun ⟨us, hus, hv⟩ => .inl (.inl ⟨us, hus, name, hv⟩)) id
    · obtain hf | hf := hheld id f hf
      · exact .inl (.inr ⟨id, f, hf, hc, name, hv⟩)
      · exact (hf _ hv).imp (fun h => .inl h.2) fun h => h
  captured v hv := by
    obtain ⟨id, f, hf, name, hv⟩ := hv
    obtain hf | hf := hheld id f hf
    · exact .inr (.inl ⟨id, f, hf, name, hv⟩)
    · exact (hf _ hv).imp (fun h => h.2) .inr
  words := hwords
  written := hwritten
  bound := hlevels.bound
  added := hlevels.added

/-! ### One lemma for each step -/

theorem stored_same (v : Variable) (word : UInt64) :
    ∃ memory pending, m.stored v word = { m with memory, pending } := by
  unfold stored
  split
  · exact ⟨m.memory, m.pending, rfl⟩
  · dsimp only
    split
    · exact ⟨m.memory, m.pending, rfl⟩
    · split
      · exact ⟨_, m.pending, rfl⟩
      · exact ⟨m.memory, _, rfl⟩

/-- An assignment does not change the cells of other variables. -/
theorem word_stored (hroom : Cell.Room 0 m.addresses.slot) (hv : Cell.Placed m.addresses.slot v)
    (hb : Cell.Below m.addresses.slot addr) (hne : v.storage ≠ .location addr) (word : UInt64) :
    (m.stored v word).memory.word (addr / 8) = m.memory.word (addr / 8) := by
  unfold stored
  split
  case h_1 => rfl
  case h_2 a hs =>
    dsimp only
    split
    case isTrue => rfl
    case isFalse h0 =>
      split
      case isFalse => rfl
      case isTrue =>
        refine Memory.word_write h0 (fun k hk he => ?_) word
        have hk : k < 8 := Nat.lt_of_lt_of_le hk (Kind.valueSize_le _)
        have hsame := congrArg UInt64.toNat he
        rw [UInt64.toNat_div, UInt64.toNat_div] at hsame
        have hlimit : Cell.limit + 8 ≤ UInt64.size ∧ Cell.limit % 8 = 0 := by decide
        have hhigh := hroom.high
        have hbhigh := hb.high
        have hblow := hb.low
        have hbaligned := hb.aligned
        have hne : a.toNat ≠ addr.toNat := fun hn => hne (hs.trans (congrArg _ (UInt64.toNat_inj.mp hn)))
        have hoffset : (a + k.toUInt64).toNat = a.toNat + k := by
          refine toNat_offset ?_
          rcases hv a hs with h | h | h
          · have := h.high
            omega
          · omega
          · omega
        rw [hoffset] at hsame
        change (a.toNat + k) / 8 = addr.toNat / 8 at hsame
        rcases hv a hs with h | h | h
        · have := h.aligned
          omega
        · omega
        · omega

theorem Moves.assigned (hm : m.Placed) (hd : d ≤ m.vars.length) {origin : Option Origin} {word : UInt64}
    (hv : m.Named v)
    (h : store { v with origin } word m = .ok () m') : Moves d v.address?.toList m m' := by
  rw [store_eq] at h
  cases h
  show Moves d v.address?.toList m (m.stored v word)
  obtain ⟨memory, pending, hs⟩ := m.stored_same v word
  have haddress (addr) : addr ∈ v.address?.toList ↔ v.storage = .location addr := by
    rw [Option.mem_toList, Variable.address?]
    cases v.storage with
    | value word => exact ⟨nofun, nofun⟩
    | location a =>
      show some a = some addr ↔ Storage.location a = .location addr
      rw [Option.some.injEq, Storage.location.injEq]
  refine .of_extends (hs ▸ .refl hd) (fun id f hf => .inl (by rw [hs] at hf; exact hf)) (hs ▸ .refl _)
    (hs ▸ Nat.le_refl _)
    (hs ▸ hm.room) (fun addr hb hw => ?_) fun addr hw => ⟨v, (haddress addr).mp hw, .inl (.inl hv)⟩
  exact word_stored hm.room (hm.named v hv) hb (fun he => hw ((haddress addr).mpr he)) word

theorem Moves.elsewhere (h : m.Elsewhere d m') : Moves d [] m m' := by
  obtain ⟨k, hk⟩ := h.vars
  refine .of_extends (hk ▸ .take (hk ▸ h.depth)) (fun id f hf => .inl (h.functions id f hf)) h.types h.slot h.room
    (fun addr hb _ => h.words addr hb) nofun

theorem Moves.opened (hroom : Cell.Room 0 m.addresses.slot) (hd : d ≤ m.vars.length) : Moves d [] m m.deeper := by
  have hvars : m.deeper.vars = m.vars ++ [[]] := by
    show ((m.scopes.levels.push {}).toList.map (·.vars)) = _
    rw [Array.toList_push, List.map_append]
    rfl
  exact .of_extends (hvars ▸ .push hd nofun) (fun id f hf => .inl hf) (.refl _) (Nat.le_refl _) hroom
    (fun _ _ _ => rfl) nofun

theorem vars_push (m : Machine) (ls : Array Level) (l : Level) :
    (m.withLevel ls l).vars = ls.toList.map (·.vars) ++ [l.vars] := by
  show (ls.push l).toList.map (·.vars) = _
  rw [Array.toList_push, List.map_append]
  rfl

theorem extends_declare {P Q : Variable → Prop} (hd : d ≤ m.vars.length) {declared : Bool}
    (h : declare name v m = .ok declared m') (hP : P v) (hQ : Q v) :
    Extends d P Q m.vars m'.vars ∧ ∃ scopes, m' = { m with scopes } := by
  by_cases hempty : m.scopes.levels = #[]
  · have hfree : m.scopes.isFree name = false := by
      rw [Scopes.isFree, hempty]
      rfl
    rw [declare, modifyGet_eq, hfree] at h
    cases h
    exact ⟨.refl hd, m.scopes, rfl⟩
  · obtain ⟨ls, l, hl⟩ := Array.exists_push_of_ne_empty hempty
    have hm : m = m.withLevel ls l := by
      rw [withLevel, ← hl]
    have hvars : m.vars = ls.toList.map (·.vars) ++ [l.vars] := by
      rw [hm]
      exact vars_push m ls l
    have hdeclare := declare_push name v m ls l
    rw [← hm] at hdeclare
    cases h.symm.trans hdeclare
    rw [hvars, List.length_append] at hd
    rw [hvars, vars_push]
    exact ⟨.adding hd hP hQ, _, rfl⟩

theorem Moves.external (hm : m.Placed) (hd : d ≤ m.vars.length) {type : TypeId} {declared : Bool}
    (ha : Cell.Outside addr)
    (h : declare name (.atAddress type addr) m = .ok declared m') : Moves d [] m m' := by
  obtain ⟨hlevels, scopes, hs⟩ := extends_declare (P := fun v => m.Nameable v ∨ Novel m m' v) (Q := Novel m m') hd h
    (.inr ⟨addr, rfl, .inr ha⟩) ⟨addr, rfl, .inr ha⟩
  have hfunctions : m'.functions = m.functions := hs ▸ rfl
  exact .of_extends hlevels (fun id f hf => .inl (hfunctions ▸ hf)) (hs ▸ .refl _) (hs ▸ Nat.le_refl _)
    (hs ▸ hm.room) (fun _ _ _ => hs ▸ rfl) nofun

theorem Moves.declared (hd : d ≤ m.vars.length) (hroom : Cell.Room 1 m.addresses.slot) {type : TypeId}
    {word : UInt64} {declared : Bool}
    (h : (fresh type word >>= declare name) m = .ok declared m') : Moves d [] m m' := by
  obtain ⟨v, m₁, hfresh, h⟩ := bind_eq_ok h
  have hm₁ : v = .atAddress type m.addresses.slot ∧ m₁.vars = m.vars ∧ m₁.functions = m.functions ∧
      m₁.types = m.types ∧ m₁.addresses.slot = m.addresses.slot + 16 ∧
      m₁.memory = m.memory.withCell m.types m.addresses.slot type word := by
    cases hfresh
    exact ⟨rfl, rfl, rfl, rfl, rfl, rfl⟩
  obtain ⟨rfl, hvars, hfunctions, htypes, hslot, hmemory⟩ := hm₁
  rw [← hvars] at hd
  have hnovel : ∀ m' : Machine, m'.addresses.slot = m.addresses.slot + 16 →
      Novel m m' (.atAddress type m.addresses.slot) :=
    fun m' hs => ⟨_, rfl, .inl ⟨Nat.le_refl _, hs ▸ hroom.below_next⟩⟩
  obtain ⟨hlevels, scopes, rfl⟩ :=
    extends_declare (P := fun v => m.Nameable v ∨ Novel m { m₁ with scopes := m'.scopes } v)
    (Q := Novel m { m₁ with scopes := m'.scopes }) hd h (.inr (hnovel _ hslot)) (hnovel _ hslot)
  rw [hvars] at hlevels
  refine .of_extends hlevels (fun id f hf => .inl (hfunctions ▸ hf)) (htypes ▸ .refl _) ?_ ?_ ?_ nofun
  · show _ ≤ m₁.addresses.slot.toNat
    rw [hslot, hroom.toNat_next]
    exact Nat.le_add_right ..
  · show Cell.Room 0 m₁.addresses.slot
    exact hslot ▸ hroom.next
  · intro addr hb _
    show m₁.memory.word _ = _
    rw [hmemory]
    exact Memory.word_withCell hroom (hb.old hroom) _ _

theorem named_of_visible {c : NameId × Variable} (h : c ∈ m.visible) : m.Named c.2 := by
  obtain ⟨l, hl, hc⟩ := List.mem_flatMap.mp h
  exact ⟨l.vars, List.mem_map.mpr ⟨l, List.mem_of_mem_drop hl, rfl⟩, c.1, List.mem_reverse.mp hc⟩

theorem Makes.vars_eq {capture : Capture} {stub : UInt64} {id : Nat} {f : ScriptFunction}
    (h : m.Makes capture stub id f m') :
    m'.vars = m.vars := by
  rw [Machine.vars, Machine.vars, ← Array.toList_map, ← Array.toList_map, h.vars]

theorem length_copiedBy (m : Machine) (capture : Capture) : (m.copiedBy capture).length ≤ m.visible.length := by
  cases capture
  case nothing | shared => exact Nat.zero_le _
  case copyPerCall | copyOnce => exact Nat.le_refl _

/-- A function captures variables of open levels, or new ones. -/
theorem captured_of_make {capture : Capture} (hroom : Cell.Room (m.copiedBy capture).length m.addresses.slot)
    (hslot : m'.addresses.slot = Cell.skip m.addresses.slot (m.copiedBy capture).length) :
    ∀ c ∈ m.capturedBy capture, (capture ≠ .copyPerCall ∧ m.Named c.2) ∨ Novel m m' c.2 := by
  have copied (hroom : Cell.Room m.visible.length m.addresses.slot)
      (hslot : m'.addresses.slot = Cell.skip m.addresses.slot m.visible.length) :
      ∀ c ∈ copies m.addresses.slot m.visible, Novel m m' c.2 := by
    intro c hc
    obtain ⟨type, addr, he, hlow, hbelow⟩ := mem_copies hroom hc
    exact ⟨addr, by rw [he]; rfl, .inl ⟨hlow, hslot ▸ hbelow⟩⟩
  cases capture with
  | nothing => exact fun c hc => nomatch hc
  | shared => exact fun c hc => .inl ⟨nofun, named_of_visible hc⟩
  | copyPerCall => exact fun c hc => .inr (copied hroom hslot c hc)
  | copyOnce => exact fun c hc => .inr (copied hroom hslot c hc)

theorem Moves.made {chunk : Chunk} {entry len : Nat} {capture : Capture} {type : TypeId} {title : NameId}
    {inner : Bool} {stub : UInt64} (hm : m.Placed) (hd : d ≤ m.vars.length)
    (hroom : Cell.Room m.visible.length m.addresses.slot)
    (h : createFunction chunk entry len capture type title inner m = .ok stub m') : Moves d [] m m' := by
  obtain ⟨id, f, hmade⟩ | ⟨-, -, hq⟩ := createFunction_ok h
  · have hcopied : Cell.Room (m.copiedBy capture).length m.addresses.slot := hroom.mono (length_copiedBy m capture)
    have hskip := hcopied.toNat_skip
    have hvars : m'.vars = m.vars := hmade.vars_eq
    refine .of_extends (by rw [hvars]; exact .refl hd) (fun k g hg => ?_) hmade.types ?_ ?_ ?_ nofun
    · obtain rfl | hg := hmade.functions k g hg
      · right
        rw [hmade.captured, hmade.mode]
        exact captured_of_make hcopied hmade.slot
      · exact .inl hg
    · rw [hmade.slot]
      omega
    · rw [hmade.slot]
      exact Cell.Room.skip (k := 0) hcopied
    · intro addr hb _
      rw [hmade.memory]
      exact Memory.word_withCopies (by rw [List.length_map]; exact hcopied) (hb.old hcopied)
  · have hvars : m'.vars = m.vars := by rw [vars, vars, hq.scopes]
    exact .of_extends (by rw [hvars]; exact .refl hd) (fun id f hf => .inl (hq.functions ▸ hf)) hq.types
      (hq.addresses ▸ Nat.le_refl _)
      (hq.addresses ▸ hm.room) (fun _ _ _ => by rw [hq.memory]) nofun

/-- What a call declares has been captured, or is new. -/
theorem visibleIn_cases {call : ScriptCall} {args : List Variable} {f : ScriptFunction}
    (h : m.Enters call args f m')
    (hroom : Cell.Room ((f.copied ++ call.arguments args).length + 1) m.addresses.slot) :
    ∀ e ∈ m.visibleIn f call args, m.Nameable e.2 ∨ Novel m m' e.2 := by
  have hskip : Cell.Room 1 (m.copied (f.copied ++ call.arguments args)).addresses.slot := hroom.skip
  intro e he
  obtain he | he := List.mem_append.mp he
  · obtain he | he := List.mem_append.mp he
    · left
      rw [ScriptFunction.common] at he
      split at he
      case isTrue => cases he
      case isFalse hc => exact .inr ⟨call.id, f, h.found, hc, e.1, he⟩
    · right
      obtain ⟨type, addr, hv, hlow, hbelow⟩ := mem_copies (hroom.mono (Nat.le_succ _)) he
      refine ⟨addr, by rw [hv]; rfl, .inl ⟨hlow, hbelow.mono ?_⟩⟩
      rw [h.slot]
      exact (received_room hskip call.receiver).2
  · right
    cases hr : call.receiver with
    | none =>
      rw [hr] at he
      cases he
    | some r =>
      rw [hr] at he
      obtain rfl := List.mem_singleton.mp he
      have hslot := (hroom.mono (Nat.le_succ _)).toNat_skip
      refine ⟨_, rfl, .inl ⟨?_, ?_⟩⟩
      · show m.addresses.slot.toNat ≤ (Cell.skip m.addresses.slot _).toNat
        omega
      · rw [h.slot, hr]
        exact hskip.below_next

theorem Moves.entered {call : ScriptCall} {args : List Variable} {f : ScriptFunction} {depth : Nat}
    (hd : d ≤ m.vars.length) (hroom : Cell.Room (f.captured.length + args.length + 1) m.addresses.slot)
    (h : enterScript call args m = .ok (f, depth) m') : Moves d [] m m' := by
  have h := Enters.of_enterScript h
  have hcells : Cell.Room ((f.copied ++ call.arguments args).length + 1) m.addresses.slot := room_of_args hroom
  have hvars : m'.vars = m.vars ++ [(({} : Level).addingAll (m.visibleIn f call args)).vars] := by
    rw [vars, h.levels]
    exact vars_push m m.scopes.levels _
  have hnew (e) (he : e ∈ (({} : Level).addingAll (m.visibleIn f call args)).vars) :
      m.Nameable e.2 ∨ Novel m m' e.2 :=
    (Level.mem_addingAll he).elim (fun he => nomatch he) (visibleIn_cases h hcells e)
  have htypes : m.types.Grows m'.types := by
    rw [h.types]
    cases call.receiver with
    | none => exact .refl _
    | some r => exact m.types.constant_grows r.1
  exact .of_extends (by rw [hvars]; exact .push hd hnew) (fun id g hg => .inl (h.functions ▸ hg)) htypes
    (h.slot_le hcells)
    (h.room hcells) (fun addr hb _ => h.word hcells (hb.old hcells)) nofun

theorem Novel.placed (h : Novel m m' v) : Cell.Placed m'.addresses.slot v := by
  obtain ⟨addr, hv, h⟩ := h
  intro a ha
  cases hv.symm.trans ha
  exact h.imp_left (·.2)

theorem Moves.placed (hm : m.Placed) (h : Moves d ws m m') : m'.Placed := by
  have old (v) (hv : m.Named v ∨ m.Captured v) : Cell.Placed m'.addresses.slot v :=
    (hv.elim (hm.named v) (hm.captured v)).mono h.slot
  refine ⟨h.room, fun v hv => ?_, fun v hv => ?_⟩
  · exact (h.nameable v (.inl hv)).elim (fun hv => old v (nameable_or hv)) Novel.placed
  · obtain hv | hv | hv := h.captured v hv
    · exact old v (.inl hv)
    · exact old v (.inr hv)
    · exact hv.placed

/-- A variable that is at a cell of `m` is no new one. -/
theorem Novel.ne (h : Novel m m' v) (hroom : Cell.Room 0 m.addresses.slot) (hb : Cell.Below m.addresses.slot addr) :
    v.storage ≠ .location addr := by
  obtain ⟨a, hv, h⟩ := h
  rw [hv, Ne, Storage.location.injEq]
  rintro rfl
  have := hb.high
  have := hb.low
  have := hroom.high
  rcases h with h | h | h
  · omega
  · omega
  · omega

theorem valueIn_cell {slot : UInt64} {memory memory' : Memory} (hb : Cell.Below slot addr)
    (hv : v.storage = .location addr)
    (hw : memory'.word (addr / 8) = memory.word (addr / 8)) (ts : TypeTable) :
    v.valueIn ts memory' = v.valueIn ts memory := by
  have h8 : addr % 8 = 0 := by
    have := hb.aligned
    refine UInt64.toNat_inj.mp ?_
    rw [UInt64.toNat_mod]
    show addr.toNat % 8 = 0
    omega
  unfold Variable.valueIn
  rw [hv]
  dsimp only
  rw [Memory.read, Memory.read, if_pos h8, if_pos h8, hw]

/-- Variables that were there before a cell are not in it. -/
theorem ne_of_placed {slot slot' : UInt64} (hv : Cell.Placed slot v) (hlow : slot.toNat ≤ addr.toNat)
    (hroom : Cell.Room 0 slot') (hb : Cell.Below slot' addr) : v.storage ≠ .location addr := by
  intro hs
  have := hb.high
  have := hb.low
  have := hroom.high
  rcases hv addr hs with h | h | h
  · have := h.high
    omega
  · omega
  · omega

theorem room_below {slot : UInt64} (hroom : Cell.Room 0 slot) (hb : Cell.Below slot addr) : Cell.Room 1 addr := by
  have := hroom.aligned
  have := hroom.high
  have := hb.high
  have := hb.aligned
  exact ⟨hb.low, hb.aligned, by omega⟩

theorem memory_stored (hroom : Cell.Room 1 addr) (hv : v.storage = .location addr) (word : UInt64) :
    (m.stored v word).memory = m.memory.withCell m.types addr v.type word := by
  unfold stored Memory.withCell
  rw [hv]
  dsimp only
  split
  · rfl
  · rw [if_pos hroom.isValid]

/-- A copy and the variable that it was made of have nothing to do with each other any more. -/
theorem CellFor.apart {m₀ : Machine} {ts : TypeTable} {u : Variable} (h : CellFor ts m₀ m₁ v u)
    (hv : Cell.Placed m₀.addresses.slot v) (hroom₀ : Cell.Room 0 m₀.addresses.slot)
    (hslot : m₁.addresses.slot.toNat ≤ m.addresses.slot.toNat) (hroom : Cell.Room 0 m.addresses.slot)
    (word : UInt64) :
    u.valueIn m.types (m.stored u word).memory = extend (m.types.get u.type) word ∧
      (∀ ts, v.valueIn ts (m.stored u word).memory = v.valueIn ts m.memory) ∧
      (∀ ts, u.valueIn ts (m.stored v word).memory = u.valueIn ts m.memory) := by
  obtain ⟨addr, rfl, hlow, hb⟩ := h.made
  have hb := hb.mono hslot
  have hcell := room_below hroom hb
  refine ⟨?_, fun ts => ?_, fun ts => ?_⟩
  · rw [memory_stored hcell rfl]
    exact Memory.valueIn_withCell hcell _ _
  · rw [memory_stored hcell rfl]
    exact hv.valueIn_congr hroom₀ ts fun i hi => Memory.word_withCell hcell (hi.mono hlow) _ _
  · have hvm : Cell.Placed m.addresses.slot v := hv.mono (Nat.le_trans hlow (Nat.le_of_lt hb.high))
    exact valueIn_cell hb rfl (word_stored hroom hvm hb (ne_of_placed hv hlow hroom hb) word) ts

end

/-! ## The ways to capture -/

section
variable {chunk : Chunk} {entry len : Nat} {capture : Capture} {type : TypeId} {title name : NameId} {inner : Bool}
  {stub : UInt64} {id d : Nat} {ws : List UInt64} {f : ScriptFunction} {m₀ m₁ m : Machine}
  {u v : Variable} {addr : UInt64}

end

end Machine

end LevelScript
