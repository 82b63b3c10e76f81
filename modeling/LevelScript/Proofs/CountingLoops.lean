import LevelScript.Proofs.Bytes
import LevelScript.Proofs.Control
import LevelScript.Proofs.Counting
import LevelScript.Proofs.Globals
import LevelScript.Proofs.IntegerOperators

/-!
# Counting loops

A counting loop whose body does not leave it, and does not touch its variable, has a round for every number
that is counted, in order, and then it is over.
-/

namespace LevelScript

open Exec TypeTable

/-! ## The range of a loop -/

namespace Counting

variable {c : Counting} {a b z : Int}

def range (c : Counting) : LoopRange where
  signed := !c.type.unsigned
  down := c.step < 0
  low := .ofInt c.low
  lowExcluded := c.lowExcluded
  high := .ofInt c.high
  highExcluded := c.highExcluded

theorem extend_next (c : Counting) (isConst : Bool) (z : Int) :
    extend (c.type.infoWith isConst) (.ofInt z + .ofInt c.step) = .ofInt (c.next z) := by
  have hadd : UInt64.ofInt z + .ofInt c.step = .ofInt (z + c.step) := (UInt64.ofInt_add z c.step).symm
  rw [extend_infoWith, hadd, extend_ofInt]
  rfl

end Counting

/-! ## Rounds -/

namespace Interp

variable {i : Interp} {type : TypeId} {name : NameId} {body : Reader} {x : UInt64} {z : Int} {zs : List Int}
  {m m' : Machine} {last v : Variable}

/-- A round with the value `x` of the variable, in a level of its own: its body ends, by itself or by `continue`,
and leaves the variable as it was. -/
inductive Round (i : Interp) (type : TypeId) (name : NameId) (body : Reader) (x : UInt64) (m : Machine)
    (v : Variable) : Machine → Prop
  | mk {m₁ m₂ m' : Machine} {y : Variable}
      (opened : (pushLevel >>= fun _ => fresh type x >>= fun y => discard (declare name y)) m = .ok () m₁)
      (ran : i.block body m₁ = .ok v m₂) (goesOn : m₂.control = .running ∨ m₂.control = .continuing)
      (found : m₂.scopes.lookup name m₂.base = some y)
      (kept : bits y { m₂ with control := .running } = .ok x { m₂ with control := .running })
      (closed : i.closeLevel { m₂ with control := .running } = .ok () m') : Round i type name body x m v m'

theorem calm_ok {α : Type} {c : Exec α} {a : α} (hc : Calm true c) (h : c m = .ok a m') : m.Calm m' := (hc m).ok h

theorem openRound_ok {m₁ : Machine}
    (h : (pushLevel >>= fun _ => fresh type x >>= fun y => discard (declare name y)) m = .ok () m₁) :
    m.types.Grows m₁.types ∧ m₁.scopes.depth = m.scopes.depth + 1 := by
  obtain ⟨⟨⟩, m₂, hp, h⟩ := bind_eq_ok h
  cases hp
  have hc : m.deeper.Calm m₁ := calm_ok (.bind (fresh_calm type x) fun y => .discard (declare_calm name y)) h
  exact ⟨hc.types, hc.depth.trans (Scopes.depth_push _)⟩

theorem Round.next (h : i.Round type name body x m v m') (hi : declaring.Sound i) {l : LoopRange} {step : UInt64}
    {t : TypeInfo} (ht : m.types.types[type]? = some t) (hx : l.contains x = true) (n : Nat) :
    m'.types.types[type]? = some t ∧ i.forRounds l type name step body (n + 1) x last m =
      if l.advances x (extend t (x + step)) then i.forRounds l type name step body n (extend t (x + step)) v m'
      else .ok v m' := by
  cases h with
  | @mk m₁ m₂ m' y opened ran goesOn found kept closed =>
  obtain ⟨hopened, hdepth⟩ := openRound_ok opened
  have hran := (Law.block_obeys hi body m₁ (by omega)).ok ran
  have h₂ : m₂.types.types[type]? = some t := hran.types _ _ (hopened _ _ ht)
  have hclosed :=
    (Law.closeLevel_closes hi { m₂ with control := .running } (Nat.lt_of_lt_of_le (by omega) hran.depth)).ok closed
  refine ⟨hclosed.types _ _ h₂, ?_⟩
  have hnext (again : UInt64 → Exec Variable) :
    i.nextRound l type name step x v again { m₂ with control := .running } =
      (if l.advances x (extend t (x + step)) then again (extend t (x + step)) else pure v : Exec Variable) m' := by
    have hfound : ({ m₂ with control := .running } : Machine).scopes.lookup name
      ({ m₂ with control := .running } : Machine).base = some y := found
    rw [nextRound, get_bind, hfound]
    refine (bind_ok kept).trans ?_
    refine (bind_ok (typeInfo_of (m := { m₂ with control := .running }) h₂)).trans ((bind_ok closed).trans ?_)
    rfl
  have hanswer (again done : Exec Variable) : m₂.answerLoop again done = again { m₂ with control := .running } := by
    rw [Machine.answerLoop]
    obtain hc | hc := goesOn
    · rw [hc]
      exact congrArg again (congrArg (fun control => { m₂ with control }) hc)
    · rw [hc]
  rw [forRounds_round hx opened ran, hanswer, hnext]
  split <;> rfl

structure LoopHead where
  type : TypeId
  info : TypeInfo
  name : NameId
  low : UInt64
  lowExcluded : Bool
  high : UInt64
  highExcluded : Bool
  step : UInt64
  body : Reader

def LoopHead.range (h : LoopHead) : LoopRange where
  signed := h.info.isSignedInteger
  down := h.step.toInt64 < 0
  low := h.low
  lowExcluded := h.lowExcluded
  high := h.high
  highExcluded := h.highExcluded

def LoopHead.first (h : LoopHead) : UInt64 :=
  if h.range.firstExcluded then extend h.info (h.range.first + h.step) else h.range.first

def LoopHead.counting (h : LoopHead) (t : IntegerType) : Counting where
  type := t
  low := t.wrap h.low.toNat
  high := t.wrap h.high.toNat
  lowExcluded := h.lowExcluded
  highExcluded := h.highExcluded
  step := h.step.toInt64.toInt
  low_wrapped := t.wrap_wrap _
  high_wrapped := t.wrap_wrap _

/-- The head is that of a loop over an integer type: its type is in the table, and the bounds are words of it. -/
structure LoopHead.Fits (h : LoopHead) (t : IntegerType) (m : Machine) : Prop where
  info : ∃ isConst, h.info = t.infoWith isConst
  type : m.types.types[h.type]? = some h.info
  low : extend t.info h.low = h.low
  high : extend t.info h.high = h.high

namespace LoopHead

variable {h : LoopHead} {t : IntegerType}

theorem ofInt_bound {n : UInt64} (hn : extend t.info n = n) : UInt64.ofInt (t.wrap n.toNat) = n := by
  rw [← extend_ofInt, ← eq_ofInt (n := n) rfl, hn]

theorem Fits.range (hf : h.Fits t m) : h.range = (h.counting t).range := by
  obtain ⟨isConst, hi⟩ := hf.info
  have hsigned : h.info.isSignedInteger = !t.unsigned := hi ▸ t.isSignedInteger_infoWith isConst
  have hdown : decide (h.step.toInt64 < 0) = decide (h.step.toInt64.toInt < 0) :=
    decide_eq_decide.mpr Int64.lt_iff_toInt_lt
  have hl : h.low = .ofInt (h.counting t).low := (ofInt_bound hf.low).symm
  have hh : h.high = .ofInt (h.counting t).high := (ofInt_bound hf.high).symm
  rw [LoopHead.range, Counting.range, hsigned, hdown, ← hl, ← hh]
  rfl

theorem ofInt_step (h : LoopHead) (t : IntegerType) : UInt64.ofInt (h.counting t).step = h.step := by
  show UInt64.ofInt h.step.toInt64.toInt = _
  rw [toInt_toInt64, ofInt_bmod, ← eq_ofInt rfl]

theorem Fits.first (hf : h.Fits t m) : h.first = .ofInt (h.counting t).first := by
  obtain ⟨isConst, hi⟩ := hf.info
  have hstart : h.range.first = .ofInt (h.counting t).start := by
    rw [hf.range, LoopRange.first, Counting.start]
    by_cases hs : (h.counting t).step < 0
    · rw [show (h.counting t).range.down = true from decide_eq_true hs, if_pos rfl, if_pos hs]
      rfl
    · rw [show (h.counting t).range.down = false from decide_eq_false hs, if_neg Bool.false_ne_true, if_neg hs]
      rfl
  have hexcluded : h.range.firstExcluded = (h.counting t).startExcluded := by
    rw [hf.range, LoopRange.firstExcluded, Counting.startExcluded]
    by_cases hs : (h.counting t).step < 0
    · rw [show (h.counting t).range.down = true from decide_eq_true hs, if_pos rfl, if_pos hs]
      rfl
    · rw [show (h.counting t).range.down = false from decide_eq_false hs, if_neg Bool.false_ne_true, if_neg hs]
      rfl
  have hnext := (h.counting t).extend_next isConst (h.counting t).start
  rw [LoopHead.first, Counting.first, hstart, hexcluded, hi]
  split
  · rw [← hnext, ofInt_step]
    rfl
  · rfl

end LoopHead

/-- What a conversion to an integer type gives is a word of the type. -/
theorem extend_castBits {id : TypeId} {t : IntegerType} {isConst : Bool} {word : UInt64}
    (hi : m.types.types[id]? = some (t.infoWith isConst)) (h : castBits id v m = .ok word m') :
    extend t.info word = word := by
  obtain ⟨y, m₁, hcast, hbits⟩ := bind_eq_ok h
  rw [Exec.cast, bind_ok (resolveType_eq hi)] at hcast
  have hg := m.types.constant_grows TypeTable.type
  obtain ⟨goal, m₂, hgoal, hcast⟩ := bind_eq_ok hcast
  cases hgoal
  obtain ⟨raw, m₃, hraw, hcast⟩ := bind_eq_ok hcast
  obtain ⟨source, m₄, hsource, hcast⟩ := bind_eq_ok hcast
  cases hsource
  obtain ⟨double, m₅, hdouble, hcast⟩ := bind_eq_ok hcast
  cases hcast
  have h₃ := calm_ok (bits_calm v) hraw
  have h₅ := calm_ok (asDouble_calm v) hdouble
  have hi' := h₅.types _ _ (h₃.types _ _ (hg _ _ hi))
  obtain ⟨n, hbits⟩ : ∃ n, bits (.value id n) m₁ = .ok word m' := ⟨_, hbits⟩
  have hvalue : bits (.value id n) m₁ = .ok (extend (m₁.types.get id) n) m₁ := rfl
  rw [hvalue] at hbits
  cases hbits
  rw [get_eq hi', extend_infoWith, extend_extend]

/-- Whatever value the computation ends with, it has the property in the machine that is left. -/
def Leads {α : Type} (c : Run α) (m : Machine) (Q : α → Machine → Prop) : Prop :=
  ∀ r a r' m', c r m = .ok (a, r') m' → Q a m'

section
variable {α β : Type} {c : Run α} {Q : α → Machine → Prop} {R : β → Machine → Prop}

theorem Leads.pure {a : α} (h : Q a m) : Leads (pure a) m Q := by
  intro r b r' m' hp
  cases hp
  exact h

theorem Leads.lift {e : Exec α} (h : ∀ a m', e m = .ok a m' → Q a m') : Leads (liftM e) m Q := by
  intro r a r' m' he
  obtain ⟨a, m₁, he, hp⟩ := bind_eq_ok he
  cases hp
  exact h a _ he

theorem Leads.bind {f : α → Run β} (hc : Leads c m Q) (hf : ∀ a m', Q a m' → Leads (f a) m' R) :
    Leads (c >>= f) m R := by
  intro r b r' m' h
  obtain ⟨⟨a, r₁⟩, m₁, hc', hf'⟩ := bind_eq_ok h
  exact hf a m₁ (hc _ _ _ _ hc') _ _ _ _ hf'

def LoopTyped (type : TypeId) (info : TypeInfo) (m : Machine) : Prop :=
  0 < m.scopes.depth ∧ m.types.types[type]? = some info

theorem Leads.follows (hc : declaring.Follows c) {type : TypeId} {info : TypeInfo} (h : LoopTyped type info m) :
    Leads c m (fun _ => LoopTyped type info) := by
  intro r a r' m' hr
  have hd := (hc r m h.1).ok hr
  exact ⟨Nat.lt_of_lt_of_le h.1 hd.depth, hd.types _ _ h.2⟩

theorem Leads.depth (hc : declaring.Follows c) (h : 0 < m.scopes.depth) :
    Leads c m (fun _ m' => 0 < m'.scopes.depth) := by
  intro r a r' m' hr
  exact Nat.lt_of_lt_of_le h ((hc r m h).ok hr).depth

end

def Word (info : TypeInfo) (word : UInt64) : Prop :=
  ∀ (t : IntegerType) (isConst : Bool), info = t.infoWith isConst → extend t.info word = word

theorem Leads.castBits {info : TypeInfo} (h : LoopTyped type info m) (v : Variable) :
    Leads (liftM (castBits type v) : Run UInt64) m (fun word m' => LoopTyped type info m' ∧ Word info word) := by
  intro r word r' m' hr
  refine ⟨Leads.follows (.calm (castBits_calm type v)) h _ _ _ _ hr, fun t isConst ht => ?_⟩
  exact Leads.lift (Q := fun word _ => extend t.info word = word)
    (fun word m' hw => extend_castBits (ht ▸ h.2) hw) _ _ _ _ hr

/-- A machine in the outermost level, in which the next variable gets a place that depends on the number `z`. -/
structure AtRound (z : Int) (m : Machine) : Prop where
  scopes : m.scopes = ⟨#[{}]⟩
  frames : m.frames = #[]
  control : m.control = .running
  types : m.types = .initial
  slot : m.addresses.slot = 0x200000000000 + .ofInt (16 * z)

theorem AtRound.valid {z : Int} (h : AtRound z m) (hz : 0 ≤ z) (hz' : z < 100) :
    Memory.isValid m.addresses.slot = true := by
  have hslot : m.addresses.slot.toNat = 0x200000000000 + 16 * z.toNat := by
    obtain ⟨k, rfl⟩ := Int.eq_ofNat_of_zero_le hz
    have := toNat_ofInt (16 * (k : Int))
    rw [h.slot, UInt64.toNat_add]
    simp only [UInt64.reduceToNat, Int.toNat_natCast] at *
    omega
  rw [Memory.isValid, Bool.and_eq_true, decide_eq_true_iff, decide_eq_true_iff, UInt64.le_iff_toNat_le,
    UInt64.lt_iff_toNat_lt, hslot]
  simp only [Memory.lowLimit, Memory.highLimit, UInt64.reduceToNat]
  omega

end Interp

end LevelScript
