import LevelScript.Proofs.Quiet
import LevelScript.Proofs.Words

/-!
# Cells

Every variable that a script makes has a cell of its own: sixteen bytes, which are not given out again.
So what is written to one of them is read back from there and changes no other, and a new cell can be
filled while all that was there before stays as it is.
-/

namespace LevelScript

/-! ## Words of memory -/

namespace Memory

theorem toNat_mask (w : Width) (n : UInt64) : (n &&& mask w.kind.valueSize).toNat = n.toNat % 2 ^ w.bits := by
  have hmask : (mask w.kind.valueSize).toNat = 2 ^ w.bits - 1 := by cases w <;> rfl
  rw [UInt64.toNat_and, hmask, Nat.and_two_pow_sub_one_eq_mod]

theorem read_write (m : Memory) {addr : UInt64} (h : addr % 8 = 0) (size : Nat) (bits : UInt64) :
    (m.write addr size bits).read addr size = bits &&& mask size := by
  have hkept (kept mask : UInt64) : (kept &&& ~~~mask ||| bits &&& mask) &&& mask = bits &&& mask := by
    refine UInt64.eq_of_toBitVec_eq (BitVec.eq_of_getLsbD_eq fun k hk => ?_)
    simp
    grind
  rw [write, read, if_pos h, if_pos h]
  simp only [word, Std.HashMap.getElem?_insert_self, Option.getD_some]
  exact hkept _ _

theorem word_insert (m : Memory) (i j w : UInt64) :
    word ⟨m.words.insert i w⟩ j = if i = j then w else m.word j := by
  simp only [word, Std.HashMap.getElem?_insert, beq_iff_eq]
  split <;> rfl

theorem word_setByte {m : Memory} {addr i : UInt64} (h : addr / 8 ≠ i) (b : UInt8) :
    (m.setByte addr b).word i = m.word i := by
  rw [setByte]
  exact (word_insert m _ i _).trans (if_neg h)

/-- The word `i` is not among those that `size` bytes lie in. -/
def Apart (addr : UInt64) (size : Nat) (i : UInt64) : Prop := ∀ k < size, (addr + k.toUInt64) / 8 ≠ i

theorem Apart.first {addr i : UInt64} {n : Nat} (h : Apart addr (n + 1) i) : addr / 8 ≠ i := by
  have h := h 0 (Nat.succ_pos n)
  rwa [show addr + (0 : Nat).toUInt64 = addr from UInt64.add_zero addr] at h

theorem Apart.rest {addr i : UInt64} {n : Nat} (h : Apart addr (n + 1) i) : Apart (addr + 1) n i := by
  intro k hk
  have h := h (k + 1) (Nat.succ_lt_succ hk)
  rwa [show (k + 1).toUInt64 = 1 + k.toUInt64 by rw [Nat.toUInt64, UInt64.ofNat_add, UInt64.add_comm]; rfl,
    ← UInt64.add_assoc] at h

theorem word_writeBytes {i : UInt64} : ∀ (size : Nat) {m : Memory} {addr bits : UInt64}, Apart addr size i →
    (m.writeBytes addr bits size).word i = m.word i
  | 0, _, _, _, _ => rfl
  | n + 1, _, _, _, h => by
    rw [writeBytes, word_writeBytes n h.rest]
    exact word_setByte h.first _

theorem word_write {m : Memory} {addr i : UInt64} {size : Nat} (h0 : size ≠ 0) (h : Apart addr size i)
    (bits : UInt64) :
    (m.write addr size bits).word i = m.word i := by
  obtain ⟨n, rfl⟩ : ∃ n, size = n + 1 := ⟨size - 1, by omega⟩
  rw [write]
  split
  · exact (word_insert m _ i _).trans (if_neg h.first)
  · exact word_writeBytes _ h

theorem readBytes_congr {m m' : Memory} : ∀ (size : Nat) {addr : UInt64},
    (∀ k < size, m'.word ((addr + k.toUInt64) / 8) = m.word ((addr + k.toUInt64) / 8)) →
    m'.readBytes addr size = m.readBytes addr size
  | 0, _, _ => rfl
  | n + 1, addr, h => by
    have h0 := h 0 (Nat.succ_pos n)
    rw [show addr + (0 : Nat).toUInt64 = addr from UInt64.add_zero addr] at h0
    rw [readBytes, readBytes, byte, byte, h0, readBytes_congr n fun k hk => ?_]
    have h1 := h (k + 1) (Nat.succ_lt_succ hk)
    rwa [show (k + 1).toUInt64 = 1 + k.toUInt64 by rw [Nat.toUInt64, UInt64.ofNat_add, UInt64.add_comm]; rfl,
      ← UInt64.add_assoc] at h1

/-- What is read depends on the words that the bytes lie in. -/
theorem read_congr {m m' : Memory} {addr : UInt64} {size : Nat}
    (h : ∀ k < size, m'.word ((addr + k.toUInt64) / 8) = m.word ((addr + k.toUInt64) / 8)) :
    m'.read addr size = m.read addr size := by
  cases size with
  | zero =>
    have h0 (w : UInt64) : w &&& mask 0 = 0 := by simp [mask]
    rw [read, read, h0, h0]
    rfl
  | succ n =>
    have h0 := h 0 (Nat.succ_pos n)
    rw [show addr + (0 : Nat).toUInt64 = addr from UInt64.add_zero addr] at h0
    rw [read, read, h0, readBytes_congr _ h]

end Memory

/-! ## Values -/

theorem wrap_low (t : IntegerType) (z : Int) : t.wrap (z % (2 ^ t.width.bits : Nat)) = t.wrap z := by
  unfold IntegerType.wrap
  split
  · exact Int.emod_emod ..
  · exact Int.emod_bmod ..

/-- Values take up nothing or as much as an integer of some width. -/
theorem Kind.valueSize_eq (k : Kind) : k.valueSize = 0 ∨ ∃ w : Width, k.valueSize = w.kind.valueSize := by
  cases k
  case void => exact .inl rfl
  case int8 => exact .inr ⟨.w8, rfl⟩
  case int16 => exact .inr ⟨.w16, rfl⟩
  case int32 | float32 => exact .inr ⟨.w32, rfl⟩
  all_goals exact .inr ⟨.w64, rfl⟩

theorem Kind.valueSize_le (k : Kind) : k.valueSize ≤ 8 := by cases k <;> decide

theorem extendWord_ofInt_width (w : Width) (signed : Bool) (z : Int) :
    extendWord w.kind.valueSize signed (.ofInt z) = .ofInt (IntegerType.wrap ⟨w, !signed⟩ z) := by
  have h := extendWord_ofInt ⟨w, !signed⟩ z
  rwa [Bool.not_not] at h

/-- Only the bytes of the value count. -/
theorem extend_masked (t : TypeInfo) (n : UInt64) : extend t (n &&& Memory.mask t.valueSize) = extend t n := by
  rw [extend, extend, TypeInfo.valueSize]
  obtain h | ⟨w, h⟩ := t.kind.valueSize_eq
  · rw [h]
    rfl
  · have hz : n &&& Memory.mask w.kind.valueSize = .ofInt ((n.toNat : Int) % (2 ^ w.bits : Nat)) :=
      eq_ofInt (by rw [Memory.toNat_mask]; rfl)
    have hn : n = .ofInt n.toNat := eq_ofInt rfl
    rw [h, hz, extendWord_ofInt_width, wrap_low ⟨w, !t.isSignedInteger⟩, ← extendWord_ofInt_width, ← hn]

theorem extend_extend (t : TypeInfo) (n : UInt64) : extend t (extend t n) = extend t n := by
  rw [extend, extend, TypeInfo.valueSize]
  obtain h | ⟨w, h⟩ := t.kind.valueSize_eq
  · rw [h]
    rfl
  · have hn : n = .ofInt n.toNat := eq_ofInt rfl
    rw [h, hn, extendWord_ofInt_width, extendWord_ofInt_width, IntegerType.wrap_wrap]

namespace Variable

/-- The value of a variable; zero if it cannot be read. -/
def valueIn (v : Variable) (ts : TypeTable) (memory : Memory) : UInt64 :=
  let t := ts.get v.type
  match v.storage with
  | .value bits => extend t bits
  | .location addr => extend t (if Machine.canAccess addr t.valueSize then memory.read addr t.valueSize else 0)

theorem extend_valueIn (v : Variable) (ts : TypeTable) (memory : Memory) :
    extend (ts.get v.type) (v.valueIn ts memory) = v.valueIn ts memory := by
  unfold valueIn
  dsimp only
  split
  · exact extend_extend _ _
  · exact extend_extend _ _

end Variable

/-- What a field of the struct at an address says: the address of an inline field, the value of any other. -/
def Machine.fieldWord (m : Machine) (addr : UInt64) (f : Field) : UInt64 :=
  if f.inlined.isSome then addr + f.offset
    else (Variable.atAddress f.type (addr + f.offset)).valueIn m.types m.memory

/-! ## The addresses of cells -/

theorem toNat_offset {addr : UInt64} {k : Nat} (h : addr.toNat + k < UInt64.size) :
    (addr + k.toUInt64).toNat = addr.toNat + k := by
  have hk : k.toUInt64.toNat = k := Nat.mod_eq_of_lt (Nat.lt_of_le_of_lt (Nat.le_add_left ..) h)
  rw [UInt64.toNat_add, hk, Nat.mod_eq_of_lt h]

namespace Cell

def first : Nat := 0x200000000000

/-- Where functions lie, beyond all cells. -/
def limit : Nat := 0x300000000000

structure Room (n : Nat) (slot : UInt64) : Prop where
  low : first ≤ slot.toNat
  aligned : slot.toNat % 16 = 0
  high : slot.toNat + 16 * n ≤ limit

structure Below (slot addr : UInt64) : Prop where
  low : first ≤ addr.toNat
  aligned : addr.toNat % 16 = 0
  high : addr.toNat < slot.toNat

/-- A value at this address has nothing to do with cells. -/
def Outside (addr : UInt64) : Prop :=
  addr.toNat + 8 ≤ first ∨ limit ≤ addr.toNat ∧ addr.toNat + 8 ≤ UInt64.size

/-- A variable by itself, in a cell below `slot`, or away from all cells. -/
def Placed (slot : UInt64) (v : Variable) : Prop :=
  ∀ addr, v.storage = .location addr → Below slot addr ∨ Outside addr

/-- A word that is in no cell from `slot` on. -/
def Old (slot i : UInt64) : Prop := i.toNat * 8 + 8 ≤ slot.toNat ∨ limit ≤ i.toNat * 8

section
variable {slot addr i : UInt64} {n k : Nat} {v : Variable}

theorem Room.mono (h : Room n slot) (hk : k ≤ n) : Room k slot := ⟨h.low, h.aligned, by have := h.high; omega⟩

theorem Room.toNat_next (h : Room (n + 1) slot) : (slot + 16).toNat = slot.toNat + 16 := by
  refine toNat_offset (k := 16) ?_
  have := h.high
  have hl : limit < UInt64.size := by decide
  omega

theorem Room.next (h : Room (n + 1) slot) : Room n (slot + 16) := by
  have := h.high
  have := h.low
  have := h.aligned
  refine ⟨?_, ?_, ?_⟩ <;> rw [h.toNat_next] <;> omega

theorem Room.below_next (h : Room (n + 1) slot) : Below (slot + 16) slot :=
  ⟨h.low, h.aligned, by rw [h.toNat_next]; omega⟩

theorem Below.mono {slot' : UInt64} (h : Below slot addr) (hs : slot.toNat ≤ slot'.toNat) : Below slot' addr :=
  ⟨h.low, h.aligned, Nat.lt_of_lt_of_le h.high hs⟩

theorem Below.old (h : Below slot addr) (hs : Room n slot) : Old slot (addr / 8) := by
  have := h.high
  have := h.aligned
  have := hs.aligned
  rw [Old, UInt64.toNat_div]
  show addr.toNat / 8 * 8 + 8 ≤ slot.toNat ∨ limit ≤ addr.toNat / 8 * 8
  omega

theorem Placed.mono {slot' : UInt64} (h : Placed slot v) (hs : slot.toNat ≤ slot'.toNat) : Placed slot' v :=
  fun addr ha => (h addr ha).imp_left fun hb => hb.mono hs

theorem Old.mono {slot' : UInt64} (h : Old slot i) (hs : slot.toNat ≤ slot'.toNat) : Old slot' i :=
  h.imp_left fun h => Nat.le_trans h hs

theorem Room.isValid (h : Room (n + 1) slot) : Memory.isValid slot = true := by
  have := h.low
  have := h.high
  have hl : Memory.lowLimit.toNat ≤ first := by decide
  have hh : limit ≤ Memory.highLimit.toNat := by decide
  rw [Memory.isValid, Bool.and_eq_true, decide_eq_true_iff, decide_eq_true_iff, UInt64.le_iff_toNat_le,
    UInt64.lt_iff_toNat_lt]
  omega

theorem Room.mod_eight (h : Room n slot) : slot % 8 = 0 := by
  have := h.aligned
  refine UInt64.toNat_inj.mp ?_
  rw [UInt64.toNat_mod]
  show slot.toNat % 8 = 0
  omega

/-- A variable lies in old words. -/
theorem Placed.old (h : Placed slot v) (hs : Room 0 slot) (ha : v.storage = .location addr) (hk : k < 8) :
    Old slot ((addr + k.toUInt64) / 8) := by
  have hsize : limit + 8 ≤ UInt64.size := by decide
  have hhigh := hs.high
  have hlow := hs.low
  have haligned := hs.aligned
  have hoff : (addr + k.toUInt64).toNat = addr.toNat + k ∧ (addr.toNat + 8 ≤ slot.toNat ∨ limit ≤ addr.toNat) := by
    rcases h addr ha with hb | hb | ⟨hl, hu⟩
    · have := hb.high
      have := hb.aligned
      exact ⟨toNat_offset (by omega), .inl (by omega)⟩
    · exact ⟨toNat_offset (by omega), .inl (by omega)⟩
    · exact ⟨toNat_offset (by omega), .inr hl⟩
  have hlimit : limit % 8 = 0 := by decide
  rw [Old, UInt64.toNat_div, hoff.1]
  show (addr.toNat + k) / 8 * 8 + 8 ≤ slot.toNat ∨ limit ≤ (addr.toNat + k) / 8 * 8
  omega

/-- The word in which a cell keeps its value is no old one. -/
theorem Old.ne (h : Old slot i) (hs : Room (n + 1) slot) : slot / 8 ≠ i := by
  rintro rfl
  have := hs.high
  have := hs.aligned
  rw [Old, UInt64.toNat_div] at h
  change slot.toNat / 8 * 8 + 8 ≤ slot.toNat ∨ limit ≤ slot.toNat / 8 * 8 at h
  omega

/-- What a variable holds only depends on old words. -/
theorem Placed.valueIn_congr (h : Placed slot v) (hs : Room 0 slot) {memory memory' : Memory} (ts : TypeTable)
    (hm : ∀ i, Old slot i → memory'.word i = memory.word i) : v.valueIn ts memory' = v.valueIn ts memory := by
  unfold Variable.valueIn
  dsimp only
  cases hv : v.storage with
  | value word => rfl
  | location addr =>
    dsimp only
    split
    · refine congrArg _ (Memory.read_congr fun k hk => hm _ (h.old hs hv ?_))
      exact Nat.lt_of_lt_of_le hk (Kind.valueSize_le _)
    · rfl

end

end Cell

/-! ## Filling cells -/

namespace Memory

def withCell (memory : Memory) (ts : TypeTable) (slot : UInt64) (type : TypeId) (word : UInt64) : Memory :=
  let size := (ts.get type).valueSize
  if size = 0 then memory else memory.write slot size word

def withCopies (ts : TypeTable) : Memory → UInt64 → List Variable → Memory
  | memory, _, [] => memory
  | memory, slot, v :: vs => withCopies ts (memory.withCell ts slot v.type (v.valueIn ts memory)) (slot + 16) vs

section
variable {memory : Memory} {ts : TypeTable} {slot i : UInt64} {n : Nat}

theorem word_withCell (hs : Cell.Room (n + 1) slot) (hi : Cell.Old slot i) (type : TypeId) (word : UInt64) :
    (memory.withCell ts slot type word).word i = memory.word i := by
  rw [withCell]
  split
  · rfl
  · rw [write, if_pos hs.mod_eight]
    exact (word_insert memory _ i _).trans (if_neg (hi.ne hs))

/-- The cell has the value that was put into it. -/
theorem valueIn_withCell (hs : Cell.Room (n + 1) slot) (type : TypeId) (word : UInt64) :
    (Variable.atAddress type slot).valueIn ts (memory.withCell ts slot type word) = extend (ts.get type) word := by
  show extend (ts.get type) (if Machine.canAccess slot (ts.get type).valueSize then
    (memory.withCell ts slot type word).read slot (ts.get type).valueSize else 0) = _
  have hacc : Machine.canAccess slot (ts.get type).valueSize = true := by
    rw [Machine.canAccess, hs.isValid, Bool.or_true]
  rw [if_pos hacc, withCell]
  split
  case isTrue h0 => rw [extend, extend, h0]; rfl
  case isFalse => rw [read_write memory hs.mod_eight, extend_masked]

theorem word_withCopies {vs : List Variable} (hs : Cell.Room vs.length slot) (hi : Cell.Old slot i) :
    (memory.withCopies ts slot vs).word i = memory.word i := by
  induction vs generalizing memory slot with
  | nil => rfl
  | cons v vs ih =>
    have hn := hs.toNat_next
    rw [withCopies, ih hs.next (hi.mono (by omega)), word_withCell hs hi]

end

end Memory

/-- The variables in the cells from `slot` on that copies of others have. -/
def copies (slot : UInt64) : List (NameId × Variable) → List (NameId × Variable)
  | [] => []
  | (name, v) :: more => (name, .atAddress v.type slot) :: copies (slot + 16) more

section
variable {memory : Memory} {ts : TypeTable} {slot : UInt64} {cs : List (NameId × Variable)}
  {name : NameId} {v : Variable}

theorem mem_of_lookup (h : cs.lookup name = some v) : (name, v) ∈ cs := by
  obtain ⟨before, after, rfl, -⟩ := List.lookup_eq_some_iff.mp h
  exact List.mem_append_right _ List.mem_cons_self

theorem lookup_copies_eq_none : (copies slot cs).lookup name = none ↔ cs.lookup name = none := by
  induction cs generalizing slot with
  | nil => rfl
  | cons c cs ih =>
    obtain ⟨n, x⟩ := c
    rw [copies, List.lookup_cons, List.lookup_cons]
    cases name == n with
    | true => exact ⟨nofun, nofun⟩
    | false => exact ih

theorem lookup_copies (hs : Cell.Room cs.length slot) (hp : ∀ c ∈ cs, Cell.Placed slot c.2)
    (h : cs.lookup name = some v) :
    ∃ addr, (copies slot cs).lookup name = some (.atAddress v.type addr) ∧ slot.toNat ≤ addr.toNat ∧
      addr.toNat % 16 = 0 ∧ addr.toNat < slot.toNat + 16 * cs.length ∧
      (Variable.atAddress v.type addr).valueIn ts
      (memory.withCopies ts slot (cs.map (·.2))) = v.valueIn ts memory := by
  induction cs generalizing slot memory with
  | nil => cases h
  | cons c cs ih =>
    obtain ⟨n, x⟩ := c
    have hs : Cell.Room (cs.length + 1) slot := hs
    have hn := hs.toNat_next
    rw [List.lookup_cons] at h
    rw [copies, List.lookup_cons]
    cases he : name == n with
    | true =>
      rw [he] at h
      cases h
      refine ⟨slot, rfl, Nat.le_refl _, hs.aligned, by rw [List.length_cons]; omega, ?_⟩
      -- the cells that are filled later leave this one alone
      have hb : Cell.Placed (slot + 16) (.atAddress v.type slot) := fun addr ha => by
        cases ha
        exact .inl hs.below_next
      have hlen : Cell.Room (cs.map (·.2)).length (slot + 16) := by
        rw [List.length_map]
        exact hs.next
      rw [List.map_cons, Memory.withCopies,
        hb.valueIn_congr (hlen.mono (Nat.zero_le _)) ts fun i hi => Memory.word_withCopies hlen hi,
        Memory.valueIn_withCell hs, Variable.extend_valueIn]
    | false =>
      rw [he] at h
      have hp' : ∀ c ∈ cs, Cell.Placed (slot + 16) c.2 :=
        fun c hc => (hp c (List.mem_cons_of_mem _ hc)).mono (by omega)
      obtain ⟨addr, hl, hlow, haligned, hhigh, hv⟩ :=
        @ih (memory.withCell ts slot x.type (x.valueIn ts memory)) (slot + 16) hs.next hp' h
      refine ⟨addr, hl, by omega, haligned, by rw [List.length_cons]; omega, ?_⟩
      rw [List.map_cons, Memory.withCopies, hv]
      exact (hp _ (List.mem_cons_of_mem _ (mem_of_lookup h))).valueIn_congr
        (hs.mono (Nat.zero_le _)) ts fun i hi => Memory.word_withCell hs hi _ _

end

end LevelScript
