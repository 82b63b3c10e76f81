import LevelScript.Native.CallFrame

/-!
# Where the arguments of native calls are

A callee that knows the classes of its parameters can tell for each of them where its word is. Under the
System V rule the words of one class fill their registers in order, and what does not fit follows on the
stack in the order of the arguments; under the Windows rule the place of an argument is its number. No word
is in the slot of another one, and nothing else is passed.
-/

namespace LevelScript

namespace CallFrame

inductive Slot where
  | register (c : ArgClass) (k : Nat)
  | stack (k : Nat)
  deriving DecidableEq

def word? (frame : CallFrame) : Slot → Option UInt64
  | .register .int k => frame.ints[k]?
  | .register .float k => frame.floats[k]?
  | .stack k => frame.stack[k]?

/-- How many arguments of a class there are before the argument `i`. -/
def earlier (classes : List ArgClass) (c : ArgClass) (i : Nat) : Nat := (classes.take i).count c

/-- How many arguments before the argument `i` have not found a register, of which so many are free. -/
def spilled (free : ArgClass → Nat) (classes : List ArgClass) (i : Nat) : Nat :=
  (earlier classes .int i - free .int) + (earlier classes .float i - free .float)

/-- The slot of the argument `i`, of class `c`: the next register of its class, or the stack. -/
def slotOf (free : ArgClass → Nat) (classes : List ArgClass) (i : Nat) (c : ArgClass) : Slot :=
  if earlier classes c i < free c then .register c (earlier classes c i) else .stack (spilled free classes i)

def registers : ArgClass → Nat
  | .int => intRegisters
  | .float => floatRegisters

def systemVSlots (classes : List ArgClass) (i : Nat) : List Slot :=
  (classes[i]?.map (slotOf registers classes i)).toList

/-- The slots of the argument `i` under the Windows rule; a float in a register has two. -/
def windowsSlots (classes : List ArgClass) (i : Nat) : List Slot :=
  match classes[i]? with
  | none => []
  | some c =>
    if 4 ≤ i then [.stack (i - 4)]
    else match c with
      | .int => [.register .int i]
      | .float => [.register .float i, .register .int i]

/-- The frame passes these arguments in these slots and nothing else. -/
structure Holds (frame : CallFrame) (args : List NativeArg) (slots : Nat → List Slot) : Prop where
  registers (c k) : (frame.word? (.register c k)).isSome ↔ k < registers c
  found {i arg} : args[i]? = some arg → slots i ≠ [] ∧ ∀ s ∈ slots i, frame.word? s = some arg.bits
  apart {i j s} : s ∈ slots i → s ∈ slots j → i = j
  ordered {i j k l} : i < j → .stack k ∈ slots i → .stack l ∈ slots j → k < l
  /-- A slot of no argument is an unused register. -/
  rest {s w} : frame.word? s = some w → (∃ i < args.length, s ∈ slots i) ∨ (∃ c k, s = .register c k) ∧ w = 0

/-! ## Counting -/

section
variable {free : ArgClass → Nat} {classes : List ArgClass} {c c' : ArgClass} {i j : Nat}

theorem earlier_zero : earlier classes c 0 = 0 := rfl

theorem earlier_succ : earlier (c' :: classes) c (i + 1) = earlier classes c i + if c' = c then 1 else 0 := by
  rw [earlier, List.take_succ_cons, List.count_cons, earlier]
  simp only [beq_iff_eq]

theorem earlier_mono (h : i ≤ j) : earlier classes c i ≤ earlier classes c j :=
  (List.take_sublist_take_left h).count_le c

theorem earlier_lt (hc : classes[i]? = some c) (h : i < j) : earlier classes c i < earlier classes c j := by
  have hs : earlier classes c (i + 1) = earlier classes c i + 1 := by
    rw [earlier, List.take_add_one, List.count_append, hc, Option.toList_some, List.count_singleton_self, earlier]
  exact Nat.lt_of_lt_of_le (hs ▸ Nat.lt_succ_self _) (earlier_mono h)

theorem spilled_lt (hc : classes[i]? = some c) (hf : free c ≤ earlier classes c i) (h : i < j) :
    spilled free classes i < spilled free classes j := by
  have hints : earlier classes .int i ≤ earlier classes .int j := earlier_mono (Nat.le_of_lt h)
  have hfloats : earlier classes .float i ≤ earlier classes .float j := earlier_mono (Nat.le_of_lt h)
  have hlt := earlier_lt hc h
  rw [spilled, spilled]
  cases c <;> omega

/-! ## One argument after the other -/

def less (free : ArgClass → Nat) (c c' : ArgClass) : Nat := free c' - if c = c' then 1 else 0

/-- What a slot becomes when `first` is taken in front of it. -/
def Slot.behind : Slot → Slot → Slot
  | .register c _, .register c' k => .register c' (k + if c = c' then 1 else 0)
  | .stack _, .stack k => .stack (k + 1)
  | _, s => s

def put (frame : CallFrame) (w : UInt64) : Slot → CallFrame
  | .register .int _ => { frame with ints := w :: frame.ints }
  | .register .float _ => { frame with floats := w :: frame.floats }
  | .stack _ => { frame with stack := w :: frame.stack }

theorem slotOf_zero : slotOf free classes 0 c = if 0 < free c then .register c 0 else .stack 0 := by
  rw [slotOf, spilled, earlier_zero, earlier_zero, earlier_zero, Nat.zero_sub, Nat.zero_sub]

theorem spilled_succ : spilled free (c :: classes) (i + 1) =
    spilled (less free c) classes i + if 0 < free c then 0 else 1 := by
  rw [spilled, earlier_succ, earlier_succ, spilled, less, less]
  cases c <;> simp only [if_true, reduceCtorEq, if_false] <;> split <;> omega

theorem earlier_lt_free : earlier (c :: classes) c' (i + 1) < free c' ↔ earlier classes c' i < less free c c' := by
  rw [earlier_succ, less]
  omega

theorem slotOf_succ : slotOf free (c :: classes) (i + 1) c' =
    (slotOf free (c :: classes) 0 c).behind (slotOf (less free c) classes i c') := by
  rw [slotOf_zero, slotOf, slotOf, spilled_succ]
  simp only [earlier_lt_free]
  by_cases hc : 0 < free c
  · rw [if_pos hc, if_pos hc]
    split
    · rw [Slot.behind, earlier_succ]
    · rfl
  · rw [if_neg hc, if_neg hc]
    split
    case isTrue h =>
      have hne : c ≠ c' := by
        rintro rfl
        rw [less] at h
        omega
      rw [earlier_succ, if_neg hne]
      rfl
    · rfl

theorem place_cons (arg : NativeArg) (args : List NativeArg) (classes : List ArgClass) :
    place (free .int) (free .float) (arg :: args) =
      (place (less free arg.argClass .int) (less free arg.argClass .float) args).put arg.bits
        (slotOf free classes 0 arg.argClass) := by
  rw [slotOf_zero, less, less]
  cases arg with
  | int bits =>
    show _ = (place (free .int - 1) (free .float) args).put _ (if 0 < free .int then .register .int 0 else .stack 0)
    cases free .int <;> rfl
  | float32 bits =>
    show _ = (place (free .int) (free .float - 1) args).put _
      (if 0 < free .float then .register .float 0 else .stack 0)
    cases free .float <;> rfl
  | float64 bits =>
    show _ = (place (free .int) (free .float - 1) args).put _
      (if 0 < free .float then .register .float 0 else .stack 0)
    cases free .float <;> rfl

end

namespace Slot

def IsFirst : Slot → Prop
  | register _ k | stack k => k = 0

variable {first : Slot}

theorem first_or_behind (h : first.IsFirst) (s : Slot) : s = first ∨ ∃ s', s = first.behind s' := by
  cases first with
  | register c k =>
    cases h
    cases s with
    | stack k' => exact .inr ⟨.stack k', rfl⟩
    | register c' k' =>
      by_cases hc : c = c'
      · cases k' with
        | zero => exact .inl (by rw [hc])
        | succ k' => exact .inr ⟨.register c' k', by rw [behind, if_pos hc]⟩
      · exact .inr ⟨.register c' k', by rw [behind, if_neg hc, Nat.add_zero]⟩
  | stack k =>
    cases h
    cases s with
    | register c' k' => exact .inr ⟨.register c' k', rfl⟩
    | stack k' =>
      cases k' with
      | zero => exact .inl rfl
      | succ k' => exact .inr ⟨.stack k', rfl⟩

end Slot

theorem slotOf_zero_isFirst (free : ArgClass → Nat) (classes : List ArgClass) (c : ArgClass) :
    (slotOf free classes 0 c).IsFirst := by
  rw [slotOf_zero]
  split <;> rfl

theorem word?_put_first {frame : CallFrame} {w : UInt64} {first : Slot} (h : first.IsFirst) :
    (frame.put w first).word? first = some w := by
  obtain ⟨c, k⟩ | k := first
  · cases h
    cases c <;> rfl
  · cases h
    rfl

theorem word?_put_behind (frame : CallFrame) (w : UInt64) (first s : Slot) :
    (frame.put w first).word? (first.behind s) = frame.word? s := by
  cases first with
  | register c k =>
    cases s with
    | register c' k' => cases c <;> cases c' <;> rfl
    | stack k' => cases c <;> rfl
  | stack k =>
    cases s with
    | register c' k' => cases c' <;> rfl
    | stack k' => rfl

/-- Placing puts the arguments in their slots, and nothing in any other slot. -/
theorem word?_place {free : ArgClass → Nat} {args : List NativeArg} {s : Slot} {w : UInt64} :
    (place (free .int) (free .float) args).word? s = some w ↔
      ∃ i arg, args[i]? = some arg ∧ slotOf free (args.map (·.argClass)) i arg.argClass = s ∧ arg.bits = w := by
  induction args generalizing free s with
  | nil =>
    have hn : (place (free .int) (free .float) []).word? s = none := by
      obtain ⟨c, k⟩ | k := s
      · cases c <;> rfl
      · rfl
    rw [hn]
    exact ⟨nofun, fun ⟨i, arg, h, _⟩ => nomatch h⟩
  | cons a args ih =>
    have hf := slotOf_zero_isFirst free ((a :: args).map (·.argClass)) a.argClass
    rw [place_cons a args ((a :: args).map (·.argClass))]
    constructor
    · intro h
      obtain rfl | ⟨s', rfl⟩ := Slot.first_or_behind hf s
      · rw [word?_put_first hf] at h
        exact ⟨0, a, rfl, rfl, Option.some.inj h⟩
      · rw [word?_put_behind, ih] at h
        obtain ⟨i, arg, hi, rfl, hw⟩ := h
        exact ⟨i + 1, arg, hi, slotOf_succ, hw⟩
    · rintro ⟨i, arg, hi, rfl, rfl⟩
      cases i with
      | zero =>
        cases hi
        exact word?_put_first hf
      | succ i =>
        rw [List.map_cons, slotOf_succ, word?_put_behind, ih]
        exact ⟨i, arg, hi, rfl, rfl⟩

/-! ## The System V rule -/

section
variable {free : ArgClass → Nat} {classes : List ArgClass} {c c' : ArgClass} {i j k : Nat}

theorem slotOf_eq_register :
    slotOf free classes i c = .register c' k ↔ c = c' ∧ earlier classes c i = k ∧ k < free c := by
  rw [slotOf]
  split
  case isTrue h =>
    rw [Slot.register.injEq]
    exact ⟨fun ⟨hc, hk⟩ => ⟨hc, hk, hk ▸ h⟩, fun ⟨hc, hk, _⟩ => ⟨hc, hk⟩⟩
  case isFalse h => exact ⟨nofun, fun ⟨_, hk, hlt⟩ => absurd (hk ▸ hlt) h⟩

theorem slotOf_eq_stack :
    slotOf free classes i c = .stack k ↔ free c ≤ earlier classes c i ∧ spilled free classes i = k := by
  rw [slotOf]
  split
  case isTrue h => exact ⟨nofun, fun ⟨hle, _⟩ => absurd h (Nat.not_lt.mpr hle)⟩
  case isFalse h =>
    rw [Slot.stack.injEq]
    exact ⟨fun hk => ⟨Nat.not_lt.mp h, hk⟩, fun ⟨_, hk⟩ => hk⟩

theorem slotOf_ne (hc : classes[i]? = some c) (h : i < j) : slotOf free classes i c ≠ slotOf free classes j c' := by
  intro he
  cases hs : slotOf free classes i c with
  | register c'' k =>
    obtain ⟨rfl, hk, -⟩ := slotOf_eq_register.mp hs
    obtain ⟨rfl, hk', -⟩ := slotOf_eq_register.mp (he ▸ hs)
    exact Nat.ne_of_lt (earlier_lt hc h) (hk.trans hk'.symm)
  | stack k =>
    obtain ⟨hf, hk⟩ := slotOf_eq_stack.mp hs
    obtain ⟨-, hk'⟩ := slotOf_eq_stack.mp (he ▸ hs)
    exact Nat.ne_of_lt (spilled_lt hc hf h) (hk.trans hk'.symm)

theorem mem_systemVSlots {s : Slot} :
    s ∈ systemVSlots classes i ↔ ∃ c, classes[i]? = some c ∧ slotOf registers classes i c = s := by
  rw [systemVSlots, Option.mem_toList, Option.map_eq_some_iff]

end

theorem getElem?_pad (count : Nat) (regs : List UInt64) (k : Nat) :
    (pad count regs)[k]? = regs[k]?.or (if k < count then some 0 else none) := by
  rw [pad, List.getElem?_append]
  split
  case isTrue h => rw [List.getElem?_eq_getElem h, Option.some_or]
  case isFalse h =>
    rw [List.getElem?_eq_none (Nat.not_lt.mp h), Option.none_or, List.getElem?_replicate]
    split <;> split <;> first | rfl | omega

/-- What is in a slot that is not used. -/
def Slot.unused : Slot → Option UInt64
  | register c k => if k < registers c then some 0 else none
  | stack _ => none

theorem Slot.eq_of_unused {s : Slot} {w : UInt64} (h : s.unused = some w) : (∃ c k, s = .register c k) ∧ w = 0 := by
  cases s with
  | stack k => cases h
  | register c k =>
    rw [unused] at h
    split at h
    · exact ⟨⟨c, k, rfl⟩, (Option.some.inj h).symm⟩
    · cases h

theorem Slot.isSome_unused {c : ArgClass} {k : Nat} : (register c k).unused.isSome ↔ k < registers c := by
  rw [unused]
  split <;> simp [*]

theorem word?_systemV (args : List NativeArg) (s : Slot) :
    (systemV args).word? s = ((place (registers .int) (registers .float) args).word? s).or s.unused := by
  obtain ⟨c, k⟩ | k := s
  · cases c <;> exact getElem?_pad ..
  · exact (Option.or_none).symm

theorem holds_systemV (args : List NativeArg) :
    (systemV args).Holds args (systemVSlots (args.map (·.argClass))) where
  registers c k := by
    rw [word?_systemV, Option.isSome_or, Bool.or_eq_true, Slot.isSome_unused]
    refine ⟨fun h => h.elim (fun h => ?_) id, .inr⟩
    obtain ⟨w, hw⟩ := Option.isSome_iff_exists.mp h
    obtain ⟨i, arg, -, hs, -⟩ := word?_place.mp hw
    obtain ⟨rfl, -, hk⟩ := slotOf_eq_register.mp hs
    exact hk
  found {i arg} h := by
    have hslots : systemVSlots (args.map (·.argClass)) i =
        [slotOf registers (args.map (·.argClass)) i arg.argClass] := by
      rw [systemVSlots, List.getElem?_map, h]
      rfl
    rw [hslots]
    refine ⟨List.cons_ne_nil _ _, fun s hs => ?_⟩
    rw [List.mem_singleton.mp hs, word?_systemV, word?_place.mpr ⟨i, arg, h, rfl, rfl⟩, Option.some_or]
  apart {i j s} hi hj := by
    obtain ⟨c, hc, hs⟩ := mem_systemVSlots.mp hi
    obtain ⟨c', hc', hs'⟩ := mem_systemVSlots.mp hj
    obtain h | h | h := Nat.lt_trichotomy i j
    · exact absurd (hs.trans hs'.symm) (slotOf_ne hc h)
    · exact h
    · exact absurd (hs'.trans hs.symm) (slotOf_ne hc' h)
  ordered {i j k l} h hi hj := by
    obtain ⟨c, hc, hs⟩ := mem_systemVSlots.mp hi
    obtain ⟨c', hc', hs'⟩ := mem_systemVSlots.mp hj
    obtain ⟨hf, rfl⟩ := slotOf_eq_stack.mp hs
    obtain ⟨-, rfl⟩ := slotOf_eq_stack.mp hs'
    exact spilled_lt hc hf h
  rest {s w} h := by
    rw [word?_systemV, Option.or_eq_some_iff] at h
    obtain hw | ⟨-, hw⟩ := h
    · obtain ⟨i, arg, hi, hs, -⟩ := word?_place.mp hw
      refine .inl ⟨i, (List.getElem?_eq_some_iff.mp hi).1, mem_systemVSlots.mpr ⟨arg.argClass, ?_, hs⟩⟩
      rw [List.getElem?_map, hi]
      rfl
    · exact .inr (Slot.eq_of_unused hw)

/-! ## The Windows rule -/

theorem mem_windowsSlots {classes : List ArgClass} {i : Nat} {s : Slot} :
    s ∈ windowsSlots classes i ↔ ∃ c, classes[i]? = some c ∧
      (4 ≤ i ∧ s = .stack (i - 4) ∨ i < 4 ∧ (s = .register .int i ∨ c = .float ∧ s = .register .float i)) := by
  rw [windowsSlots]
  cases classes[i]? with
  | none => simp
  | some c =>
    simp only [Option.some.injEq, exists_eq_left']
    by_cases h : 4 ≤ i
    · simp [h, Nat.not_lt.mpr h]
    · cases c <;> simp [h, Nat.lt_of_not_le h, or_comm]

def floatWord (arg : NativeArg) : UInt64 :=
  match arg.argClass with
  | .int => 0
  | .float => arg.bits

theorem ints_windows (args : List NativeArg) (k : Nat) : (windows args).word? (.register .int k) =
    (if k < 4 then args[k]?.map (·.bits) else none).or (Slot.register .int k).unused := by
  show (pad intRegisters ((args.take 4).map NativeArg.bits))[k]? = _
  rw [getElem?_pad, List.getElem?_map, List.getElem?_take]
  split <;> rfl

theorem floats_windows (args : List NativeArg) (k : Nat) : (windows args).word? (.register .float k) =
    (if k < 4 then args[k]?.map floatWord else none).or (Slot.register .float k).unused := by
  show (pad floatRegisters ((args.take 4).map floatWord))[k]? = _
  rw [getElem?_pad, List.getElem?_map, List.getElem?_take]
  split <;> rfl

theorem stack_windows (args : List NativeArg) (k : Nat) :
    (windows args).word? (.stack k) = args[4 + k]?.map (·.bits) := by
  show ((args.drop 4).map NativeArg.bits)[k]? = _
  rw [List.getElem?_map, List.getElem?_drop]

theorem some_of_windows {args : List NativeArg} {i : Nat} {word : NativeArg → UInt64}
    {other : Option UInt64} {w : UInt64}
    (h : (if i < 4 then args[i]?.map word else none).or other = some w) :
    (i < 4 ∧ ∃ arg, args[i]? = some arg ∧ word arg = w) ∨ other = some w := by
  obtain hw | ⟨-, hw⟩ := Option.or_eq_some_iff.mp h
  · split at hw
    case isTrue hi => exact .inl ⟨hi, Option.map_eq_some_iff.mp hw⟩
    case isFalse => cases hw
  · exact .inr hw

theorem mem_windowsSlots_of {args : List NativeArg} {i : Nat} {arg : NativeArg} {s : Slot}
    (hi : args[i]? = some arg)
    (hs : 4 ≤ i ∧ s = .stack (i - 4) ∨ i < 4 ∧
      (s = .register .int i ∨ arg.argClass = .float ∧ s = .register .float i)) :
    ∃ i < args.length, s ∈ windowsSlots (args.map (·.argClass)) i := by
  refine ⟨i, (List.getElem?_eq_some_iff.mp hi).1, mem_windowsSlots.mpr ⟨arg.argClass, ?_, hs⟩⟩
  rw [List.getElem?_map, hi]
  rfl

theorem holds_windows (args : List NativeArg) :
    (windows args).Holds args (windowsSlots (args.map (·.argClass))) where
  registers c k := by
    -- Registers without an argument read as zero, and only the ones that exist.
    have unused {x : Option UInt64} (hx : x.isSome → k < registers c) :
        (x.or (Slot.register c k).unused).isSome ↔ k < registers c := by
      rw [Option.isSome_or, Bool.or_eq_true, Slot.isSome_unused]
      exact ⟨fun h => h.elim hx id, .inr⟩
    have few {w : NativeArg → UInt64} {n : Nat} (hn : 4 ≤ n) :
        (if k < 4 then args[k]?.map w else none).isSome → k < n := by
      split
      · exact fun _ => by omega
      · exact nofun
    cases c with
    | int => exact ints_windows args k ▸ unused (few (by decide))
    | float => exact floats_windows args k ▸ unused (few (by decide))
  found {i arg} h := by
    have hc : (args.map (·.argClass))[i]? = some arg.argClass := by rw [List.getElem?_map, h]; rfl
    constructor
    · rw [windowsSlots, hc]
      dsimp only
      split
      · exact List.cons_ne_nil _ _
      · split <;> exact List.cons_ne_nil _ _
    · intro s hs
      obtain ⟨c, hc', ⟨hi, rfl⟩ | ⟨hi, rfl | ⟨hf, rfl⟩⟩⟩ := mem_windowsSlots.mp hs
      · rw [stack_windows, show 4 + (i - 4) = i by omega, h]
        rfl
      · rw [ints_windows, if_pos hi, h]
        rfl
      · rw [hc', hf, Option.some.injEq] at hc
        rw [floats_windows, if_pos hi, h, Option.map_some, Option.some_or, floatWord, ← hc]
  apart {i j s} hi hj := by
    obtain ⟨c, -, hs⟩ := mem_windowsSlots.mp hi
    obtain ⟨c', -, hs'⟩ := mem_windowsSlots.mp hj
    obtain ⟨h, rfl⟩ | ⟨h, rfl | ⟨-, rfl⟩⟩ := hs <;> simp at hs' <;> omega
  ordered {i j k l} h hi hj := by
    obtain ⟨c, -, hs⟩ := mem_windowsSlots.mp hi
    obtain ⟨c', -, hs'⟩ := mem_windowsSlots.mp hj
    simp at hs hs'
    omega
  rest {s w} h := by
    obtain ⟨_ | _, k⟩ | k := s
    · rw [ints_windows] at h
      obtain ⟨hk, arg, ha, -⟩ | h := some_of_windows h
      · exact .inl (mem_windowsSlots_of ha (.inr ⟨hk, .inl rfl⟩))
      · exact .inr (Slot.eq_of_unused h)
    · rw [floats_windows] at h
      obtain ⟨hk, arg, ha, hw⟩ | h := some_of_windows h
      · rw [floatWord] at hw
        split at hw
        · exact .inr ⟨⟨_, _, rfl⟩, hw.symm⟩
        case h_2 hc => exact .inl (mem_windowsSlots_of ha (.inr ⟨hk, .inr ⟨hc, rfl⟩⟩))
      · exact .inr (Slot.eq_of_unused h)
    · rw [stack_windows] at h
      obtain ⟨arg, ha, -⟩ := Option.map_eq_some_iff.mp h
      exact .inl (mem_windowsSlots_of ha (.inl ⟨Nat.le_add_right _ _, by rw [Nat.add_sub_cancel_left]⟩))

/-! ## Reading back -/

def fetchFree (free : ArgClass → Nat) (frame : CallFrame) (classes : List ArgClass) : List UInt64 :=
  fetch (pad (free .int) frame.ints) (pad (free .float) frame.floats) frame.stack classes

theorem pad_cons (n : Nat) (w : UInt64) (regs : List UInt64) : pad (n + 1) (w :: regs) = w :: pad n regs := by
  rw [pad, pad, List.length_cons, Nat.add_sub_add_right, List.cons_append]

theorem fetch_put (free : ArgClass → Nat) (frame : CallFrame) (c : ArgClass) (w : UInt64) (classes : List ArgClass)
    (h : free c = 0 → frame.word? (.register c 0) = none) :
    fetchFree free (frame.put w (if 0 < free c then .register c 0 else .stack 0)) (c :: classes) =
      w :: fetchFree (less free c) frame classes := by
  cases c with
  | int =>
    have hother : less free .int .float = free .float := rfl
    have hown : less free .int .int = free .int - 1 := rfl
    rw [fetchFree, fetchFree, hother, hown]
    cases hn : free .int with
    | zero =>
      have he : frame.ints = [] := List.length_eq_zero_iff.mp (Nat.le_zero.mp (List.getElem?_eq_none_iff.mp (h hn)))
      show fetch (pad 0 frame.ints) (pad (free .float) frame.floats) (w :: frame.stack) _ = _
      rw [he]
      rfl
    | succ n =>
      show fetch (pad (n + 1) (w :: frame.ints)) (pad (free .float) frame.floats) frame.stack _ = _
      rw [pad_cons]
      rfl
  | float =>
    have hother : less free .float .int = free .int := rfl
    have hown : less free .float .float = free .float - 1 := rfl
    rw [fetchFree, fetchFree, hother, hown]
    cases hn : free .float with
    | zero =>
      have he : frame.floats = [] :=
        List.length_eq_zero_iff.mp (Nat.le_zero.mp (List.getElem?_eq_none_iff.mp (h hn)))
      show fetch (pad (free .int) frame.ints) (pad 0 frame.floats) (w :: frame.stack) _ = _
      rw [he]
      rfl
    | succ n =>
      show fetch (pad (free .int) frame.ints) (pad (n + 1) (w :: frame.floats)) frame.stack _ = _
      rw [pad_cons]
      rfl

theorem place_full {free : ArgClass → Nat} {c : ArgClass} (h : free c = 0) (args : List NativeArg) :
    (place (free .int) (free .float) args).word? (.register c 0) = none := by
  refine Option.eq_none_iff_forall_ne_some.mpr fun w hw => ?_
  obtain ⟨i, arg, -, hs, -⟩ := word?_place.mp hw
  obtain ⟨rfl, -, hk⟩ := slotOf_eq_register.mp hs
  omega

theorem fetch_place (free : ArgClass → Nat) (args : List NativeArg) :
    fetchFree free (place (free .int) (free .float) args) (args.map (·.argClass)) = args.map (·.bits) := by
  induction args generalizing free with
  | nil => rfl
  | cons arg args ih =>
    have hfull : free arg.argClass = 0 → less free arg.argClass arg.argClass = 0 := by
      intro h
      rw [less, h, Nat.zero_sub]
    rw [place_cons arg args [], slotOf_zero, List.map_cons, List.map_cons, ← ih (less free arg.argClass)]
    exact fetch_put _ _ _ _ _ fun h => place_full (hfull h) args

/-- A callee that knows the classes of the arguments finds the word of each of them: under the System V rule the
integers and the floats in the registers of their kind, in order, and all others on the stack in the order of
the arguments; under the Windows rule the first four by their number, a float also beside it. -/
theorem frames_hold_arguments (args : List NativeArg) :
    (systemV args).arguments (args.map (·.argClass)) = args.map (·.bits) ∧
      (systemV args).Holds args (systemVSlots (args.map (·.argClass))) ∧
      (windows args).Holds args (windowsSlots (args.map (·.argClass))) :=
  ⟨fetch_place registers args, holds_systemV args, holds_windows args⟩

end CallFrame

end LevelScript
