import LevelScript.Proofs.Entry
import LevelScript.Proofs.PlainTypes

/-!
# Functions entered from native code

Native code passes a word for each parameter, and the numbers beyond the parameters in a block of tagged
words. What is above the width of a parameter is dropped, and a conversion looks at nothing of an argument
but its type and its value. So a script function that native code enters through its address gets the
values that it would get from a direct call.
-/

namespace LevelScript

open Exec

theorem TypeTable.isVariadic_eq (ts : TypeTable) (id : TypeId) :
    ts.isVariadic id = (ts.get id).params.getLast?.any fun p => ts.kind p.type == .varargs := by
  rw [isVariadic]
  cases (ts.get id).params.getLast? <;> rfl

namespace Machine

/-! ## Arguments with the same value -/

/-- Two variables of a type with the same value. -/
structure Agrees (m : Machine) (v w : Variable) : Prop where
  type : w.type = v.type
  known : v.type < m.types.size
  reads : m.Reads v
  reads' : m.Reads w
  value : w.valueIn m.types m.memory = v.valueIn m.types m.memory

section
variable {m m' : Machine} {bad : UInt64 → Prop} {v w : Variable}

theorem valueIn_later (h : m.Quiet bad m') (hv : v.type < m.types.size) :
    v.valueIn m'.types m'.memory = v.valueIn m.types m.memory := by
  rw [Variable.valueIn, Variable.valueIn, h.types.get hv, h.memory]

theorem Reads.later (hv : m.Reads v) (h : m.Quiet bad m') (hk : v.type < m.types.size) : m'.Reads v := by
  unfold Reads
  rw [h.types.get hk]
  exact hv

theorem known_later (h : m.Quiet bad m') {id : TypeId} (hid : id < m.types.size) : id < m'.types.size := by
  obtain ⟨t, ht⟩ : ∃ t, m.types.types[id]? = some t := ⟨_, Array.getElem?_eq_getElem hid⟩
  exact (Array.getElem?_eq_some_iff.mp (h.types id t ht)).1

theorem Agrees.later (ha : m.Agrees v w) (h : m.Quiet bad m') : m'.Agrees v w := by
  have hw : w.type < m.types.size := ha.type ▸ ha.known
  refine ⟨ha.type, known_later h ha.known, ha.reads.later h ha.known, ha.reads'.later h hw, ?_⟩
  rw [valueIn_later h hw, valueIn_later h ha.known, ha.value]

end

end Machine

namespace Exec

section
variable {α β : Type} {m m' : Machine} {v w : Variable}

theorem bind_congr_left {x y : Exec α} {f : α → Exec β} (h : x m = y m) : (x >>= f) m = (y >>= f) m := by
  simp only [bind, EStateM.bind, h]

/-- Computations that go on alike after a value has been found. -/
theorem bind_congr_ok {x : Exec α} {f g : α → Exec β} (h : ∀ a m', x m = .ok a m' → f a m' = g a m') :
    (x >>= f) m = (x >>= g) m := by
  cases hx : x m with
  | ok a m' => rw [bind_ok hx, bind_ok hx, h a m' hx]
  | error e m' => simp only [bind, EStateM.bind, hx]

theorem asDouble_congr (h : m.Agrees v w) : asDouble v m = asDouble w m := by
  rw [asDouble, asDouble, bind_ok (bits_reads h.reads), bind_ok (bits_reads h.reads'), h.value, h.type]

/-- A conversion sees the type and the value, and nothing else. -/
theorem cast_congr (target : TypeId) (h : m.Agrees v w) : cast target v m = cast target w m := by
  rw [cast, cast]
  refine bind_congr_ok fun target' m₁ hr => ?_
  have hq : m.Quiet (fun _ => False) m₁ := ((resolveType_quiet target) m).ok hr |>.1
  have h₁ := h.later hq
  have goal : typeInfo target' m₁ = .ok (m₁.types.get target') m₁ := rfl
  rw [bind_ok goal, bind_ok goal, bind_ok (bits_reads h₁.reads), bind_ok (bits_reads h₁.reads'), h₁.value, h₁.type]
  refine bind_congr_ok fun source m₂ hsource => ?_
  cases hsource
  simp only [bind, EStateM.bind, asDouble_congr h₁]

theorem toValue_congr (h : m.Agrees v w) (ho : w.origin = v.origin) : toValue v m = toValue w m := by
  obtain ⟨type, storage, origin⟩ := v
  obtain ⟨type', storage', origin'⟩ := w
  cases h.type
  cases ho
  rw [toValue, toValue, bind_ok (bits_reads h.reads), bind_ok (bits_reads h.reads'), h.value]

end

end Exec

/-! ## What native code passes -/

namespace Machine

/-- Numbers in a block of tagged words, and an end mark behind them. -/
inductive Tagged (m : Machine) : UInt64 → List Variable → Prop where
  | done {addr} : m.memory.read addr 4 ≠ 1 → m.memory.read addr 4 ≠ 2 → Tagged m addr []
  | integer {addr v vs} : m.memory.read addr 4 = 1 → v.origin = none →
      m.Agrees v (.value TypeTable.int64 (m.memory.read (addr + 8) 8)) → Tagged m (addr + 16) vs →
          Tagged m addr (v :: vs)
  | float {addr v vs} : m.memory.read addr 4 = 2 → v.origin = none →
      m.Agrees v (.value TypeTable.float64 (m.memory.read (addr + 8) 8)) → Tagged m (addr + 16) vs →
          Tagged m addr (v :: vs)

/-- Native code passes arguments in words: one for each parameter, of which only the width of the
parameter counts, and the address of a block, or zero, for all numbers beyond the parameters. -/
inductive Passes (m : Machine) : List Param → List UInt64 → List Variable → Prop where
  | nil : Passes m [] [] []
  | noBlock {p} : m.types.kind p.type = .varargs → Passes m [p] [0] []
  | block {p addr vs} : m.types.kind p.type = .varargs → addr ≠ 0 → m.Tagged addr vs → Passes m [p] [addr] vs
  | word {p v ps word words vs} : m.types.kind p.type ≠ .varargs → v.type = p.type →
      v.type < m.types.size → m.Reads v →
      extend (m.types.get p.type) word = v.valueIn m.types m.memory → Passes m ps words vs →
      Passes m (p :: ps) (word :: words) (v :: vs)

inductive Interchangeable (m : Machine) : List Param → List Variable → List Variable → Prop where
  | nil {ps} : Interchangeable m ps [] []
  | beyond {v w vs ws} : m.Agrees v w → w.origin = v.origin → Interchangeable m [] vs ws →
      Interchangeable m [] (v :: vs) (w :: ws)
  | param {p v w ps vs ws} : m.Agrees v w → Interchangeable m ps vs ws →
      Interchangeable m (p :: ps) (v :: vs) (w :: ws)

section
variable {m m' : Machine} {fuel : Nat} {addr : UInt64} {ps : List Param} {words : List UInt64}
  {vs ws : List Variable}

theorem Interchangeable.length_eq (h : m.Interchangeable ps vs ws) : ws.length = vs.length := by
  induction h with
  | nil => rfl
  | beyond _ _ _ ih | param _ _ ih => rw [List.length_cons, List.length_cons, ih]

theorem Interchangeable.later {bad : UInt64 → Prop} (h : m.Interchangeable ps vs ws)
    (hq : m.Quiet bad m') : m'.Interchangeable ps vs ws := by
  induction h with
  | nil => exact .nil
  | beyond ha ho _ ih => exact .beyond (ha.later hq) ho ih
  | param ha _ ih => exact .param (ha.later hq) ih

theorem Tagged.interchangeable (h : m.Tagged addr vs) (hfuel : vs.length ≤ fuel) :
    m.Interchangeable [] vs (varargsAt m.memory fuel addr) := by
  induction h generalizing fuel with
  | @done addr h1 h2 =>
    cases fuel with
    | zero => exact .nil
    | succ n =>
      rw [varargsAt]
      split
      · exact absurd ‹_› h1
      · exact absurd ‹_› h2
      · exact .nil
  | @integer addr v vs h1 ho ha _ ih =>
    obtain ⟨n, rfl⟩ : ∃ n, fuel = n + 1 := Nat.exists_eq_add_one_of_ne_zero (Nat.ne_zero_of_lt hfuel)
    rw [varargsAt, h1]
    exact .beyond ha ho.symm (ih (Nat.le_of_succ_le_succ hfuel))
  | @float addr v vs h2 ho ha _ ih =>
    obtain ⟨n, rfl⟩ : ∃ n, fuel = n + 1 := Nat.exists_eq_add_one_of_ne_zero (Nat.ne_zero_of_lt hfuel)
    rw [varargsAt, h2]
    exact .beyond ha ho.symm (ih (Nat.le_of_succ_le_succ hfuel))

def fixedParams (m : Machine) (ps : List Param) : List Param := ps.filter fun p => m.types.kind p.type != .varargs

/-- What a function receives is like what was passed. -/
theorem Passes.interchangeable (h : m.Passes ps words vs) (hfuel : vs.length ≤ fuel) :
    m.Interchangeable (m.fixedParams ps) vs (receiveArguments fuel m ps words) := by
  induction h with
  | nil => exact .nil
  | @noBlock p hk =>
    have hk : (m.types.get p.type).kind = .varargs := hk
    simp only [receiveArguments, List.headD_cons, hk]
    exact .nil
  | @block p addr vs hk ha ht =>
    have hfixed : m.fixedParams [p] = [] := by simp [fixedParams, hk]
    have hk : (m.types.get p.type).kind = .varargs := hk
    have hreceived : receiveArguments fuel m [p] [addr] = varargsAt m.memory fuel addr := by
      simp [receiveArguments, hk, ha]
    rw [hfixed, hreceived]
    exact ht.interchangeable hfuel
  | @word p v ps word words vs hk ht hv hr hword _ ih =>
    have hfixed : m.fixedParams (p :: ps) = p :: m.fixedParams ps := by simp [fixedParams, hk]
    have hk : (m.types.get p.type).kind ≠ .varargs := hk
    simp only [receiveArguments, List.headD_cons, List.tail_cons, hfixed]
    refine .param ⟨ht.symm, hv, hr, m.reads_value _ _, ?_⟩ (ih (Nat.le_of_succ_le hfuel))
    show extend (m.types.get p.type) (extend (m.types.get p.type) word) = _
    rw [extend_extend, hword]

/-- Only the last parameter can stand for more than one argument. -/
theorem Passes.take_fixed (h : m.Passes ps words vs) :
    ps.take (if (ps.getLast?.any fun p => m.types.kind p.type == .varargs) then ps.length -
      1 else ps.length) = m.fixedParams ps := by
  induction h with
  | nil => rfl
  | noBlock hk | block hk => simp [fixedParams, hk]
  | @word p v ps _ _ _ hk _ _ _ _ _ ih =>
    have hfixed : m.fixedParams (p :: ps) = p :: m.fixedParams ps := by simp [fixedParams, hk]
    cases ps with
    | nil => simp [fixedParams, hk]
    | cons q qs =>
      rw [hfixed, ← ih, List.getLast?_cons_cons]
      split <;> rfl

end

end Machine

/-! ## Calls -/

namespace Exec

variable {m m' : Machine} {ps : List Param} {vs ws : List Variable}

theorem convertArguments_congr (h : m.Interchangeable ps vs ws) (hq : m.Quiet (fun _ => True) m') :
    convertArguments ps vs m' = convertArguments ps ws m' := by
  -- the rest is converted in a later machine, in which the arguments are still alike
  induction h generalizing m' with
  | nil => rfl
  | @beyond v w vs ws ha ho _ ih =>
    have hfirst : toValue v m' = toValue w m' := toValue_congr (ha.later hq) ho
    rw [convertArguments, convertArguments, bind_congr_left hfirst]
    refine bind_congr_ok fun u m₁ hu => ?_
    have hrest : convertArguments [] vs m₁ = convertArguments [] ws m₁ :=
      ih (hq.trans (((toValue_quiet fun _ _ => trivial) m').ok hu).1)
    rw [bind_congr_left hrest]
  | @param p v w ps vs ws ha _ ih =>
    have hfirst : cast p.type v m' = cast p.type w m' := cast_congr p.type (ha.later hq)
    rw [convertArguments, convertArguments, bind_congr_left hfirst]
    refine bind_congr_ok fun u m₁ hu => ?_
    have hrest : convertArguments ps vs m₁ = convertArguments ps ws m₁ :=
      ih (hq.trans (((cast_quiet p.type fun _ _ => trivial) m').ok hu).1)
    rw [bind_congr_left hrest]

end Exec

namespace Interp

open Exec

theorem callFunction_congr (i : Interp) {m : Machine} {f : Variable} {words : List UInt64} {vs ws : List Variable}
    (hp : m.Passes (m.types.get f.type).params words vs)
    (h : m.Interchangeable (m.fixedParams (m.types.get f.type).params) vs ws) :
    i.callFunction f vs m = i.callFunction f ws m := by
  have hfixed := hp.take_fixed
  rw [← TypeTable.isVariadic_eq] at hfixed
  rw [callFunction, callFunction, get_bind, get_bind, h.length_eq]
  dsimp only
  generalize (if m.types.isVariadic f.type = true then _ else _) = fixed at hfixed ⊢
  rw [hfixed]
  split
  case isTrue => rfl
  case isFalse =>
    split
    case isTrue => rfl
    case isFalse => exact bind_congr_left (convertArguments_congr h (.refl m))

/-- A live function that native code enters runs as in a direct call, with the same outcome, the same
effects and the bits of the same result. -/
theorem enterStub_eq_call {fuel id : Nat} {m : Machine} {f : ScriptFunction} {words : List UInt64}
    {args : List Variable}
    (hf : m.functions.get? id = some f) (hp : m.Passes (m.types.get f.type).params words args)
    (hfuel : args.length ≤ fuel) :
    (ofFuel (fuel + 1)).enterStub f.type id words m =
      ((ofFuel (fuel + 1)).call (.value f.type f.stub) args >>= bits) m := by
  rw [enterStub, get_bind, hf]
  dsimp only
  refine bind_congr_left (Eq.symm ?_)
  exact callFunction_congr (ofFuel fuel) (f := .value f.type f.stub) hp (hp.interchangeable hfuel)

/-- A level that owns nothing is only taken away. -/
theorem closeTo_empty (i : Interp) {n k d : Nat} {m : Machine} {l : Level} (hl : m.scopes.innermost? = some l)
    (ha : l.allocs = #[]) (hd : m.scopes.depth = d + 1) :
    closeTo (i.closeLevelWithin (n + 1)) d (k + 2) m = .ok () m.shallower := by
  have hclose := closeLevelWithin_unowned i n hl ha
  have hdepth : m.shallower.scopes.depth = d := by
    show m.scopes.levels.pop.size = d
    rw [Array.size_pop]
    exact Nat.sub_eq_of_eq_add hd
  rw [closeTo, get_bind, if_pos (by omega), bind_ok hclose, closeTo, get_bind, if_neg (by omega)]
  rfl

/-- The types without further structure, and functions of an integer and of numbers beyond it. -/
def countingTypes : TypeTable where
  types := (TypeTable.primitiveKinds.map (TypeTable.plainInfo · {})).toArray.push
    { kind := .function, shape := .function TypeTable.void [⟨some 8, TypeTable.int32⟩, ⟨none, 8⟩],
      flags := { closed := true } }
  interned := ∅
  closed := ∅
  closedConst := ∅

def counting : ScriptFunction where
  name := NameId.anonymous
  file := NameId.anonymous
  chunk := { bytes := #[0] }
  entry := 0
  len := 1
  capture := .nothing
  captured := []
  type := 9
  stub := 0x300000000000
  key := none

def countingMachine : Machine :=
  { Machine.start { types := countingTypes } with
    functions := FunctionTable.insert {} 0 counting
    memory := ⟨((∅ : Std.HashMap UInt64 UInt64).insert 4 1).insert 5 5⟩ }

def countingArguments : List Variable := [.value TypeTable.int32 2, .value TypeTable.int64 5]

theorem counting_passes :
    countingMachine.Passes (countingMachine.types.get 9).params [0xFF00000002, 32] countingArguments := by
  have word (i : UInt64) : countingMachine.memory.word i = if 5 = i then 5 else if 4 = i then 1 else 0 := by
    rw [countingMachine, Memory.word_insert ⟨_⟩, Memory.word_insert {}]
    simp [Memory.word]
  refine .word (by decide) rfl (by decide) (countingMachine.reads_value _ _) (by decide) ?_
  refine .block (by decide) (by decide) (.integer ?_ rfl ?_ (.done ?_ ?_))
  · show countingMachine.memory.word 4 &&& Memory.mask 4 = 1
    rw [word]
    decide
  · refine ⟨rfl, by decide, countingMachine.reads_value _ _, countingMachine.reads_value _ _, ?_⟩
    show extend _ (countingMachine.memory.word 5 &&& Memory.mask 8) = extend _ 5
    rw [word]
    decide
  · show countingMachine.memory.word 6 &&& Memory.mask 4 ≠ 1
    rw [word]
    decide
  · show countingMachine.memory.word 6 &&& Memory.mask 4 ≠ 2
    rw [word]
    decide

def countingConverted : Machine := { countingMachine with types := (countingTypes.constant TypeTable.type).2 }

theorem countingConverted_types {id : TypeId} {t : TypeInfo} (h : countingTypes.types[id]? = some t) :
    countingConverted.types.get id = t := TypeTable.get_eq (TypeTable.constant_grows _ _ id t h)

theorem countingConverted_void : countingConverted.types.get TypeTable.void = countingTypes.get TypeTable.void :=
  countingConverted_types rfl

theorem counting_typeInfo {id : TypeId} {t : TypeInfo} (h : countingTypes.types[id]? = some t) :
    typeInfo id countingConverted = .ok t countingConverted :=
  congrArg (EStateM.Result.ok · countingConverted) (countingConverted_types h)

theorem counting_converts :
    convertArguments [⟨some 8, TypeTable.int32⟩] countingArguments countingMachine =
    .ok countingArguments countingConverted := by
  have hresolve : resolveType TypeTable.int32 countingMachine = .ok TypeTable.int32 countingConverted :=
    resolveType_same (TypeTable.resolve_plain
      (TypeTable.constant_grows _ _ _ (TypeTable.plainInfo .int32 {}) rfl) rfl nofun)
  have hinfo : typeInfo TypeTable.int32 countingConverted = .ok (TypeTable.plainInfo .int32 {}) countingConverted :=
    counting_typeInfo rfl
  have hword : bits (.value TypeTable.int32 2) countingConverted = .ok 2 countingConverted :=
    (bind_ok hinfo).trans rfl
  have hdouble : asDouble (.value TypeTable.int32 2) countingConverted =
      .ok (Real64.ofSigned 2) countingConverted :=
    (bind_ok hword).trans (bind_ok hinfo)
  have hfirst : Exec.cast TypeTable.int32 (.value TypeTable.int32 2) countingMachine =
      .ok (.value TypeTable.int32 2) countingConverted := by
    rw [Exec.cast, bind_ok hresolve]
    exact (bind_ok hinfo).trans ((bind_ok hword).trans ((bind_ok hinfo).trans (bind_ok hdouble)))
  have hinfo' : typeInfo TypeTable.int64 countingConverted =
      .ok (TypeTable.plainInfo .int64 {}) countingConverted :=
    counting_typeInfo rfl
  have hsecond : toValue (.value TypeTable.int64 5) countingConverted =
      .ok (.value TypeTable.int64 5) countingConverted :=
    bind_ok ((bind_ok hinfo').trans rfl)
  rw [countingArguments, convertArguments, bind_ok hfirst, convertArguments]
  exact bind_ok (bind_ok hsecond)

def countingCall : ScriptCall :=
  { id := 0, origin := none, result := TypeTable.void, assignable := false,
    params := (countingTypes.get 9).params, fixed := 1 }

theorem counting_leaves :
    ∃ m', (ofFuel 8).callScript countingCall countingArguments countingConverted = .ok voidValue m' ∧
    m'.types = countingConverted.types := by
  obtain ⟨m, l, hbody, htypes, hl, hempty, hdepth⟩ : ∃ m l,
      (ofFuel 8).callScript countingCall countingArguments countingConverted =
        (ofFuel 8).leaveCall countingCall 1 .running m ∧
        m.types = countingConverted.types ∧ m.scopes.innermost? = some l ∧ l.allocs = #[] ∧ m.scopes.depth = 2 :=
    ⟨_, _, rfl, rfl, rfl, rfl, rfl⟩
  have hkind : m.types.kind TypeTable.void = .void := by
    rw [htypes, TypeTable.kind, countingConverted_void]
    rfl
  have hresult : functionResult countingCall .running m = .ok voidValue m := by
    show (if m.types.kind TypeTable.void = .void then _ else _ : Exec Variable) m = _
    rw [if_pos hkind]
    rfl
  have hclose : closeTo (ofFuel 8).closeLevel 1 (ofFuel 8).fuel m = .ok () m.shallower :=
    closeTo_empty (ofFuel 8) (n := 6) (k := 5) hl hempty hdepth
  refine ⟨{ m.shallower with frames := m.frames.pop }, ?_, htypes⟩
  rw [hbody, leaveCall, bind_ok hresult, bind_ok hclose]
  rfl

theorem counting_call :
    ∃ m', ((ofFuel 9).call (.value 9 counting.stub) countingArguments >>= bits) countingMachine = .ok 0 m' := by
  obtain ⟨m', hleft, htypes⟩ := counting_leaves
  have hfunction : typeInfo 9 countingConverted = .ok (countingTypes.get 9) countingConverted :=
    counting_typeInfo rfl
  have haddr : bits (.value 9 counting.stub) countingConverted = .ok counting.stub countingConverted :=
    (bind_ok hfunction).trans rfl
  have hclass : countingConverted.functions.classify counting.stub = .script 0 :=
    FunctionTable.classify_insert _ _ _
  have hcall : (ofFuel 9).call (.value 9 counting.stub) countingArguments countingMachine = .ok voidValue m' := by
    refine (bind_ok counting_converts).trans ((bind_ok haddr).trans ?_)
    rw [if_neg (by decide)]
    dsimp only
    rw [get_bind, hclass]
    exact hleft
  have hbits : bits voidValue m' = .ok (extend (m'.types.get TypeTable.void) 0) m' := rfl
  rw [htypes, countingConverted_void] at hbits
  exact ⟨m', (bind_ok hcall).trans hbits⟩

/-- What is above the 32 bits of the parameter does not count. -/
theorem enterStub_eq_call_counting : ∃ m',
    ((ofFuel 9).call (.value 9 counting.stub) countingArguments >>= bits) countingMachine = .ok 0 m' ∧
      (ofFuel 9).enterStub 9 0 [0xFF00000002, 32] countingMachine = .ok 0 m' := by
  obtain ⟨m', hcall⟩ := counting_call
  have hf : countingMachine.functions.get? 0 = some counting := FunctionTable.get?_insert_self _ _ _
  have hsame : (ofFuel 9).enterStub 9 0 [0xFF00000002, 32] countingMachine = _ :=
    enterStub_eq_call hf counting_passes (by decide)
  exact ⟨m', hcall, hsame.trans hcall⟩

end Interp

end LevelScript
