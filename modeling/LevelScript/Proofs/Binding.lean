import LevelScript.Proofs.Entry

/-!
# What names mean in a function

A function keeps the variables that could be seen where it was made, and a call declares them in its own
level, before the parameters and before `this`. Of two variables of a name the first one counts: that is
the outermost of those which were visible.
-/

namespace LevelScript

/-- Without a name that is declared twice, the order of declaration does not matter. -/
theorem Level.lookup_declared (l : Level) (name : NameId) : l.declared.lookup name = l.find? name := by
  have reversed (vars : List (NameId × Variable)) (h : (vars.map (·.1)).Nodup) :
      vars.reverse.lookup name = vars.lookup name := by
    induction vars with
    | nil => rfl
    | cons e es ih =>
      obtain ⟨n, v⟩ := e
      rw [List.map_cons, List.nodup_cons] at h
      rw [List.reverse_cons, List.lookup_append, ih h.2, List.lookup_cons, List.lookup_cons]
      cases hn : name == n with
      | false => exact Option.or_none
      | true =>
        have hnone : es.lookup name = none := by
          refine List.lookup_eq_none_iff.mpr fun e he => ?_
          rw [eq_of_beq hn, bne_iff_ne]
          exact fun hk => h.1 (hk ▸ List.mem_map.mpr ⟨e, he, rfl⟩)
        rw [hnone]
        rfl
  exact reversed l.vars l.distinct

/-! ## Looking a name up -/

namespace Scopes

variable {s : Scopes} {name : NameId} {base low top i : Nat} {v : Variable}

def global? (s : Scopes) (name : NameId) : Option Variable := s.levels[0]?.bind (·.find? name)

/-- Two of the levels that can be seen declare the name. -/
def Shadows (s : Scopes) (name : NameId) (base : Nat) : Prop :=
  ∃ i j, max base 1 ≤ i ∧ i < j ∧ s.declaresAt i name = true ∧ s.declaresAt j name = true

theorem declaresAt_eq (s : Scopes) (i : Nat) (name : NameId) :
    s.declaresAt i name = (s.levels[i]?.bind (·.find? name)).isSome := by
  rw [declaresAt]
  cases s.levels[i]? <;> rfl

/-- A name refers to the innermost level that declares it. -/
theorem searchDown_eq (h : s.declaresAt i name = true) (hlow : low ≤ i) (htop : i < top)
    (hlast : ∀ j, i < j → j < top → s.declaresAt j name = false) : s.searchDown name low top = some i := by
  induction top with
  | zero => omega
  | succ top ih =>
    rw [searchDown, if_neg (by omega)]
    obtain rfl | hne := eq_or_ne i top
    · rw [if_pos h]
    · rw [hlast top (by omega) (Nat.lt_succ_self top)]
      exact ih (by omega) fun j hj hjt => hlast j hj (by omega)

theorem searchDown_none (h : ∀ j, low ≤ j → j < top → s.declaresAt j name = false) :
    s.searchDown name low top = none := by
  induction top with
  | zero => rfl
  | succ top ih =>
    rw [searchDown]
    split
    case isTrue => rfl
    case isFalse hlow =>
      rw [h top (by omega) (Nat.lt_succ_self top)]
      exact ih fun j hj hjt => h j hj (by omega)

theorem lookup_of_search (h : s.searchDown name (max base 1) s.depth = some i) :
    s.lookup name base = s.levels[i]?.bind (·.find? name) := by
  rw [lookup, levelOf, h]
  rfl

theorem lookup_of_none (h : s.searchDown name (max base 1) s.depth = none) :
    s.lookup name base = s.global? name := by
  rw [lookup, levelOf, h, global?]
  cases hd : s.declaresAt 0 name with
  | true => rfl
  | false =>
    rw [declaresAt_eq, Option.isSome_eq_false_iff, Option.isNone_iff_eq_none] at hd
    rw [hd]
    rfl

/-- In a new call, a name means what its level declares, or else what the outermost one does. -/
theorem lookup_push (ls : Array Level) (l : Level) (name : NameId) :
    (⟨ls.push l⟩ : Scopes).lookup name ls.size = (l.find? name).or ((⟨ls⟩ : Scopes).global? name) := by
  have hlast : (⟨ls.push l⟩ : Scopes).levels[ls.size]? = some l := Array.getElem?_push_size
  have hdeclares : (⟨ls.push l⟩ : Scopes).declaresAt ls.size name = (l.find? name).isSome := by
    rw [declaresAt_eq, hlast]
    rfl
  obtain h0 | hpos := Nat.eq_zero_or_pos ls.size
  · -- the level of the call is the outermost one itself
    obtain rfl := Array.size_eq_zero_iff.mp h0
    rw [lookup_of_none rfl]
    show l.find? name = (l.find? name).or none
    rw [Option.or_none]
  · have hsize : (⟨ls.push l⟩ : Scopes).depth = ls.size + 1 := Array.size_push ..
    have hmax : max ls.size 1 = ls.size := by omega
    cases hl : l.find? name with
    | some v =>
      rw [hl] at hdeclares
      have hsearch : (⟨ls.push l⟩ : Scopes).searchDown name (max ls.size 1) (⟨ls.push l⟩ : Scopes).depth =
          some ls.size :=
        searchDown_eq hdeclares (Nat.le_of_eq hmax) (by omega) fun j hj hjt => by omega
      rw [lookup_of_search hsearch, hlast]
      exact hl
    | none =>
      rw [hl] at hdeclares
      have hsearch : (⟨ls.push l⟩ : Scopes).searchDown name (max ls.size 1) (⟨ls.push l⟩ : Scopes).depth = none :=
        searchDown_none fun j hj hjt => by
          obtain rfl : j = ls.size := by omega
          exact hdeclares
      rw [lookup_of_none hsearch, global?, global?, Array.getElem?_push_lt hpos, Array.getElem?_eq_getElem hpos]
      rfl

/-! ## The variables that can be captured -/

theorem lookup_flatMap (levels : List Level) (name : NameId) :
    (levels.flatMap Level.declared).lookup name = levels.findSome? (·.find? name) := by
  induction levels with
  | nil => rfl
  | cons l ls ih =>
    rw [List.flatMap_cons, List.lookup_append, List.findSome?_cons, ih, l.lookup_declared]
    cases l.find? name <;> rfl

/-- What a function captures under a name that only one level declares is what the name refers to. -/
theorem lookup_eq_visibleFrom (hs : ¬s.Shadows name base) (h : (s.visibleFrom base).lookup name = some v) :
    s.lookup name base = some v := by
  rw [visibleFrom, lookup_flatMap] at h
  obtain ⟨l, hl, hv⟩ := List.exists_of_findSome?_eq_some h
  obtain ⟨k, hk⟩ := List.mem_iff_getElem?.mp hl
  rw [List.getElem?_drop, Array.getElem?_toList] at hk
  have hd : s.declaresAt (max base 1 + k) name = true := by
    rw [declaresAt_eq, hk]
    exact Option.isSome_iff_exists.mpr ⟨v, hv⟩
  have hsize : max base 1 + k < s.depth := (Array.getElem?_eq_some_iff.mp hk).1
  have hsearch := searchDown_eq hd (Nat.le_add_right ..) hsize fun j hj _ => by
    by_contra hne
    exact hs ⟨_, j, Nat.le_add_right .., hj, hd, Bool.not_eq_false _ ▸ hne⟩
  rw [lookup_of_search hsearch, hk]
  exact hv

end Scopes

/-! ## Names in a call -/

namespace Exec

theorem mem_arguments {call : ScriptCall} {args : List Variable} {c : NameId × Variable}
    (h : c ∈ call.arguments args) :
    c.2 ∈ args := by
  obtain ⟨p, hp, hc⟩ := List.mem_filterMap.mp h
  obtain ⟨name, -, rfl⟩ := Option.map_eq_some_iff.mp hc
  exact (List.of_mem_zip (List.mem_of_mem_take hp)).2

theorem length_arguments (call : ScriptCall) (args : List Variable) :
    (call.arguments args).length ≤ args.length := by
  refine Nat.le_trans (List.length_filterMap_le ..) (Nat.le_trans (List.length_take_le' ..) ?_)
  rw [List.length_zip]
  exact Nat.min_le_right ..

end Exec

namespace Machine

open Exec

variable {m m' : Machine} {call : ScriptCall} {args : List Variable} {f : ScriptFunction}

theorem Enters.lookup (h : m.Enters call args f m') (name : NameId) :
    m'.scopes.lookup name m'.base = ((m.visibleIn f call args).lookup name).or (m.scopes.global? name) := by
  have hscopes : m'.scopes = ⟨m.scopes.levels.push (({} : Level).addingAll (m.visibleIn f call args))⟩ := by
    rw [← h.levels]
  rw [hscopes, h.base, Scopes.depth, Scopes.lookup_push, Level.find?_addingAll_empty]

/-! ### What was captured -/

section
variable {m₁ : Machine} {capture : Capture} {stub : UInt64} {id : Nat} {name : NameId} {v u : Variable}

theorem Makes.placed (h : m.Makes capture stub id f m₁) (hroom : Cell.Room m.visible.length m.addresses.slot)
    (hplaced : ∀ c ∈ m.visible, Cell.Placed m.addresses.slot c.2) :
    ∀ c ∈ f.captured, Cell.Placed m₁.addresses.slot c.2 := by
  have copied (hc : m.copiedBy capture = m.visible) :
      ∀ c ∈ copies m.addresses.slot m.visible, Cell.Placed m₁.addresses.slot c.2 := by
    intro c hm
    obtain ⟨type, addr, he, -, hbelow⟩ := mem_copies hroom hm
    rw [h.slot, hc, he]
    exact fun a ha => by cases ha; exact .inl hbelow
  rw [h.captured]
  cases capture with
  | nothing => exact fun c hc => nomatch hc
  | shared => exact fun c hc => h.slot ▸ hplaced c hc
  | copyPerCall => exact copied rfl
  | copyOnce => exact copied rfl

/-- A captured variable is the outermost one of its name that could be seen, or a copy of it. -/
theorem Makes.lookup_captured (h : m.Makes capture stub id f m₁) (hc : capture ≠ .nothing)
    (hroom : Cell.Room m.visible.length m.addresses.slot)
    (hplaced : ∀ c ∈ m.visible, Cell.Placed m.addresses.slot c.2) (hv : m.visible.lookup name = some v) :
    ∃ u, f.captured.lookup name = some u ∧ (capture = .shared → u = v) ∧
    (capture ≠ .shared → CellFor m₁.types m m₁ v u) := by
  have copied (hc : m.copiedBy capture = m.visible)
    (hcaptured : m.capturedBy capture = copies m.addresses.slot m.visible)
      (hs : capture ≠ .shared) :
      ∃ u, f.captured.lookup name = some u ∧ (capture = .shared → u = v) ∧
          (capture ≠ .shared → CellFor m₁.types m m₁ v u) := by
    obtain ⟨u, hu, hcell⟩ := lookup_copied hroom hplaced hv (hc ▸ h.memory) (hc ▸ h.slot)
    exact ⟨u, by rw [h.captured, hcaptured, hu], fun he => absurd he hs, fun _ => hcell⟩
  cases capture with
  | nothing => exact absurd rfl hc
  | shared => exact ⟨v, by rw [h.captured]; exact hv, fun _ => rfl, fun hs => absurd rfl hs⟩
  | copyPerCall => exact copied rfl rfl nofun
  | copyOnce => exact copied rfl rfl nofun

/-- Where no variable of a name could be seen, none was captured. -/
theorem Makes.lookup_captured_none (h : m.Makes capture stub id f m₁)
    (hv : capture = .nothing ∨ m.visible.lookup name = none) :
    f.captured.lookup name = none := by
  rw [h.captured]
  cases capture with
  | nothing => rfl
  | shared => exact hv.resolve_left nofun
  | copyPerCall => exact lookup_copies_eq_none.mpr (hv.resolve_left nofun)
  | copyOnce => exact lookup_copies_eq_none.mpr (hv.resolve_left nofun)

end

/-! ### What a call declares -/

theorem lookup_receiverAt {r : Option (TypeId × UInt64)} {name : NameId}
    (h : name = NameId.this → r = none) (m : Machine) :
    (m.receiverAt r).lookup name = none := by
  cases r with
  | none => rfl
  | some r =>
    have hn : (name == NameId.this) = false := beq_eq_false_iff_ne.mpr fun hn => nomatch h hn
    rw [receiverAt, List.lookup_cons, hn]
    rfl

namespace Enters

section
variable {name : NameId} {v u : Variable} (h : m.Enters call args f m')
include h

theorem lookup_common (hu : f.common.lookup name = some u) : m'.scopes.lookup name m'.base = some u := by
  rw [h.lookup, visibleIn, List.append_assoc, List.lookup_append, hu]
  rfl

theorem lookup_other (hc : f.captured.lookup name = none) (ha : (call.arguments args).lookup name = none) :
    m'.scopes.lookup name m'.base =
      (((m.copied (f.copied ++ call.arguments args)).receiverAt call.receiver).lookup name).or
      (m.scopes.global? name) := by
  have hcommon : f.common.lookup name = none := by
    rw [ScriptFunction.common]
    split
    · rfl
    · exact hc
  have hcopied : f.copied.lookup name = none := by
    rw [ScriptFunction.copied]
    split
    · exact hc
    · rfl
  have hcopies : (copies m.addresses.slot (f.copied ++ call.arguments args)).lookup name = none := by
    rw [lookup_copies_eq_none, List.lookup_append, hcopied, ha]
    rfl
  rw [h.lookup, visibleIn, List.lookup_append, List.lookup_append, hcommon, hcopies]
  rfl

variable (hroom : Cell.Room ((f.copied ++ call.arguments args).length + 1) m.addresses.slot)
  (hplaced : ∀ c ∈ f.copied ++ call.arguments args, Cell.Placed m.addresses.slot c.2)
include hroom hplaced

theorem lookup_copy (hn : f.common.lookup name = none)
    (hv : (f.copied ++ call.arguments args).lookup name = some v) :
    ∃ u, m'.scopes.lookup name m'.base = some u ∧ CellFor m.types m m' v u := by
  obtain ⟨u, hu, hcell⟩ := h.lookup_copies hroom hplaced hv
  refine ⟨u, ?_, hcell⟩
  rw [h.lookup, visibleIn, List.append_assoc, List.lookup_append, hn, Option.none_or, List.lookup_append, hu]
  rfl

/-- A parameter is a new variable with the value of its argument. -/
theorem lookup_argument (hv : (call.arguments args).lookup name = some v) :
    ∃ u, m'.scopes.lookup name m'.base = some u ∧ CellFor m.types m m' v u := by
  have hfree := h.free _ (mem_of_lookup hv)
  rw [List.lookup_append, Option.or_eq_none_iff, lookup_copies_eq_none] at hfree
  refine h.lookup_copy hroom hplaced hfree.1 ?_
  rw [List.lookup_append, hfree.2, Option.none_or]
  exact hv

/-- What was captured is found in the call, or a copy of it. -/
theorem lookup_captured (hu : f.captured.lookup name = some u) :
    (f.capture ≠ .copyPerCall → m'.scopes.lookup name m'.base = some u) ∧
      (f.capture = .copyPerCall → ∃ w, m'.scopes.lookup name m'.base = some w ∧ CellFor m.types m m' u w) := by
  refine ⟨fun hc => h.lookup_common ?_, fun hc => h.lookup_copy hroom hplaced ?_ ?_⟩
  · rw [ScriptFunction.common, if_neg hc, hu]
  · rw [ScriptFunction.common, if_pos hc]
    rfl
  · rw [List.lookup_append, ScriptFunction.copied, if_pos hc, hu]
    rfl

end

theorem lookup_receiver {type : TypeId} {addr : UInt64} (h : m.Enters call args f m')
    (hroom : Cell.Room ((f.copied ++ call.arguments args).length + 1) m.addresses.slot)
    (hc : f.captured.lookup NameId.this = none) (ha : (call.arguments args).lookup NameId.this = none)
    (hr : call.receiver = some (type, addr)) :
    ∃ u, m'.scopes.lookup NameId.this m'.base = some u ∧ u.type = (m.types.constant type).1 ∧
      u.valueIn m'.types m'.memory = extend (m'.types.get u.type) addr := by
  refine ⟨.atAddress (m.types.constant type).1 (m.copied (f.copied ++ call.arguments args)).addresses.slot,
    ?_, rfl, ?_⟩
  · rw [h.lookup_other hc ha, hr]
    rfl
  · rw [h.types, h.memory, hr]
    exact Memory.valueIn_withCell hroom.skip _ _

end Enters

/-- A call takes up a cell for each captured variable, for each argument and for the struct, at most. -/
theorem room_of_args (hroom : Cell.Room (f.captured.length + args.length + 1) m.addresses.slot) :
    Cell.Room ((f.copied ++ call.arguments args).length + 1) m.addresses.slot := by
  refine hroom.mono (Nat.succ_le_succ ?_)
  rw [List.length_append]
  refine Nat.add_le_add ?_ (length_arguments call args)
  rw [ScriptFunction.copied]
  split
  · exact Nat.le_refl _
  · exact Nat.zero_le _

theorem placed_of_args {slot : UInt64} (hcaptured : ∀ c ∈ f.captured, Cell.Placed slot c.2)
    (hargs : ∀ v ∈ args, v.isLvalue = false) : ∀ c ∈ f.copied ++ call.arguments args, Cell.Placed slot c.2 := by
  intro c hc
  obtain hc | hc := List.mem_append.mp hc
  · rw [ScriptFunction.copied] at hc
    split at hc
    · exact hcaptured c hc
    · cases hc
  · have := hargs c.2 (mem_arguments hc)
    rw [Variable.isLvalue] at this
    split at this
    case h_1 word hs =>
      rintro addr ha
      rw [hs] at ha
      cases ha
    case h_2 => cases this

/-! ### From the place where a function is made to its calls -/

/-- What a name means when the body of a function starts to run: the parameter of that name; else what the
function captured under it, which is the outermost variable of the name that could be seen where the function
was made, or a copy of it; else, for `this`, the struct that the function was reached through; else the
variable of the outermost level. Nothing of the caller can be seen. What was captured is what the name referred
to where the function was made, unless two of the levels that could be seen there declare it. -/
theorem lookup_in_call {chunk : Chunk} {entry len : Nat} {capture : Capture} {type : TypeId}
    {title : NameId} {inner : Bool} {stub : UInt64} {depth : Nat} {m₀ m₁ : Machine}
    (hmade : createFunction chunk entry len capture type title inner m₀ = .ok stub m₁)
    (hnew : capture = .nothing → m₀.functions.cached? (chunk.serial, entry) = none)
    (hid : m₁.functions.classify stub = .script call.id)
    (hkept : m.functions.get? call.id = m₁.functions.get? call.id)
    (hcall : enterScript call args m = .ok (f, depth) m') (hargs : ∀ v ∈ args, v.isLvalue = false)
    (hroom₀ : Cell.Room m₀.visible.length m₀.addresses.slot)
    (hplaced : ∀ c ∈ m₀.visible, Cell.Placed m₀.addresses.slot c.2)
    (hslot : m₁.addresses.slot.toNat ≤ m.addresses.slot.toNat)
    (hroom : Cell.Room (f.captured.length + args.length + 1) m.addresses.slot) (name : NameId) :
    let found := m'.scopes.lookup name m'.base
    (∀ i : Interp, i.callScript call args m = i.runBody call depth (Reader.slice f.chunk f.entry f.len) m') ∧
    (∀ v, (call.arguments args).lookup name = some v → ∃ u, found = some u ∧ CellFor m.types m m' v u) ∧
    ((call.arguments args).lookup name = none →
      (∀ v, capture ≠ .nothing → m₀.visible.lookup name = some v →
        (¬m₀.scopes.Shadows name m₀.base → m₀.scopes.lookup name m₀.base = some v) ∧
        (capture = .shared → found = some v) ∧
        (capture = .copyOnce → ∃ u, found = some u ∧ CellFor m₁.types m₀ m₁ v u) ∧
        (capture = .copyPerCall →
          ∃ c u, CellFor m₁.types m₀ m₁ v c ∧ found = some u ∧ CellFor m.types m m' c u)) ∧
      (capture = .nothing ∨ m₀.visible.lookup name = none →
        (∀ type addr, name = NameId.this → call.receiver = some (type, addr) → ∃ u, found = some u ∧
          u.type = (m.types.constant type).1 ∧ u.valueIn m'.types m'.memory = extend (m'.types.get u.type) addr) ∧
        ((name = NameId.this → call.receiver = none) → found = m.scopes.global? name))) := by
  obtain ⟨id, g, hg⟩ : ∃ id g, m₀.Makes capture stub id g m₁ :=
    (createFunction_ok hmade).resolve_right fun ⟨hc, hcached, _⟩ => by rw [hnew hc] at hcached; cases hcached
  have h := Enters.of_enterScript hcall
  obtain rfl : id = call.id := by
    cases hg.classify.symm.trans hid
    rfl
  obtain rfl : g = f := Option.some.inj (hg.get.symm.trans (hkept.symm.trans h.found))
  have hcells : Cell.Room ((g.copied ++ call.arguments args).length + 1) m.addresses.slot := room_of_args hroom
  have hcaptured : ∀ c ∈ g.captured, Cell.Placed m.addresses.slot c.2 :=
    fun c hc => (hg.placed hroom₀ hplaced c hc).mono hslot
  have hall : ∀ c ∈ g.copied ++ call.arguments args, Cell.Placed m.addresses.slot c.2 :=
    placed_of_args hcaptured hargs
  refine ⟨fun i => ?_, fun v hv => h.lookup_argument hcells hall hv, fun ha => ⟨fun v hc hv => ?_, fun hv => ?_⟩⟩
  · rw [callScript_eq, bind_ok hcall]
  · obtain ⟨u, hu, hshared, hcopy⟩ := hg.lookup_captured hc hroom₀ hplaced hv
    obtain ⟨hcommon, hpercall⟩ := h.lookup_captured hcells hall hu
    rw [hg.mode] at hcommon hpercall
    refine ⟨fun hs => Scopes.lookup_eq_visibleFrom hs hv, ?_, ?_, ?_⟩
    · rintro rfl
      exact hshared rfl ▸ hcommon nofun
    · rintro rfl
      exact ⟨u, hcommon nofun, hcopy nofun⟩
    · rintro rfl
      obtain ⟨w, hw, hcell⟩ := hpercall rfl
      exact ⟨u, w, hcopy nofun, hw, hcell⟩
  · have hnone := hg.lookup_captured_none hv
    refine ⟨?_, fun hthis => ?_⟩
    · rintro type addr rfl hr
      exact h.lookup_receiver hcells hnone ha hr
    · rw [h.lookup_other hnone ha, lookup_receiverAt hthis _, Option.none_or]

def blockVariable : Variable := .atAddress TypeTable.int32 0x200000000010

/-- The types without further structure, and then one of functions that return such functions. -/
def blockTypes : TypeTable where
  types := (TypeTable.primitiveKinds.map TypeTable.plainType).toArray.push
    { kind := .function, shape := .function 9 [⟨some 51, TypeTable.int32⟩], flags := { closed := true } }
  interned := ∅
  closed := ∅
  closedConst := ∅

def block : Machine :=
  let m := Machine.start { types := blockTypes }
  { m with
    scopes := m.scopes.push.add 50 blockVariable
    frames := #[{ name := 0, file := 0, base := 1 }]
    addresses := { m.addresses with slot := 0x200000000020 } }

/-- Makes a function in the block that copies the variable for each call. -/
def makeInBlock : Exec UInt64 := createFunction default 0 0 .copyPerCall 9 60 true

def blockCall (id : Nat) : ScriptCall :=
  { id, origin := none, result := 9, assignable := false, params := [⟨some 51, TypeTable.int32⟩], fixed := 1 }

def blockArguments : List Variable := [.value TypeTable.int32 5]

theorem makeInBlock_total : ∃ stub m₁, makeInBlock block = .ok stub m₁ := by
  have hkind : (blockTypes.constant TypeTable.type).2.kind 9 = .function :=
    congrArg TypeInfo.kind (TypeTable.Grows.get (TypeTable.constant_grows blockTypes _) (by decide))
  exact createFunction_total (resolveType_closed (by decide) rfl rfl (by decide)) hkind

theorem lookup_in_call_block : ∃ stub m₁ id f depth m' c u,
    makeInBlock block = .ok stub m₁ ∧ enterScript (blockCall id) blockArguments m₁ = .ok (f, depth) m' ∧
      CellFor m₁.types block m₁ blockVariable c ∧ m'.scopes.lookup 50 m'.base = some u ∧
      CellFor m₁.types m₁ m' c u := by
  obtain ⟨stub, m₁, hmade⟩ := makeInBlock_total
  obtain ⟨id, f, hf⟩ : ∃ id f, block.Makes .copyPerCall stub id f m₁ :=
    (createFunction_ok hmade).resolve_right nofun
  have visible : block.visible = [(50, blockVariable)] := rfl
  have hframes : m₁.frames.size < m₁.settings.maxFrames := by
    rw [hf.frames, hf.settings]
    decide
  have hcaptured : f.captured = copies block.addresses.slot block.visible := hf.captured
  have hnames : (blockCall id).arguments blockArguments = [(51, .value TypeTable.int32 5)] := rfl
  obtain ⟨m', hcall⟩ : ∃ m', enterScript (blockCall id) blockArguments m₁ = .ok (f, m₁.scopes.depth) m' :=
    enterScript_total blockArguments hframes hf.get (by rw [hnames, hcaptured]; decide) (by rw [hnames]; decide)
  have hplaced : ∀ c ∈ block.visible, Cell.Placed block.addresses.slot c.2 := by
    rw [visible]
    intro c hc addr ha
    rw [List.mem_singleton] at hc
    subst hc
    cases ha
    exact .inl ⟨by decide, by decide, by decide⟩
  have hroom₀ : Cell.Room block.visible.length block.addresses.slot := ⟨by decide, by decide, by decide⟩
  have hroom : Cell.Room (f.captured.length + blockArguments.length + 1) m₁.addresses.slot := by
    rw [hcaptured, hf.slot]
    exact ⟨by decide, by decide, by decide⟩
  have hargs : ∀ v ∈ blockArguments, v.isLvalue = false := by decide
  have h := (lookup_in_call hmade nofun hf.classify rfl hcall hargs hroom₀ hplaced (Nat.le_refl _) hroom 50).2.2 rfl
  obtain ⟨-, -, -, hcopies⟩ := h.1 blockVariable nofun (by rw [visible]; rfl)
  obtain ⟨c, u, hc, hu, hcopy⟩ := hcopies rfl
  exact ⟨stub, m₁, id, f, _, m', c, u, hmade, hcall, hc, hu, hcopy⟩

end Machine

end LevelScript
