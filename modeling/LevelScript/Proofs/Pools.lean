import LevelScript.Proofs.Walk

/-!
# Pools of names

A pool only grows, and while there are numbers for all names each name is found under its own. The numbers
differ from pool to pool; the code that is written differs in nothing else, and its listing shows names only.
-/

namespace LevelScript

namespace Names

variable {a b : Names} {text : String} {id : NameId}

theorem internAll_cons (a : Names) (text : String) (texts : List String) :
    a.internAll (text :: texts) = (a.intern text).2.internAll texts := rfl

theorem internAll_append (a : Names) (texts more : List String) :
    a.internAll (texts ++ more) = (a.internAll texts).internAll more :=
  List.foldl_append

theorem size_intern (a : Names) (text : String) : a.size ≤ (a.intern text).2.size := by
  unfold intern
  split
  · exact Nat.le_refl _
  · show a.texts.size ≤ (a.texts.push text).size
    rw [Array.size_push]
    exact Nat.le_succ _

theorem size_internAll (texts : List String) : ∀ a : Names, a.size ≤ (a.internAll texts).size := by
  induction texts with
  | nil => exact fun a => Nat.le_refl _
  | cons text texts ih => exact fun a => Nat.le_trans (a.size_intern text) (ih _)

theorem size_intern_le (a : Names) (text : String) : (a.intern text).2.size ≤ a.size + 1 := by
  unfold intern
  split
  · exact Nat.le_succ _
  · exact Nat.le_of_eq (Array.size_push _)

theorem size_internAll_le (texts : List String) :
    ∀ a : Names, (a.internAll texts).size ≤ a.size + texts.length := by
  induction texts with
  | nil => exact fun a => Nat.le_refl _
  | cons text texts ih =>
    intro a
    have := ih (a.intern text).2
    have := a.size_intern_le text
    rw [internAll_cons, List.length_cons]
    omega

theorem internAll_within (texts : List String) : ∀ a : Names, a.Within (a.internAll texts) := by
  induction texts with
  | nil => exact .refl
  | cons text texts ih => exact fun a => (a.intern_within text).trans (ih _)

def Placed (a : Names) : Prop := ∀ text id, a.get? text = some id → a.texts[id.toNat]? = some text

theorem Placed.intern (h : a.Placed) (text : String) (hs : (a.intern text).2.size ≤ UInt32.size) :
    (a.intern text).2.Placed := by
  intro other id hid
  cases hold : a.ids[text]? with
  | some _ =>
    simp only [Names.intern, hold] at hid ⊢
    exact h other id hid
  | none =>
    simp only [Names.intern, hold, get?, size, Array.size_push, Std.HashMap.getElem?_insert] at hid hs ⊢
    split at hid
    case isTrue he =>
      have hid : a.texts.size.toUInt32 = id := Option.some.inj hid
      have hlast : id.toNat = a.texts.size := hid ▸ Nat.mod_eq_of_lt hs
      rw [hlast, Array.getElem?_push_size, eq_of_beq he]
    case isFalse =>
      have hother := h other id hid
      rw [Array.getElem?_push_lt (Array.getElem?_eq_some_iff.mp hother).1, ← Array.getElem?_eq_getElem, hother]

theorem Placed.internAll (texts : List String) : ∀ {a : Names}, a.Placed → (a.internAll texts).size ≤ UInt32.size →
    (a.internAll texts).Placed := by
  induction texts with
  | nil => exact fun h _ => h
  | cons text texts ih => exact fun h hs => ih (h.intern text (Nat.le_trans (size_internAll texts _) hs)) hs

theorem Placed.text_eq (h : a.Placed) (ht : a.get? text = some id) : a.text id = text := by
  rw [Names.text, h text id ht]
  rfl

theorem placed_empty : empty.Placed := by
  intro text id h
  simp [get?, empty] at h

theorem get?_this (texts : List String) : (initial.internAll texts).get? "this" = some 0 := by
  have hfirst : (empty.intern "this").1 = 0 := by simp [intern, empty]
  have hinitial : initial = (empty.intern "this").2.internAll wellKnown.tail :=
    internAll_cons empty "this" wellKnown.tail
  refine internAll_within texts _ _ _ ?_
  rw [hinitial]
  exact internAll_within _ _ _ _ (hfirst ▸ get?_intern empty "this")

theorem get?_result (texts : List String) : (initial.internAll texts).get? "@RESULT@" = some NameId.result := by
  let a : Names := empty.internAll ["this", "..."]
  have hthird : (a.intern "@RESULT@").1 = NameId.result := by
    simp [a, internAll, intern, empty, NameId.result]
  obtain ⟨rest, hrest⟩ : ∃ rest, wellKnown = ["this", "..."] ++ "@RESULT@" :: rest := ⟨_, rfl⟩
  rw [initial, hrest, internAll_append, internAll_cons, ← internAll_append]
  exact internAll_within _ _ _ _ (hthird ▸ get?_intern a "@RESULT@")

def only (a b : Names) : Names := { a with ids := a.ids.filter fun text _ => (b.get? text).isSome }

theorem get?_only (a b : Names) (text : String) :
    (a.only b).get? text = if (b.get? text).isSome then a.get? text else none := by
  have h : (a.only b).get? text = (a.get? text).filter fun _ => (b.get? text).isSome := by simp [get?, only]
  rw [h]
  cases a.get? text <;> simp [Option.filter]

/-- What is shown for a text if only the names that both pools have count. -/
def shared (a b : Names) (text : String) : String :=
  if (a.get? text).isSome && (b.get? text).isSome then text else "this"

theorem shared_comm (a b : Names) : a.shared b = b.shared a := by
  funext text
  rw [shared, shared, Bool.and_comm]

/-- Where a name is missing, the first name is shown. -/
theorem Placed.text_only (h : a.Placed) (h0 : a.get? "this" = some 0) (b : Names) (text : String) :
    a.text ((a.only b).idOf text) = a.shared b text := by
  rw [idOf, get?_only, shared]
  cases ha : a.get? text with
  | none =>
    rw [ite_self]
    exact h.text_eq h0
  | some id =>
    cases (b.get? text).isSome with
    | true => exact h.text_eq ha
    | false => exact h.text_eq h0

end Names

namespace Writes

variable {e e' : Emitter} {code : Names → Bytecode}

/-- Writing only adds names. -/
theorem grown (h : Writes e e' code) : ∃ texts, e'.names = e.names.internAll texts := by
  induction h with
  | name e text | query e text => exact ⟨[text], rfl⟩
  | block _ ih => exact ih
  | trans _ _ ih ih' =>
    obtain ⟨texts, h⟩ := ih
    obtain ⟨more, h'⟩ := ih'
    exact ⟨texts ++ more, by rw [h', h, Names.internAll_append]⟩
  | _ => exact ⟨[], rfl⟩

/-- No more names are added than bytes are written. -/
theorem names_le (h : Writes e e' code) (pool : Names) : e'.names.size ≤ e.names.size + (code pool).size := by
  induction h with
  | name e text =>
    have := e.names.size_intern_le text
    rw [Bytecode.size_name]
    exact Nat.le_trans this (Nat.add_le_add_left (by decide) _)
  | query e text op pos =>
    have := e.names.size_intern_le text
    rw [Bytecode.size_op]
    exact Nat.le_trans this (Nat.add_le_add_left (by decide) _)
  | block _ ih =>
    rw [Bytecode.size_block]
    exact Nat.le_trans ih (Nat.add_le_add_left (Nat.le_add_left ..) _)
  | trans _ _ ih ih' =>
    rw [Bytecode.size_append]
    omega
  | _ => exact Nat.le_add_right ..

end Writes

/-- The pool after a program was written has each name under its number, if there are numbers for all. -/
theorem Program.emit_placed (program : Program) (before : List String) {names : Names}
    (h : (program.emit (Names.initial.internAll before)).2 = names) (hs : names.size ≤ UInt32.size) :
    names.Placed ∧ names.get? "this" = some 0 := by
  obtain ⟨texts, ht⟩ := (program.writes (Names.initial.internAll before)).grown
  have hn : names = Names.initial.internAll (before ++ texts) := h ▸ ht.trans (Names.internAll_append ..).symm
  subst hn
  have hall : Names.initial.internAll (before ++ texts) =
      Names.empty.internAll (Names.wellKnown ++ (before ++ texts)) :=
    (Names.internAll_append ..).symm
  refine ⟨?_, Names.get?_this _⟩
  rw [hall] at hs ⊢
  exact Names.placed_empty.internAll _ hs

/-- The code of a program stays the same if a pool loses the names that another pool with the program does not
have. -/
theorem Program.encode_only (program : Program) {start a b : Names} (h : (program.emit start).2 = b) :
    program.encode (a.only b) = program.encode a := by
  refine program.encode_eq start fun text id hid => ?_
  rw [Names.idOf, Names.get?_only, ← h, hid]
  rfl

theorem Program.bytes_of_emit {program : Program} {start names : Names} {bytes : Array UInt8}
    (h : program.emit start = (bytes, names)) : bytes.toList = (program.encode names).bytes := by
  have hb := program.emit_bytes start
  rwa [h] at hb

theorem Program.size_emit (program : Program) (start pool : Names) :
    (program.emit start).1.size = (program.encode pool).size := by
  rw [← Array.length_toList, program.emit_bytes, program.size_eq pool, Bytecode.size]

/-- A program brings no more names than its code has bytes. -/
theorem Program.names_le (program : Program) (start : Names) :
    (program.emit start).2.size ≤ start.size + (program.emit start).1.size := by
  rw [program.size_emit start start]
  exact (program.writes start).names_le start

/-- The listing of a program under its own pool is the same text, whatever else the pool has. -/
theorem Program.disassemble_eq {program : Program} (hw : CommandsWellFormed program.commands)
    {before before' : List String}
    {bytes bytes' : Array UInt8} {names names' : Names}
    (h : program.emit (Names.initial.internAll before) = (bytes, names))
    (h' : program.emit (Names.initial.internAll before') = (bytes', names')) (hs : bytes.size < UInt32.size)
    (hn : names.size ≤ UInt32.size) (hn' : names'.size ≤ UInt32.size) :
    disassemble bytes names = disassemble bytes' names' := by
  obtain ⟨hp, h0⟩ := program.emit_placed before (congrArg Prod.snd h) hn
  obtain ⟨hp', h0'⟩ := program.emit_placed before' (congrArg Prod.snd h') hn'
  -- without the names that only one of the pools has, each text reads the same in both
  let i : Listing.View (names.shared names') := ⟨names, names.only names', hp.text_only h0 names'⟩
  let j : Listing.View (names.shared names') :=
    ⟨names', names'.only names, fun text => by rw [hp'.text_only h0' names, Names.shared_comm]⟩
  have hb : bytes.toList = (program.encode i.pool).bytes := by
    rw [program.encode_only (congrArg Prod.snd h'), Program.bytes_of_emit h]
  have hb' : bytes'.toList = (program.encode j.pool).bytes := by
    rw [program.encode_only (congrArg Prod.snd h), Program.bytes_of_emit h']
  have hwalk : names.text (Listing.walk names bytes).1 = names'.text (Listing.walk names' bytes').1 ∧
      (Listing.walk names bytes).2.lines = (Listing.walk names' bytes').2.lines :=
        Listing.walk_alike (i := i) (j := j) hw hb hb' hs
  have text (names : Names) (bytes : Array UInt8) : disassemble bytes names =
      (Listing.walk names bytes).2.lines.foldl (fun text line => text ++ line.text ++ "\n")
        ("=== " ++ names.text (Listing.walk names bytes).1 ++ " ===\n") := rfl
  rw [text, text, hwalk.1, hwalk.2]

/-- Whatever was interned before, a text compiles or fails with the same error. The code is as long, and its
listing under its own pool is the same text. -/
theorem compile_independent (before before' : List String) (source file : String) :
    match compile source file (Names.initial.internAll before), compile source file
    (Names.initial.internAll before') with
    | .ok (bytes, names), .ok (bytes', names') =>
      bytes.size = bytes'.size ∧
        (bytes.size < UInt32.size → names.size ≤ UInt32.size → names'.size ≤ UInt32.size →
          disassemble bytes names = disassemble bytes' names')
    | .error e, .error e' => e = e'
    | _, _ => False := by
  cases hp : parse source file with
  | error e =>
    have hc (names : Names) : compile source file names = .error e := by
      rw [compile, hp]
      rfl
    rw [hc, hc]
  | ok program =>
    have hc (names : Names) : compile source file names = .ok (program.emit names) := by
      rw [compile, hp]
      rfl
    rw [hc, hc]
    have hsize := (program.size_emit (Names.initial.internAll before) .empty).trans
      (program.size_emit (Names.initial.internAll before') .empty).symm
    cases h : program.emit (Names.initial.internAll before)
    cases h' : program.emit (Names.initial.internAll before')
    rw [h, h'] at hsize
    exact ⟨hsize, fun hs hn hn' => program.disassemble_eq (parse_wellFormed hp) h h' hs hn hn'⟩

/-- A name has different numbers in two pools. -/
theorem compile_independent_shifted : ∃ bytes names bytes' names',
    compile "x;" "" (Names.initial.internAll []) = .ok (bytes, names) ∧
      compile "x;" "" (Names.initial.internAll ["y"]) = .ok (bytes', names') ∧
      bytes.size = bytes'.size ∧ disassemble bytes names = disassemble bytes' names' := by
  have run : (match compile "x;" "" .empty with
      | .ok (bytes, _) => bytes.size < 100
      | .error _ => false) = true := by decide +kernel
  split at run
  case h_1 bytes names h =>
    have hs : bytes.size < 100 := of_decide_eq_true run
    obtain ⟨program, hp, -, hb⟩ := compile_encodes h
    have hc (start : Names) : compile "x;" "" start = .ok (program.emit start) := by
      rw [compile, hp]
      rfl
    have hsize (start : Names) : (program.emit start).1.size < 100 := by
      rwa [program.size_emit start names, Bytecode.size, ← hb, Array.length_toList]
    have hnames (texts : List String) (ht : texts.length ≤ 1) :
        (program.emit (Names.initial.internAll texts)).2.size ≤ 109 := by
      have h0 : Names.initial.size ≤ 8 := Names.size_internAll_le Names.wellKnown Names.empty
      have h1 := Names.size_internAll_le texts Names.initial
      have h2 := program.names_le (Names.initial.internAll texts)
      have h3 := hsize (Names.initial.internAll texts)
      omega
    have h := compile_independent [] ["y"] "x;" ""
    rw [hc, hc] at h
    exact ⟨_, _, _, _, hc _, hc _, h.1, h.2 (Nat.lt_trans (hsize _) (by decide))
      (Nat.le_trans (hnames _ (Nat.zero_le _)) (by decide)) (Nat.le_trans (hnames _ (Nat.le_refl _)) (by decide))⟩
  case h_2 => cases run

end LevelScript
