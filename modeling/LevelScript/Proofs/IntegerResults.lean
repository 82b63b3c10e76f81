import LevelScript.Proofs.Cells
import LevelScript.Proofs.IntegerRuns

/-!
# Results of trees

The result of a run is kept in a variable of the outermost level. It is what was assigned last: the value of a
tree with its type, when the text was that of a tree.
-/

namespace LevelScript

open IntegerTree Interp Exec

/-! ## Reading a variable back -/

theorem IntegerValue.extend_kept (v : IntegerValue) :
    extend v.type.info (v.word &&& Memory.mask v.type.info.valueSize) = v.word := by
  rw [extend_masked, word, extend_ofInt, v.wrapped]

/-! ## Fresh machines -/

structure Machine.Fresh (m : Machine) : Prop where
  types : m.types = .initial
  scopes : m.scopes = {}
  addresses : m.addresses = {}
  control : m.control = .running
  pending : m.pending = none
  /-- One place more than there are precedences. -/
  room : 12 ≤ m.settings.maxStack

def resultScopes (v : Variable) : Scopes :=
  ⟨#[{ vars := [(NameId.result, v)], distinct := List.pairwise_singleton _ _ }]⟩

theorem Machine.Fresh.start_scopes {m : Machine} (hm : m.Fresh) :
    m.start.scopes = resultScopes (.atAddress TypeTable.void 0x200000000000) := by
  rw [Machine.start, hm.scopes, hm.addresses]
  rfl

theorem Machine.Fresh.start_slot {m : Machine} (hm : m.Fresh) : m.start.addresses.slot = 0x200000000010 := by
  rw [Machine.start, hm.addresses]
  rfl

theorem Machine.Fresh.ready {m : Machine} (hm : m.Fresh) : m.start.Ready :=
  ⟨hm.types ▸ TypeTable.stocked_initial, hm.pending, hm.room⟩

/-- The result is the value of a tree, with its type, and stays so while types, memory and levels do. -/
def Machine.ResultIs (m : Machine) (v : IntegerValue) : Prop :=
  ∃ x, m.scopes.lookup NameId.result 0 = some x ∧ m.types.get x.type = v.type.info ∧
    ∀ m' : Machine, m'.types = m.types → m'.memory = m.memory → bits x m' = .ok v.word m'

/-! ## Runs -/

namespace Interp

variable {m : Machine} {i : Interp}

/-- The value that is kept is read back from the variable. -/
theorem keepResult_eq {old : Variable} (hs : m.scopes = resultScopes old) (type : TypeId) (word : UInt64) :
    ∃ m', keepResult type word m = .ok () m' ∧ m'.scopes.depth = 1 ∧
      (m.addresses.slot = 0x200000000010 → ∀ v : IntegerValue, m.types.types[type]? = some v.type.info →
        word = v.word → m'.ResultIs v) := by
  have hassign : m.scopes.assign NameId.result 0 (.atAddress type m.addresses.slot) =
      some (resultScopes (.atAddress type m.addresses.slot)) := by
    rw [hs]
    rfl
  obtain ⟨m₁, hfresh, hscopes, htypes, hmemory⟩ :
    ∃ m₁, fresh type word m = .ok (.atAddress type m.addresses.slot) m₁ ∧
      m₁.scopes = m.scopes ∧ m₁.types = m.types ∧ m₁.memory = if (m.types.get type).valueSize = 0 then m.memory else
        m.memory.write m.addresses.slot (m.types.get type).valueSize word := ⟨_, rfl, rfl, rfl, rfl⟩
  have hkeep : keepResult type word m =
      .ok () { m₁ with scopes := resultScopes (.atAddress type m.addresses.slot) } := by
    refine (bind_ok hfresh).trans (modifyGet_eq.trans ?_)
    dsimp only
    rw [hscopes, hassign]
  refine ⟨_, hkeep, rfl, fun hslot v ht hw => ?_⟩
  · have hget := TypeTable.get_eq ht
    have h0 : ¬(v.type.info.valueSize = 0) := by
      show ¬(v.type.width.kind.valueSize = 0)
      cases v.type.width <;> decide
    have hread (m' : Machine) (ht : m'.types = m.types)
        (hmemory : m'.memory = m.memory.write 0x200000000010 v.type.info.valueSize v.word) :
        bits (.atAddress type 0x200000000010) m' = .ok v.word m' := by
      have haligned : (0x200000000010 : UInt64) % 8 = 0 := rfl
      have hpeek : peek 0x200000000010 v.type.info.valueSize m' =
          .ok (v.word &&& Memory.mask v.type.info.valueSize) m' := by
        rw [peek, if_pos (by rw [Machine.canAccess, Bool.or_eq_true]; exact .inr rfl),
          ← Memory.read_write m.memory haligned, ← hmemory]
        rfl
      have ht : typeInfo type m' = .ok v.type.info m' := by
        rw [← hget, ← ht]
        rfl
      exact (bind_ok ht).trans ((bind_ok hpeek).trans (congrArg (EStateM.Result.ok · m') v.extend_kept))
    refine ⟨.atAddress type m.addresses.slot, rfl, htypes ▸ hget, fun m' ht hm' => ?_⟩
    refine hslot ▸ hread m' (ht.trans htypes) ((hm'.trans hmemory).trans ?_)
    rw [hget, if_neg h0, hslot, hw]

/-- A machine with one level goes back to its first call. -/
theorem reset_eq (hf : 0 < i.fuel) (hd : m.scopes.depth = 1) :
    i.reset m = .ok () { m with frames := m.frames.take 1, control := .running, parked := none } := by
  obtain ⟨k, hk⟩ : ∃ k, i.fuel = k + 1 := ⟨i.fuel - 1, by omega⟩
  have hclose (m : Machine) (hd : m.scopes.depth = 1) : closeTo i.closeLevel 1 i.fuel m = .ok () m := by
    rw [hk, closeTo]
    show (if 1 < m.scopes.depth then _ else _ : Exec Unit) m = _
    rw [if_neg (by omega)]
    rfl
  have hunwind : i.unwind 1 1 m = .ok () { m with frames := m.frames.take 1 } :=
    (bind_ok rfl).trans (hclose _ hd)
  exact bind_ok hunwind

theorem compileSource_tree {e : IntegerTree} {source : String} (h : e.Text source) (file : String) (m : Machine) :
    ∃ size ns pos chunk names, Postfix 0 size e ns ∧ size ≤ source.length ∧
      compileSource (source ++ ";") file m = .ok (.ok chunk) { m with names, chunks := m.chunks + 1 } ∧
      (Bytecode.op .expression pos ++ encodeNodes names ns ++ .endMark ++ .endMark).bytes <+:
        (Reader.ofChunk chunk).name.2.rest := by
  obtain ⟨size, ns, pos, hp, hs, hparse⟩ := h.parse file
  let program : Program := ⟨file, [.mk pos (.expression (.mk ns))]⟩
  have hcompile : compile (source ++ ";") file m.names = .ok (program.emit m.names) := by
    rw [compile, hparse]
    rfl
  refine ⟨size, ns, pos, ⟨m.chunks, (program.emit m.names).1⟩, (program.emit m.names).2, hp, hs, ?_, ?_⟩
  · rw [compileSource, modifyGet_eq, hcompile]
  · have hrest : (Reader.ofChunk ⟨m.chunks, (program.emit m.names).1⟩).rest =
      (program.encode (program.emit m.names).2).bytes := by
      rw [Reader.rest_ofChunk, program.emit_bytes]
    have hcode : program.encode (program.emit m.names).2 = .name (program.emit m.names).2 file ++
        (.op .expression pos ++ encodeNodes (program.emit m.names).2 ns ++ .endMark ++ .endMark) := by
      simp only [program, Program.encode, encodeCommands, Command.encode, CommandForm.operands, Expr.encode,
        CommandForm.opcode, Bytecode.append_assoc, Bytecode.nil_append]
    have hsees : (program.encode (program.emit m.names).2).bytes <+:
        (Reader.ofChunk ⟨m.chunks, (program.emit m.names).1⟩).rest := hrest ▸ List.prefix_rfl
    rw [hcode] at hsees
    rw [Reads.name _ file _ (Reader.sees_left hsees)]
    exact Reader.sees_right hsees

theorem runSource_finish {source file : String} {m₁ : Machine} {last old : Variable} {error : Option RunError}
    {word : UInt64} (hrun : i.topLevel source file m = .ok (last, error) m₁) (hs : m₁.scopes = resultScopes old)
    (hp : error = none → m₁.pending = none)
    (hword : ∀ m' : Machine, m'.types = m₁.types → bits last m' = .ok word m') :
    ∃ m', i.runSource source file m = (match error with | some e => .error (.raised e) m' | none => .ok () m') ∧
      m'.scopes.depth = 1 ∧
      (m₁.addresses.slot = 0x200000000010 → ∀ v : IntegerValue, m₁.types.types[last.type]? = some v.type.info →
        word = v.word → m'.ResultIs v) := by
  let m₂ : Machine := { m₁ with control := .running }
  obtain ⟨m₃, hkeep, hd, hresult⟩ := keepResult_eq (m := m₂) hs last.type word
  let m₄ : Machine := { m₃ with frames := m₃.frames.modify (m.frames.size - 1) ({ · with file := m.frame.file }) }
  have hfinish (error : Option RunError) : (do
      keepResult last.type word
      setFile (m.frames.size - 1) m.frame.file
      match error with
      | some e => throw (.raised e)
      | none => return : Exec Unit) m₂ =
          (match error with | some e => .error (.raised e) m₄ | none => .ok () m₄) := by
    refine (bind_ok hkeep).trans ((bind_ok (s := m₄) rfl).trans ?_)
    cases error <;> rfl
  refine ⟨m₄, ?_, hd, hresult⟩
  refine (bind_ok hrun).trans ((bind_ok (s := m₂) rfl).trans ((bind_ok (hword m₂ rfl)).trans ?_))
  cases error with
  | some e => exact hfinish (some e)
  | none => exact (bind_ok (attempt_ok (checkFault_eq (m := m₂) (hp rfl)))).trans (hfinish none)

/-- The text is run: its value is the result, or it divides by zero. -/
theorem runSource_tree {e : IntegerTree} {source : String} (h : e.Text source) (file : String) {m : Machine}
    {old : Variable} (hs : m.scopes = resultScopes old) (hslot : m.addresses.slot = 0x200000000010) (hr : m.Ready)
    (hc : m.control = .running) {n : Nat} (hn : source.length + 4 < n) :
    match e.eval with
    | some v => ∃ m', (ofFuel n).runSource (source ++ ";") file m = .ok () m' ∧ m'.scopes.depth = 1 ∧ m'.ResultIs v
    | none => ∃ err m', (ofFuel n).runSource (source ++ ";") file m = .error (.raised err) m' ∧
        m'.scopes.depth = 1 ∧ err.cause = .divisionByZero := by
  obtain ⟨n, rfl⟩ : ∃ k, n = k + 1 + 1 + 1 + 1 := ⟨n - 4, by omega⟩
  obtain ⟨size, ns, pos, chunk, names, hp, hl, hcompile, hcode⟩ := compileSource_tree h file m
  have hcount := hp.length_le
  let r := (Reader.ofChunk chunk).name.2
  rw [Bytecode.append_assoc, Bytecode.append_assoc] at hcode
  have hbody : (encodeNodes names ns ++ (.endMark ++ .endMark)).bytes <+: (r.advance 9).rest :=
    Reader.sees_right hcode
  let m₁ : Machine := { m with names, chunks := m.chunks + 1
                               frames := m.frames.modify (m.frames.size - 1)
                                 ({ · with file := (Reader.ofChunk chunk).name.1 }) }
  have hr₁ : m₁.Ready := ⟨hr.types, hr.pending, hr.room⟩
  have hpushes (m' : Machine) (hm' : m'.Ready) := hp.pushes names (n + 1 + 1) [] (r.advance 9) m' (by omega)
    (Reader.sees_left hbody) hm' (by decide) (by have := hm'.room; simp; omega)
  have hleaves :=
    topCommands_leaves (k := n + 1) (Reader.sees_left hcode) hr₁ hc hpushes (show ns.length < n + 1 by omega)
    (Reader.sees_right hbody)
  have hrun : (ofFuel (n + 1 + 1 + 1 + 1)).topLevel (source ++ ";") file m =
      (ofFuel (n + 1 + 1 + 1 + 1)).topCommands (n + 1 + 1 + 1) r voidValue m₁ :=
    (bind_ok hcompile).trans ((bind_ok rfl).trans (bind_ok (s := m₁) rfl))
  cases heval : e.eval with
  | none =>
    rw [heval] at hleaves
    obtain ⟨err, m', hx, herr, hscopes⟩ := hleaves
    have hvoid (m₂ : Machine) (ht : m₂.types = m'.types) :
        bits voidValue m₂ = .ok (extend (m'.types.get TypeTable.void) 0) m₂ := by
      rw [← ht]
      rfl
    obtain ⟨m'', hm'', hd, -⟩ := runSource_finish (hrun.trans hx) (hscopes.trans hs) nofun hvoid
    exact ⟨err, m'', hm'', hd, herr⟩
  | some v =>
    rw [heval] at hleaves
    obtain ⟨y, ts, hts, hy, hx⟩ := hleaves
    obtain ⟨m'', hm'', hd, hresult⟩ := runSource_finish (hrun.trans hx) hs (fun _ => hr.pending)
      fun m' ht => bits_eq (Variable.Represents.shows (m := m') (by rw [ht]; exact hy))
    exact ⟨m'', hm'', hd, hresult hslot v hy.type rfl⟩

theorem runAs_ok {source file : String} {m' : Machine} (hrun : i.runSource source file m = .ok () m')
    (hf : 0 < i.fuel)
    (hd : m'.scopes.depth = 1) : ∃ m'', Session.runAs i source file m = .ok () m'' ∧ m''.scopes = m'.scopes ∧
      m''.types = m'.types ∧ m''.memory = m'.memory :=
  ⟨_, (bind_ok (attempt_ok hrun)).trans (bind_ok (f := fun _ => pure ()) (reset_eq hf hd)), rfl, rfl, rfl⟩

theorem runAs_raised {source file : String} {m' : Machine} {e : RunError}
    (hrun : i.runSource source file m = .error (.raised e) m') (hf : 0 < i.fuel) (hd : m'.scopes.depth = 1) :
    ∃ m'', Session.runAs i source file m = .error (.raised e) m'' :=
  ⟨_, (bind_ok (attempt_raised hrun)).trans (bind_ok (f := fun _ => throw (.raised e)) (reset_eq hf hd))⟩

end Interp

/-- Every text of a tree, with a semicolon behind it, runs on a fresh machine, whatever blanks and parentheses
there are. The result has the type and the value of the tree; there is none, and the run fails with a division
by zero, exactly if a divisor or a right operand of a remainder somewhere in the tree is zero in the common
type. -/
theorem tree_text_gives_value {e : IntegerTree} {source : String} (h : e.Text source) {m : Machine} (hm : m.Fresh)
    {n : Nat} (hn : source.length + 4 < n) (file : String) :
    (∀ v, e.eval = some v → ∃ m' x, Session.runAs (ofFuel n) (source ++ ";") file m.start = .ok () m' ∧
      m'.scopes.lookup NameId.result 0 = some x ∧ m'.types.get x.type = v.type.info ∧ bits x m' = .ok v.word m') ∧
    (e.DividesByZero ↔ ∃ err m', Session.runAs (ofFuel n) (source ++ ";") file m.start = .error (.raised err) m' ∧
      err.cause = .divisionByZero) ∧
    (e.DividesByZero ∨ ∃ v, e.eval = some v) := by
  have hf : 0 < (ofFuel n).fuel := by
    obtain ⟨k, rfl⟩ : ∃ k, n = k + 1 := ⟨n - 1, by omega⟩
    show 0 < k
    omega
  have hrun := runSource_tree h file hm.start_scopes hm.start_slot hm.ready hm.control hn
  rw [← eval_eq_none_iff]
  cases heval : e.eval with
  | none =>
    rw [heval] at hrun
    obtain ⟨err, m', hrun, hd, herr⟩ := hrun
    obtain ⟨m'', hend⟩ := runAs_raised hrun hf hd
    refine ⟨fun v hv => ?_, ⟨fun _ => ⟨err, m'', hend, herr⟩, fun _ => rfl⟩, .inl rfl⟩
    cases hv
  | some v =>
    rw [heval] at hrun
    obtain ⟨m', hrun, hd, x, hx, ht, hbits⟩ := hrun
    obtain ⟨m'', hend, hs, htypes, hmemory⟩ := runAs_ok hrun hf hd
    refine ⟨fun w hw => ?_, ⟨fun hn => ?_, fun ⟨_, _, herror, _⟩ => ?_⟩, .inr ⟨v, rfl⟩⟩
    · cases hw
      exact ⟨m'', x, hend, hs ▸ hx, htypes ▸ ht, hbits m'' htypes hmemory⟩
    · cases hn
    · rw [hend] at herror
      cases herror

/-- Seven divided by a difference that is zero. -/
theorem tree_text_gives_value_quotient :
    let e : IntegerTree :=
    .binary (.arithmetic .divide) (.literal 7) (.binary (.arithmetic .subtract) (.literal 2) (.literal 2))
    e.Text "7 / ( 2 - 2 )" ∧ (∃ err m', Session.runAs (ofFuel 20) "7 / ( 2 - 2 );" "" (Machine.start {}) =
      .error (.raised err) m' ∧
      err.cause = .divisionByZero) := by
  intro e
  have htext : e.Text "7 / ( 2 - 2 )" := by
    have h7 : Numeral 7 ['7'] := .decimal (Digits.snoc (d := 7) .nil (by decide) (.inl rfl)) (by decide)
    have h2 : Numeral 2 ['2'] := .decimal (Digits.snoc (d := 2) .nil (by decide) (.inl rfl)) (by decide)
    have blank : Blank [' '] := List.forall_mem_singleton.mpr rfl
    have follows (rest : List Char) : ∀ c ∈ (' ' :: rest).head?, isBlank c = true := by
      rintro c ⟨⟩
      rfl
    have none : Blank [] := nofun
    refine ⟨_, .binary (by decide) (.literal _ 7)
      (.parens _ (.binary (by decide) (.literal _ 2) (.literal _ 2))), ?_⟩
    exact .cons none (.integer (n := 7) h7)
      (.cons blank (.mark .slash) (.cons blank (.mark .lparen) (.cons blank (.integer (n := 2) h2)
      (.cons blank (.mark .minus)
        (.cons blank (.integer (n := 2) h2) (.cons blank (.mark .rparen) (.nil none) nofun) (follows _))
        (follows _)) (follows _)) (follows _)) (follows _)) (follows _)
  have hfresh : ({} : Machine).Fresh := ⟨rfl, rfl, rfl, rfl, rfl, by decide⟩
  have hzero : e.DividesByZero := .here rfl rfl rfl (by decide)
  exact ⟨htext, (tree_text_gives_value htext hfresh (n := 20) (by decide) "").2.1.mp hzero⟩

end LevelScript
