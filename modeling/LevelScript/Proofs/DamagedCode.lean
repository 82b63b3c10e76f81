import LevelScript.Listing

/-!
# Listings of any bytes

The walk of a listing as one that has no result if its calls nest too deep or the depth goes below zero. It
has one for all bytes, with calls no deeper than in proportion to them: whatever is read beyond the end of a
part is zero, and zeros end every loop. It keeps account of the depth, of what it looks at and of the parts it
enters.
-/

namespace LevelScript

/-- A walk in progress, with an account of what it has done. -/
structure Tour where
  reader : Reader
  depth : Nat := 0
  lines : Array ListingLine := #[]
  /-- The bytes that were looked at, in order: from where, and up to where. -/
  looked : Array (Nat × Nat) := #[]
  /-- The parts that were entered, each with the part around it. -/
  entered : Array (Reader × Reader) := #[]

namespace Tour

abbrev Touring := StateT Tour Option

/-! ## Steps -/

/-- Reads something. Nothing is looked at if it is not all there. -/
def take {α : Type} (f : Reader → α × Reader) : Touring α := do
  let t ← get
  let (a, r) := f t.reader
  set { t with
    reader := r
    looked := if r.pos ≤ t.reader.stop then t.looked.push (t.reader.pos, r.pos) else t.looked }
  return a

def pos : Touring Nat := return (← get).reader.pos

def atEnd : Touring Bool := return (← get).reader.atEnd

def hasMore : Touring Bool := do
  if ← atEnd then return false
  let r := (← get).reader
  let op ← take Reader.opcode
  modify fun t => { t with reader := r }
  return op != .endMark

def lineAt (offset : Nat) (content : LineContent) : Touring Unit :=
  modify fun t => { t with lines := t.lines.push ⟨offset, t.depth, content⟩ }

def note (text : String) : Touring Unit := do lineAt (← pos) (.note text)

def indent : Touring Unit := modify fun t => { t with depth := t.depth + 1 }

def outdent : Touring Unit := do
  match (← get).depth with
  | 0 => failure
  | depth + 1 => modify fun t => { t with depth }

/-- Goes into the next block. The result is the reader behind it. -/
def enter : Touring Reader := do
  let len ← take Reader.u32
  let r := (← get).reader
  let inner : Reader := ⟨r.chunk, min (r.pos + len) r.stop, r.pos⟩
  modify fun t => { t with reader := inner, entered := t.entered.push (inner, r) }
  return r.seek (r.pos + len)

def leave (outer : Reader) : Touring Unit := modify fun t => { t with reader := outer }

variable (names : Names)

def head (op : Opcode) : Touring (String × Bool) := do
  let text : String ← match op with
    | .integer => return ("Integer " ++ Nat.repr (← take Reader.u64).toNat, false)
    | .float => return ("Float " ++ Double.shortestText (← take Reader.u64), false)
    | .text => pure ("String \"" ++ Text.ascii (names.text (← take Reader.name)) ++ "\"")
    | .variableRef | .deferName | .includeFile =>
      pure (op.name ++ " " ++ names.text (← take Reader.name))
    | .truth => pure ("Truthy " ++ (if ← take Reader.bool then "true" else "false"))
    | .member => pure ("WalkStruct ." ++ names.text (← take Reader.name))
    | .typeLiteral =>
      let start := "Type " ++ (if ← take Reader.bool then "const " else "")
      match Kind.ofCode? (← take Reader.u8) with
      | some .struct => return (start ++ "struct", true)
      | some kind =>
        let sign := if ← take Reader.bool then "unsigned " else ""
        pure (start ++ sign ++ kind.name)
      | none => pure (start ++ "?")
    | .declare =>
      let start := if ← take Reader.bool then "Decl extern " else "Decl "
      pure (start ++ names.text (← take Reader.name))
    | .newValue => pure (if ← take Reader.bool then "New scoped" else "New")
    | _ => pure op.name
  return (text, false)

def excluded : Touring Unit := do
  let offset ← pos
  if ← take Reader.bool then lineAt offset (.note "excl")

/-! ## The walk

Calls nest `n` deep at most. The rounds of a loop are calls. -/

mutual

def commands : Nat → Touring Unit
  | 0 => failure
  | n + 1 => do
    if ← atEnd then return
    let offset ← pos
    let op ← take Reader.opcode
    if op = .endMark then return
    let row ← take Reader.i32
    let col ← take Reader.i32
    lineAt offset (.node op op.name row col)
    indent
    command op n
    outdent
    commands n
termination_by structural n => n

def command (op : Opcode) : Nat → Touring Unit
  | 0 => failure
  | n + 1 => do
    match op with
    | .ifElse =>
      expression n
      block "then" n
      if ← take Reader.bool then block "else" n
    | .whileLoop =>
      expression n
      block "body" n
    | .forLoop =>
      expression n
      let name ← take Reader.name
      note ("var " ++ names.text name)
      expression n
      excluded
      expression n
      excluded
      if ← take Reader.bool then expression n
      block "body" n
    | .returnValue => if ← take Reader.bool then expression n
    | .tryCatch =>
      block "try" n
      if ← take Reader.bool then
        let silently ← take Reader.bool
        let label ←
          if ← take Reader.bool then pure ("catch as " ++ names.text (← take Reader.name))
          else pure (if silently then "catch silently" else "catch")
        block label n
    | .throwValue =>
      expression n
      if ← take Reader.bool then
        let message ← take Reader.name
        note ("as \"" ++ names.text message ++ "\"")
    | .codeblock => block "block" n
    | .expression => expression n
    | _ => return
termination_by structural n => n

def block (label : String) : Nat → Touring Unit
  | 0 => failure
  | n + 1 => do
    note (label ++ ":")
    let outer ← enter
    indent
    commands n
    outdent
    leave outer
termination_by structural n => n

def branch (label : String) : Nat → Touring Unit
  | 0 => failure
  | n + 1 => do
    note (label ++ ":")
    let outer ← enter
    indent
    expression n
    outdent
    leave outer
termination_by structural n => n

def expression : Nat → Touring Unit
  | 0 => failure
  | n + 1 => do
    let offset ← pos
    let op ← take Reader.opcode
    if op = .endMark then return
    if ← atEnd then return
    let row ← take Reader.i32
    let col ← take Reader.i32
    let (text, isStruct) ← head names op
    lineAt offset (.node op text row col)
    indent
    if isStruct then struct n else node op n
    outdent
    expression n
termination_by structural n => n

def node (op : Opcode) : Nat → Touring Unit
  | 0 => failure
  | n + 1 => do
    match op with
    | .paren | .varargs | .typeOf | .deleteValue | .index => expression n
    | .sizeOf => if ← take Reader.bool then note "..." else expression n
    | .scopeOf =>
      if ← take Reader.bool then
        let name ← take Reader.name
        note (names.text name)
    | .moveValue =>
      expression n
      expression n
    | .ternary =>
      expression n
      branch "then" n
      branch "else" n
    | .call =>
      arguments 0 n
      let _ ← take Reader.u8
    | .functionType =>
      if ← take Reader.bool then note "assignable"
      params n
      let _ ← take Reader.u8
    | .declare =>
      generics n
      if ← take Reader.bool then
        let mode ← take Reader.capture
        block ("body [" ++ mode.name ++ "]") n
    | .newValue => allocation n
    | _ => return
termination_by structural n => n

def labelled (label : String) : Nat → Touring Unit
  | 0 => failure
  | n + 1 => do
    note label
    indent
    expression n
    outdent
termination_by structural n => n

def arguments (count : Nat) : Nat → Touring Unit
  | 0 => failure
  | n + 1 => do
    if ← hasMore then
      labelled ("arg " ++ Nat.repr count ++ ":") n
      arguments (count + 1) n
termination_by structural n => n

def params : Nat → Touring Unit
  | 0 => failure
  | n + 1 => do
    if ← hasMore then
      labelled "param:" n
      if ← take Reader.bool then
        let name ← take Reader.name
        note (names.text name)
      params n
termination_by structural n => n

def generics : Nat → Touring Unit
  | 0 => failure
  | n + 1 => do
    if ← take Reader.bool then
      let name ← take Reader.name
      labelled ("generic " ++ names.text name ++ ":") n
      generics n
termination_by structural n => n

def struct : Nat → Touring Unit
  | 0 => failure
  | n + 1 => do
    if ← take Reader.bool then labelled "base:" n
    fields n
termination_by structural n => n

def fields : Nat → Touring Unit
  | 0 => failure
  | n + 1 => do
    if ← take Reader.bool then
      let row ← take Reader.i32
      let col ← take Reader.i32
      let offset ← pos
      let place := "(" ++ toString row ++ ":" ++ toString col ++ ")"
      if ← take Reader.bool then
        if ← take Reader.bool then
          lineAt offset (.note ("inline field " ++ place ++ " count:"))
          indent
          expression n
          outdent
        else lineAt offset (.note ("inline field " ++ place))
      else lineAt offset (.note ("field " ++ place))
      indent
      field n
      outdent
      fields n
termination_by structural n => n

def field : Nat → Touring Unit
  | 0 => failure
  | n + 1 => do
    expression n
    if ← take Reader.bool then
      let name ← take Reader.name
      note ("name " ++ names.text name)
    if ← take Reader.bool then
      if ← take Reader.bool then
        let mode ← take Reader.capture
        block ("body [" ++ mode.name ++ "]") n
      else labelled "default:" n
    if ← take Reader.bool then
      let label := if ← take Reader.bool then "offset +@" else "offset @"
      labelled label n
termination_by structural n => n

def allocation : Nat → Touring Unit
  | 0 => failure
  | n + 1 => do
    expression n
    let form ← take Reader.form
    note ("form " ++ form.name)
    match form with
    | .bare => return
    | .scalar => expression n
    | .array =>
      expression n
      elements n
      let _ ← take Reader.u8
    | .function =>
      let mode ← take Reader.capture
      block ("body [" ++ mode.name ++ "]") n
    | .struct => overrides n
termination_by structural n => n

def elements : Nat → Touring Unit
  | 0 => failure
  | n + 1 => do
    if ← hasMore then
      labelled "element:" n
      elements n
termination_by structural n => n

def overrides : Nat → Touring Unit
  | 0 => failure
  | n + 1 => do
    if ← take Reader.bool then
      let name ← take Reader.name
      labelled ("." ++ names.text name ++ " =") n
      overrides n
termination_by structural n => n

end

def program (n : Nat) : Touring NameId := do
  let file ← take Reader.name
  commands names n
  return file

def start (bytes : Array UInt8) : Tour := { reader := .ofChunk { bytes } }

def text (file : NameId) (t : Tour) : String :=
  t.lines.foldl (fun text line => text ++ line.text ++ "\n") ("=== " ++ names.text file ++ " ===\n")

end Tour

def Reader.left (r : Reader) : Nat := r.stop - r.pos

theorem Reader.left_seek (r : Reader) (k : Nat) : (r.seek (r.pos + k)).left = r.left - k := Nat.sub_add_eq ..

namespace Tour

theorem bind_some {α β : Type} {y : Touring α} {g : α → Touring β} {t t' : Tour} {v : α} (h : y t = some (v, t')) :
    (y >>= g) t = g v t' := by
  show (y t).bind (fun p => g p.1 p.2) = _
  rw [h]
  rfl

/-! ## Side by side with the listing -/

/-- Both walks are at the same place of the chunk and have written the same lines. At most `m` bytes are left,
and everything that was looked at or entered is in place. -/
structure Abreast (chunk : Chunk) (stop d m : Nat) (s : Listing) (t : Tour) : Prop where
  reader : s.reader = t.reader
  lines : s.lines = t.lines
  depth : t.depth = d
  bytesLeft : t.reader.left ≤ m
  bound : t.reader.stop ≤ chunk.bytes.size
  looked : ∀ part ∈ t.looked, part.1 ≤ part.2 ∧ part.2 ≤ chunk.bytes.size
  entered : ∀ part ∈ t.entered, part.1.stop ≤ part.2.stop ∧ part.2.stop ≤ chunk.bytes.size
  chunk : t.reader.chunk = chunk
  stop : t.reader.stop = stop

/-- From any place at depth `d` with at most `m` bytes left, the tour ends as the walk of the listing does:
with the same value, which has the property, at the same place, with at most `m'` bytes left, in the same part
and at the same depth. -/
structure Agrees {α : Type} (d m : Nat) (x : Listing.Lister α) (y : Touring α) (m' : Nat)
    (P : α → Prop) : Prop where
  ends {chunk : Chunk} {stop : Nat} {s : Listing} {t : Tour} : Abreast chunk stop d m s t →
    ∃ t', y t = some ((x s).1, t') ∧ Abreast chunk stop d m' (x s).2 t' ∧ P (x s).1

namespace Agrees

section
variable {α β : Type} {d m m₁ m' : Nat} {x : Listing.Lister α} {y : Touring α} {P : α → Prop} {Q : β → Prop}
  {f : α → Listing.Lister β} {g : α → Touring β}

protected theorem mono {P' : α → Prop} (h : Agrees d m x y m₁ P) (hm : m₁ ≤ m') (hP : ∀ v, P v → P' v) :
    Agrees d m x y m' P' where
  ends ha :=
    have ⟨t', hy, ha', hv⟩ := h.ends ha
    ⟨t', hy, { ha' with bytesLeft := Nat.le_trans ha'.bytesLeft hm }, hP _ hv⟩

protected theorem pure {v : α} (hm : m ≤ m') (hv : P v) : Agrees d m (pure v) (pure v) m' P where
  ends {_ _ _ t} ha := ⟨t, rfl, { ha with bytesLeft := Nat.le_trans ha.bytesLeft hm }, hv⟩

protected theorem bind (hx : Agrees d m x y m₁ P) (hf : ∀ v, P v → Agrees d m₁ (f v) (g v) m' Q) :
    Agrees d m (x >>= f) (y >>= g) m' Q := by
  refine ⟨fun {_ _ s t} ha => ?_⟩
  obtain ⟨t₁, hy, ha₁, hv⟩ := hx.ends ha
  obtain ⟨t₂, hg, ha₂, hw⟩ := (hf _ hv).ends ha₁
  exact ⟨t₂, (bind_some hy).trans hg, ha₂, hw⟩

protected theorem ite {c : Prop} [Decidable c] {x' : Listing.Lister α} {y' : Touring α}
    (h : c → Agrees d m x y m' P)
    (h' : ¬c → Agrees d m x' y' m' P) : Agrees d m (if c then x else x') (if c then y else y') m' P := by
  split
  case isTrue hc => exact h hc
  case isFalse hc => exact h' hc

end

variable {d m m₁ m' : Nat}

theorem whenever {c : Prop} [Decidable c] {x : Listing.Lister Unit} {y : Touring Unit}
    (h : c → Agrees d m x y m₁ fun _ => True) (hm : m₁ ≤ m) :
    Agrees d m (if c then x else pure ()) (if c then y else pure ()) m fun _ => True :=
  .ite (fun hc => (h hc).mono hm fun _ _ => trivial) fun _ => .pure (Nat.le_refl m) trivial

theorem weaken {x : Listing.Lister Unit} {y : Touring Unit} (h : Agrees d m x y m₁ fun _ => True) (hm : m₁ ≤ m') :
    Agrees d m x y m' fun _ => True := h.mono hm fun _ _ => trivial

/-! ### Reading -/

theorem take {α : Type} {read : Reader → α × Reader} {P : α → Prop} (k : Nat)
    (h : ∀ r, (read r).2 = r.seek (r.pos + k))
    (hv : ∀ r, r.left ≤ m → P (read r).1) : Agrees d m (Listing.take read) (Tour.take read) (m - k) P := by
  refine ⟨fun {chunk stop s t} ha => ?_⟩
  obtain ⟨r, lines, reads, blocks⟩ := s
  obtain rfl : r = t.reader := ha.reader
  have hr := h t.reader
  refine ⟨_, rfl, ⟨rfl, ha.lines, ha.depth, ?_, ?_, ?_, ha.entered, ?_, ?_⟩, hv _ ha.bytesLeft⟩
  · show (read t.reader).2.left ≤ m - k
    rw [hr, Reader.left_seek]
    exact Nat.sub_le_sub_right ha.bytesLeft k
  · show (read t.reader).2.stop ≤ _
    rw [hr]
    exact ha.bound
  · show ∀ part ∈ if (read t.reader).2.pos ≤ t.reader.stop then t.looked.push (t.reader.pos,
      (read t.reader).2.pos) else t.looked, _
    rw [hr]
    split
    case isFalse => exact ha.looked
    case isTrue hin =>
      intro part hpart
      cases Array.mem_push.mp hpart with
      | inl h => exact ha.looked part h
      | inr h =>
        subst h
        exact ⟨Nat.le_add_right .., Nat.le_trans hin ha.bound⟩
  · exact (congrArg Reader.chunk hr).trans ha.chunk
  · exact (congrArg Reader.stop hr).trans ha.stop

theorem byte_left {r : Reader} (h : r.u8.1 ≠ 0) : 0 < r.left := by
  rw [Reader.u8] at h
  split at h
  case isTrue hlt => exact Nat.sub_pos_of_lt hlt
  case isFalse => exact absurd rfl h

theorem opcode_left {r : Reader} (h : r.opcode.1 ≠ .endMark) : 0 < r.left :=
  byte_left fun h0 => h (congrArg (fun n => (Opcode.ofCode? n).getD .endMark) h0)

theorem bool : Agrees d m (Listing.take Reader.bool) (Tour.take Reader.bool) (m - 1) fun b => b = true → 0 < m :=
  take 1 (fun _ => rfl) fun _ hr h => Nat.lt_of_lt_of_le (byte_left (bne_iff_ne.mp h)) hr

theorem opcode : Agrees d m (Listing.take Reader.opcode) (Tour.take Reader.opcode) (m - 1) fun op =>
    op ≠ .endMark → 0 < m :=
  take 1 (fun _ => rfl) fun _ hr h => Nat.lt_of_lt_of_le (opcode_left h) hr

theorem skipped {α : Type} {read : Reader → α × Reader} (k : Nat) (h : ∀ r, (read r).2 = r.seek (r.pos + k)) :
    Agrees d m (Listing.take read) (Tour.take read) m fun _ => True :=
  (take (P := fun _ => True) k h fun _ _ => trivial).mono (Nat.sub_le m k) fun _ _ => trivial

theorem atEnd : Agrees d m Listing.atEnd Tour.atEnd m fun b => b = false → 0 < m := by
  refine ⟨fun {chunk stop s t} ha => ⟨t, ?_, ha, ?_⟩⟩
  · show some (t.reader.atEnd, t) = some (s.reader.atEnd, t)
    rw [ha.reader]
  · show s.reader.atEnd = false → 0 < m
    intro h
    rw [ha.reader, Reader.atEnd, decide_eq_false_iff_not, Nat.not_le] at h
    exact Nat.lt_of_lt_of_le (Nat.sub_pos_of_lt h) ha.bytesLeft

theorem hasMore : Agrees d m Listing.hasMore Tour.hasMore m fun b => b = true → 0 < m := by
  refine ⟨fun {chunk stop s t} ha => ?_⟩
  -- The look-ahead reads an operation and goes back.
  obtain ⟨t₁, ht, ha₁, hop⟩ := opcode.ends ha
  have hs : Listing.hasMore s = (!s.reader.atEnd && s.reader.opcode.1 != .endMark, s) := rfl
  have hmore : Tour.hasMore t = if t.reader.atEnd = true then some (false, t) else
      (Tour.take Reader.opcode t).bind fun p => some (p.1 != .endMark, { p.2 with reader := t.reader }) := by
    show (if t.reader.atEnd = true then (pure false : Touring Bool) else do
      let r := (← get).reader
      let op ← Tour.take Reader.opcode
      modify fun t => { t with reader := r }
      return op != .endMark) t = _
    split <;> rfl
  rw [hs, hmore, ht, ha.reader]
  cases t.reader.atEnd with
  | true => exact ⟨t, rfl, ha, nofun⟩
  | false =>
    refine ⟨{ t₁ with reader := t.reader }, ?_, ?_, fun h => hop ?_⟩
    · rw [← ha.reader]
      rfl
    · exact { ha with lines := ha₁.lines, depth := ha₁.depth, looked := ha₁.looked, entered := ha₁.entered }
    · show s.reader.opcode.1 ≠ .endMark
      rw [ha.reader]
      exact bne_iff_ne.mp h

theorem pos : Agrees d m Listing.pos Tour.pos m fun _ => True := by
  refine ⟨fun {chunk stop s t} ha => ⟨t, ?_, ha, trivial⟩⟩
  show some (t.reader.pos, t) = some (s.reader.pos, t)
  rw [ha.reader]

/-! ### Writing -/

theorem lineAt (offset : Nat) (content : LineContent) :
    Agrees d m (Listing.lineAt offset d content) (Tour.lineAt offset content) m fun _ => True := by
  refine ⟨fun {chunk stop s t} ha => ⟨_, rfl, { ha with lines := ?_ }, trivial⟩⟩
  show s.lines.push ⟨offset, d, content⟩ = t.lines.push ⟨offset, t.depth, content⟩
  rw [ha.lines, ha.depth]

theorem note (text : String) : Agrees d m (Listing.note d text) (Tour.note text) m fun _ => True :=
  .bind pos fun _ _ => lineAt ..

theorem excluded : Agrees d m (Listing.excluded d) Tour.excluded m fun _ => True :=
  .bind pos fun _ _ => .mono (.bind bool fun _ _ => whenever (fun _ => lineAt ..) (Nat.le_refl _))
    (Nat.sub_le m 1) fun _ _ => trivial

theorem indented {x : Listing.Lister Unit} {y : Touring Unit} {P : Unit → Prop} (h : Agrees (d + 1) m x y m' P) :
    Agrees d m x (do indent; y; outdent) m' P := by
  refine ⟨fun {chunk stop s t} ha => ?_⟩
  have ha₁ : Abreast chunk stop (d + 1) m s { t with depth := t.depth + 1 } :=
    { ha with depth := congrArg (· + 1) ha.depth }
  obtain ⟨t', hy, ha', hv⟩ := h.ends ha₁
  refine ⟨{ t' with depth := d }, ?_, { ha' with depth := rfl }, hv⟩
  show (y { t with depth := t.depth + 1 }).bind (fun p => outdent p.2) = _
  rw [hy]
  show (match t'.depth with
    | 0 => failure
    | depth + 1 => modify fun t => { t with depth } : Touring Unit) t' = _
  rw [ha'.depth]
  rfl

/-- A block ends where the part around it ends, or before, and the walk goes on behind it. -/
theorem within {x : Listing.Lister Unit} {y : Touring Unit} {P : Unit → Prop} (h : Agrees (d + 1) m x y m' P) :
    Agrees d m (Listing.within x) (do let outer ← enter; indent; y; outdent; leave outer) m fun _ => True := by
  refine ⟨fun {chunk stop s t} ha => ?_⟩
  obtain ⟨t₁, ht, ha₁, -⟩ :=
    (skipped 4 fun _ => rfl : Agrees d m (Listing.take Reader.u32) (Tour.take Reader.u32) m _).ends ha
  -- Both readers are behind the length now.
  obtain ⟨r, depth, lines, looked, entered⟩ := t₁
  obtain rfl := ha₁.reader
  let len := (Listing.take Reader.u32 s).1
  let r := (Listing.take Reader.u32 s).2.reader
  let inner : Reader := ⟨r.chunk, min (r.pos + len) r.stop, r.pos⟩
  have henter : enter t = some (r.seek (r.pos + len), ⟨inner, depth, lines, looked, entered.push (inner, r)⟩) :=
    bind_some ht
  have hinner : Abreast chunk inner.stop d m { (Listing.take Reader.u32 s).2 with reader := inner }
      ⟨inner, depth, lines, looked, entered.push (inner, r)⟩ := by
    have hle : inner.stop ≤ r.stop := Nat.min_le_right ..
    refine { ha₁ with
      reader := rfl, bytesLeft := ?_, bound := Nat.le_trans hle ha₁.bound, entered := ?_,
        chunk := ha₁.chunk, stop := rfl }
    · exact Nat.le_trans (Nat.sub_le_sub_right hle _) ha₁.bytesLeft
    · intro part hpart
      cases Array.mem_push.mp hpart with
      | inl h => exact ha₁.entered part h
      | inr h =>
        subst h
        exact ⟨hle, ha₁.bound⟩
  obtain ⟨t₂, hy, ha₂, -⟩ := (indented h).ends hinner
  refine ⟨{ t₂ with reader := r.seek (r.pos + len) }, ?_, ?_, trivial⟩
  · have hassoc (outer : Reader) :
        (do indent; y; outdent; leave outer : Touring Unit) = (do indent; y; outdent) >>= fun _ => leave outer := by
      simp only [bind_assoc]
    rw [bind_some henter, hassoc, bind_some hy]
    rfl
  · refine { ha₂ with reader := rfl, bytesLeft := ?_, bound := ha₁.bound, chunk := ha₁.chunk, stop := ha₁.stop }
    exact Nat.le_trans (Nat.le_of_eq (Reader.left_seek r len)) (Nat.le_trans (Nat.sub_le ..) ha₁.bytesLeft)

theorem indentedThen {β : Type} {x : Listing.Lister Unit} {y : Touring Unit} {P : Unit → Prop}
    {f : Unit → Listing.Lister β}
    {g : Touring β} {Q : β → Prop} (h : Agrees (d + 1) m x y m₁ P) (hf : Agrees d m₁ (f ()) g m' Q) :
    Agrees d m (x >>= f) (do indent; y; outdent; g) m' Q := by
  have hassoc : (do indent; y; outdent; g) = (do indent; y; outdent) >>= fun _ => g := by simp only [bind_assoc]
  rw [hassoc]
  exact .bind (indented h) fun _ _ => hf

theorem head (names : Names) (op : Opcode) :
    Agrees d m (Listing.head names op) (Tour.head names op) m fun _ => True := by
  have shown {α : Type} {v : α} : Agrees d m (pure v) (pure v) m fun _ => True := .pure (Nat.le_refl m) trivial
  unfold Listing.head Tour.head
  cases op <;> dsimp only
  case integer | float => exact .bind (skipped 8 fun _ => rfl) fun _ _ => shown
  case text | variableRef | deferName | includeFile | member =>
    exact .bind (skipped 4 fun _ => rfl) fun _ _ => .bind shown fun _ _ => shown
  case truth | newValue => exact .bind (skipped 1 fun _ => rfl) fun _ _ => .bind shown fun _ _ => shown
  case declare =>
    exact .bind (skipped 1 fun _ => rfl) fun _ _ => .bind (skipped 4 fun _ => rfl) fun _ _ =>
      .bind shown fun _ _ => shown
  case typeLiteral =>
    refine .bind (skipped 1 fun _ => rfl) fun _ _ => .bind (skipped 1 fun _ => rfl) fun code _ => ?_
    cases Kind.ofCode? code with
    | none => exact .bind shown fun _ _ => shown
    | some kind =>
      cases kind
      case struct => exact shown
      all_goals exact .bind (skipped 1 fun _ => rfl) fun _ _ => .bind shown fun _ _ => shown
  all_goals exact .bind shown fun _ _ => shown

end Agrees

/-! ## The walk ends -/

/-- Calls that nest in proportion to the bytes that are left are enough. An expression takes at least a byte,
so each loop goes on with less. The numbers are how deep the functions call each other before that. -/
structure Enough (names : Names) (n : Nat) : Prop where
  commands {d m : Nat} : 8 * m + 1 ≤ n → Agrees d m (Listing.commands names d n) (commands names n) m fun _ => True
  expression {d m : Nat} : 8 * m + 1 ≤ n →
      Agrees d m (Listing.expression names d n) (expression names n) (m - 1) fun _ => True
  generics {d m : Nat} : 8 * m + 1 ≤ n → Agrees d m (Listing.generics names d n) (generics names n) m fun _ => True
  fields {d m : Nat} : 8 * m + 1 ≤ n → Agrees d m (Listing.fields names d n) (fields names n) m fun _ => True
  overrides {d m : Nat} : 8 * m + 1 ≤ n →
      Agrees d m (Listing.overrides names d n) (overrides names n) m fun _ => True
  block {d m : Nat} (label : String) : 8 * m + 2 ≤ n →
      Agrees d m (Listing.block names label d n) (block names label n) m fun _ => True
  branch {d m : Nat} (label : String) : 8 * m + 2 ≤ n →
      Agrees d m (Listing.branch names label d n) (branch names label n) m fun _ => True
  labelled {d m : Nat} (label : String) :
    8 * m + 2 ≤ n → Agrees d m (Listing.labelled names label d n) (labelled names label n) (m - 1) fun _ => True
  command {d m : Nat} (op : Opcode) : 8 * m + 3 ≤ n →
      Agrees d m (Listing.command names op d n) (command names op n) m fun _ => True
  arguments {d m : Nat} (count : Nat) :
    8 * m + 3 ≤ n → Agrees d m (Listing.arguments names count d n) (arguments names count n) m fun _ => True
  params {d m : Nat} : 8 * m + 3 ≤ n → Agrees d m (Listing.params names d n) (params names n) m fun _ => True
  elements {d m : Nat} : 8 * m + 3 ≤ n → Agrees d m (Listing.elements names d n) (elements names n) m fun _ => True
  struct {d m : Nat} : 8 * m + 3 ≤ n → Agrees d m (Listing.struct names d n) (struct names n) m fun _ => True
  field {d m : Nat} : 8 * m + 3 ≤ n → Agrees d m (Listing.field names d n) (field names n) m fun _ => True
  allocation {d m : Nat} : 8 * m + 4 ≤ n →
      Agrees d m (Listing.allocation names d n) (allocation names n) m fun _ => True
  node {d m : Nat} (op : Opcode) : 8 * m + 5 ≤ n →
      Agrees d m (Listing.node names op d n) (node names op n) m fun _ => True

namespace Enough

variable {names : Names} {n d m : Nat}

theorem commands_succ (h : Enough names n) (hn : 8 * m ≤ n) :
    Agrees d m (Listing.commands names d (n + 1)) (Tour.commands names (n + 1)) m fun _ => True := by
  rw [Listing.commands, Tour.commands]
  refine .bind .atEnd fun b _ => .ite (fun _ => .pure (Nat.le_refl m) trivial) fun _ => .bind .pos fun offset _ =>
    .bind .opcode fun op hop => .ite (fun _ => .pure (Nat.sub_le m 1) trivial) fun hne => ?_
  -- Another operation than an end mark is a byte before the end, so both the command and the rest have less
  -- to read.
  have hpos := hop hne
  refine .bind (.skipped 4 fun _ => rfl) fun row _ => .bind (.skipped 4 fun _ => rfl) fun col _ =>
    .bind (.lineAt ..) fun _ _ => ?_
  exact .indentedThen (h.command op (by omega)) ((h.commands (by omega)).mono (Nat.sub_le m 1) fun _ _ => trivial)

theorem expression_succ (h : Enough names n) (hn : 8 * m ≤ n) :
    Agrees d m (Listing.expression names d (n + 1)) (Tour.expression names (n + 1)) (m - 1) fun _ => True := by
  rw [Listing.expression, Tour.expression]
  refine .bind .pos fun offset _ => .bind .opcode fun op hop =>
    .ite (fun _ => .pure (Nat.le_refl _) trivial) fun hne => ?_
  have hpos := hop hne
  refine .bind .atEnd fun b _ => .ite (fun _ => .pure (Nat.le_refl _) trivial) fun _ =>
    .bind (.skipped 4 fun _ => rfl) fun row _ =>
    .bind (.skipped 4 fun _ => rfl) fun col _ => .bind (.head names op) fun shown _ => ?_
  obtain ⟨text, isStruct⟩ := shown
  have rest : Agrees d (m - 1) (Listing.expression names d n) (Tour.expression names n) (m - 1) fun _ => True :=
    (h.expression (by omega)).mono (Nat.sub_le _ 1) fun _ _ => trivial
  refine .bind (.lineAt ..) fun _ _ => ?_
  cases isStruct with
  | true => exact .indentedThen (h.struct (by omega)) rest
  | false => exact .indentedThen (h.node op (by omega)) rest

theorem block_succ (h : Enough names n) (hn : 8 * m + 1 ≤ n) (label : String) :
    Agrees d m (Listing.block names label d (n + 1)) (Tour.block names label (n + 1)) m fun _ => True := by
  rw [Listing.block, Tour.block]
  exact .bind (.note _) fun _ _ => .within (h.commands hn)

theorem branch_succ (h : Enough names n) (hn : 8 * m + 1 ≤ n) (label : String) :
    Agrees d m (Listing.branch names label d (n + 1)) (Tour.branch names label (n + 1)) m fun _ => True := by
  rw [Listing.branch, Tour.branch]
  exact .bind (.note _) fun _ _ => .within (h.expression hn)

theorem labelled_succ (h : Enough names n) (hn : 8 * m + 1 ≤ n) (label : String) :
    Agrees d m (Listing.labelled names label d (n + 1)) (Tour.labelled names label (n + 1))
    (m - 1) fun _ => True := by
  rw [Listing.labelled, Tour.labelled]
  exact .bind (.note _) fun _ _ => .indented (h.expression hn)

theorem arguments_succ (h : Enough names n) (hn : 8 * m + 2 ≤ n) (count : Nat) :
    Agrees d m (Listing.arguments names count d (n + 1)) (Tour.arguments names count (n + 1)) m fun _ => True := by
  rw [Listing.arguments, Tour.arguments]
  refine .bind .hasMore fun b hb => .whenever (fun hmore => ?_) (Nat.sub_le m 1)
  have hpos := hb hmore
  exact .bind (h.labelled _ hn) fun _ _ => h.arguments _ (by omega)

theorem elements_succ (h : Enough names n) (hn : 8 * m + 2 ≤ n) :
    Agrees d m (Listing.elements names d (n + 1)) (Tour.elements names (n + 1)) m fun _ => True := by
  rw [Listing.elements, Tour.elements]
  refine .bind .hasMore fun b hb => .whenever (fun hmore => ?_) (Nat.sub_le m 1)
  have hpos := hb hmore
  exact .bind (h.labelled _ hn) fun _ _ => h.elements (by omega)

theorem params_succ (h : Enough names n) (hn : 8 * m + 2 ≤ n) :
    Agrees d m (Listing.params names d (n + 1)) (Tour.params names (n + 1)) m fun _ => True := by
  rw [Listing.params, Tour.params]
  refine .bind .hasMore fun b hb => .whenever (fun hmore => ?_) (Nat.sub_le m 1)
  have hpos := hb hmore
  have rest : Agrees d (m - 1 - 1) (Listing.params names d n) (Tour.params names n) (m - 1) fun _ => True :=
    (h.params (by omega)).mono (Nat.sub_le ..) fun _ _ => trivial
  refine .bind (h.labelled _ hn) fun _ _ => .bind .bool fun b _ => .ite (fun _ => ?_) fun _ => rest
  exact .bind (.skipped 4 fun _ => rfl) fun name _ => .bind (.note _) fun _ _ => rest

theorem generics_succ (h : Enough names n) (hn : 8 * m ≤ n) :
    Agrees d m (Listing.generics names d (n + 1)) (Tour.generics names (n + 1)) m fun _ => True := by
  rw [Listing.generics, Tour.generics]
  refine .bind .bool fun b hb => .ite (fun hmore => ?_) fun _ => .pure (Nat.sub_le m 1) trivial
  have hpos := hb hmore
  refine .bind (.skipped 4 fun _ => rfl) fun name _ => .bind (h.labelled _ (by omega)) fun _ _ => ?_
  exact (h.generics (by omega)).mono (by omega) fun _ _ => trivial

theorem struct_succ (h : Enough names n) (hn : 8 * m + 2 ≤ n) :
    Agrees d m (Listing.struct names d (n + 1)) (Tour.struct names (n + 1)) m fun _ => True := by
  rw [Listing.struct, Tour.struct]
  have rest {k : Nat} (hk : k ≤ m) : Agrees d k (Listing.fields names d n) (Tour.fields names n) m fun _ => True :=
    (h.fields (by omega)).mono hk fun _ _ => trivial
  refine .bind .bool fun b _ => .ite (fun _ => ?_) fun _ => rest (Nat.sub_le m 1)
  exact .bind (h.labelled _ (by omega)) fun _ _ => rest (by omega)

theorem fields_succ (h : Enough names n) (hn : 8 * m ≤ n) :
    Agrees d m (Listing.fields names d (n + 1)) (Tour.fields names (n + 1)) m fun _ => True := by
  rw [Listing.fields, Tour.fields]
  refine .bind .bool fun b hb => .ite (fun hmore => ?_) fun _ => .pure (Nat.sub_le m 1) trivial
  have hpos := hb hmore
  have rest {k : Nat} (hk : k ≤ m - 1) :
      Agrees d k (do Listing.field names (d + 1) n; Listing.fields names d n)
        (do indent; Tour.field names n; outdent; Tour.fields names n) m fun _ => True :=
    .indentedThen (h.field (by omega)) ((h.fields (by omega)).mono (by omega) fun _ _ => trivial)
  refine .bind (.skipped 4 fun _ => rfl) fun row _ => .bind (.skipped 4 fun _ => rfl) fun col _ =>
    .bind .pos fun offset _ =>
    .bind .bool fun inlined _ => .ite (fun _ => ?_) fun _ => .bind (.lineAt ..) fun _ _ => rest (by omega)
  refine .bind .bool fun counted _ => .ite (fun _ => ?_) fun _ => .bind (.lineAt ..) fun _ _ => rest (by omega)
  exact .bind (.lineAt ..) fun _ _ => .indentedThen (h.expression (by omega)) (rest (by omega))

theorem overrides_succ (h : Enough names n) (hn : 8 * m ≤ n) :
    Agrees d m (Listing.overrides names d (n + 1)) (Tour.overrides names (n + 1)) m fun _ => True := by
  rw [Listing.overrides, Tour.overrides]
  refine .bind .bool fun b hb => .ite (fun hmore => ?_) fun _ => .pure (Nat.sub_le m 1) trivial
  have hpos := hb hmore
  refine .bind (.skipped 4 fun _ => rfl) fun name _ => .bind (h.labelled _ (by omega)) fun _ _ => ?_
  exact (h.overrides (by omega)).mono (by omega) fun _ _ => trivial

theorem field_succ (h : Enough names n) (hn : 8 * m + 2 ≤ n) :
    Agrees d m (Listing.field names d (n + 1)) (Tour.field names (n + 1)) m fun _ => True := by
  rw [Listing.field, Tour.field]
  -- What follows a condition is the same on both ways, so it is settled from the last condition to the first.
  have placed {k : Nat} (hk : k ≤ m) : Agrees d k
      (do
        if ← Listing.take Reader.bool then
          let label := if ← Listing.take Reader.bool then "offset +@" else "offset @"
          Listing.labelled names label d n)
      (do
        if ← Tour.take Reader.bool then
          let label := if ← Tour.take Reader.bool then "offset +@" else "offset @"
          Tour.labelled names label n) m fun _ => True := by
    refine .bind .bool fun _ _ => .ite (fun _ => ?_) fun _ => .pure (by omega) trivial
    exact .bind .bool fun _ _ => (h.labelled _ (by omega)).weaken (by omega)
  have valued {k : Nat} (hk : k ≤ m) : Agrees d k
      (do
        if ← Listing.take Reader.bool then
          if ← Listing.take Reader.bool then
            let mode ← Listing.take Reader.capture
            Listing.block names ("body [" ++ mode.name ++ "]") d n
          else Listing.labelled names "default:" d n
        if ← Listing.take Reader.bool then
          let label := if ← Listing.take Reader.bool then "offset +@" else "offset @"
          Listing.labelled names label d n)
      (do
        if ← Tour.take Reader.bool then
          if ← Tour.take Reader.bool then
            let mode ← Tour.take Reader.capture
            Tour.block names ("body [" ++ mode.name ++ "]") n
          else Tour.labelled names "default:" n
        if ← Tour.take Reader.bool then
          let label := if ← Tour.take Reader.bool then "offset +@" else "offset @"
          Tour.labelled names label n) m fun _ => True := by
    refine .bind .bool fun _ _ => .ite (fun _ => ?_) fun _ => placed (by omega)
    refine .bind .bool fun _ _ => .ite (fun _ => ?_) fun _ => .bind (h.labelled _ (by omega)) fun _ _ =>
      placed (by omega)
    exact .bind (.skipped 1 fun _ => rfl) fun mode _ => .bind (h.block _ (by omega)) fun _ _ => placed (by omega)
  refine .bind (h.expression (by omega)) fun _ _ => .bind .bool fun _ _ => .ite (fun _ => ?_) fun _ =>
    valued (by omega)
  exact .bind (.skipped 4 fun _ => rfl) fun name _ => .bind (.note _) fun _ _ => valued (by omega)

theorem allocation_succ (h : Enough names n) (hn : 8 * m + 3 ≤ n) :
    Agrees d m (Listing.allocation names d (n + 1)) (Tour.allocation names (n + 1)) m fun _ => True := by
  rw [Listing.allocation, Tour.allocation]
  refine .bind (h.expression (by omega)) fun _ _ => .bind (.skipped 1 fun _ => rfl) fun form _ =>
    .bind (.note _) fun _ _ => ?_
  cases form with
  | bare => exact .pure (Nat.sub_le m 1) trivial
  | scalar => exact (h.expression (by omega)).mono (by omega) fun _ _ => trivial
  | array =>
    exact .bind (h.expression (by omega)) fun _ _ => .bind (h.elements (by omega)) fun _ _ =>
      .bind (.skipped 1 fun _ => rfl) fun _ _ => .pure (by omega) trivial
  | function =>
    exact .bind (.skipped 1 fun _ => rfl) fun mode _ => (h.block _ (by omega)).mono (by omega) fun _ _ => trivial
  | struct => exact (h.overrides (by omega)).mono (by omega) fun _ _ => trivial

theorem command_succ (h : Enough names n) (hn : 8 * m + 2 ≤ n) (op : Opcode) :
    Agrees d m (Listing.command names op d (n + 1)) (Tour.command names op (n + 1)) m fun _ => True := by
  unfold Listing.command Tour.command
  -- Both walks read the same operands in the same order.
  cases op <;> dsimp only
  case ifElse =>
    refine .bind (h.expression (by omega)) fun _ _ => .bind (h.block _ (by omega)) fun _ _ => .bind .bool fun b _ =>
      .ite (fun _ => ?_) fun _ => .pure (by omega) trivial
    exact (h.block _ (by omega)).weaken (by omega)
  case whileLoop => exact .bind (h.expression (by omega)) fun _ _ => (h.block _ (by omega)).weaken (by omega)
  case forLoop =>
    have body {k : Nat} (hk : k ≤ m) : Agrees d k (Listing.block names "body" d n)
        (Tour.block names "body" n) m fun _ => True :=
      (h.block _ (by omega)).weaken hk
    refine .bind (h.expression (by omega)) fun _ _ => .bind (.skipped 4 fun _ => rfl) fun name _ =>
      .bind (.note _) fun _ _ =>
      .bind (h.expression (by omega)) fun _ _ => .bind .excluded fun _ _ =>
      .bind (h.expression (by omega)) fun _ _ => .bind .excluded fun _ _ => ?_
    refine .bind .bool fun b _ => .ite (fun _ => ?_) fun _ => body (by omega)
    exact .bind (h.expression (by omega)) fun _ _ => body (by omega)
  case returnValue =>
    refine .bind .bool fun b _ => .ite (fun _ => ?_) fun _ => .pure (by omega) trivial
    exact (h.expression (by omega)).weaken (by omega)
  case tryCatch =>
    refine .bind (h.block _ (by omega)) fun _ _ => .bind .bool fun b _ => .ite (fun _ => ?_) fun _ =>
      .pure (by omega) trivial
    have caught {k : Nat} (hk : k ≤ m) (label : String) :
        Agrees d k (Listing.block names label d n) (Tour.block names label n) m fun _ => True :=
      (h.block _ (by omega)).weaken hk
    have label {k : Nat} {text : String} : Agrees d k (pure text) (pure text) k fun _ => True :=
      .pure (Nat.le_refl k) trivial
    refine .bind .bool fun silently _ => .bind .bool fun b _ => .ite (fun _ => ?_) fun _ =>
      .bind label fun text _ => caught (by omega) text
    exact .bind (.skipped 4 fun _ => rfl) fun name _ => .bind label fun text _ => caught (by omega) text
  case throwValue =>
    refine .bind (h.expression (by omega)) fun _ _ => .bind .bool fun b _ => .ite (fun _ => ?_) fun _ =>
      .pure (by omega) trivial
    exact .bind (.skipped 4 fun _ => rfl) fun message _ => (Agrees.note _).weaken (by omega)
  case codeblock => exact h.block _ (by omega)
  case expression => exact (h.expression (by omega)).weaken (by omega)
  all_goals exact .pure (Nat.le_refl m) trivial

theorem node_succ (h : Enough names n) (hn : 8 * m + 4 ≤ n) (op : Opcode) :
    Agrees d m (Listing.node names op d (n + 1)) (Tour.node names op (n + 1)) m fun _ => True := by
  have operand {k : Nat} (hk : k ≤ m) : Agrees d k (Listing.expression names d n)
      (Tour.expression names n) m fun _ => True :=
    (h.expression (by omega)).weaken (by omega)
  unfold Listing.node Tour.node
  cases op <;> dsimp only
  case paren | varargs | typeOf | deleteValue | index => exact operand (Nat.le_refl m)
  case sizeOf =>
    exact .bind .bool fun b _ => .ite (fun _ => (Agrees.note _).weaken (by omega)) fun _ => operand (by omega)
  case scopeOf =>
    refine .bind .bool fun b _ => .ite (fun _ => ?_) fun _ => .pure (by omega) trivial
    exact .bind (.skipped 4 fun _ => rfl) fun name _ => (Agrees.note _).weaken (by omega)
  case moveValue => exact .bind (h.expression (by omega)) fun _ _ => operand (by omega)
  case ternary =>
    exact .bind (h.expression (by omega)) fun _ _ => .bind (h.branch _ (by omega)) fun _ _ =>
      (h.branch _ (by omega)).weaken (by omega)
  case call =>
    exact .bind (h.arguments _ (by omega)) fun _ _ => .bind (.skipped 1 fun _ => rfl) fun _ _ =>
      .pure (by omega) trivial
  case functionType =>
    have rest {k : Nat} (hk : k ≤ m) : Agrees d k (do Listing.params names d n; let _ ← Listing.take Reader.u8)
        (do Tour.params names n; let _ ← Tour.take Reader.u8) m fun _ => True :=
      .bind (h.params (by omega)) fun _ _ => .bind (.skipped 1 fun _ => rfl) fun _ _ => .pure hk trivial
    exact .bind .bool fun b _ => .ite (fun _ => .bind (.note _) fun _ _ => rest (by omega)) fun _ => rest (by omega)
  case declare =>
    refine .bind (h.generics (by omega)) fun _ _ => .bind .bool fun b _ => .ite (fun _ => ?_) fun _ =>
      .pure (by omega) trivial
    exact .bind (.skipped 1 fun _ => rfl) fun mode _ => (h.block _ (by omega)).weaken (by omega)
  case newValue => exact h.allocation (by omega)
  all_goals exact .pure (Nat.le_refl m) trivial

end Enough

theorem enough (names : Names) : ∀ n, Enough names n
  | 0 => by constructor <;> intros <;> omega
  | n + 1 =>
    have h := enough names n
    { commands := fun hn => h.commands_succ (by omega)
      expression := fun hn => h.expression_succ (by omega)
      generics := fun hn => h.generics_succ (by omega)
      fields := fun hn => h.fields_succ (by omega)
      overrides := fun hn => h.overrides_succ (by omega)
      block := fun label hn => h.block_succ (by omega) label
      branch := fun label hn => h.branch_succ (by omega) label
      labelled := fun label hn => h.labelled_succ (by omega) label
      command := fun op hn => h.command_succ (by omega) op
      arguments := fun count hn => h.arguments_succ (by omega) count
      params := fun hn => h.params_succ (by omega)
      elements := fun hn => h.elements_succ (by omega)
      struct := fun hn => h.struct_succ (by omega)
      field := fun hn => h.field_succ (by omega)
      allocation := fun hn => h.allocation_succ (by omega)
      node := fun op hn => h.node_succ (by omega) op }

theorem program_agrees (names : Names) {n d m : Nat} (hn : 8 * m + 1 ≤ n) :
    Agrees d m (do let file ← Listing.take Reader.name; Listing.commands names d n; return file)
    (program names n) m fun _ => True :=
  .bind (.skipped 4 fun _ => rfl) fun _ _ => .bind ((enough names n).commands hn) fun _ _ =>
    .pure (Nat.le_refl m) trivial

theorem abreast_start (bytes : Array UInt8) :
    Abreast { bytes } bytes.size 0 bytes.size { reader := .ofChunk { bytes } } (start bytes) where
  reader := rfl
  lines := rfl
  depth := rfl
  bytesLeft := Nat.le_refl _
  bound := Nat.le_refl _
  looked part h := absurd h (Array.not_mem_empty part)
  entered part h := absurd h (Array.not_mem_empty part)
  chunk := rfl
  stop := rfl

/-- For all bytes and names the walk ends, with the listing and back at depth zero. All that it has looked at
is in the bytes, and each part it has entered ends where the part around it ends, or before. -/
theorem program_ends (names : Names) (bytes : Array UInt8) :
    ∃ file t, program names (8 * bytes.size + 8) (start bytes) = some (file, t) ∧
    text names file t = disassemble bytes names ∧ t.lines = (Listing.walk names bytes).2.lines ∧ t.depth = 0 ∧
    (∀ part ∈ t.looked, part.1 ≤ part.2 ∧ part.2 ≤ bytes.size) ∧
    ∀ part ∈ t.entered, part.1.stop ≤ part.2.stop ∧ part.2.stop ≤ bytes.size := by
  have hfuel : 8 * bytes.size + 1 ≤ 8 * bytes.size + 8 := Nat.add_le_add_left (by decide) _
  obtain ⟨t, ht, ha, -⟩ := (program_agrees names hfuel).ends (abreast_start bytes)
  have hlines : t.lines = (Listing.walk names bytes).2.lines := ha.lines.symm
  refine ⟨(Listing.walk names bytes).1, t, ht, ?_, hlines, ha.depth, ha.looked, ha.entered⟩
  rw [text, hlines]
  rfl

end Tour

end LevelScript
