import LevelScript.Bytecode.Reader
import LevelScript.Decimal.Digits
import LevelScript.Text.Escape
import LevelScript.Types.Kind

/-!
# Listings of bytecode

A walk over the bytes that writes one line for every node, indented by depth. The walk takes any
bytes: every node moves the reader on, and beyond the end only end marks are read, so fuel in
proportion to the number of bytes never runs out.
-/

namespace LevelScript

inductive LineContent where
  | node (op : Opcode) (head : String) (row col : Int)
  | note (text : String)
  deriving Repr, DecidableEq

def LineContent.text : LineContent → String
  | node _ head row col => head ++ " (" ++ toString row ++ ":" ++ toString col ++ ")"
  | note text => text

structure ListingLine where
  offset : Nat
  depth : Nat
  content : LineContent
  deriving Repr, DecidableEq

def ListingLine.text (l : ListingLine) : String :=
  let digits := Nat.repr l.offset
  let zeros := String.ofList (List.replicate (6 - digits.length) '0')
  zeros ++ digits ++ " " ++ String.join (List.replicate l.depth "  ") ++ l.content.text

/-- A walk in progress: where it is, and the lines so far. -/
structure Listing where
  reader : Reader
  lines : Array ListingLine := #[]
  /-- The parts that were read, in order: from where, and up to where. -/
  reads : Array (Nat × Nat) := #[]
  /-- Where the walk through each block ended, and where the block ends. -/
  blocks : Array (Nat × Nat) := #[]

namespace Listing

abbrev Lister := StateM Listing

def take (f : Reader → α × Reader) : Lister α :=
  modifyGet fun s =>
    let (a, r) := f s.reader
    (a, { s with reader := r, reads := s.reads.push (s.reader.pos, r.pos) })

def pos : Lister Nat := return (← get).reader.pos

def atEnd : Lister Bool := return (← get).reader.atEnd

/-- Whether something other than an end mark follows. -/
def hasMore : Lister Bool := do
  let r := (← get).reader
  return !r.atEnd && r.opcode.1 != .endMark

def lineAt (offset depth : Nat) (content : LineContent) : Lister Unit :=
  modify fun s => { s with lines := s.lines.push ⟨offset, depth, content⟩ }

def note (depth : Nat) (text : String) : Lister Unit := do lineAt (← pos) depth (.note text)

/-- Walks inside the next block, then goes on behind it. -/
def within (walk : Lister Unit) : Lister Unit := do
  let len ← take Reader.u32
  let r := (← get).reader
  let stop := r.pos + len
  modify fun s => { s with reader := ⟨r.chunk, min stop r.stop, r.pos⟩ }
  walk
  modify fun s => { s with reader := r.seek stop, blocks := s.blocks.push (s.reader.pos, stop) }

variable (names : Names)

/-- The name of a node with the operands that fit on its line; the flag tells of a struct. -/
def head (op : Opcode) : Lister (String × Bool) := do
  let text : String ← match op with
    | .integer => return ("Integer " ++ Nat.repr (← take Reader.u64).toNat, false)
    | .float => return ("Float " ++ Double.shortestText (← take Reader.u64), false)
    | .text => pure ("String \"" ++ Text.ascii (names.text (← take Reader.name)) ++ "\"")
    | .variableRef | .deferName | .includeFile =>
      pure (op.name ++ " " ++ names.text (← take Reader.name))
    | .truth => pure ("Truthy " ++ (if ← take Reader.bool then "true" else "false"))
    | .member => pure ("WalkStruct ." ++ names.text (← take Reader.name))
    | .typeLiteral =>
      let start := "Type " ++ (if ← take Reader.bool then "const " else "")
      match Kind.ofCode? (← take Reader.u8) with
      | some .struct => return (start ++ "struct", true)
      | some kind =>
        let sign := if ← take Reader.bool then "unsigned " else ""
        pure (start ++ sign ++ kind.name)
      | none => pure (start ++ "?")
    | .declare =>
      let start := if ← take Reader.bool then "Decl extern " else "Decl "
      pure (start ++ names.text (← take Reader.name))
    | .newValue => pure (if ← take Reader.bool then "New scoped" else "New")
    | _ => pure op.name
  return (text, false)

/-- A line for a bound that is not part of a loop. -/
def excluded (depth : Nat) : Lister Unit := do
  let offset ← pos
  if ← take Reader.bool then lineAt offset depth (.note "excl")

mutual

def commands (depth : Nat) : Nat → Lister Unit
  | 0 => return
  | n + 1 => do
    if ← atEnd then return
    let offset ← pos
    let op ← take Reader.opcode
    if op = .endMark then return
    let row ← take Reader.i32
    let col ← take Reader.i32
    lineAt offset depth (.node op op.name row col)
    command op (depth + 1) n
    commands depth n
termination_by structural n => n

def command (op : Opcode) (depth : Nat) : Nat → Lister Unit
  | 0 => return
  | n + 1 => do
    match op with
    | .ifElse =>
      expression depth n
      block "then" depth n
      if ← take Reader.bool then block "else" depth n
    | .whileLoop =>
      expression depth n
      block "body" depth n
    | .forLoop =>
      expression depth n
      let name ← take Reader.name
      note depth ("var " ++ names.text name)
      expression depth n
      excluded depth
      expression depth n
      excluded depth
      if ← take Reader.bool then expression depth n
      block "body" depth n
    | .returnValue => if ← take Reader.bool then expression depth n
    | .tryCatch =>
      block "try" depth n
      if ← take Reader.bool then
        let silently ← take Reader.bool
        let label ←
          if ← take Reader.bool then pure ("catch as " ++ names.text (← take Reader.name))
          else pure (if silently then "catch silently" else "catch")
        block label depth n
    | .throwValue =>
      expression depth n
      if ← take Reader.bool then
        let message ← take Reader.name
        note depth ("as \"" ++ names.text message ++ "\"")
    | .codeblock => block "block" depth n
    | .expression => expression depth n
    | _ => return
termination_by structural n => n

def block (label : String) (depth : Nat) : Nat → Lister Unit
  | 0 => return
  | n + 1 => do
    note depth (label ++ ":")
    within (commands (depth + 1) n)
termination_by structural n => n

def branch (label : String) (depth : Nat) : Nat → Lister Unit
  | 0 => return
  | n + 1 => do
    note depth (label ++ ":")
    within (expression (depth + 1) n)
termination_by structural n => n

def expression (depth : Nat) : Nat → Lister Unit
  | 0 => return
  | n + 1 => do
    let offset ← pos
    let op ← take Reader.opcode
    if op = .endMark then return
    if ← atEnd then return
    let row ← take Reader.i32
    let col ← take Reader.i32
    let (text, isStruct) ← head names op
    lineAt offset depth (.node op text row col)
    if isStruct then struct (depth + 1) n else node op (depth + 1) n
    expression depth n
termination_by structural n => n

def node (op : Opcode) (depth : Nat) : Nat → Lister Unit
  | 0 => return
  | n + 1 => do
    match op with
    | .paren | .varargs | .typeOf | .deleteValue | .index => expression depth n
    | .sizeOf => if ← take Reader.bool then note depth "..." else expression depth n
    | .scopeOf =>
      if ← take Reader.bool then
        let name ← take Reader.name
        note depth (names.text name)
    | .moveValue =>
      expression depth n
      expression depth n
    | .ternary =>
      expression depth n
      branch "then" depth n
      branch "else" depth n
    | .call =>
      arguments 0 depth n
      let _ ← take Reader.u8
    | .functionType =>
      if ← take Reader.bool then note depth "assignable"
      params depth n
      let _ ← take Reader.u8
    | .declare =>
      generics depth n
      if ← take Reader.bool then
        let mode ← take Reader.capture
        block ("body [" ++ mode.name ++ "]") depth n
    | .newValue => allocation depth n
    | _ => return
termination_by structural n => n

/-- An expression below a line of its own. -/
def labelled (label : String) (depth : Nat) : Nat → Lister Unit
  | 0 => return
  | n + 1 => do
    note depth label
    expression (depth + 1) n
termination_by structural n => n

def arguments (count depth : Nat) : Nat → Lister Unit
  | 0 => return
  | n + 1 => do
    if ← hasMore then
      labelled ("arg " ++ Nat.repr count ++ ":") depth n
      arguments (count + 1) depth n
termination_by structural n => n

def params (depth : Nat) : Nat → Lister Unit
  | 0 => return
  | n + 1 => do
    if ← hasMore then
      labelled "param:" depth n
      if ← take Reader.bool then
        let name ← take Reader.name
        note depth (names.text name)
      params depth n
termination_by structural n => n

def generics (depth : Nat) : Nat → Lister Unit
  | 0 => return
  | n + 1 => do
    if ← take Reader.bool then
      let name ← take Reader.name
      labelled ("generic " ++ names.text name ++ ":") depth n
      generics depth n
termination_by structural n => n

def struct (depth : Nat) : Nat → Lister Unit
  | 0 => return
  | n + 1 => do
    if ← take Reader.bool then labelled "base:" depth n
    fields depth n
termination_by structural n => n

def fields (depth : Nat) : Nat → Lister Unit
  | 0 => return
  | n + 1 => do
    if ← take Reader.bool then
      let row ← take Reader.i32
      let col ← take Reader.i32
      let offset ← pos
      let place := "(" ++ toString row ++ ":" ++ toString col ++ ")"
      if ← take Reader.bool then
        if ← take Reader.bool then
          lineAt offset depth (.note ("inline field " ++ place ++ " count:"))
          expression (depth + 1) n
        else lineAt offset depth (.note ("inline field " ++ place))
      else lineAt offset depth (.note ("field " ++ place))
      field (depth + 1) n
      fields depth n
termination_by structural n => n

def field (depth : Nat) : Nat → Lister Unit
  | 0 => return
  | n + 1 => do
    expression depth n
    if ← take Reader.bool then
      let name ← take Reader.name
      note depth ("name " ++ names.text name)
    if ← take Reader.bool then
      if ← take Reader.bool then
        let mode ← take Reader.capture
        block ("body [" ++ mode.name ++ "]") depth n
      else labelled "default:" depth n
    if ← take Reader.bool then
      let label := if ← take Reader.bool then "offset +@" else "offset @"
      labelled label depth n
termination_by structural n => n

def allocation (depth : Nat) : Nat → Lister Unit
  | 0 => return
  | n + 1 => do
    expression depth n
    let form ← take Reader.form
    note depth ("form " ++ form.name)
    match form with
    | .bare => return
    | .scalar => expression depth n
    | .array =>
      expression depth n
      elements depth n
      let _ ← take Reader.u8
    | .function =>
      let mode ← take Reader.capture
      block ("body [" ++ mode.name ++ "]") depth n
    | .struct => overrides depth n
termination_by structural n => n

def elements (depth : Nat) : Nat → Lister Unit
  | 0 => return
  | n + 1 => do
    if ← hasMore then
      labelled "element:" depth n
      elements depth n
termination_by structural n => n

def overrides (depth : Nat) : Nat → Lister Unit
  | 0 => return
  | n + 1 => do
    if ← take Reader.bool then
      let name ← take Reader.name
      labelled ("." ++ names.text name ++ " =") depth n
      overrides depth n
termination_by structural n => n

end

/-- Walks over a whole program, which starts with its file name. -/
def walk (bytes : Array UInt8) : NameId × Listing :=
  let all : Lister NameId := do
    let file ← take Reader.name
    commands names 0 (8 * bytes.size + 8)
    return file
  all.run { reader := Reader.ofChunk { bytes } }

end Listing

/-- The text of a listing: the file name, then a line for every node. -/
def disassemble (bytes : Array UInt8) (names : Names) : String :=
  let (file, listing) := Listing.walk names bytes
  let header := "=== " ++ names.text file ++ " ===\n"
  listing.lines.foldl (fun text line => text ++ line.text ++ "\n") header

end LevelScript
