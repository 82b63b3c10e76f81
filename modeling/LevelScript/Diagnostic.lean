import LevelScript.SyntaxError
import LevelScript.Text.Columns

/-!
# Source excerpts

A syntax error is shown with the line it is in: the part meant is underlined, and an arrow leads
from it to the message.
-/

namespace LevelScript

structure Diagnostic where
  message : String
  span : Span
  deriving Repr, DecidableEq

namespace Diagnostic

def ofError (e : SyntaxError) : Diagnostic := ⟨e.message, e.span⟩

/-! ## Lines -/

/-- The end of a line is part of it. -/
def isLineEnd (c : Char) : Bool :=
  c = '\n' || c = '\r' || c.toNat = 0xB || c.toNat = 0xC || c.toNat = 0x85 || c.toNat = 0x2028 ||
    c.toNat = 0x2029

/-- The lines of a text, each with its end; a text that ends with a line end has no empty line
behind it. -/
def lines (line : List Char) : List Char → List (List Char)
  | [] => if line.isEmpty then [] else [line.reverse]
  | '\r' :: '\n' :: cs => ('\n' :: '\r' :: line).reverse :: lines [] cs
  | c :: cs => if isLineEnd c then (c :: line).reverse :: lines [] cs else lines (c :: line) cs

def byteLength (cs : List Char) : Nat := cs.foldl (fun n c => n + c.utf8Size) 0

/-- How many characters end within the first `bytes` bytes. -/
def charsWithin (bytes : Nat) : List Char → Nat
  | [] => 0
  | c :: cs => if c.utf8Size ≤ bytes then charsWithin (bytes - c.utf8Size) cs + 1 else 0

def lineAt (offset row : Nat) : List (List Char) → Nat × List Char × Nat
  | [] => (row, [], offset)
  | [line] => (row, line, offset)
  | line :: next :: more =>
    if offset < byteLength line then (row, line, offset)
    else lineAt (offset - byteLength line) (row + 1) (next :: more)

/-! ## Drawing -/

def tabWidth : Nat := 4

/-- What is shown for the character at an index of its line, and the columns it takes. -/
def shown (index : Nat) (c : Char) : Char × Nat :=
  if c = '\t' then (' ', (index / tabWidth + 1) * tabWidth - index)
  else if Text.isSpace c then (' ', 1)
  else (c, Text.columns c)

/-- A line as it is shown, without blanks at its end. -/
def showLine (line : List Char) : List Char :=
  (Text.trimEnd line).zipIdx.flatMap fun (c, index) =>
    let (c, width) := shown index c
    if c = ' ' then List.replicate width c else [c]

/-- Draws `mark index`, a character and what fills its columns up, for each index below `count`. -/
def draw (cs : List Char) (count : Nat) (mark : Nat → Char × Char) : List Char :=
  (List.range count).flatMap fun index =>
    let width := match cs[index]? with
      | some c => (shown index c).2
      | none => 1
    let (first, fill) := mark index
    (first :: List.replicate (width - 1) fill).take width

def bar : Char := '─'

def format (d : Diagnostic) (path source kind : String) (code : Nat) : String :=
  let (row, line, byte) := lineAt d.span.start 1 (lines [] source.toList)
  let start := charsWithin byte line
  let length := charsWithin (byte + (d.span.stop - d.span.start)) line - start
  let middle := start + length / 2
  let count := start + length + 2
  let under (index : Nat) : Char × Char :=
    if index = middle then (if length = 0 then ('│', ' ') else ('┬', bar))
    else if start ≤ index && index < start + length then (bar, bar)
    else (' ', ' ')
  let arrow (index : Nat) : Char × Char :=
    if index = middle then ('╰', bar)
    else if middle < index then (bar, bar)
    else (' ', ' ')
  let number := Nat.repr row
  let margin (c : Char) : String := String.ofList (List.replicate (number.length + 2) c)
  let codeText := if code < 10 then "0" ++ Nat.repr code else Nat.repr code
  String.join
    [ "[", codeText, "] Error: ", kind, "\n",
      margin ' ', "╭─[ ", path, ":", number, ":", Nat.repr (start + 1), " ]\n",
      margin ' ', "│\n",
      " ", number, " │ ", String.ofList (showLine line), "\n",
      margin ' ', "│ ", String.ofList (draw line count under), "\n",
      margin ' ', "│ ", String.ofList (draw line count arrow), " ", d.message, "\n",
      margin bar, "╯\n" ]

end Diagnostic

end LevelScript
