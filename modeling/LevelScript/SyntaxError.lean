/-!
# What can be wrong with a source text

A syntax error says what is wrong and where: the file, the row and column, and the bytes meant.
-/

namespace LevelScript

/-- A place in a source text: the byte offset, and the row and column counted from one.
Columns count bytes. -/
structure Place where
  offset : Nat := 0
  row : Nat := 1
  col : Nat := 1
  deriving Repr, DecidableEq, Inhabited

namespace Place

def step (p : Place) (c : Char) : Place :=
  if c = '\n' then ⟨p.offset + 1, p.row + 1, 1⟩
  else ⟨p.offset + c.utf8Size, p.row, p.col + c.utf8Size⟩

def after (p : Place) (cs : List Char) : Place := cs.foldl step p

end Place

/-- The bytes from `start` up to, but not including, `stop`. -/
structure Span where
  start : Nat
  stop : Nat
  deriving Repr, DecidableEq, Inhabited

inductive Issue where
  | invalidToken
  | invalidCodepoint (byte : Nat)
  | unterminatedText
  | emptyChar
  | manyChars
  | badEscape
  | badDigit
  | integerRange (word : String)
  | floatRange (word : String)
  | expected (what : String)
  | unexpectedExtern
  | inlineMethod (name : String)
  | inlineDefault
  | tooDeep
  deriving Repr, DecidableEq

def hexPairUpper (n : Nat) : String :=
  let ds := (Nat.toDigits 16 n).map Char.toUpper
  String.ofList (List.replicate (2 - ds.length) '0' ++ ds)

def Issue.message : Issue → String
  | invalidToken => "Invalid token"
  | invalidCodepoint byte => "Invalid codepoint: \\x" ++ hexPairUpper byte
  | unterminatedText => "Unterminated string literal"
  | emptyChar => "Empty char literal"
  | manyChars => "Multiple characters in char literal"
  | badEscape => "Invalid escape code"
  | badDigit => "Not a valid digit"
  | integerRange word => "Integer literal out of range: " ++ word
  | floatRange word => "Float literal out of range: " ++ word
  | expected what => "Expected " ++ what
  | unexpectedExtern => "Unexpected 'extern'"
  | inlineMethod name => "Inline field cannot be named '" ++ name ++ "'"
  | inlineDefault => "Cannot pre-assign to an inline field"
  | tooDeep => "Nesting too deep"

structure SyntaxError where
  file : String
  row : Nat
  col : Nat
  span : Span
  issue : Issue
  deriving Repr, DecidableEq

def SyntaxError.message (e : SyntaxError) : String := e.issue.message

end LevelScript
