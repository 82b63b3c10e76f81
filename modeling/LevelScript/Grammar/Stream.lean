import LevelScript.Token
import LevelScript.Tree

/-!
# The token stream

A parser takes lexemes from the front of a list. An error is located at the first lexeme not taken.
-/

namespace LevelScript

/-- What is wrong, and the lexeme that shows it. -/
structure Misfit where
  lexeme : Lexeme
  issue : Issue

abbrev Parser := StateT (List Lexeme) (Except Misfit)

namespace Parser

/-- The next lexeme; the stream of a text always ends in `eof`. -/
def peek : Parser Lexeme := do
  match ← get with
  | l :: _ => return l
  | [] => return ⟨.eof, {}, 0⟩

def skip : Parser Unit := modify List.tail

def failAt (lexeme : Lexeme) (issue : Issue) : Parser α := throw ⟨lexeme, issue⟩

def fail (issue : Issue) : Parser α := do failAt (← peek) issue

def missing (what : String) : Parser α := fail (.expected what)

def accept (token : Token) : Parser (Option Lexeme) := do
  let l ← peek
  if l.token = token then skip; return some l else return none

/-- Takes the next lexeme if it is `token`, and says whether it did. -/
def has (token : Token) : Parser Bool := return (← accept token).isSome

def hasMark (m : Mark) : Parser Bool := has (.mark m)

def hasWord (k : Keyword) : Parser Bool := has (.keyword k)

def quoted (m : Mark) : String := "'" ++ m.spelling ++ "'"

def require (m : Mark) : Parser Unit := do
  unless ← hasMark m do missing (quoted m)

def acceptName : Parser (Option (String × Lexeme)) := do
  let l ← peek
  match l.token with
  | .identifier name => skip; return some (name, l)
  | _ => return none

def requireName : Parser String := do
  match ← acceptName with
  | some (name, _) => return name
  | none => missing "identifier"

def requireText : Parser String := do
  match (← peek).token with
  | .text value => skip; return value
  | _ => missing "a string literal"

def atEof : Parser Bool := return (← peek).token = .eof

end Parser

def Lexeme.position (l : Lexeme) : Position := ⟨l.place.row, l.place.col⟩

end LevelScript
