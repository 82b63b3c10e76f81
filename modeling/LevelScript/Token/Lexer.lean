import LevelScript.Token.Quoted

/-!
# From text to tokens

Blanks separate tokens and are dropped; at every other place the longest token wins. Each token is
kept with the characters it covers, which give its place.
-/

namespace LevelScript

def isBlank (c : Char) : Bool := c == ' ' || c == '\t' || c == '\r' || c == '\n'

namespace Lexer

/-- A fault: the characters before it, how many bytes it covers, and what is wrong. -/
structure Fault where
  before : List Char
  width : Nat
  issue : Issue

def leadByte (c : Char) : Nat :=
  let n := c.toNat
  if n < 0x80 then n
  else if n < 0x800 then 0xC0 + n / 0x40
  else if n < 0x10000 then 0xE0 + n / 0x1000
  else 0xF0 + n / 0x40000

def strayIssue (c : Char) : Issue :=
  let byte := leadByte c
  if 33 ≤ byte ∧ byte ≤ 126 ∧ !c.isAlphanum then .invalidToken else .invalidCodepoint byte

/-- Moves a fault in a literal's body behind the opening quote. -/
def quotedFault (quote : Char) (rest : List Char) : Quoted.Fault → Fault
  | (n, issue) => ⟨quote :: rest.take n, 1, issue⟩

/-- The tokens at the start of `cs`, which is no blank, each with the characters it covers. Only a
numeric word that is no number gives more than one. -/
def tokensAt (cs : List Char) : Except Fault (List (Token × List Char)) :=
  match cs with
  | [] => .ok []
  | c :: rest =>
    if isNameStart c then
      let name := c :: rest.takeWhile isWordChar
      let text := String.ofList name
      match Keyword.ofName? text with
      | some word => .ok [(.keyword word, name)]
      | none => .ok [(.identifier text, name)]
    else match Word.take? (c :: rest) with
    | some (word, _) =>
      match Word.tokens word with
      | .ok tokens => .ok tokens
      | .error issue => .error ⟨[], word.length, issue⟩
    | none =>
      if c = '"' then
        match Quoted.body '"' rest with
        | .ok (text, n) => .ok [(.text (String.ofList text), c :: rest.take (n + 1))]
        | .error fault => .error (quotedFault c rest fault)
      else if c = '\'' then
        match Quoted.char rest with
        | .ok (ch, n) => .ok [(.integer ch.toNat.toUInt64, c :: rest.take (n + 1))]
        | .error fault => .error (quotedFault c rest fault)
      else match Mark.atStart? (c :: rest) with
      | some m => .ok [(.mark m, (c :: rest).take m.spelling.length)]
      | none => .error ⟨[], 1, strayIssue c⟩

/-- Places the tokens one behind the other. -/
def placeAll (place : Place) : List (Token × List Char) → List Lexeme × Place
  | [] => ([], place)
  | (token, cs) :: more =>
    let next := place.after cs
    let (lexemes, last) := placeAll next more
    (⟨token, place, next.offset⟩ :: lexemes, last)

def covered (tokens : List (Token × List Char)) : Nat :=
  tokens.foldl (fun n t => n + t.2.length) 0

/-- Reads the tokens of `cs`, which starts at `place`, up to the end of the text. -/
def scan (file : String) (place : Place) (cs : List Char) : Except SyntaxError (List Lexeme) :=
  match cs with
  | [] => .ok [⟨.eof, place, place.offset⟩]
  | c :: rest =>
    if isBlank c then scan file (place.step c) rest
    else match tokensAt (c :: rest) with
      | .error fault =>
        let p := place.after fault.before
        .error ⟨file, p.row, p.col, ⟨p.offset, p.offset + fault.width⟩, fault.issue⟩
      | .ok tokens =>
        let (lexemes, next) := placeAll place tokens
        match scan file next (rest.drop (covered tokens - 1)) with
        | .error e => .error e
        | .ok more => .ok (lexemes ++ more)
termination_by cs.length

end Lexer

/-- Splits a source text into lexemes; the last one is `eof`. -/
def tokenize (source file : String) : Except SyntaxError (List Lexeme) :=
  Lexer.scan file {} source.toList

end LevelScript
