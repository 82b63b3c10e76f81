import LevelScript.Token.Word

/-!
# Quoted literals

The body of a string or character literal, decoded up to its closing quote. Positions count
characters of the body.
-/

namespace LevelScript

namespace Quoted

abbrev Fault := Nat × Issue

/-- The characters that an escape letter stands for by itself. -/
def simple? (c : Char) : Option Char :=
  match c with
  | 'a' => some '\x07'
  | 'b' => some '\x08'
  | 'e' => some '\x1b'
  | 'f' => some '\x0c'
  | 'n' | '\n' => some '\n'
  | 'r' => some '\r'
  | 't' => some '\t'
  | 'v' => some '\x0b'
  | '"' => some '"'
  | '\\' => some '\\'
  | '\'' => some '\''
  | _ => none

/-- Exactly `count` hexadecimal digits, or how many there were. -/
def hexDigits? (count : Nat) (cs : List Char) : Except Nat Nat :=
  let digits := (cs.take count).takeWhile (isDigitIn 16)
  if digits.length = count then .ok (ofDigits 16 digits) else .error digits.length

def hexEscape (count : Nat) (cs : List Char) : Except Fault (Char × Nat) :=
  match hexDigits? count cs with
  | .error found => .error (1 + found, .badDigit)
  | .ok value =>
    if value.isValidChar then .ok (Char.ofNat value, 1 + count) else .error (1, .badEscape)

/-- The character that the escape at the start of `cs` stands for, and its length; the backslash
is already read. -/
def escape (cs : List Char) : Except Fault (Char × Nat) :=
  match cs with
  | [] => .error (0, .unterminatedText)
  | c :: rest =>
    match simple? c with
    | some ch => .ok (ch, 1)
    | none =>
      if c = 'x' then hexEscape 2 rest
      else if c = 'u' then hexEscape 4 rest
      else if c = 'U' then hexEscape 8 rest
      else
        let octal := ((c :: rest).take 3).takeWhile (isDigitIn 8)
        if octal = [] then .error (0, .badEscape)
        else .ok (Char.ofNat (ofDigits 8 octal), octal.length)

/-- The decoded body and its length without the closing quote. -/
def body (quote : Char) (cs : List Char) : Except Fault (List Char × Nat) :=
  match cs with
  | [] => .error (0, .unterminatedText)
  | c :: rest =>
    if c = quote then .ok ([], 0)
    else if c = '\\' then
      match escape rest with
      | .error (at_, issue) => .error (1 + at_, issue)
      | .ok (ch, len) =>
        match body quote (rest.drop len) with
        | .error (at_, issue) => .error (1 + len + at_, issue)
        | .ok (text, n) => .ok (ch :: text, 1 + len + n)
    else
      match body quote rest with
      | .error (at_, issue) => .error (1 + at_, issue)
      | .ok (text, n) => .ok (c :: text, 1 + n)
termination_by cs.length

def char (cs : List Char) : Except Fault (Char × Nat) :=
  match cs with
  | '\'' :: _ => .error (0, .emptyChar)
  | _ =>
    match body '\'' cs with
    | .error fault => .error fault
    | .ok ([c], n) => .ok (c, n)
    | .ok (_, n) => .error (n, .manyChars)

end Quoted

end LevelScript
