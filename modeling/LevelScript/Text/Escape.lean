/-!
# Escaped text

Two written forms of a text: the one shown for string values, which a string literal reads back,
and the one shown for string tokens, which is plain ASCII.
-/

namespace LevelScript

def hexDigits (n : Nat) : String := String.ofList (Nat.toDigits 16 n)

/-- `n` in base 16, with zeros in front up to `width`. -/
def hexPadded (width n : Nat) : String :=
  let ds := Nat.toDigits 16 n
  String.ofList (List.replicate (width - ds.length) '0' ++ ds)

namespace Text

/-- A character as a string literal spells it. -/
def escapeChar (c : Char) : List Char :=
  if c = '\n' then ['\\', 'n']
  else if c = '\r' then ['\\', 'r']
  else if c = '\t' then ['\\', 't']
  else if c = '\\' then ['\\', '\\']
  else if c = '"' then ['\\', '"']
  else if c = Char.ofNat 0 then ['\\', '0']
  else if c.toNat < 0x20 then ['\\', 'x'] ++ (hexPadded 2 c.toNat).toList
  else [c]

def escape (s : String) : String := String.ofList (s.toList.flatMap escapeChar)

def escapeAscii (c : Char) : List Char :=
  if c = '\t' then ['\\', 't']
  else if c = '\r' then ['\\', 'r']
  else if c = '\n' then ['\\', 'n']
  else if c = '\'' ∨ c = '"' ∨ c = '\\' then ['\\', c]
  else if 0x20 ≤ c.toNat ∧ c.toNat < 0x7F then [c]
  else "\\u\x7b".toList ++ (hexDigits c.toNat).toList ++ ['\x7d']

def ascii (s : String) : String := String.ofList (s.toList.flatMap escapeAscii)

end Text

end LevelScript
