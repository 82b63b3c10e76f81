import LevelScript.Decimal.Digits
import LevelScript.Settings
import LevelScript.Text.Escape
import LevelScript.Text.Utf8

/-!
# Settings in JSON

An object with some of the settings, in any order, or a list of them in the order of declaration.
What is missing keeps its default; other keys are skipped. An error says what is wrong and where:
in the form of the text, in a value, or at its end.

A reader has the bytes that are left and the number of those it has taken.
-/

namespace LevelScript

namespace Json

inductive Category where
  | grammar | data | ending
  deriving Repr, DecidableEq

inductive Found where
  | null
  | truth (b : Bool)
  | integer (n : Int)
  | float (bits : UInt64)
  | text (s : String)
  | sequence
  | map
  deriving Repr, DecidableEq

inductive Cause where
  | endInList | endInObject | endInString | endInValue
  | expectedColon | expectedListEnd | expectedObjectEnd | expectedWord | expectedValue
  | badEscape | badNumber | numberTooLarge | badCodePoint | controlCharacter
  | keyNotText | loneSurrogate | trailingComma | trailingCharacters | badHexEscape
  | wrongType (found : Found) (expected : String)
  | wrongValue (n : Int) (expected : String)
  | duplicateField (name : String)
  deriving Repr, DecidableEq

def Cause.category : Cause → Category
  | endInList | endInObject | endInString | endInValue => .ending
  | wrongType .. | wrongValue .. | duplicateField _ => .data
  | _ => .grammar

/-- A float in its shortest form, which always shows that it is one. -/
def floatText (bits : UInt64) : String :=
  let text := Double.shortestText bits
  if text.toList.all fun c => c.isDigit || c == '-' then text ++ ".0" else text

def Found.describe : Found → String
  | null => "null"
  | truth b => "boolean `" ++ (if b then "true" else "false") ++ "`"
  | integer n => "integer `" ++ toString n ++ "`"
  | float bits => "floating point `" ++ floatText bits ++ "`"
  | text s => "string \"" ++ Text.escape s ++ "\""
  | sequence => "sequence"
  | map => "map"

def Cause.message : Cause → String
  | endInList => "EOF while parsing a list"
  | endInObject => "EOF while parsing an object"
  | endInString => "EOF while parsing a string"
  | endInValue => "EOF while parsing a value"
  | expectedColon => "expected `:`"
  | expectedListEnd => "expected `,` or `]`"
  | expectedObjectEnd => "expected `,` or `\x7d`"
  | expectedWord => "expected ident"
  | expectedValue => "expected value"
  | badEscape => "invalid escape"
  | badNumber => "invalid number"
  | numberTooLarge => "number out of range"
  | badCodePoint => "invalid unicode code point"
  | controlCharacter => "control character (\\u0000-\\u001F) found while parsing a string"
  | keyNotText => "key must be a string"
  | loneSurrogate => "lone leading surrogate in hex escape"
  | trailingComma => "trailing comma"
  | trailingCharacters => "trailing characters"
  | badHexEscape => "unexpected end of hex escape"
  | wrongType found expected => "invalid type: " ++ found.describe ++ ", expected " ++ expected
  | wrongValue n expected => "invalid value: integer `" ++ toString n ++ "`, expected " ++ expected
  | duplicateField name => "duplicate field `" ++ name ++ "`"

/-- A cause, and how many bytes lie before it. -/
structure Failure where
  cause : Cause
  offset : Nat
  deriving Repr, DecidableEq

/-- The line of an offset, and how many bytes of it lie before the offset. -/
def lineAndColumn (bytes : List UInt8) (offset : Nat) : Nat × Nat :=
  let step : Nat × Nat → UInt8 → Nat × Nat := fun (line, column) b =>
    if b = 10 then (line + 1, 0) else (line, column + 1)
  (bytes.take offset).foldl step (1, 0)

def Failure.message (source : String) (f : Failure) : String :=
  let (line, col) := lineAndColumn source.toUTF8.toList f.offset
  f.cause.message ++ " at line " ++ Nat.repr line ++ " column " ++ Nat.repr col

/-! ## Reading bytes -/

structure Cursor where
  rest : List UInt8
  taken : Nat := 0

abbrev Read := StateT Cursor (Except Failure)

def fail (cause : Cause) : Read α := do
  throw ⟨cause, (← get).taken⟩

def failAhead (cause : Cause) : Read α := do
  let c ← get
  throw ⟨cause, if c.rest.isEmpty then c.taken else c.taken + 1⟩

def next? : Read (Option UInt8) := do
  match ← get with
  | ⟨[], _⟩ => return none
  | ⟨b :: rest, taken⟩ =>
    set (⟨rest, taken + 1⟩ : Cursor)
    return some b

def look? : Read (Option UInt8) := return (← get).rest.head?

def advance : Read Unit := discard next?

def isSpace (b : UInt8) : Bool := b = 32 || b = 9 || b = 10 || b = 13

/-- The next byte that is no blank; it is not taken. -/
def skipSpace : Read (Option UInt8) := do
  modify fun c =>
    let rest := c.rest.dropWhile isSpace
    ⟨rest, c.taken + (c.rest.length - rest.length)⟩
  look?

def byte (c : Char) : UInt8 := c.toNat.toUInt8

def isDigit (b : UInt8) : Bool := 48 ≤ b && b ≤ 57

def digits : Read (List UInt8) := do
  let c ← get
  let ds := c.rest.takeWhile isDigit
  set (⟨c.rest.drop ds.length, c.taken + ds.length⟩ : Cursor)
  return ds

def digitValue (ds : List UInt8) : Nat := ds.foldl (fun n d => 10 * n + (d.toNat - 48)) 0

def restOfWord : List Char → Read Unit
  | [] => return
  | c :: cs => do
    match ← next? with
    | none => fail .endInValue
    | some b => if b = byte c then restOfWord cs else fail .expectedWord

/-! ## Strings -/

def hexValue? (b : UInt8) : Option Nat :=
  if isDigit b then some (b.toNat - 48)
  else if 97 ≤ b && b ≤ 102 then some (b.toNat - 87)
  else if 65 ≤ b && b ≤ 70 then some (b.toNat - 55)
  else none

def hexFour : Read Nat := do
  let c ← get
  if c.rest.length < 4 then
    set (⟨[], c.taken + c.rest.length⟩ : Cursor)
    fail .endInString
  let values := (c.rest.take 4).map hexValue?
  set (⟨c.rest.drop 4, c.taken + 4⟩ : Cursor)
  if values.any Option.isNone then fail .badEscape
  return values.foldl (fun n d => 16 * n + d.getD 0) 0

def utf8Of (code : Nat) : List UInt8 := (String.singleton (Char.ofNat code)).toUTF8.toList

/-- What follows `\u`; a pair of surrogates is one character. -/
def unicodeEscape : Read (List UInt8) := do
  let high ← hexFour
  if 0xDC00 ≤ high ∧ high ≤ 0xDFFF then fail .loneSurrogate
  else if 0xD800 ≤ high ∧ high ≤ 0xDBFF then
    match ← next? with
    | some 92 =>
      match ← next? with
      | some 117 =>
        let low ← hexFour
        if 0xDC00 ≤ low ∧ low ≤ 0xDFFF then
          return utf8Of ((high - 0xD800) * 0x400 + (low - 0xDC00) + 0x10000)
        else fail .loneSurrogate
      | some _ => fail .badHexEscape
      | none => fail .endInString
    | some _ => fail .badHexEscape
    | none => fail .endInString
  else return utf8Of high

def escaped : Read (List UInt8) := do
  match ← next? with
  | none => fail .endInString
  | some b =>
    match Char.ofNat b.toNat with
    | '"' | '\\' | '/' => return [b]
    | 'b' => return [8]
    | 'f' => return [12]
    | 'n' => return [10]
    | 'r' => return [13]
    | 't' => return [9]
    | 'u' => unicodeEscape
    | _ => fail .badEscape

/-- The rest of a string, up to its closing quote. -/
def restOfString : Nat → List UInt8 → Read String
  | 0, _ => fail .endInString
  | n + 1, before => do
    match ← next? with
    | none => fail .endInString
    | some 34 => return Text.ofBytesLossy before.reverse
    | some 92 => restOfString n ((← escaped).reverse ++ before)
    | some b => if b < 32 then fail .controlCharacter else restOfString n (b :: before)

/-- A string, the opening quote of which has been taken. -/
def stringBody : Read String := do
  restOfString ((← get).rest.length + 1) []

/-! ## Numbers -/

inductive Number where
  | integer (n : Int)
  | float (bits : UInt64)
  deriving Repr, DecidableEq

def floatNumber (negative : Bool) (significand : Nat) (exp : Int) : Read Number := do
  let bits := nearestDecimal significand exp
  if bits = 0x7FF0000000000000 then fail .numberTooLarge
  else return .float (if negative then bits ||| 0x8000000000000000 else bits)

/-- What follows the `e` of a number. -/
def exponent : Read Int := do
  advance
  let sign ← look?
  if sign = some (byte '+') || sign = some (byte '-') then advance
  match ← next? with
  | none => fail .endInValue
  | some d =>
    if !isDigit d then fail .badNumber
    else
      let n : Int := digitValue (d :: (← digits))
      return if sign = some (byte '-') then -n else n

/-- A number, the sign of which has been taken. -/
def number (negative : Bool) : Read Number := do
  match ← next? with
  | none => fail .endInValue
  | some first =>
    if !isDigit first then fail .badNumber
    else
      let more ← if first = 48 then do
          if (← look?).any isDigit then failAhead .badNumber else pure []
        else digits
      let whole := digitValue (first :: more)
      match ← look? with
      | some 46 =>
        advance
        let fraction ← digits
        if fraction.isEmpty then
          if (← look?).isNone then fail .endInValue else failAhead .badNumber
        let significand := whole * Nat.pow 10 fraction.length + digitValue fraction
        let places : Int := fraction.length
        let exp ← if (← look?).any fun b => b = 101 || b = 69 then exponent else pure 0
        floatNumber negative significand (exp - places)
      | some b =>
        if b = 101 || b = 69 then floatNumber negative whole (← exponent) else plain whole
      | none => plain whole
where
  plain (whole : Nat) : Read Number :=
    if negative then
      if whole = 0 ∨ 1 <<< 63 < whole then floatNumber true whole 0 else return .integer (-whole)
    else if whole < UInt64.size then return .integer whole
    else floatNumber false whole 0

/-- Takes what stands where something else was expected. -/
def unexpected (expected : String) : Read α := do
  match ← look? with
  | some b =>
    match Char.ofNat b.toNat with
    | 'n' => advance; restOfWord ['u', 'l', 'l']; wrong .null
    | 't' => advance; restOfWord ['r', 'u', 'e']; wrong (.truth true)
    | 'f' => advance; restOfWord ['a', 'l', 's', 'e']; wrong (.truth false)
    | '-' => advance; numeric (← number true)
    | '"' => advance; wrong (.text (← stringBody))
    | '[' => wrong .sequence
    | '\x7b' => wrong .map
    | _ => if isDigit b then numeric (← number false) else failAhead .expectedValue
  | none => failAhead .expectedValue
where
  wrong (found : Found) : Read α := fail (.wrongType found expected)
  numeric : Number → Read α
    | .integer n => wrong (.integer n)
    | .float bits => wrong (.float bits)

def natural : Read Nat := do
  let take : Number → Read Nat
    | .integer n => if n < 0 then fail (.wrongValue n "usize") else return n.toNat
    | .float bits => fail (.wrongType (.float bits) "usize")
  match ← skipSpace with
  | none => failAhead .endInValue
  | some b =>
    if b = byte '-' then
      advance
      take (← number true)
    else if isDigit b then take (← number false)
    else unexpected "usize"

def truth : Read Bool := do
  match ← skipSpace with
  | none => failAhead .endInValue
  | some b =>
    if b = byte 't' then
      advance
      restOfWord ['r', 'u', 'e']
      return true
    else if b = byte 'f' then
      advance
      restOfWord ['a', 'l', 's', 'e']
      return false
    else unexpected "a boolean"

/-! ## Skipped values -/

/-- A number that nobody reads, the sign of which has been taken. -/
def skipNumber : Read Unit := do
  match ← next? with
  | none => fail .badNumber
  | some first =>
    if !isDigit first then fail .badNumber
    if first = 48 then
      if (← look?).any isDigit then failAhead .badNumber
    else discard digits
    if (← look?) = some 46 then
      advance
      if (← digits).isEmpty then failAhead .badNumber
    if (← look?).any fun b => b = 101 || b = 69 then
      advance
      let sign ← look?
      if sign = some (byte '+') || sign = some (byte '-') then advance
      match ← next? with
      | none => fail .badNumber
      | some d => if isDigit d then discard digits else fail .badNumber

/-- The key of a skipped value, and the colon behind it. -/
def skipKey : Read Unit := do
  match ← skipSpace with
  | none => failAhead .endInObject
  | some b =>
    if b ≠ 34 then failAhead .keyNotText
    advance
    discard stringBody
  match ← skipSpace with
  | none => failAhead .endInObject
  | some b => if b = byte ':' then advance else failAhead .expectedColon

/-- Closes brackets, the innermost first, until another value follows, which `skip` goes on with. -/
def leave (skip : List Char → Read Unit) (comma : Bool) : List Char → Read Unit
  | [] => return
  | bracket :: around => do
    match ← skipSpace with
    | none => failAhead (if bracket == '[' then .endInList else .endInObject)
    | some b =>
      let c := Char.ofNat b.toNat
      if (c == ']' && bracket == '[') || (c == '\x7d' && bracket == '\x7b') then
        advance
        leave skip true around
      else
        if comma then
          if c == ',' then advance
          else failAhead (if bracket == '[' then .expectedListEnd else .expectedObjectEnd)
        if bracket == '\x7b' then skipKey
        skip (bracket :: around)

/-- Skips a value inside the given brackets, the innermost first, and all that is left of them.
Every step takes a byte. -/
def skipNested : Nat → List Char → Read Unit
  | 0, _ => failAhead .endInValue
  | n + 1, around => do
    match ← skipSpace with
    | none => failAhead .endInValue
    | some b =>
      let behind := leave (skipNested n) true around
      match Char.ofNat b.toNat with
      | 'n' => advance; restOfWord ['u', 'l', 'l']; behind
      | 't' => advance; restOfWord ['r', 'u', 'e']; behind
      | 'f' => advance; restOfWord ['a', 'l', 's', 'e']; behind
      | '-' => advance; skipNumber; behind
      | '"' => advance; discard stringBody; behind
      | '[' => advance; leave (skipNested n) false ('[' :: around)
      | '\x7b' => advance; leave (skipNested n) false ('\x7b' :: around)
      | _ =>
        if isDigit b then
          skipNumber
          behind
        else failAhead .expectedValue

def skipValue : Read Unit := do
  skipNested ((← get).rest.length + 1) []

/-! ## Settings -/

inductive Key where
  | maxFrames | maxStack | dumpBytecode | logCaughtErrors
  deriving Repr, DecidableEq

namespace Key

def name : Key → String
  | maxFrames => "max_frames"
  | maxStack => "max_stack"
  | dumpBytecode => "dump_bytecode"
  | logCaughtErrors => "log_caught_errors"

/-- The keys in the order of their declaration. -/
def all : List Key := [maxFrames, maxStack, dumpBytecode, logCaughtErrors]

def ofName? (name : String) : Option Key := all.find? (·.name == name)

/-- Reads the value of a key into the settings. -/
def readInto (s : Settings) : Key → Read Settings
  | maxFrames => return { s with maxFrames := ← natural }
  | maxStack => return { s with maxStack := ← natural }
  | dumpBytecode => return { s with dumpBytecode := ← truth }
  | logCaughtErrors => return { s with logCaughtErrors := ← truth }

end Key

def elements (first : Bool) (s : Settings) : List Key → Read Settings
  | [] => do
    match ← skipSpace with
    | none => failAhead .endInList
    | some b =>
      if b = byte ']' then
        advance
        return s
      else if b = byte ',' then
        advance
        if (← skipSpace) = some (byte ']') then failAhead .trailingComma
        else failAhead .trailingCharacters
      else failAhead .trailingCharacters
  | key :: keys => do
    match ← skipSpace with
    | none => failAhead .endInList
    | some b =>
      if b = byte ']' then
        advance
        return s
      else if first then elements false (← key.readInto s) keys
      else if b = byte ',' then
        advance
        match ← skipSpace with
        | none => failAhead .endInValue
        | some b =>
          if b = byte ']' then failAhead .trailingComma
          else elements false (← key.readInto s) keys
      else failAhead .expectedListEnd

/-- A key and the colon behind it, and then the value. -/
def member (seen : List Key) (s : Settings) : Read (List Key × Settings) := do
  advance
  let name ← stringBody
  let key := Key.ofName? name
  if key.any seen.contains then fail (.duplicateField name)
  match ← skipSpace with
  | none => failAhead .endInObject
  | some b => if b = byte ':' then advance else failAhead .expectedColon
  match key with
  | some key => return (key :: seen, ← key.readInto s)
  | none =>
    skipValue
    return (seen, s)

def members : Nat → Bool → List Key → Settings → Read Settings
  | 0, _, _, _ => failAhead .endInObject
  | n + 1, first, seen, s => do
    match ← skipSpace with
    | none => failAhead .endInObject
    | some b =>
      if b = byte '\x7d' then
        advance
        return s
      else if first then
        if b ≠ 34 then failAhead .keyNotText
        let (seen, s) ← member seen s
        members n false seen s
      else if b = byte ',' then
        advance
        match ← skipSpace with
        | none => failAhead .endInValue
        | some b =>
          if b = byte '\x7d' then failAhead .trailingComma
          else if b ≠ 34 then failAhead .keyNotText
          else
            let (seen, s) ← member seen s
            members n false seen s
      else failAhead .expectedObjectEnd

def settings : Read Settings := do
  let s ← match ← skipSpace with
    | none => failAhead .endInValue
    | some b =>
      if b = byte '[' then
        advance
        elements true {} Key.all
      else if b = byte '\x7b' then
        advance
        members ((← get).rest.length + 1) true [] {}
      else unexpected "struct RuntimeConfig"
  match ← skipSpace with
  | none => return s
  | some _ => failAhead .trailingCharacters

end Json

def Settings.ofJson (text : String) : Except Json.Failure Settings :=
  (Json.settings.run' { rest := text.toUTF8.toList })

end LevelScript
