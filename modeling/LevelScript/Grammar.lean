import LevelScript.Grammar.Precedence
import LevelScript.Grammar.Stream
import LevelScript.Token.Lexer
import LevelScript.Tree.Emit

/-!
# The grammar

Recursive descent over the token stream. Every recursive call has less fuel; every cycle of calls
takes a token, so fuel in proportion to the number of tokens never runs out.
-/

namespace LevelScript

open LevelScript.Parser

namespace Grammar

/-- `[=]`, `[~]` or `[$]`; without brackets nothing is captured. -/
def capture : Parser Capture := do
  unless ← hasMark .lbracket do return .nothing
  let mode ←
    if ← hasMark .equal then pure Capture.copyPerCall
    else if ← hasMark .tilde then pure Capture.copyOnce
    else if ← hasMark .dollar then pure Capture.shared
    else missing "'=', `~` or '$'"
  require .rbracket
  return mode

inductive Opener where
  | arrow | brace

def opener : Parser (Option Opener) := do
  if ← hasMark .equalsArrow then return some .arrow
  if ← hasMark .lbrace then return some .brace
  return none

/-- Bounds of a loop are part of it unless marked `excl`. -/
def bound : Parser Bool := do
  if ← hasWord .exclWord then return true
  let _ ← hasWord .inclWord
  return false

/-- The type that a keyword names, and whether it is unsigned. -/
def baseType? : Token → Option (Kind × Bool)
  | .keyword .s8Word => some (.int8, false)
  | .keyword .s16Word => some (.int16, false)
  | .keyword .s32Word => some (.int32, false)
  | .keyword .s64Word => some (.int64, false)
  | .keyword .u8Word => some (.int8, true)
  | .keyword .boolWord => some (.int8, true)
  | .keyword .u16Word => some (.int16, true)
  | .keyword .u32Word => some (.int32, true)
  | .keyword .u64Word => some (.int64, true)
  | .keyword .f32Word => some (.float32, false)
  | .keyword .f64Word => some (.float64, false)
  | .keyword .voidWord => some (.void, false)
  | .keyword .typeWord => some (.type, false)
  | _ => none

def suffix? : Token → Option Opcode
  | .mark .plusPlus => some .suffixIncrement
  | .mark .minusMinus => some .suffixDecrement
  | .mark .hash => some .pointerType
  | .keyword .constWord => some .constType
  | _ => none

def query? : String → Option Opcode
  | "size" => some .getSize
  | "length" => some .getLength
  | "scope" => some .getScope
  | _ => none

/-- The name of a field: an identifier, or a keyword for the methods that run when a struct is
created and deleted; such methods need a body. -/
def fieldName (inlined counted : Bool) : Parser (Option String × Bool) := do
  if let some (name, _) ← acceptName then return (some name, false)
  if ← hasWord .newWord then
    if inlined then fail (.inlineMethod "new")
    return (some "new", true)
  if ← hasWord .deleteWord then
    if inlined then fail (.inlineMethod "delete")
    return (some "delete", true)
  unless inlined do missing "'new', 'delete' or identifier"
  if counted then missing "identifier"
  return (none, false)

def outOfFuel : Parser α := fail .tooDeep

mutual

def command : Nat → Parser (Option Command)
  | 0 => outOfFuel
  | n + 1 => do
    let start ← peek
    let node (form : CommandForm) : Option Command := some (.mk start.position form)
    if ← hasWord .ifWord then return node (← ifElse n)
    if ← hasWord .whileWord then
      let (condition, _) ← expression n false
      let body ← if ← hasMark .semicolon then pure (Block.mk []) else block n
      return node (.whileLoop condition body)
    if ← hasWord .forWord then return node (← forLoop n)
    if ← hasWord .returnWord then
      if ← hasMark .semicolon then return node (.returnValue none)
      let (value, _) ← expression n false
      require .semicolon
      return node (.returnValue (some value))
    if ← hasWord .continueWord then
      require .semicolon
      return node .continueLoop
    if ← hasWord .breakWord then
      require .semicolon
      return node .breakLoop
    if ← hasWord .tryWord then
      let body ← block n
      return node (.tryCatch body (← handler n))
    if ← hasWord .throwWord then
      let (value, _) ← expression n false
      let message ← if ← hasWord .asWord then some <$> requireText else pure none
      require .semicolon
      return node (.throwValue value message)
    if let some o ← opener then return node (.codeblock (← blockBehind n o))
    if ← hasMark .semicolon then return none
    let (value, needsSemicolon) ← expression n false
    if needsSemicolon then require .semicolon
    return node (.expression value)

/-- Commands up to the closing brace, which is taken. -/
def commands : Nat → Parser (List Command)
  | 0 => outOfFuel
  | n + 1 => do
    if ← hasMark .rbrace then return []
    if ← atEof then missing "'\x7d'"
    let first ← command n
    return first.toList ++ (← commands n)

/-- `=> command` or a list of commands in braces, behind its opener. -/
def blockBehind : Nat → Opener → Parser Block
  | 0, _ => outOfFuel
  | n + 1, .arrow => return .mk (← command n).toList
  | n + 1, .brace => return .mk (← commands n)

def block : Nat → Parser Block
  | 0 => outOfFuel
  | n + 1 => do
    match ← opener with
    | some o => blockBehind n o
    | none => missing "'=>' or '\x7b'"

/-- Behind `if`: a condition, a block, and what `else` brings. An `else if` is a block with one
command. -/
def ifElse : Nat → Parser CommandForm
  | 0 => outOfFuel
  | n + 1 => do
    let (condition, _) ← expression n false
    let yes ← block n
    unless ← hasWord .elseWord do return .ifElse condition yes none
    let start ← peek
    if ← hasWord .ifWord then
      let nested := Command.mk start.position (← ifElse n)
      return .ifElse condition yes (some (.mk [nested]))
    return .ifElse condition yes (some (← block n))

/-- Behind `for`: `T i: low [incl|excl] => high [incl|excl] [step s] body`. -/
def forLoop : Nat → Parser CommandForm
  | 0 => outOfFuel
  | n + 1 => do
    let (type, _) ← expression n true
    let name ← requireName
    require .colon
    let (low, _) ← expression n false
    let lowExcluded ← bound
    require .equalsArrow
    let (high, _) ← expression n false
    let highExcluded ← bound
    let step ← if ← hasWord .stepWord then
        let (step, _) ← expression n false
        pure (some step)
      else pure none
    return .forLoop type name low lowExcluded high highExcluded step (← block n)

/-- `catch [silently] [as name]` and a block, or a semicolon for a handler that only silences. -/
def handler : Nat → Parser Handler
  | 0 => outOfFuel
  | n + 1 => do
    unless ← hasWord .catchWord do return .absent
    let silently ← hasWord .silentlyWord
    if ← hasWord .asWord then
      let name ← requireName
      return .handle silently (some name) (← block n)
    if silently then
      if ← hasMark .semicolon then return .handle silently none (.mk [])
    return .handle silently none (← block n)

/-- An expression, and whether a semicolon has to follow it: a declaration with a body needs none.
If `bare`, it is a single operand without a declaration. -/
def expression : Nat → Bool → Parser (Expr × Bool)
  | 0, _ => outOfFuel
  | n + 1, true => do
    let (nodes, needsSemicolon) ← term n true
    return (.mk nodes, needsSemicolon)
  | n + 1, false => do
    let (first, needsSemicolon) ← term n false
    let (rest, needsSemicolon) ← chain n needsSemicolon
    return (.mk (postfixOrder first rest), needsSemicolon)

/-- Operators and operands behind the first operand. -/
def chain : Nat → Bool → Parser (List (Waiting × List Node) × Bool)
  | 0, _ => outOfFuel
  | n + 1, needsSemicolon => do
    let l ← peek
    let op? := match l.token with
      | .mark m => m.binary?
      | _ => none
    match op? with
    | none => return ([], needsSemicolon)
    | some op =>
      skip
      let (nodes, needsSemicolon) ← term n false
      let (more, needsSemicolon) ← chain n needsSemicolon
      return ((⟨op, l.position⟩, nodes) :: more, needsSemicolon)

/-- An operand; unless it is `bare`, a name behind it makes it a declaration. -/
def term : Nat → Bool → Parser (List Node × Bool)
  | 0, _ => outOfFuel
  | n + 1, true => return (← operand n, true)
  | n + 1, false => do
    let external ← accept (.keyword .externWord)
    let nodes ← operand n
    match ← acceptName with
    | some (name, l) =>
      let (generics, body) ← declaration n
      let needsSemicolon := match body with
        | .absent => true
        | .code .. => false
      return (nodes ++ [.mk l.position (.declare external.isSome name generics body)],
        needsSemicolon)
    | none =>
      if let some l := external then failAt l .unexpectedExtern
      return (nodes, true)

/-- Behind the name of a declaration: generic parameters, capture and body. -/
def declaration : Nat → Parser (List Binding × BodyTree)
  | 0 => outOfFuel
  | n + 1 => do
    let generics ← if ← hasMark .lparen then genericList n else pure []
    let mode ← capture
    match ← opener with
    | some o => return (generics, .code mode (← blockBehind n o))
    | none =>
      if mode ≠ .nothing then missing "'\x7b'"
      return (generics, .absent)

/-- `name = value, …)`. -/
def genericList : Nat → Parser (List Binding)
  | 0 => outOfFuel
  | n + 1 => do
    let name ← requireName
    require .equal
    let (value, _) ← expression n false
    if ← hasMark .comma then return .mk name value :: (← genericList n)
    unless ← hasMark .rparen do missing "',' or ')'"
    return [.mk name value]

/-- Prefix operators, an operand and its suffixes; the innermost prefix comes first behind them. -/
def operand : Nat → Parser (List Node)
  | 0 => outOfFuel
  | n + 1 => do
    let l ← peek
    let op? := match l.token with
      | .mark m => m.prefix?
      | _ => none
    match op? with
    | some op =>
      skip
      return (← operand n) ++ [.mk l.position (.operator op)]
    | none =>
      let form ← primary n l
      return .mk l.position form :: (← suffixes n)

def parenthesized : Nat → Parser Expr
  | 0 => outOfFuel
  | n + 1 => do
    require .lparen
    let (inner, _) ← expression n false
    require .rparen
    return inner

def primary : Nat → Lexeme → Parser Form
  | 0, _ => outOfFuel
  | n + 1, l =>
    match l.token with
    | .integer value => do skip; return .integer value
    | .float bits => do skip; return .float bits
    | .text value => do skip; return .text value
    | .identifier name => do skip; return .variableRef name
    | .keyword .thisWord => do skip; return .variableRef "this"
    | .keyword .trueWord => do skip; return .truth true
    | .keyword .falseWord => do skip; return .truth false
    | .keyword .nullWord => do skip; return .null
    | .mark .lparen => do
      skip
      let (inner, _) ← expression n false
      require .rparen
      return .paren inner
    | .keyword .deferWord => do
      skip
      require .lparen
      let name ← requireName
      require .rparen
      return .deferName name
    | .mark .ellipsis => do
      skip
      require .lbracket
      let (index, _) ← expression n false
      require .rbracket
      return .varargs index
    | .keyword .sizeofWord => do
      skip
      require .lparen
      if ← hasMark .ellipsis then
        require .rparen
        return .varargCount
      let (inner, _) ← expression n false
      require .rparen
      return .sizeOf inner
    | .keyword .typeofWord => do skip; return .typeOf (← parenthesized n)
    | .keyword .deleteWord => do skip; return .deleteValue (← parenthesized n)
    | .keyword .scopeofWord => do
      skip
      require .lparen
      let form ← if ← hasWord .thisWord then pure Form.scopeHere else Form.scopeOf <$> requireName
      require .rparen
      return form
    | .keyword .newWord => do
      skip
      let scope ← hasWord .scopedWord
      require .lbracket
      let (type, _) ← expression n false
      require .rbracket
      return .newValue scope type (← init n)
    | .keyword .moveWord => do
      skip
      let target ← parenthesized n
      require .equalsArrow
      require .lbracket
      let (level, _) ← expression n false
      require .rbracket
      return .moveValue target level
    | .keyword .ifWord => do
      skip
      let (condition, _) ← expression n false
      require .equalsArrow
      require .lbracket
      let (yes, _) ← expression n false
      require .semicolon
      let (no, _) ← expression n false
      require .rbracket
      return .ternary condition yes no
    | .keyword .includeWord => do skip; return .includeFile (← requireText)
    | .keyword _ | .mark _ | .eof => typeLiteral n

def init : Nat → Parser Init
  | 0 => outOfFuel
  | n + 1 => do
    if ← hasMark .lparen then
      let (count, _) ← expression n false
      require .rparen
      let elements ← if ← hasMark .lbrace then elementList n else pure []
      return .array count elements
    if ← hasMark .equalsArrow then
      let mode ← capture
      require .lbrace
      return .function mode (.mk (← commands n))
    unless ← hasMark .lbrace do return .bare
    if ← hasMark .rbrace then return .bare
    if ← hasMark .dot then return .struct (← overrideList n)
    let (value, _) ← expression n false
    require .rbrace
    return .scalar value

/-- Elements of an array up to the closing brace; a comma may end them. -/
def elementList : Nat → Parser (List Expr)
  | 0 => outOfFuel
  | n + 1 => do
    if ← hasMark .rbrace then return []
    let (first, _) ← expression n false
    if ← hasMark .rbrace then return [first]
    unless ← hasMark .comma do missing "',' or '\x7d'"
    return first :: (← elementList n)

/-- Behind the first point: `name = value, .name = value …` up to the closing brace. -/
def overrideList : Nat → Parser (List Binding)
  | 0 => outOfFuel
  | n + 1 => do
    let name ← requireName
    require .equal
    let (value, _) ← expression n false
    let first := Binding.mk name value
    if ← hasMark .comma then
      if ← hasMark .rbrace then return [first]
      unless ← hasMark .dot do missing "'.'"
      return first :: (← overrideList n)
    unless ← hasMark .rbrace do missing "',' or '\x7d'"
    return [first]

/-- `[const]` and a base type or a struct. -/
def typeLiteral : Nat → Parser Form
  | 0 => outOfFuel
  | n + 1 => do
    let isConst ← hasWord .constWord
    match baseType? (← peek).token with
    | some (kind, unsigned) =>
      skip
      return .baseType isConst kind unsigned
    | none =>
      unless ← hasWord .structWord do
        missing (if isConst then "base type" else "expression")
      let base ← if ← hasMark .colon then
          let (base, _) ← expression n true
          pure (some base)
        else pure none
      require .lbrace
      return .structType isConst base (← fieldList n)

/-- Fields up to the closing brace; semicolons between them mean nothing. -/
def fieldList : Nat → Parser (List FieldTree)
  | 0 => outOfFuel
  | n + 1 => do
    if ← hasMark .rbrace then return []
    if ← hasMark .semicolon then return ← fieldList n
    if ← atEof then missing "'\x7d'"
    let first ← field n
    return first :: (← fieldList n)

/-- A field: `[inline [(count)]] T name [= value | body] [@ offset | +@ offset]`. -/
def field : Nat → Parser FieldTree
  | 0 => outOfFuel
  | n + 1 => do
    let start ← peek
    let inlined ← inlining n
    let (isInline, counted) := match inlined with
      | .no => (false, false)
      | .once => (true, false)
      | .times _ => (true, true)
    let (type, _) ← expression n true
    let (name, isMethod) ← fieldName isInline counted
    let (value, semicolonAfterValue) ← fieldValue n isInline isMethod
    let (placement, semicolonAfterPlace) ← placement n
    if semicolonAfterValue || semicolonAfterPlace then require .semicolon
    return .mk start.position inlined type name value placement

def inlining : Nat → Parser Inlined
  | 0 => outOfFuel
  | n + 1 => do
    unless ← hasWord .inlineWord do return .no
    unless ← hasMark .lparen do return .once
    let (count, _) ← expression n false
    require .rparen
    return .times count

/-- What a field starts with, and whether a semicolon has to follow. -/
def fieldValue : Nat → Bool → Bool → Parser (FieldValue × Bool)
  | 0, _, _ => outOfFuel
  | n + 1, isInline, isMethod => do
    if ← hasMark .equal then
      if isMethod then missing "'\x7b'"
      if isInline then fail .inlineDefault
      let (value, _) ← expression n false
      return (.value value, true)
    let mode ← capture
    match ← opener with
    | some o =>
      if isInline then fail .inlineDefault
      return (.method mode (← blockBehind n o), false)
    | none =>
      if mode ≠ .nothing ∨ isMethod then missing "'\x7b' or '=>'"
      return (.absent, false)

/-- Where a field is put, and whether a semicolon has to follow. -/
def placement : Nat → Parser (Placement × Bool)
  | 0 => outOfFuel
  | n + 1 => do
    if ← hasMark .atSign then
      let (offset, _) ← expression n false
      return (.absolute offset, true)
    if ← hasMark .plusAt then
      let (offset, _) ← expression n false
      return (.relative offset, true)
    return (.auto, false)

def suffixes : Nat → Parser (List Node)
  | 0 => outOfFuel
  | n + 1 => do
    let l ← peek
    let node (form : Form) : Node := .mk l.position form
    if let some op := suffix? l.token then
      skip
      return node (.operator op) :: (← suffixes n)
    match l.token with
    | .mark .lparen =>
      skip
      let args ← if ← hasMark .rparen then pure [] else argumentList n
      return node (.call args) :: (← suffixes n)
    | .mark .lbracket =>
      skip
      let (inner, _) ← expression n false
      require .rbracket
      return node (.index inner) :: (← suffixes n)
    | .mark .reverseArrow =>
      skip
      let assignable ← hasMark .dollar
      require .lparen
      let params ← if ← hasMark .rparen then pure [] else paramList n
      return node (.functionType assignable params) :: (← suffixes n)
    | .mark .colonColon =>
      skip
      match ← acceptName with
      | none => missing "identifier"
      | some (name, at_) =>
        match query? name with
        | some op => return node (.query op name) :: (← suffixes n)
        | none => failAt at_ (.expected "'size', 'length' or 'scope'")
    | .mark .dot =>
      skip
      let name ← requireName
      return node (.member name) :: (← suffixes n)
    | _ => return []

def argumentList : Nat → Parser (List Expr)
  | 0 => outOfFuel
  | n + 1 => do
    let (first, _) ← expression n false
    if ← hasMark .comma then return first :: (← argumentList n)
    unless ← hasMark .rparen do missing "',' or ')'"
    return [first]

/-- Parameter types up to the closing parenthesis; `...` can only be the last. -/
def paramList : Nat → Parser (List ParamTree)
  | 0 => outOfFuel
  | n + 1 => do
    if let some dots ← accept (.mark .ellipsis) then
      require .rparen
      return [.mk (.mk [.mk dots.position (.baseType false .varargs false)]) none]
    let (type, _) ← expression n true
    let name := (← acceptName).map (·.1)
    if ← hasMark .comma then return .mk type name :: (← paramList n)
    unless ← hasMark .rparen do missing "',' or ')'"
    return [.mk type name]

end

def program (fuel : Nat) : Nat → Parser (List Command)
  | 0 => outOfFuel
  | n + 1 => do
    if ← atEof then return []
    let first ← command fuel
    return first.toList ++ (← program fuel n)

end Grammar

def parseTokens (lexemes : List Lexeme) (file : String) : Except SyntaxError Program :=
  let fuel := 16 * (lexemes.length + 1)
  match Grammar.program fuel fuel lexemes with
  | .ok (commands, _) => .ok ⟨file, commands⟩
  | .error ⟨l, issue⟩ => .error ⟨file, l.place.row, l.place.col, l.span, issue⟩

def parse (source file : String) : Except SyntaxError Program := do
  parseTokens (← tokenize source file) file

def compile (source file : String) (names : Names) : Except SyntaxError (Array UInt8 × Names) := do
  return (← parse source file).emit names

end LevelScript
