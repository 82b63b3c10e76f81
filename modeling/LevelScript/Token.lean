import LevelScript.Decimal.Digits
import LevelScript.SyntaxError
import LevelScript.Text.Escape

/-!
# Tokens

Keywords and punctuation marks are closed sets with one spelling each; the other tokens carry
their value. A lexeme is a token together with the place where it was found.
-/

namespace LevelScript

inductive Keyword where
  | ifWord | elseWord | whileWord | forWord | inclWord | exclWord | stepWord | returnWord
  | continueWord | breakWord | tryWord | catchWord | silentlyWord | asWord | throwWord | sizeofWord
  | typeofWord | scopeofWord | includeWord | newWord | scopedWord | deleteWord | moveWord
  | deferWord | thisWord | s8Word | s16Word | s32Word | s64Word | u8Word | u16Word | u32Word
  | u64Word | f32Word | f64Word | boolWord | voidWord | typeWord | structWord | constWord
  | externWord | inlineWord | trueWord | falseWord | nullWord
  deriving Repr, DecidableEq

namespace Keyword

def spelling : Keyword → String
  | ifWord => "if"
  | elseWord => "else"
  | whileWord => "while"
  | forWord => "for"
  | inclWord => "incl"
  | exclWord => "excl"
  | stepWord => "step"
  | returnWord => "return"
  | continueWord => "continue"
  | breakWord => "break"
  | tryWord => "try"
  | catchWord => "catch"
  | silentlyWord => "silently"
  | asWord => "as"
  | throwWord => "throw"
  | sizeofWord => "sizeof"
  | typeofWord => "typeof"
  | scopeofWord => "scopeof"
  | includeWord => "include"
  | newWord => "new"
  | scopedWord => "scoped"
  | deleteWord => "delete"
  | moveWord => "move"
  | deferWord => "defer"
  | thisWord => "this"
  | s8Word => "s8"
  | s16Word => "s16"
  | s32Word => "s32"
  | s64Word => "s64"
  | u8Word => "u8"
  | u16Word => "u16"
  | u32Word => "u32"
  | u64Word => "u64"
  | f32Word => "f32"
  | f64Word => "f64"
  | boolWord => "bool"
  | voidWord => "void"
  | typeWord => "type"
  | structWord => "struct"
  | constWord => "const"
  | externWord => "extern"
  | inlineWord => "inline"
  | trueWord => "true"
  | falseWord => "false"
  | nullWord => "null"

def all : List Keyword := [
  ifWord, elseWord, whileWord, forWord, inclWord, exclWord, stepWord, returnWord, continueWord,
  breakWord, tryWord, catchWord, silentlyWord, asWord, throwWord, sizeofWord, typeofWord,
  scopeofWord, includeWord, newWord, scopedWord, deleteWord, moveWord, deferWord, thisWord, s8Word,
  s16Word, s32Word, s64Word, u8Word, u16Word, u32Word, u64Word, f32Word, f64Word, boolWord,
  voidWord, typeWord, structWord, constWord, externWord, inlineWord, trueWord, falseWord, nullWord]

def ofName? (name : String) : Option Keyword := all.find? (·.spelling == name)

end Keyword

inductive Mark where
  | lparen | rparen | lbracket | rbracket | lbrace | rbrace | minusArrow | tildeArrow
  | equalsArrow | reverseArrow | comma | colon | semicolon | dot | plus | minus | slash
  | percent | star | hat | ampersand | pipe | question | plusPlus | minusMinus | hatHat
  | ampAmp | pipePipe | equalEqual | notEqual | less | greater | lessEqual | greaterEqual
  | shiftLeft | shiftRight | equal | plusEqual | minusEqual | starEqual | slashEqual
  | percentEqual | ampEqual | pipeEqual | hatEqual | hatHatEqual | shiftLeftEqual
  | shiftRightEqual | questionEqual | tilde | bang | ellipsis | atSign | plusAt | questionTilde
  | hash | dollar | colonColon
  deriving Repr, DecidableEq

namespace Mark

def spelling : Mark → String
  | lparen => "("
  | rparen => ")"
  | lbracket => "["
  | rbracket => "]"
  | lbrace => "\x7b"
  | rbrace => "\x7d"
  | minusArrow => "->"
  | tildeArrow => "~>"
  | equalsArrow => "=>"
  | reverseArrow => "<-"
  | comma => ","
  | colon => ":"
  | semicolon => ";"
  | dot => "."
  | plus => "+"
  | minus => "-"
  | slash => "/"
  | percent => "%"
  | star => "*"
  | hat => "^"
  | ampersand => "&"
  | pipe => "|"
  | question => "?"
  | plusPlus => "++"
  | minusMinus => "--"
  | hatHat => "^^"
  | ampAmp => "&&"
  | pipePipe => "||"
  | equalEqual => "=="
  | notEqual => "!="
  | less => "<"
  | greater => ">"
  | lessEqual => "<="
  | greaterEqual => ">="
  | shiftLeft => "<<"
  | shiftRight => ">>"
  | equal => "="
  | plusEqual => "+="
  | minusEqual => "-="
  | starEqual => "*="
  | slashEqual => "/="
  | percentEqual => "%="
  | ampEqual => "&="
  | pipeEqual => "|="
  | hatEqual => "^="
  | hatHatEqual => "^^="
  | shiftLeftEqual => "<<="
  | shiftRightEqual => ">>="
  | questionEqual => "?="
  | tilde => "~"
  | bang => "!"
  | ellipsis => "..."
  | atSign => "@"
  | plusAt => "+@"
  | questionTilde => "?~"
  | hash => "#"
  | dollar => "$"
  | colonColon => "::"

/-- Every mark, the longer ones first. -/
def all : List Mark := [
  hatHatEqual, shiftLeftEqual, shiftRightEqual, ellipsis, minusArrow, tildeArrow, equalsArrow,
  reverseArrow, plusPlus, minusMinus, hatHat, ampAmp, pipePipe, equalEqual, notEqual,
  lessEqual, greaterEqual, shiftLeft, shiftRight, plusEqual, minusEqual, starEqual, slashEqual,
  percentEqual, ampEqual, pipeEqual, hatEqual, questionEqual, plusAt, questionTilde,
  colonColon, lparen, rparen, lbracket, rbracket, lbrace, rbrace, comma, colon, semicolon, dot,
  plus, minus, slash, percent, star, hat, ampersand, pipe, question, less, greater, equal,
  tilde, bang, atSign, hash, dollar]

def atStart? (cs : List Char) : Option Mark := all.find? (·.spelling.toList.isPrefixOf cs)

end Mark

inductive Token where
  | keyword (word : Keyword)
  | mark (mark : Mark)
  | identifier (name : String)
  | integer (value : UInt64)
  /-- A floating-point literal, by the bits of the double. -/
  | float (bits : UInt64)
  | text (value : String)
  | eof
  deriving Repr, DecidableEq

/-- A token as error reports show it. -/
def Token.display : Token → String
  | keyword word => word.spelling
  | mark m => m.spelling
  | identifier name => name
  | integer value => Nat.repr value.toNat
  | float bits => Double.shortestText bits
  | text value => "\"" ++ Text.ascii value ++ "\""
  | eof => "<EOF>"

structure Lexeme where
  token : Token
  place : Place
  stop : Nat
  deriving Repr, DecidableEq

def Lexeme.span (l : Lexeme) : Span := ⟨l.place.offset, l.stop⟩

end LevelScript
