import Lox.Number.Display

/-! Tokens: a kind, the text that spelled it, a literal for strings and numbers, and the line on
which that text ends. -/

namespace Lox

inductive TokenKind where
  | leftParen | rightParen | leftBrace | rightBrace
  | comma | dot | minus | plus | semicolon | slash | star
  | bang | bangEqual | equal | equalEqual | greater | greaterEqual | less | lessEqual
  | identifier | string | number
  | kwAnd | kwBreak | kwClass | kwContinue | kwElse | kwFalse | kwFun | kwFor | kwIf | kwNil
  | kwOr | kwPrint | kwReturn | kwSuper | kwThis | kwTrue | kwVar | kwWhile
  | eof
  deriving DecidableEq, Repr

/-- The name of a kind in token listings. -/
def TokenKind.name : TokenKind → String
  | .leftParen => "LEFT_PAREN" | .rightParen => "RIGHT_PAREN"
  | .leftBrace => "LEFT_BRACE" | .rightBrace => "RIGHT_BRACE"
  | .comma => "COMMA" | .dot => "DOT" | .minus => "MINUS" | .plus => "PLUS"
  | .semicolon => "SEMICOLON" | .slash => "SLASH" | .star => "STAR"
  | .bang => "BANG" | .bangEqual => "BANG_EQUAL"
  | .equal => "EQUAL" | .equalEqual => "EQUAL_EQUAL"
  | .greater => "GREATER" | .greaterEqual => "GREATER_EQUAL"
  | .less => "LESS" | .lessEqual => "LESS_EQUAL"
  | .identifier => "IDENTIFIER" | .string => "STRING" | .number => "NUMBER"
  | .kwAnd => "AND" | .kwBreak => "BREAK" | .kwClass => "CLASS" | .kwContinue => "CONTINUE"
  | .kwElse => "ELSE" | .kwFalse => "FALSE" | .kwFun => "FUN" | .kwFor => "FOR" | .kwIf => "IF"
  | .kwNil => "NIL" | .kwOr => "OR" | .kwPrint => "PRINT" | .kwReturn => "RETURN"
  | .kwSuper => "SUPER" | .kwThis => "THIS" | .kwTrue => "TRUE" | .kwVar => "VAR"
  | .kwWhile => "WHILE"
  | .eof => "EOF"

def TokenKind.all : List TokenKind :=
  [.leftParen, .rightParen, .leftBrace, .rightBrace, .comma, .dot, .minus, .plus, .semicolon,
    .slash, .star, .bang, .bangEqual, .equal, .equalEqual, .greater, .greaterEqual, .less,
    .lessEqual, .identifier, .string, .number, .kwAnd, .kwBreak, .kwClass, .kwContinue, .kwElse,
    .kwFalse, .kwFun, .kwFor, .kwIf, .kwNil, .kwOr, .kwPrint, .kwReturn, .kwSuper, .kwThis,
    .kwTrue, .kwVar, .kwWhile, .eof]

def TokenKind.ofName? (name : String) : Option TokenKind :=
  TokenKind.all.find? (·.name == name)

theorem TokenKind.ofName?_name (k : TokenKind) : TokenKind.ofName? k.name = some k := by
  cases k <;> decide

inductive Literal where
  | number (value : Number)
  | string (contents : String)
  deriving DecidableEq, Repr

structure Token where
  kind : TokenKind
  lexeme : String
  literal : Option Literal
  line : Nat
  deriving DecidableEq, Repr

def Token.endOfInput (line : Nat) : Token := ⟨.eof, "", none, line⟩

/-- A line of a token listing. -/
def Token.listing (t : Token) : String :=
  t.kind.name ++ " " ++ t.lexeme ++ " " ++
    match t.literal with
    | none => "null"
    | some (.string contents) => contents
    | some (.number value) => value.literalText

end Lox
