import Lox.Token

/-! Cutting a text into lexemes by longest match.

`lexemes` splits a text into non-empty segments that concatenate to it. Each segment is the longest
one of its shape that starts where the previous segment ends: a mark, a comment up to its line end,
a closed string, a numeral, a word, or a single blank. What fits no shape is a segment of its own:
one unexpected character, or an unterminated string that takes the rest of the text. -/

namespace Lox

inductive Shape where
  | mark (kind : TokenKind)
  | blank
  | comment
  | string
  | numeral
  | word
  | unexpected (c : Char)
  | unterminated
  deriving DecidableEq, Repr

structure Segment where
  shape : Shape
  text : List Char
  deriving DecidableEq, Repr

def isDigit (c : Char) : Bool := '0' ≤ c && c ≤ '9'

def startsWord (c : Char) : Bool :=
  ('a' ≤ c && c ≤ 'z') || ('A' ≤ c && c ≤ 'Z') || c == '_'

def continuesWord (c : Char) : Bool := startsWord c || isDigit c

def isBlank (c : Char) : Bool := c == ' ' || c == '\r' || c == '\t' || c == '\n'

/-- The mark that a character spells by itself, and the one it spells with `=` after it. -/
def markOf : Char → Option (TokenKind × Option TokenKind)
  | '(' => some (.leftParen, none)
  | ')' => some (.rightParen, none)
  | '\x7b' => some (.leftBrace, none)
  | '\x7d' => some (.rightBrace, none)
  | ',' => some (.comma, none)
  | '.' => some (.dot, none)
  | '-' => some (.minus, none)
  | '+' => some (.plus, none)
  | ';' => some (.semicolon, none)
  | '*' => some (.star, none)
  | '/' => some (.slash, none)
  | '!' => some (.bang, some .bangEqual)
  | '=' => some (.equal, some .equalEqual)
  | '<' => some (.less, some .lessEqual)
  | '>' => some (.greater, some .greaterEqual)
  | _ => none

/-- A fraction is a point and at least one digit; a point without a digit is left alone. -/
def fraction : List Char → List Char
  | '.' :: d :: rest => if isDigit d then '.' :: d :: rest.takeWhile isDigit else []
  | _ => []

def numeral (text : List Char) : List Char :=
  text.takeWhile isDigit ++ fraction (text.dropWhile isDigit)

/-- What follows an opening quote: the body and the closing quote, if there is one. -/
def closedString? : List Char → Option (List Char)
  | [] => none
  | c :: rest => if c = '"' then some [c] else (closedString? rest).map (c :: ·)

/-- The segment at the head of the text `c :: rest`. -/
def Segment.head (c : Char) (rest : List Char) : Segment :=
  if c = '/' ∧ rest.head? = some '/' then
    ⟨.comment, c :: rest.takeWhile (· != '\n')⟩
  else if c = '"' then
    match closedString? rest with
    | some body => ⟨.string, c :: body⟩
    | none => ⟨.unterminated, c :: rest⟩
  else if isBlank c then ⟨.blank, [c]⟩
  else if isDigit c then ⟨.numeral, numeral (c :: rest)⟩
  else if startsWord c then ⟨.word, c :: rest.takeWhile continuesWord⟩
  else
    match markOf c, rest with
    | some (_, some kind), '=' :: _ => ⟨.mark kind, [c, '=']⟩
    | some (kind, _), _ => ⟨.mark kind, [c]⟩
    | none, _ => ⟨.unexpected c, [c]⟩

/-- At most `count` segments of a text. -/
def segmentsUpTo : Nat → List Char → List Segment
  | 0, _ => []
  | _, [] => []
  | count + 1, c :: rest =>
    let s := Segment.head c rest
    s :: segmentsUpTo count ((c :: rest).drop s.text.length)

/-- A text has no more segments than characters. -/
def segments (text : List Char) : List Segment := segmentsUpTo text.length text

end Lox
