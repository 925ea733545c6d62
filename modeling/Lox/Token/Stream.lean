import Lox.Token.Lexeme

/-! From segments to tokens with line numbers.

The line of an item is the one that its segment ends on, so a string that spans lines counts for its
last one. Lines are counted where a line end stands by itself and within strings; a comment leaves
the line end behind it unread. Blanks and comments give no item, and the stream closes with one
end-of-input token. -/

namespace Lox

inductive LexicalFault where
  | unexpectedCharacter (c : Char)
  | unterminatedString
  deriving DecidableEq, Repr

structure LexicalError where
  line : Nat
  fault : LexicalFault
  deriving DecidableEq, Repr

inductive ScanItem where
  | token (t : Token)
  | error (e : LexicalError)
  deriving DecidableEq, Repr

def reserved : List (String × TokenKind) :=
  [("and", .kwAnd), ("break", .kwBreak), ("class", .kwClass), ("continue", .kwContinue),
    ("else", .kwElse), ("false", .kwFalse), ("fun", .kwFun), ("for", .kwFor), ("if", .kwIf),
    ("nil", .kwNil), ("or", .kwOr), ("print", .kwPrint), ("return", .kwReturn),
    ("super", .kwSuper), ("this", .kwThis), ("true", .kwTrue), ("var", .kwVar),
    ("while", .kwWhile)]

def wordKind (word : String) : TokenKind := (reserved.lookup word).getD .identifier

/-- The text between the quotes of a closed string. -/
def stringBody (text : List Char) : List Char := (text.drop 1).dropLast

def Segment.item? (s : Segment) (line : Nat) : Option ScanItem :=
  let lexeme := String.ofList s.text
  match s.shape with
  | .blank | .comment => none
  | .mark kind => some (.token ⟨kind, lexeme, none, line⟩)
  | .word => some (.token ⟨wordKind lexeme, lexeme, none, line⟩)
  | .string =>
    some (.token ⟨.string, lexeme, some (.string (String.ofList (stringBody s.text))), line⟩)
  | .numeral => some (.token ⟨.number, lexeme, some (.number (Number.ofNumeral s.text)), line⟩)
  | .unexpected c => some (.error ⟨line, .unexpectedCharacter c⟩)
  | .unterminated => some (.error ⟨line, .unterminatedString⟩)

/-- How many lines further down a segment ends: by one for a line end by itself, and by those in the
body of a string, be it closed or not. -/
def Segment.lineEnds (s : Segment) : Nat :=
  match s.shape with
  | .blank => if s.text = ['\n'] then 1 else 0
  | .string => (stringBody s.text).count '\n'
  | .unterminated => (s.text.drop 1).count '\n'
  | _ => 0

/-- The items of segments of which the first starts on the given line. -/
def itemsFrom (line : Nat) : List Segment → List ScanItem
  | [] => [.token (Token.endOfInput line)]
  | s :: rest =>
    let line := line + s.lineEnds
    match s.item? line with
    | some item => item :: itemsFrom line rest
    | none => itemsFrom line rest

def scan (source : String) : List ScanItem := itemsFrom 1 (segments source.toList)

def ScanItem.token? : ScanItem → Option Token
  | .token t => some t
  | .error _ => none

def ScanItem.error? : ScanItem → Option LexicalError
  | .token _ => none
  | .error e => some e

end Lox
