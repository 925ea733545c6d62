import Lox.Grammar.Fault
import Lox.Program

/-! Parsers over a list of tokens.

A parser reads from a cursor and either yields a result or gives up; in both cases the cursor
keeps what was read, the errors that were recorded and the node identities that were drawn. The
end-of-input token is never read. -/

namespace Lox

structure Cursor where
  pending : List Token
  finish : Token
  nextNode : Nat
  errors : Array ParseError
  deriving DecidableEq, Repr

namespace Cursor

def peek (c : Cursor) : Token := c.pending.headD c.finish

def atEnd (c : Cursor) : Bool := c.pending.isEmpty

def check (c : Cursor) (kind : TokenKind) : Bool := c.pending.head?.any (·.kind == kind)

def record (c : Cursor) (token : Token) (fault : ParseFault) : Cursor :=
  { c with errors := c.errors.push ⟨token, fault⟩ }

end Cursor

/-- A result of `none` means that an error was recorded and the current statement is given up. -/
def Parser (α : Type) := Cursor → Option α × Cursor

namespace Parser

variable {α β : Type}

@[always_inline, inline]
def result (a : α) : Parser α := fun c => (some a, c)

@[always_inline, inline]
def andThen (p : Parser α) (f : α → Parser β) : Parser β := fun c =>
  match p c with
  | (some a, rest) => f a rest
  | (none, rest) => (none, rest)

@[always_inline]
instance : Monad Parser where
  pure := result
  bind := andThen

@[simp] theorem pure_apply (a : α) (c : Cursor) : (pure a : Parser α) c = (some a, c) := rfl

@[simp] theorem bind_apply (p : Parser α) (f : α → Parser β) (c : Cursor) :
    (p >>= f) c = match p c with
      | (some a, rest) => f a rest
      | (none, rest) => (none, rest) := rfl

def peek : Parser Token := fun c => (some c.peek, c)

def check (kind : TokenKind) : Parser Bool := fun c => (some (c.check kind), c)

def atEnd : Parser Bool := fun c => (some c.atEnd, c)

/-- Reads the next token if its kind is wanted. -/
def acceptIf? (wanted : TokenKind → Bool) : Parser (Option Token) := fun c =>
  match c.pending with
  | t :: rest =>
    if wanted t.kind then (some (some t), { c with pending := rest }) else (some none, c)
  | [] => (some none, c)

def accept? (kind : TokenKind) : Parser (Option Token) := acceptIf? (· == kind)

def accept (kind : TokenKind) : Parser Bool := do
  return (← accept? kind).isSome

def advance : Parser Unit := fun c => (some (), { c with pending := c.pending.tail })

def freshNode : Parser NodeId := fun c =>
  (some ⟨c.nextNode⟩, { c with nextNode := c.nextNode + 1 })

/-- Records an error and carries on. -/
def record (token : Token) (fault : ParseFault) : Parser Unit := fun c =>
  (some (), c.record token fault)

/-- Records an error at the next token and gives up. -/
def fail (fault : ParseFault) : Parser α := fun c => (none, c.record c.peek fault)

def expect (e : Expectation) : Parser Token := do
  match ← accept? e.kind with
  | some t => return t
  | none => fail (.expected e)

def iterateUpTo : Nat → (α → Parser (Option α)) → α → Parser α
  | 0, _, a => return a
  | count + 1, next, a => do
    match ← next a with
    | some b => iterateUpTo count next b
    | none => return a

/-- Repeats `next`, which reads a token whenever it goes on, until it stops. -/
def iterate (next : α → Parser (Option α)) (a : α) : Parser α := do
  match ← next a with
  | some b => fun c => iterateUpTo c.pending.length next b c
  | none => return a

/-- One item or more with commas between them. An item beyond the limit is an error at that item,
which is read all the same. -/
def commaSeparated (item : Parser α) (tooMany : ParseFault) : Parser (List α) := do
  let first ← item
  let items ← iterate (fun (items : Array α) => do
    if ← accept .comma then
      if maxListLength ≤ items.size then record (← peek) tooMany
      return some (items.push (← item))
    else return none) #[first]
  return items.toList

def beginsStatement : TokenKind → Bool
  | .kwClass | .kwFun | .kwVar | .kwFor | .kwIf | .kwWhile | .kwPrint | .kwReturn | .kwBreak
  | .kwContinue => true
  | _ => false

/-- Skips to a token after a semicolon or one that begins a statement; `last` was read before. -/
def skipToBoundary (last : TokenKind) : List Token → List Token
  | [] => []
  | t :: rest =>
    if last = .semicolon ∨ beginsStatement t.kind then t :: rest else skipToBoundary t.kind rest

/-- The tokens after a fault: the one at fault is skipped, then all up to a boundary. -/
def afterFault : List Token → List Token
  | [] => []
  | t :: rest => skipToBoundary t.kind rest

/-- Never gives up: where `p` does, the tokens up to the next boundary are skipped. -/
def recovering (p : Parser α) : Parser (Option α) := fun c =>
  match p c with
  | (some a, rest) => (some (some a), rest)
  | (none, rest) => (some none, { rest with pending := afterFault rest.pending })

end Parser

end Lox
