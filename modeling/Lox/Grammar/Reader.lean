import Lox.Grammar.Parser

/-! The guards of the parser, over a list of tokens and an index.

The list ends with an end of input, and the index is that of the next token. Every token is looked
up by a guard, and nothing comes out of a guard where the list has no token at the index. -/

namespace Lox

/-- The list that is read from: an end of input is added unless the last token is one. -/
def closed (tokens : List Token) : List Token :=
  if tokens.getLast?.any (·.kind == .eof) then tokens
  else tokens ++ [Token.endOfInput ((tokens.getLast?.map (·.line)).getD 1)]

def beforeEnd (tokens : List Token) : List Token := tokens.takeWhile (·.kind != .eof)

structure Reader where
  tokens : List Token
  current : Nat
  nextNode : Nat
  errors : Array ParseError
  deriving DecidableEq, Repr

namespace Reader

def start (tokens : List Token) (nextNode : Nat) : Reader := ⟨closed tokens, 0, nextNode, #[]⟩

def peek? (r : Reader) : Option Token := r.tokens[r.current]?

/-- The token before the index, or the first one. -/
def previous? (r : Reader) : Option Token := r.tokens[r.current - 1]?

def atEnd? (r : Reader) : Option Bool := do
  return (← r.peek?).kind == .eof

def checkIf? (r : Reader) (wanted : TokenKind → Bool) : Option Bool := do
  if ← r.atEnd? then return false
  return wanted (← r.peek?).kind

/-- The index stays where it is at the end of input. -/
def advance? (r : Reader) : Option (Token × Reader) := do
  let moved := if ← r.atEnd? then r else { r with current := r.current + 1 }
  return (← moved.previous?, moved)

def record (r : Reader) (token : Token) (fault : ParseFault) : Reader :=
  { r with errors := r.errors.push ⟨token, fault⟩ }

/-- Goes on to a token after a semicolon or one that begins a statement, in so many steps. -/
def skipUpTo? : Nat → Reader → Option Reader
  | 0, r => some r
  | steps + 1, r => do
    if ← r.atEnd? then return r
    if (← r.previous?).kind = .semicolon then return r
    if Parser.beginsStatement (← r.peek?).kind then return r
    let (_, moved) ← r.advance?
    skipUpTo? steps moved

/-- Skips the token at fault and goes on to a boundary. -/
def synchronize? (r : Reader) : Option Reader := do
  let (_, moved) ← r.advance?
  skipUpTo? moved.tokens.length moved

end Reader

/-- A parser over an index. It comes to nothing where a token is looked up out of range, and gives
up with an error as one over a cursor does. -/
def IndexParser (α : Type) := Reader → Option (Option α × Reader)

namespace IndexParser

variable {α : Type}

instance : Monad IndexParser where
  pure a := fun r => some (some a, r)
  bind p f := fun r =>
    match p r with
    | some (some a, next) => f a next
    | some (none, next) => some (none, next)
    | none => none

def peek : IndexParser Token := fun r => do
  return (some (← r.peek?), r)

def atEnd : IndexParser Bool := fun r => do
  return (some (← r.atEnd?), r)

def checkIf (wanted : TokenKind → Bool) : IndexParser Bool := fun r => do
  return (some (← r.checkIf? wanted), r)

def advance : IndexParser Token := fun r => do
  let (t, moved) ← r.advance?
  return (some t, moved)

def acceptIf? (wanted : TokenKind → Bool) : IndexParser (Option Token) := do
  if ← checkIf wanted then return some (← advance) else return none

def freshNode : IndexParser NodeId := fun r =>
  some (some ⟨r.nextNode⟩, { r with nextNode := r.nextNode + 1 })

def record (token : Token) (fault : ParseFault) : IndexParser Unit := fun r =>
  some (some (), r.record token fault)

def fail (fault : ParseFault) : IndexParser α := fun r => do
  return (none, r.record (← r.peek?) fault)

def recovering (p : IndexParser α) : IndexParser (Option α) := fun r => do
  match ← p r with
  | (some a, next) => return (some (some a), next)
  | (none, next) => return (some none, ← next.synchronize?)

/-- A parser by how many tokens are left, as turns of loops and levels of nesting are counted. -/
def sized (p : Nat → IndexParser α) : IndexParser α := fun r =>
  p ((beforeEnd r.tokens).length - r.current) r

end IndexParser

end Lox
