import Lox.Token

/-! Diagnostics and the report that collects them.

A diagnostic names its stage, its place and what is wrong. A report keeps them in order, with two
flags: one for faults of the text (lexical, grammatical or of scoping) and one for faults of a
running program. The flags stay up until they are reset, also after the diagnostics were taken. -/

namespace Lox

inductive Diagnostic where
  | lexical (line : Nat) (message : String)
  | parse (token : Token) (message : String)
  | resolve (token : Token) (message : String)
  | runtime (token : Token) (message : String)
  deriving DecidableEq, Repr

def Token.place (t : Token) : String :=
  if t.kind = .eof then " at end" else " at '" ++ t.lexeme ++ "'"

def renderAt (line : Nat) (place message : String) : String :=
  "[line " ++ toString line ++ "] Error" ++ place ++ ": " ++ message

namespace Diagnostic

def render : Diagnostic → String
  | .lexical line message => renderAt line "" message
  | .parse token message | .resolve token message | .runtime token message =>
    renderAt token.line token.place message

def isRuntime : Diagnostic → Bool
  | .runtime _ _ => true
  | _ => false

end Diagnostic

structure Report where
  diagnostics : Array Diagnostic
  syntaxError : Bool
  runtimeError : Bool
  deriving DecidableEq, Repr

namespace Report

def empty : Report := ⟨#[], false, false⟩

def add (r : Report) (d : Diagnostic) : Report where
  diagnostics := r.diagnostics.push d
  syntaxError := r.syntaxError || !d.isRuntime
  runtimeError := r.runtimeError || d.isRuntime

def addAll (r : Report) (ds : List Diagnostic) : Report := ds.foldl add r

def reset (r : Report) : Report := ⟨r.diagnostics, false, false⟩

/-- Hands out the diagnostics and keeps the flags. -/
def take (r : Report) : List Diagnostic × Report :=
  (r.diagnostics.toList, ⟨#[], r.syntaxError, r.runtimeError⟩)

def messages (r : Report) : List String := r.diagnostics.toList.map Diagnostic.render

end Report

end Lox
