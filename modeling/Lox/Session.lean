import Lox.Grammar.Statement
import Lox.Machine.Step
import Lox.Token.Stream

/-! Sessions: one machine that runs one source text after another.

A text is scanned, read, analysed and executed, in this order. Nothing is executed while the report
shows a fault of the text; the first failure of a statement ends the run. Globals, functions and
objects last from run to run. -/

namespace Lox

def LexicalFault.message : LexicalFault → String
  | .unexpectedCharacter c => "Unexpected character: '" ++ c.toString ++ "'."
  | .unterminatedString => "Unterminated string."

def LexicalError.diagnostic (e : LexicalError) : Diagnostic := .lexical e.line e.fault.message

structure Session where
  machine : Machine
  report : Report
  nextNode : Nat

namespace Session

def start (now : Nat → Number) : Session := ⟨Machine.initial now, Report.empty, 0⟩

def setMaxCallDepth (s : Session) (depth : Nat) : Session :=
  { s with machine := { s.machine with maxCallDepth := depth } }

def resetReport (s : Session) : Session := { s with report := s.report.reset }

/-- Reports the lexical errors of a text. -/
def scanned (s : Session) (source : String) : Session :=
  let errors := (scan source).filterMap ScanItem.error?
  { s with report := s.report.addAll (errors.map LexicalError.diagnostic) }

/-- Reads tokens; what is left after their errors are reported are their statements. -/
def readTokens (s : Session) (tokens : List Token) : List Stmt × Session :=
  let parsed := parse tokens s.nextNode
  (parsed.statements,
    { s with
      report := s.report.addAll (parsed.errors.map ParseError.diagnostic)
      nextNode := parsed.nextNode })

def read (s : Session) (source : String) : List Stmt × Session :=
  (s.scanned source).readTokens ((scan source).filterMap ScanItem.token?)

/-- Takes the notes of the analysis over into the table of depths and the report. -/
def resolve (s : Session) (statements : List Stmt) : Session :=
  let notes := analyse statements
  { s with
    machine := { s.machine with depths := s.machine.depths.recordAll notes }
    report := s.report.addAll ((notes.filterMap ScopeNote.error?).map ScopeError.diagnostic) }

/-- Executes statements up to the first failure; `none` if one of them takes too many steps. -/
def execute? (steps : Nat) : Session → List Stmt → Option Session
  | s, [] => some s
  | ⟨machine, report, nextNode⟩, statement :: rest =>
    match machine.exec? steps statement with
    | none => none
    | some (.failed e, machine) => some ⟨machine, report.add e.diagnostic, nextNode⟩
    | some (_, machine) => execute? steps ⟨machine, report, nextNode⟩ rest

/-- Analyses and executes what was read, unless an error has been reported. -/
def perform? (steps : Nat) (s : Session) (statements : List Stmt) : Option Session :=
  if s.report.syntaxError then some s
  else
    let s := s.resolve statements
    if s.report.syntaxError then some s else execute? steps s statements

/-- Runs a program that is given as its tokens. -/
def runTokens? (steps : Nat) (s : Session) (tokens : List Token) : Option Session :=
  let (statements, s) := s.readTokens tokens
  s.perform? steps statements

def run? (steps : Nat) (s : Session) (source : String) : Option Session :=
  let (statements, s) := s.read source
  s.perform? steps statements

/-- Hands out what was printed, a line for each printed value. -/
def takePrinted (s : Session) : String × Session :=
  (String.join (s.machine.printed.toList.map (· ++ "\n")),
    { s with machine := { s.machine with printed := #[] } })

/-- Hands out the rendered diagnostics. -/
def takeMessages (s : Session) : List String × Session :=
  let (diagnostics, report) := s.report.take
  (diagnostics.map Diagnostic.render, { s with report := report })

end Session

end Lox
