import Lox.CommandLine.Arguments
import Lox.CommandLine.QuotedPath
import Lox.Session

/-! What the commands print and the exit codes they end with.

Files and input are given as bytes, so that a text that is not UTF-8 is seen as such. A
conversation reads one line at a time, runs it in a session that lasts from line to line, and
forgives the faults of a line before the next. -/

namespace Lox

/-- An error of the system: its number and its text. -/
structure SystemError where
  code : Nat
  text : String
  deriving DecidableEq, Repr

/-- What an attempt to read a file came to. -/
inductive FileContents where
  | bytes (contents : ByteArray)
  | notOpened (e : SystemError)
  | notRead (e : SystemError)

structure Transcript where
  stdout : String
  stderr : String
  exitCode : Nat
  deriving DecidableEq, Repr

namespace ExitCode

def success : Nat := 0
def inputFailure : Nat := 1
def usage : Nat := 2
def textFault : Nat := 65
def runtimeFault : Nat := 70
def fileFailure : Nat := 74

end ExitCode

def SystemError.render (e : SystemError) : String :=
  e.text ++ " (os error " ++ toString e.code ++ ")"

def notText : String := "stream did not contain valid UTF-8"

/-- The text of a file, or why there is none. -/
def FileContents.text (path : String) : FileContents → Except String String
  | .bytes contents =>
    match String.fromUTF8? contents with
    | some text => .ok text
    | none => .error ("Failed to read file " ++ quotedPath path ++ ": " ++ notText)
  | .notOpened e => .error ("Failed to open file " ++ quotedPath path ++ ": " ++ e.render)
  | .notRead e => .error ("Failed to read file " ++ quotedPath path ++ ": " ++ e.render)

def lines (texts : List String) : String := String.join (texts.map (· ++ "\n"))

namespace Transcript

def ofFileFailure (message : String) : Transcript :=
  ⟨"", lines [message], ExitCode.fileFailure⟩

/-- A listing of all tokens; lexical errors go to the other stream. -/
def ofTokens (source : String) : Transcript :=
  let items := scan source
  let errors := items.filterMap ScanItem.error?
  ⟨lines ((items.filterMap ScanItem.token?).map Token.listing),
    lines (errors.map (·.diagnostic.render)),
    if errors.isEmpty then ExitCode.success else ExitCode.textFault⟩

def codeOf (r : Report) : Nat :=
  if r.syntaxError then ExitCode.textFault
  else if r.runtimeError then ExitCode.runtimeFault
  else ExitCode.success

/-- What a session has to say since it was last asked. -/
def ofSession (s : Session) : Transcript × Session :=
  let code := codeOf s.report
  let (output, s) := s.takePrinted
  let (messages, s) := s.takeMessages
  (⟨output, lines messages, code⟩, s)

def ofRun? (steps : Nat) (now : Nat → Number) (source : String) : Option Transcript :=
  ((Session.start now).run? steps source).map fun s => (ofSession s).1

def prompt : String := "> "

def ofInputFailure : Transcript :=
  ⟨"", lines ["Error: Failed to read from stdin", "", "Caused by:", "    " ++ notText],
    ExitCode.inputFailure⟩

def ofInputEnd : Transcript := ⟨"\n", "", ExitCode.success⟩

/-- A line without its line end. -/
def withoutLineEnd (line : List Char) : List Char :=
  match line.reverse with
  | '\n' :: '\r' :: rest => rest.reverse
  | '\n' :: rest => rest.reverse
  | _ => line

/-- The text of one line of a conversation. The conversation is over, with the last part of its
transcript, if the line is no text. -/
def lineText (line : ByteArray) : Except Transcript String :=
  match String.fromUTF8? line with
  | none => .error ofInputFailure
  | some text => .ok (String.ofList (withoutLineEnd text.toList))

/-- The answer of a session that has run a line, and the session for the next one. -/
def answer (s : Session) : Transcript × Session :=
  let (said, s) := ofSession s
  (said, s.resetReport)

def respond? (steps : Nat) (s : Session) (line : ByteArray) :
    Option (Except Transcript (Transcript × Session)) :=
  match lineText line with
  | .error last => some (.error last)
  | .ok text => (s.run? steps text).map fun s => .ok (answer s)

/-- Cuts input into lines that keep their line ends. -/
def inputLines : List UInt8 → List (List UInt8)
  | [] => []
  | b :: rest =>
    match b == 10, inputLines rest with
    | false, line :: others => (b :: line) :: others
    | _, others => [b] :: others

def before (first rest : Transcript) : Transcript :=
  ⟨first.stdout ++ rest.stdout, first.stderr ++ rest.stderr, rest.exitCode⟩

def ofConversation? (steps : Nat) : Session → List (List UInt8) → Option Transcript
  | _, [] => some ⟨prompt ++ ofInputEnd.stdout, ofInputEnd.stderr, ofInputEnd.exitCode⟩
  | s, line :: rest =>
    let prompted : Transcript := ⟨prompt, "", ExitCode.success⟩
    match respond? steps s ⟨line.toArray⟩ with
    | none => none
    | some (.error last) => some (prompted.before last)
    | some (.ok (answer, s)) =>
      (ofConversation? steps s rest).map fun others => (prompted.before answer).before others

end Transcript

/-- All that a command prints, given the files it can find and the whole input; `none` if a run
takes too many steps. -/
def Command.transcript? (steps : Nat) (now : Nat → Number) (find : String → FileContents)
    (input : List UInt8) : Command → Option Transcript
  | .tokenize path =>
    match (find path).text path with
    | .ok source => some (Transcript.ofTokens source)
    | .error message => some (Transcript.ofFileFailure message)
  | .run path =>
    match (find path).text path with
    | .ok source => Transcript.ofRun? steps now source
    | .error message => some (Transcript.ofFileFailure message)
  | .converse => Transcript.ofConversation? steps (Session.start now) (Transcript.inputLines input)

end Lox
