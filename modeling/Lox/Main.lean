import Lox.CommandLine.Transcript
import Lox.Live
import Std.Time.DateTime.Timestamp

/-! The command line: reads files, input and the clock, prints transcripts. -/

namespace Lox

/-- No program that ends takes more steps. -/
def stepLimit : Nat := 1000000000000000000

def systemError : IO.Error → SystemError
  | .noFileOrDirectory _ code text | .permissionDenied _ code text
  | .resourceExhausted _ code text | .inappropriateType _ code text
  | .invalidArgument _ code text | .alreadyExists _ code text
  | .noSuchThing _ code text => ⟨code.toNat, text⟩
  | .otherError code text | .resourceBusy code text | .resourceVanished code text
  | .unsupportedOperation code text | .hardwareFault code text | .unsatisfiedConstraints code text
  | .illegalOperation code text | .protocolError code text | .timeExpired code text =>
    ⟨code.toNat, text⟩
  | .interrupted _ code text => ⟨code.toNat, text⟩
  | .unexpectedEof => ⟨0, "unexpected end of file"⟩
  | .userError text => ⟨0, text⟩

def readFile (path : String) : IO FileContents := do
  match ← (IO.FS.Handle.mk path .read).toBaseIO with
  | .error e => return .notOpened (systemError e)
  | .ok handle =>
    match ← handle.readBinToEnd.toBaseIO with
    | .error e => return .notRead (systemError e)
    | .ok contents => return .bytes contents

/-- Seconds since 1970, to the microsecond. -/
def wallClock : IO Number := do
  let time ← Std.Time.Timestamp.now
  return Number.ofRatio (time.toNanosecondsSinceUnixEpoch.val.toNat / 1000) 1000000

def emit (t : Transcript) : IO Unit := do
  let stdout ← IO.getStdout
  stdout.putStr t.stdout
  stdout.flush
  (← IO.getStderr).putStr t.stderr

def endWith (t : Transcript) : IO UInt32 := do
  emit t
  return UInt32.ofNat t.exitCode

/-- The next line of the input with its line end; empty at the end of the input. -/
partial def readLine (input : IO.FS.Stream) (line : ByteArray) : IO ByteArray := do
  let next ← input.read 1
  if next.isEmpty then return line
  else
    let line := line ++ next
    if next == ⟨#[10]⟩ then return line else readLine input line

partial def converse (input : IO.FS.Stream) (s : Session) : IO UInt32 := do
  emit ⟨Transcript.prompt, "", ExitCode.success⟩
  let line ← readLine input ByteArray.empty
  if line.isEmpty then endWith Transcript.ofInputEnd
  else
    match Transcript.lineText line with
    | .error last => endWith last
    | .ok text =>
      match ← s.runLive wallClock stepLimit text with
      | some s => do
        let (answer, s) := Transcript.answer s
        emit answer
        converse input s
      | none => return UInt32.ofNat ExitCode.runtimeFault

def runFile (path : String) (s : Session) : IO UInt32 := do
  match (← readFile path).text path with
  | .error message => endWith (Transcript.ofFileFailure message)
  | .ok source =>
    match ← s.runLive wallClock stepLimit source with
    | some s => endWith (Transcript.ofSession s).1
    | none => return UInt32.ofNat ExitCode.runtimeFault

def tokenizeFile (path : String) : IO UInt32 := do
  match (← readFile path).text path with
  | .error message => endWith (Transcript.ofFileFailure message)
  | .ok source => endWith (Transcript.ofTokens source)

/-- The clock of the session's own machine is not looked at, since every call reads the wall
clock. -/
def perform (c : Command) : IO UInt32 := do
  let session := Session.start (← wallClock)
  match c with
  | .converse => converse (← IO.getStdin) session
  | .run path => runFile path session
  | .tokenize path => tokenizeFile path

end Lox

def main (arguments : List String) : IO UInt32 := do
  match Lox.Command.parse? arguments with
  | some c => Lox.perform c
  | none => do
    (← IO.getStderr).putStr "Usage: lox [--log] tokenize FILE | run [FILE]\n"
    return UInt32.ofNat Lox.ExitCode.usage
