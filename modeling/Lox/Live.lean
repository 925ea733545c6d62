import Lox.Session

/-! Sessions that read a clock outside.

A reading is an action of its own. It is performed when the machine is about to call its clock, and
at no other time. -/

namespace Lox

variable {f : Type → Type} [Monad f]

def Machine.withClock (m : Machine) (now : Nat → Number) : Machine := { m with now := now }

namespace Config

def withClock (c : Config) (now : Nat → Number) : Config :=
  { c with machine := c.machine.withClock now }

/-- Whether the next step reads the clock. -/
def readsClock : Config → Bool
  | ⟨m, .done (.value (.native .clock)), .callee _ [] :: _⟩ => m.callDepth < m.maxCallDepth
  | _ => false

def runLive (reading : f Number) : Nat → Config → f (Option (Completion × Machine))
  | _, ⟨m, .done c, []⟩ => return some (c, m)
  | 0, _ => return none
  | steps + 1, c => do
    if c.readsClock then
      let now ← reading
      runLive reading steps (c.withClock now).step
    else runLive reading steps c.step

end Config

namespace Session

def withClock (s : Session) (now : Nat → Number) : Session :=
  { s with machine := s.machine.withClock now }

def executeLive (reading : f Number) (steps : Nat) : Session → List Stmt → f (Option Session)
  | s, [] => return some s
  | ⟨machine, report, nextNode⟩, statement :: rest => do
    match ← Config.runLive reading steps ⟨machine, .exec statement, []⟩ with
    | none => return none
    | some (.failed e, machine) => return some ⟨machine, report.add e.diagnostic, nextNode⟩
    | some (_, machine) => executeLive reading steps ⟨machine, report, nextNode⟩ rest

def performLive (reading : f Number) (steps : Nat) (s : Session) (statements : List Stmt) :
    f (Option Session) := do
  if s.report.syntaxError then return some s
  else
    let s := s.resolve statements
    if s.report.syntaxError then return some s else executeLive reading steps s statements

/-- Runs a text as `run?` does, with the readings that the clock gives at the calls of it. -/
def runLive (reading : f Number) (steps : Nat) (s : Session) (source : String) :
    f (Option Session) :=
  let (statements, s) := s.read source
  s.performLive reading steps statements

end Session

end Lox
