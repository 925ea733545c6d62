import Lox.Live
import Lox.Proofs.Machine.Settings

/-! A clock that is read at each call is a stream of readings.

Where the readings come from a stream one by one, a session that asks for them at the calls does
what the session does that has the stream for its clock, and leaves the same readings. -/

namespace Lox

/-- Takes the first reading of a stream. -/
def nextReading : StateM (Nat → Number) Number := fun readings =>
  (readings 0, fun reading => readings (reading + 1))

namespace Config

variable {c : Config} {readings : Nat → Number}

theorem readsClock_of_attempt? {paren : Token}
    (h : c.attempt? = some (.native .clock, paren, []))
    (hlt : c.machine.callDepth < c.machine.maxCallDepth) : c.readsClock = true := by
  unfold attempt? at h
  split at h
  · rename_i m v frame fs
    unfold Frame.attempt? at h
    split at h
    · cases h
      exact decide_eq_true hlt
    · simp at h
    · cases h
  · cases h

/-- A step that does not read the clock does not see it. -/
theorem step_withClock (h : c.readsClock = false) :
    (c.withClock readings).step = c.step.withClock readings := by
  have hanswer : Setting.Answer ⟨id, fun _ => readings⟩ c.machine c.attempt? := {
    admits := fun _ _ _ _ _ => Iff.rfl
    reads := fun _ hattempt hlt => by
      rw [readsClock_of_attempt? hattempt hlt] at h
      cases h }
  exact step_within hanswer

/-- A step that reads the clock takes one reading. -/
theorem step_of_readsClock (h : c.readsClock = true) : (c.withClock readings).step =
    (c.withClock (readings 0)).step.withClock fun reading => readings (reading + 1) := by
  unfold readsClock at h
  split at h
  · rename_i m paren fs
    have hfits : ¬m.maxCallDepth ≤ m.callDepth := Nat.not_le_of_lt (of_decide_eq_true h)
    simp [step, withClock, Machine.withClock, Machine.resume, Machine.resumeValue,
      Machine.evaluateArguments, Machine.call, Heap.arity?, Native.arity, Machine.readClock, hfits]
  · cases h

theorem runUpTo_succ (steps : Nat) : c.runUpTo (steps + 1) = c.step.runUpTo steps := by
  rw [runUpTo_eq, runUpTo_eq, Function.iterate_succ_apply]

theorem runLive_succ {f : Type → Type} [Monad f] {reading : f Number} {steps : Nat}
    (h : c.ended? = none) : c.runLive reading (steps + 1) = (do
      if c.readsClock then runLive reading steps (c.withClock (← reading)).step
      else runLive reading steps c.step) := by
  obtain ⟨m, control, fs⟩ := c
  cases control with
  | done completion =>
    cases fs with
    | nil => cases h
    | cons frame fs => rfl
  | _ => rfl

theorem runUpTo_withClock (steps : Nat) : ∀ (c : Config) (readings : Nat → Number),
    (c.withClock readings).runUpTo steps =
      let (ended?, rest) := (c.runLive nextReading steps).run readings
      ended?.map fun ended => (ended.1, ended.2.withClock rest) := by
  induction steps with
  | zero =>
    intro c readings
    obtain ⟨m, control, fs⟩ := c
    cases control <;> cases fs <;> rfl
  | succ steps ih =>
    intro c readings
    cases h : c.ended? with
    | some ended =>
      obtain rfl := eq_of_ended? h
      rfl
    | none =>
      rw [runUpTo_succ, runLive_succ h]
      cases hreads : c.readsClock with
      | false =>
        rw [step_withClock hreads]
        exact ih c.step readings
      | true =>
        rw [step_of_readsClock hreads]
        exact ih (c.withClock (readings 0)).step fun reading => readings (reading + 1)

end Config

namespace Session

variable {readings : Nat → Number}

theorem execute?_withClock (steps : Nat) (statements : List Stmt) :
    ∀ (s : Session) (readings : Nat → Number), (s.withClock readings).execute? steps statements =
      let (s?, rest) := (s.executeLive nextReading steps statements).run readings
      s?.map (·.withClock rest) := by
  induction statements with
  | nil => exact fun _ _ => rfl
  | cons statement others ih =>
    intro s readings
    obtain ⟨machine, report, nextNode⟩ := s
    have hrun : (machine.withClock readings).exec? steps statement = _ :=
      Config.runUpTo_withClock steps ⟨machine, .exec statement, []⟩ readings
    rcases hlive : (Config.runLive nextReading steps ⟨machine, .exec statement, []⟩).run readings
      with ⟨_ | ⟨completion, ended⟩, rest⟩ <;>
      simp only [hlive, Option.map_none, Option.map_some] at hrun <;>
      simp only [withClock, execute?, hrun, executeLive, StateT.run_bind, hlive]
    · rfl
    · cases completion with
      | failed e => rfl
      | _ => exact ih ⟨ended, report, nextNode⟩ rest

theorem perform?_withClock (steps : Nat) (s : Session) (statements : List Stmt) :
    (s.withClock readings).perform? steps statements =
      let (s?, rest) := (s.performLive nextReading steps statements).run readings
      s?.map (·.withClock rest) := by
  have hreport : (s.withClock readings).report = s.report := rfl
  have hresolve : (s.withClock readings).resolve statements =
      (s.resolve statements).withClock readings := rfl
  have hreport' : ((s.resolve statements).withClock readings).report =
      (s.resolve statements).report := rfl
  simp only [perform?, performLive, hreport, hresolve, hreport']
  split
  · rfl
  split
  · rfl
  · exact execute?_withClock steps statements (s.resolve statements) readings

/-- A session that asks for the readings at the calls of the clock does what it does with these
readings for its clock, and leaves those that its clock has left. -/
theorem run?_withClock (s : Session) (steps : Nat) (source : String) :
    (s.withClock readings).run? steps source =
      let (s?, rest) := (s.runLive nextReading steps source).run readings
      s?.map (·.withClock rest) := by
  have hread : (s.withClock readings).read source =
      ((s.read source).1, (s.read source).2.withClock readings) := by
    simp only [read, readTokens, scanned, withClock]
  rw [run?, runLive, hread]
  obtain ⟨statements, s⟩ := s.read source
  exact perform?_withClock steps s statements

end Session

end Lox
