import Lox.Proofs.Session.Outcomes
import Lox.Proofs.Session.Traces

/-! A text with an error in it leaves nothing behind.

It draws identities, and it may leave depths in the table, but no later text is given these
identities again, so from the next reset on the session goes on as if the text had not been there.
For the same reason it does not matter what another interpreter of the process draws. -/

namespace Lox

/-- What shows of a run that ends before anything is executed. -/
structure Shown.Refused (shown : Shown) : Prop where
  printed : shown.printed = ""
  messages : shown.messages ≠ []
  syntaxError : shown.syntaxError = true
  runtimeError : shown.runtimeError = false

namespace Session

variable {s : Session} {steps : Nat} {source : String}

/-- A refused text and a reset lead to a session that is like the one before. -/
theorem Reachable.refused (steps : Nat) (h : s.Reachable) (hs : s.Seen)
    (hquiet : s.report.syntaxError = false) (hcalm : s.report.runtimeError = false)
    (hsource : ¬Clean source) :
    ∃ failed t, failed.Refused ∧
      s.trace? steps [.run source, .resetReport] = some ([failed, .nothing], t) ∧
      t.machine.heap = s.machine.heap ∧ t.machine.environment = s.machine.environment ∧
      s.Alike t := by
  obtain ⟨d, errors, hrun, hstaged, hd⟩ := run?_faulty steps hquiet hsource
  have hds := hstaged.some
  have hstatic := errors.isRuntime_diagnostics
  generalize errors.diagnostics = ds at hrun hds hstatic
  obtain ⟨⟨heap, environment, depths, printed, callDepth, maxCallDepth, now⟩, report, next⟩ := s
  obtain rfl : printed = #[] := hs.printed
  obtain rfl : report = Report.empty := Report.eq_empty hs.diagnostics hquiet hcalm
  have hproper := Session.read_proper
    ⟨⟨heap, environment, depths, #[], callDepth, maxCallDepth, now⟩, .empty, next⟩ source
  simp only at hrun hd hproper
  generalize parse (tokensOf source) next = p at hrun hd hproper
  refine ⟨⟨"", ds.map Diagnostic.render, true, false⟩,
    ⟨⟨heap, environment, d, #[], callDepth, maxCallDepth, now⟩, .empty, p.nextNode⟩,
    ⟨rfl, by simpa using hds, rfl, rfl⟩, ?_, rfl, rfl, ?_⟩
  · simp only [Session.trace?, Session.after?, hrun, Report.addAll_eq ds hstatic]
    simp [Session.look, takePrinted, takeMessages, resetReport, Report.take, Report.reset,
      Report.empty, Shown.nothing, hds]
  · -- Only the counter has moved, or there are also depths for identities below it.
    obtain ⟨count, hcount⟩ := Nat.exists_eq_add_of_le hproper.nextNode
    rcases hd with rfl | rfl
    · have hlater := h.later count
      rwa [Session.later, ← hcount] at hlater
    · obtain ⟨o, programs, hwaiting⟩ := h
      obtain ⟨count, -, hrenames⟩ := hproper.renames hwaiting.invariant.1
      exact hrenames.alike (shift_injective _ _)

end Session

/-- An interpreter without the counter that it shares. -/
structure Interpreter where
  machine : Machine
  report : Report

def Interpreter.session (i : Interpreter) (nextNode : Nat) : Session :=
  ⟨i.machine, i.report, nextNode⟩

structure Process where
  own : Interpreter
  other : Interpreter
  nextNode : Nat

/-- A move of the own interpreter, or a text parsed or a program resolved for the other one. -/
inductive Turn where
  | own (move : Move)
  | otherParses (source : String)
  | otherResolves (statements : List Stmt)

def Turn.own? : Turn → Option Move
  | .own move => some move
  | _ => none

namespace Process

def start (now otherNow : Nat → Number) : Process :=
  ⟨⟨Machine.initial now, .empty⟩, ⟨Machine.initial otherNow, .empty⟩, 0⟩

def ownSession (p : Process) : Session := p.own.session p.nextNode

def withOwn (p : Process) (s : Session) : Process := ⟨⟨s.machine, s.report⟩, p.other, s.nextNode⟩

def withOther (p : Process) (s : Session) : Process := ⟨p.own, ⟨s.machine, s.report⟩, s.nextNode⟩

theorem ownSession_withOther (p : Process) (s : Session) :
    (p.withOther s).ownSession = ⟨p.own.machine, p.own.report, s.nextNode⟩ := rfl

/-- What shows of the moves of the own interpreter. -/
def shown? (steps : Nat) : Process → List Turn → Option (List Shown)
  | _, [] => some []
  | p, .own move :: rest =>
    match p.ownSession.after? steps move with
    | none => none
    | some t => ((p.withOwn t.look.2).shown? steps rest).map (t.look.1 :: ·)
  | p, .otherParses source :: rest =>
    (p.withOther ((p.other.session p.nextNode).read source).2).shown? steps rest
  | p, .otherResolves statements :: rest =>
    (p.withOther ((p.other.session p.nextNode).resolve statements)).shown? steps rest

theorem shown?_eq {steps : Nat} (turns : List Turn) : ∀ {p : Process} {s : Session},
    s.Reachable → s.Alike p.ownSession →
    p.shown? steps turns = s.shown? steps (turns.filterMap Turn.own?) := by
  induction turns with
  | nil => exact fun _ _ => rfl
  | cons turn turns ih =>
    intro p s hs h
    cases turn with
    | own move =>
      have hafter := h.after? steps move
      have hreach : ∀ u, s.after? steps move = some u → u.Reachable := fun u hu => hs.after? hu
      rw [shown?, List.filterMap_cons, Turn.own?, Session.shown?, Session.trace?]
      revert hafter hreach
      generalize s.after? steps move = x
      generalize p.ownSession.after? steps move = y
      rintro (huv | _) hreach
      · rename_i u v
        obtain ⟨hshown, hleft⟩ := huv.look
        have hrest := ih (p := p.withOwn v.look.2) (hreach u rfl).look hleft
        simp only [hrest, hshown, Session.shown?, Option.map_map, Function.comp_def]
      · rfl
    | otherParses source =>
      obtain ⟨count, hcount⟩ := Nat.exists_eq_add_of_le
        ((p.other.session p.nextNode).read_proper source).nextNode
      rw [shown?]
      refine ih hs ?_
      simp only [ownSession_withOther, Session.read_eq, hcount]
      exact (hs.later count).trans (h.later count)
    | otherResolves statements => exact ih hs h

end Process

/-- Texts that fail before they are executed do not show, but for their own diagnostics: neither
when they are run, whatever was done before and is done after the reset, nor when another
interpreter of the process parses and resolves them in between. -/
theorem failures_are_invisible (now : Nat → Number) (steps : Nat) :
    (∀ before shown s source, (Session.start now).trace? steps before = some (shown, s) →
      s.report.syntaxError = false → s.report.runtimeError = false → ¬Clean source →
      ∃ failed t, failed.Refused ∧
        s.trace? steps [.run source, .resetReport] = some ([failed, .nothing], t) ∧
        t.machine.heap = s.machine.heap ∧ t.machine.environment = s.machine.environment ∧
        ∀ after, (Session.start now).shown? steps
            (before ++ .run source :: .resetReport :: after) =
          ((Session.start now).shown? steps (before ++ after)).map fun all =>
            all.take before.length ++ failed :: .nothing :: all.drop before.length) ∧
      ∀ otherNow turns, (Process.start now otherNow).shown? steps turns =
        (Session.start now).shown? steps (turns.filterMap Turn.own?) := by
  have hstart : (Session.start now).Reachable := ⟨_, _, .start now⟩
  refine ⟨fun before shown s source hbefore hquiet hcalm hsource => ?_, fun otherNow turns => ?_⟩
  · obtain ⟨hs, hseen⟩ := hstart.trace? before ⟨rfl, rfl⟩ hbefore
    obtain ⟨failed, t, hfailed, hrun, hheap, henvironment, halike⟩ :=
      hs.refused steps hseen hquiet hcalm hsource
    refine ⟨failed, t, hfailed, hrun, hheap, henvironment, fun after => ?_⟩
    have hlength := Session.trace?_length before hbefore
    have hrest := Session.shown?_append hrun after
    rw [Session.shown?_append hbefore, Session.shown?_append hbefore,
      show (.run source :: .resetReport :: after : List Move) =
        [.run source, .resetReport] ++ after from rfl, hrest, halike.shown?]
    cases t.shown? steps after <;> simp [← hlength]
  · exact Process.shown?_eq turns hstart .refl

/-- The refused text has a local variable of the name of the global, and an entry for it. -/
theorem failures_are_invisible_between_two_runs :
    ∃ failed : Shown, failed.Refused ∧
      (Session.start (⟨0⟩ : Number)).shown? 20 [.run "var a = true;",
        .run "{ var a; print a; break; }", .resetReport, .run "print a;"] =
          some [.nothing, failed, .nothing, ⟨"true\n", [], false, false⟩] := by
  have hsource : ¬Clean "{ var a; print a; break; }" := fun h =>
    absurd ((accepted_iff _).mp h.resolved) (by decide +kernel)
  have hbefore : ((Session.start (⟨0⟩ : Number)).trace? 20 [.run "var a = true;"]).map (fun ended =>
      (ended.1, ended.2.report.syntaxError, ended.2.report.runtimeError)) =
        some ([.nothing], false, false) := by decide +kernel
  have hafter : (Session.start (⟨0⟩ : Number)).shown? 20 ([.run "var a = true;"] ++ [.run "print a;"]) =
      some [.nothing, ⟨"true\n", [], false, false⟩] := by decide +kernel
  obtain ⟨⟨shown, s⟩, hs, heq⟩ := Option.map_eq_some_iff.mp hbefore
  simp only [Prod.mk.injEq] at heq
  obtain ⟨failed, t, hfailed, -, -, -, hinserted⟩ :=
    (failures_are_invisible (⟨0⟩ : Number) 20).1 _ _ _ _ hs heq.2.1 heq.2.2 hsource
  have hshown := hinserted [.run "print a;"]
  rw [hafter] at hshown
  exact ⟨failed, hfailed, hshown⟩

end Lox
