import Lox.Proofs.Machine.Origins
import Lox.Proofs.Machine.Runs
import Lox.Session

/-! The states that a session can come to.

A session waits for a text, stands between two statements of an accepted one, or is in the middle
of a statement. Texts are read and statements are run as `Session.run?` does it, one step of the
machine at a time and without a limit on their number; between the runs a caller may take what was
printed or reported, reset the report, and set the limit of calls and the clock. -/

namespace Lox

inductive Activity where
  | waiting (s : Session)
  | between (s : Session) (rest : List Stmt)
  | running (c : Config) (rest : List Stmt) (report : Report) (nextNode : Nat)

/-- The activities of sessions, with the record of their environments and the programs that were
accepted so far. -/
inductive Activity.Reachable : Origins → List (List Stmt) → Activity → Prop where
  | start (now : Nat → Number) : Reachable Origins.start [] (.waiting (Session.start now))
  | adjusted {o programs s} (printed : Array String) (maxCallDepth : Nat) (now : Nat → Number)
      (report : Report) : Reachable o programs (.waiting s) →
    Reachable o programs (.waiting
      ⟨{ s.machine with printed := printed, maxCallDepth := maxCallDepth, now := now }, report,
        s.nextNode⟩)
  | unread {o programs s} (source : String) : Reachable o programs (.waiting s) →
    (s.read source).2.report.syntaxError = true →
    Reachable o programs (.waiting (s.read source).2)
  | refused {o programs s} (source : String) : Reachable o programs (.waiting s) →
    (s.read source).2.report.syntaxError = false →
    ((s.read source).2.resolve (s.read source).1).report.syntaxError = true →
    Reachable o programs (.waiting ((s.read source).2.resolve (s.read source).1))
  | accepted {o programs s} (source : String) : Reachable o programs (.waiting s) →
    (s.read source).2.report.syntaxError = false →
    ((s.read source).2.resolve (s.read source).1).report.syntaxError = false →
    Reachable o ((s.read source).1 :: programs)
      (.between ((s.read source).2.resolve (s.read source).1) (s.read source).1)
  | finished {o programs s} : Reachable o programs (.between s []) →
    Reachable o programs (.waiting s)
  | begun {o programs s statement rest} : Reachable o programs (.between s (statement :: rest)) →
    Reachable o programs (.running ⟨s.machine, .exec statement, []⟩ rest s.report s.nextNode)
  | step {o programs c rest report nextNode} :
    Reachable o programs (.running c rest report nextNode) →
    Reachable (o.performAll c.deeds) programs (.running c.step rest report nextNode)
  | completed {o programs m c rest report nextNode} : (∀ e, c ≠ .failed e) →
    Reachable o programs (.running ⟨m, .done c, []⟩ rest report nextNode) →
    Reachable o programs (.between ⟨m, report, nextNode⟩ rest)
  | failed {o programs m e rest report nextNode} :
    Reachable o programs (.running ⟨m, .done (.failed e), []⟩ rest report nextNode) →
    Reachable o programs (.waiting ⟨m, report.add e.diagnostic, nextNode⟩)

/-- A session that any number of runs can lead to. -/
def Session.Reachable (s : Session) : Prop :=
  ∃ o programs, Activity.Reachable o programs (.waiting s)

/-- Where a text that is accepted stands after some steps of its first statement. -/
def Session.configAfter? (s : Session) (source : String) (steps : Nat) : Option Config :=
  (s.read source).1.head?.map fun statement => Config.step^[steps]
    ⟨((s.read source).2.resolve (s.read source).1).machine, .exec statement, []⟩

namespace Activity.Reachable

variable {o : Origins} {programs : List (List Stmt)}

theorem limited {s : Session} (h : Reachable o programs (.waiting s)) (depth : Nat) :
    Reachable o programs (.waiting (s.setMaxCallDepth depth)) :=
  h.adjusted s.machine.printed depth s.machine.now s.report

theorem steps {rest : List Stmt} {report : Report} {nextNode : Nat} (count : Nat) :
    ∀ {o : Origins} {c : Config}, Reachable o programs (.running c rest report nextNode) →
    ∃ o', Reachable o' programs (.running (Config.step^[count] c) rest report nextNode) := by
  induction count with
  | zero => exact fun h => ⟨_, h⟩
  | succ count ih => exact fun h => ih h.step

theorem runUpTo {c : Config} {rest : List Stmt} {report : Report} {nextNode steps : Nat}
    {completion : Completion} {m : Machine}
    (h : Reachable o programs (.running c rest report nextNode))
    (hr : c.runUpTo steps = some (completion, m)) :
    ∃ o', Reachable o' programs (.running ⟨m, .done completion, []⟩ rest report nextNode) := by
  obtain ⟨count, hcount⟩ := Config.iterate_of_runUpTo hr
  exact hcount ▸ h.steps count

theorem configAfter? {s : Session} {source : String} {steps : Nat} {c : Config}
    (h : Reachable o programs (.waiting s))
    (hread : (s.read source).2.report.syntaxError = false)
    (hresolve : ((s.read source).2.resolve (s.read source).1).report.syntaxError = false)
    (hc : s.configAfter? source steps = some c) :
    ∃ o' rest report nextNode,
      Reachable o' ((s.read source).1 :: programs) (.running c rest report nextNode) := by
  obtain ⟨statement, hhead, rfl⟩ := Option.map_eq_some_iff.mp hc
  obtain ⟨rest, hcons⟩ := List.head?_eq_some_iff.mp hhead
  have hbetween := h.accepted source hread hresolve
  rw [hcons] at hbetween
  obtain ⟨o', hrun⟩ := hbetween.begun.steps steps
  exact ⟨o', _, _, _, hcons ▸ hrun⟩

theorem execute? {steps : Nat} {s' : Session} : ∀ {rest : List Stmt} {o : Origins} {s : Session},
    Reachable o programs (.between s rest) → s.execute? steps rest = some s' →
    ∃ o', Reachable o' programs (.waiting s') := by
  intro rest
  induction rest with
  | nil =>
    intro o s h hr
    cases hr
    exact ⟨o, h.finished⟩
  | cons statement rest ih =>
    rintro o ⟨m, report, nextNode⟩ h hr
    rw [Session.execute?] at hr
    split at hr
    · cases hr
    · rename_i e m' he
      cases hr
      obtain ⟨o', hrun⟩ := h.begun.runUpTo he
      exact ⟨o', hrun.failed⟩
    · rename_i c m' hc he
      obtain ⟨o', hrun⟩ := h.begun.runUpTo he
      exact ih (hrun.completed hc) hr

/-- Whatever a run leaves behind is reachable. -/
theorem run? {s s' : Session} {steps : Nat} {source : String}
    (h : Reachable o programs (.waiting s)) (hr : s.run? steps source = some s') :
    ∃ o' programs', Reachable o' programs' (.waiting s') := by
  unfold Session.run? Session.perform? at hr
  simp only at hr
  split at hr
  · rename_i hread
    cases hr
    exact ⟨o, programs, h.unread source hread⟩
  · rename_i hread
    split at hr
    · rename_i hresolve
      cases hr
      exact ⟨o, programs, h.refused source (by simpa using hread) hresolve⟩
    · rename_i hresolve
      obtain ⟨o', hrun⟩ :=
        (h.accepted source (by simpa using hread) (by simpa using hresolve)).execute? hr
      exact ⟨o', _, hrun⟩

end Activity.Reachable

theorem Session.Reachable.run? {s s' : Session} (h : s.Reachable) {steps : Nat} {source : String}
    (hr : s.run? steps source = some s') : s'.Reachable :=
  let ⟨_, _, h⟩ := h
  h.run? hr

end Lox
