import Lox.Proofs.Machine.Alike
import Lox.Proofs.Session.Invariant

/-! Executions of programs in which local variables have other names.

The two machines go side by side, step by step, and come to their ends together. What they have
printed is the same all the way, and a failure is the same but for the token that it names. -/

namespace Lox

variable {f : Respelling} {programs : List (List Stmt)} {o : Origins} {nextNode : Nat}

/-- Between two statements of a session: the machine that runs the respelled program. -/
structure Machine.Respells (f : Respelling) (programs : List (List Stmt)) (nextNode : Nat)
    (m m' : Machine) : Prop where
  same : m' = m.withHeap m'.heap
  outermost : m.environment = Heap.globals
  heap : ∃ o, m.Ready programs o nextNode ∧ m.heap.Respells f o m'.heap

/-- In a statement: where the two machines are, and where the first of them stands. -/
structure Config.Accompanies (f : Respelling) (programs : List (List Stmt)) (nextNode : Nat)
    (o : Origins) (c c' : Config) : Prop where
  respells : c.Respells f o c'
  ready : c.machine.Ready programs o nextNode
  stands : c.control.Stands programs o c.machine.environment c.frames

namespace Config

variable {c c' : Config}

theorem Respells.printed (h : c.Respells f o c') : c'.machine.printed = c.machine.printed := by
  rw [h.machine]
  rfl

namespace Accompanies

theorem step (h : c.Accompanies f programs nextNode o c') (hs : f.Suits programs) :
    c.step.Accompanies f programs nextNode (o.performAll c.deeds) c'.step := by
  obtain ⟨hready, hstands⟩ := h.ready.step h.stands
  exact ⟨h.respells.step ⟨h.ready.kept, h.stands⟩ h.ready.faithful hs, hready, hstands⟩

theorem steps (hs : f.Suits programs) (count : Nat) : ∀ {o : Origins} {c c' : Config},
    c.Accompanies f programs nextNode o c' →
    ∃ o', (Config.step^[count] c).Accompanies f programs nextNode o' (Config.step^[count] c') := by
  induction count with
  | zero => exact fun h => ⟨_, h⟩
  | succ count ih => exact fun h => ih (h.step hs)

/-- If one of the two has ended, so has the other. -/
theorem ended? (h : c.Accompanies f programs nextNode o c') :
    Option.Rel (fun ended ended' => ended'.1 = ended.1.respell f ∧
        ended.2.Respells f programs nextNode ended'.2) c.ended? c'.ended? := by
  obtain ⟨m, control, fs⟩ := c
  obtain ⟨m', control', fs'⟩ := c'
  obtain ⟨⟨hh, hmachine, hcontrol, hframes, -⟩, hready, hstands⟩ := h
  obtain rfl : control' = control.respell f := hcontrol
  obtain rfl : fs' = fs.map (Frame.respell f) := hframes
  cases control with
  | done completion =>
    cases fs with
    | nil =>
      obtain ⟨hole, -, hfits⟩ := hstands
      exact .some ⟨rfl, hmachine, hfits.of_nil.2, o, hready, hh⟩
    | cons frame fs => exact .none
  | _ => exact .none

/-- The two come to their ends together. -/
theorem runUpTo (h : c.Accompanies f programs nextNode o c') (hs : f.Suits programs) (steps : Nat) :
    Option.Rel (fun ended ended' => ended'.1 = ended.1.respell f ∧
        ended.2.Respells f programs nextNode ended'.2)
      (c.runUpTo steps) (c'.runUpTo steps) := by
  rw [runUpTo_eq, runUpTo_eq]
  obtain ⟨o', hsteps⟩ := h.steps hs steps
  exact hsteps.ended?

end Accompanies

end Config

/-- What comes to light while statements are executed: what has been printed and which failure has
ended them, if they have not been cut off in a statement that takes too many steps. -/
structure Course where
  printed : Array String
  failure : Option RuntimeError
  ended : Bool

/-- The course of an execution with so many steps for each statement. -/
def Machine.course (steps : Nat) (m : Machine) : List Stmt → Course
  | [] => ⟨m.printed, none, true⟩
  | s :: rest =>
    match m.exec? steps s with
    | none => ⟨(Config.step^[steps] ⟨m, .exec s, []⟩).machine.printed, none, false⟩
    | some (.failed e, m') => ⟨m'.printed, some e, true⟩
    | some (_, m') => m'.course steps rest

def Course.respell (f : Respelling) (c : Course) : Course :=
  { c with failure := c.failure.map (RuntimeError.respell f) }

@[simp] theorem Course.printed_respell (f : Respelling) (c : Course) :
    (c.respell f).printed = c.printed := rfl

@[simp] theorem Course.ended_respell (f : Respelling) (c : Course) :
    (c.respell f).ended = c.ended := rfl

/-- The report of an execution that began with the given one. -/
def Course.report (c : Course) (report : Report) : Report :=
  match c.failure with
  | none => report
  | some e => report.add e.diagnostic

/-- An execution ends with what has come to light in its course. -/
theorem Session.execute?_course (steps : Nat) (report : Report) (nextNode : Nat)
    (rest : List Stmt) : ∀ m : Machine,
    ((m.course steps rest).ended = false → execute? steps ⟨m, report, nextNode⟩ rest = none) ∧
      ((m.course steps rest).ended = true → ∃ t, execute? steps ⟨m, report, nextNode⟩ rest = some t ∧
        t.machine.printed = (m.course steps rest).printed ∧
        t.report = (m.course steps rest).report report) := by
  induction rest with
  | nil =>
    intro m
    rw [execute?, Machine.course]
    exact ⟨Bool.noConfusion, fun _ => ⟨_, rfl, rfl, rfl⟩⟩
  | cons s rest ih =>
    intro m
    rw [execute?, Machine.course]
    rcases m.exec? steps s with _ | ⟨completion, m'⟩
    · exact ⟨fun _ => rfl, Bool.noConfusion⟩
    · cases completion with
      | failed e => exact ⟨Bool.noConfusion, fun _ => ⟨_, rfl, rfl, rfl⟩⟩
      | _ => exact ih m'

namespace Machine.Respells

variable {m m' : Machine}

theorem printed (h : m.Respells f programs nextNode m') : m'.printed = m.printed := by
  rw [h.same]
  rfl

theorem begun (h : m.Respells f programs nextNode m') {s : Stmt}
    (hn : Known programs .top (.stmt s)) :
    ∃ o, Config.Accompanies f programs nextNode o ⟨m, .exec s, []⟩ ⟨m', .exec (s.respell f), []⟩ := by
  obtain ⟨hsame, hglobals, o, hready, hheap⟩ := h
  have hstands : Stands o m.environment Place.top.opens := by
    rw [hglobals]
    exact ⟨.globals, by simp [Place.top]⟩
  refine ⟨o, ⟨hheap, hsame, rfl, rfl, List.forall_mem_nil _⟩, hready, .top, hstands, hn, ?_⟩
  rw [Place.after_top]
  exact hglobals ▸ .top

theorem exec? (h : m.Respells f programs nextNode m') (hs : f.Suits programs) {s : Stmt}
    (hn : Known programs .top (.stmt s)) (steps : Nat) :
    Option.Rel (fun ended ended' => ended'.1 = ended.1.respell f ∧
        ended.2.Respells f programs nextNode ended'.2)
      (m.exec? steps s) (m'.exec? steps (s.respell f)) :=
  let ⟨_, hc⟩ := h.begun hn
  hc.runUpTo hs steps

/-- The course of the respelled program is its course, respelled. -/
theorem course (hs : f.Suits programs) (steps : Nat) : ∀ {rest : List Stmt} {m m' : Machine},
    m.Respells f programs nextNode m' → Known programs .top (.body rest) →
    m'.course steps (rest.map (Stmt.respell f)) = (m.course steps rest).respell f := by
  intro rest
  induction rest with
  | nil =>
    intro m m' h _
    exact congrArg (fun printed => (⟨printed, none, true⟩ : Course)) h.printed
  | cons s rest ih =>
    intro m m' h hn
    have hrest : Known programs .top (.body rest) := by simpa using hn.part .rest
    have hrun := h.exec? hs (hn.part .first) steps
    obtain ⟨o, hc⟩ := h.begun (hn.part .first)
    obtain ⟨o', hcut⟩ := hc.steps hs steps
    rw [List.map_cons, Machine.course, Machine.course]
    generalize m.exec? steps s = ended, m'.exec? steps (s.respell f) = ended' at hrun
    cases hrun with
    | none => exact congrArg (fun printed => (⟨printed, none, false⟩ : Course)) hcut.respells.printed
    | @some ended ended' hended =>
      obtain ⟨completion, m₁⟩ := ended
      obtain ⟨completion', m₁'⟩ := ended'
      obtain ⟨rfl, hended⟩ := hended
      cases completion with
      | failed e => exact congrArg (fun printed => (⟨printed, some (e.respell f), true⟩ : Course)) hended.printed
      | _ => exact ih hended hrest

end Machine.Respells

end Lox
