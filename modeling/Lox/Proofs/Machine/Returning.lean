import Lox.Proofs.Machine.Runs

/-! What happens above a frame.

Whatever is begun above a frame comes to its end there, if it does, before the frame goes on; so a
run down to some frames is a run down to the frame on top of them, and what the frame makes of the
completion. -/

namespace Lox

namespace Config

/-- How that which was being run has just come to its end. -/
def completion? (c : Config) : Option Completion :=
  match c.control with
  | .done completion => some completion
  | _ => none

variable {c : Config} {frame : Frame} {fs : List Frame} {base : ControlState}
  {completion : Completion} {m : Machine}

/-- A configuration above some frames is not there yet. -/
theorem LeadsTo.frames_ne (h : c.LeadsTo (frame :: fs) base) : c.frames ≠ fs := by
  intro hfs
  obtain ⟨above, hframes, -⟩ := h
  have hlength := congrArg List.length (hfs.symm.trans hframes)
  simp at hlength
  omega

/-- A run down to some frames is one to the frame on top of them first. -/
theorem Returns.through (hr : c.Returns fs completion m) (h : c.LeadsTo (frame :: fs) base) :
    ∃ first m', c.Returns (frame :: fs) first m' ∧
      (m'.resume fs frame first).Returns fs completion m := by
  induction hr with
  | done => exact absurd rfl h.frames_ne
  | @step c completion m hrest hr ih =>
    by_cases hdone : ∃ first, c.control = .done first ∧ c.frames = frame :: fs
    · obtain ⟨first, hcontrol, hframes⟩ := hdone
      obtain ⟨m', control, frames⟩ := c
      obtain rfl : control = .done first := hcontrol
      obtain rfl : frames = frame :: fs := hframes
      exact ⟨first, m', .done, hr⟩
    · have habove : ∀ first, c.control = .done first → c.frames ≠ frame :: fs := by
        intro first hcontrol hframes
        exact hdone ⟨first, hcontrol, hframes⟩
      obtain ⟨first, m', hfirst, hlater⟩ := ih (h.step habove)
      exact ⟨first, m', .step habove hfirst, hlater⟩

/-- A run to a frame goes on to the frames below it. -/
theorem Returns.goesOn {first : Completion} {m' : Machine} (hr : c.Returns (frame :: fs) first m')
    (h : c.LeadsTo (frame :: fs) base)
    (hlater : (m'.resume fs frame first).Returns fs completion m) :
    c.Returns fs completion m := by
  induction hr with
  | done => exact .step (fun _ _ => h.frames_ne) hlater
  | step hrest _ ih => exact .step (fun _ _ => h.frames_ne) (ih (h.step hrest) hlater)

/-- What comes to an end does so after some steps. -/
theorem Returns.iterate (hr : c.Returns fs completion m) :
    ∃ count, Config.step^[count] c = ⟨m, .done completion, fs⟩ := by
  induction hr with
  | done => exact ⟨0, rfl⟩
  | step _ _ ih =>
    obtain ⟨count, hcount⟩ := ih
    exact ⟨count + 1, hcount⟩

/-- What has come to its end does not come to another one. -/
theorem Returns.of_done {first : Completion} {m' : Machine}
    (hr : Returns fs ⟨m', .done first, fs⟩ completion m) : completion = first ∧ m = m' := by
  cases hr with
  | done => exact ⟨rfl, rfl⟩
  | step hrest _ => exact absurd rfl (hrest first rfl)

theorem Returns.unique {completion' : Completion} {m' : Machine}
    (hr : c.Returns fs completion m) (hr' : c.Returns fs completion' m') :
    completion' = completion ∧ m' = m := by
  induction hr with
  | done => exact hr'.of_done
  | step hrest _ ih =>
    cases hr' with
    | done => exact absurd rfl (hrest _ rfl)
    | step _ hr' => exact ih hr'

end Config

/-- A call runs above its frame. -/
theorem Machine.leads_enter (m : Machine) (fs : List Frame) (f : Closure) (arguments : List Value)
    (result : CallResult) :
    ∃ base, (m.enter fs f arguments result).LeadsTo (.call result :: fs) base :=
  ⟨_, runBlock_leads _ _ _ _⟩

end Lox
