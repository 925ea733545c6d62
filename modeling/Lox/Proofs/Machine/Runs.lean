import Lox.Proofs.Machine.Exits
import Mathlib.Logic.Function.Iterate

/-! Runs as iterated steps.

A run that comes to an end is so many steps of its configuration. The table of depths is the one
part of a machine that no step writes: all of a run has the table that it began with. -/

namespace Lox

namespace Config

theorem LeadsTo.depths {c : Config} {frames : List Frame} {base : ControlState}
    (h : c.LeadsTo frames base) : c.machine.depths = base.depths :=
  let ⟨_, _, habove⟩ := h
  habove.depths

/-- The table of depths is written by analysis only. -/
theorem depths_step (c : Config) : c.step.machine.depths = c.machine.depths := by
  obtain ⟨m, control, frames⟩ := c
  cases control with
  | eval e => exact (m.evaluate_leads frames e).depths
  | exec s => exact (m.execute_leads frames s).depths
  | done completion =>
    cases frames with
    | nil => rfl
    | cons frame frames =>
      cases frame with
      | call result => cases completion <;> rfl
      | block rest outer => exact (m.resume_leads frames completion (.block rest outer)).depths
      | _ => exact (m.resume_leads frames completion (.plain rfl fun _ => rfl)).depths

variable {c : Config}

/-- How a configuration has ended, if it has. -/
def ended? : Config → Option (Completion × Machine)
  | ⟨m, .done completion, []⟩ => some (completion, m)
  | _ => none

theorem eq_of_ended? {ended : Completion × Machine} (h : c.ended? = some ended) :
    c = ⟨ended.2, .done ended.1, []⟩ := by
  unfold ended? at h
  split at h
  · cases h
    rfl
  · cases h

theorem iterate_of_ended {m : Machine} {completion : Completion} (count : Nat) :
    step^[count] ⟨m, .done completion, []⟩ = ⟨m, .done completion, []⟩ :=
  Function.iterate_fixed rfl count

/-- A run of so many steps ends with what these steps come to. -/
theorem runUpTo_eq (steps : Nat) (c : Config) : c.runUpTo steps = (step^[steps] c).ended? := by
  fun_induction runUpTo steps c with
  | case1 steps m completion =>
    rw [iterate_of_ended]
    rfl
  | case2 c hc =>
    obtain ⟨m, control, fs⟩ := c
    cases control with
    | done completion =>
      cases fs with
      | nil => exact absurd rfl (hc m completion)
      | cons frame fs => rfl
    | _ => rfl
  | case3 steps c hc ih => rw [Function.iterate_succ_apply, ih]

theorem iterate_of_runUpTo {steps : Nat} {completion : Completion} {m : Machine}
    (h : c.runUpTo steps = some (completion, m)) :
    ∃ count, step^[count] c = ⟨m, .done completion, []⟩ := by
  rw [runUpTo_eq] at h
  exact ⟨steps, eq_of_ended? h⟩

/-- A configuration that has ended stays as it is. -/
theorem iterate_of_le {count more : Nat} {m : Machine} {completion : Completion}
    (h : step^[count] c = ⟨m, .done completion, []⟩) (hle : count ≤ more) :
    step^[more] c = ⟨m, .done completion, []⟩ := by
  obtain ⟨extra, rfl⟩ := Nat.exists_eq_add_of_le' hle
  rw [Function.iterate_add_apply, h, iterate_of_ended]

theorem ended_unique {count count' : Nat} {m m' : Machine} {completion completion' : Completion}
    (h : step^[count] c = ⟨m, .done completion, []⟩)
    (h' : step^[count'] c = ⟨m', .done completion', []⟩) : m = m' ∧ completion = completion' := by
  have hsame := (iterate_of_le h (Nat.le_max_left count count')).symm.trans
    (iterate_of_le h' (Nat.le_max_right count count'))
  simpa using hsame

end Config

theorem Machine.depths_exec? {m m' : Machine} {steps : Nat} {s : Stmt} {c : Completion}
    (h : m.exec? steps s = some (c, m')) : m'.depths = m.depths :=
  congrArg ControlState.depths ((Config.returns_of_runUpTo h).controlState .here)

end Lox
