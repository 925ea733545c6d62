import Lox.Proofs.Machine.Settings
import Mathlib.Data.Nat.Find

/-! Runs under another limit of calls.

The limit is read where a call is made and nowhere else. So two machines that differ in it take the
same steps until a call is refused for the smaller one, and that machine has nothing left to print:
its failure goes out through all the frames. -/

namespace Lox

def Machine.withLimit (m : Machine) (limit : Nat) : Machine := { m with maxCallDepth := limit }

def Config.withLimit (c : Config) (limit : Nat) : Config :=
  { c with machine := c.machine.withLimit limit }

namespace Config

variable {c : Config} {limit : Nat}

/-- The next step does not overflow. -/
def Admitted (c : Config) : Prop := ∀ t, ¬c.machine.TooDeep t c.attempt?

/-- A call that the smaller limit admits is admitted by the larger. -/
theorem Admitted.answer (hok : c.Admitted) (hle : c.machine.maxCallDepth ≤ limit) :
    Setting.Answer ⟨fun _ => limit, id⟩ c.machine c.attempt? where
  admits callee paren arguments hattempt harity := by
    have hfits : ¬c.machine.maxCallDepth ≤ c.machine.callDepth := fun hd =>
      hok paren ⟨callee, arguments, hattempt, harity, hd⟩
    exact ⟨fun hd => absurd (Nat.le_trans hle hd) hfits, fun hd => absurd hd hfits⟩
  reads _ _ _ := rfl

theorem step_withLimit (hle : c.machine.maxCallDepth ≤ limit) (hok : c.Admitted) :
    (c.withLimit limit).step = c.step.withLimit limit :=
  step_within (hok.answer hle)

/-- With its own limit a machine is itself. -/
theorem maxCallDepth_step (hok : c.Admitted) :
    c.step.machine.maxCallDepth = c.machine.maxCallDepth := by
  have hstep : c.step = c.step.withLimit c.machine.maxCallDepth :=
    step_withLimit (c := c) (Nat.le_refl _) hok
  exact congrArg (fun c => c.machine.maxCallDepth) hstep

/-- Two machines go together for as long as the one with the smaller limit does not overflow. -/
theorem iterate_withLimit (hle : c.machine.maxCallDepth ≤ limit) (count : Nat)
    (hok : ∀ j < count, (step^[j] c).Admitted) :
    step^[count] (c.withLimit limit) = (step^[count] c).withLimit limit ∧
      (step^[count] c).machine.maxCallDepth = c.machine.maxCallDepth := by
  induction count with
  | zero => exact ⟨rfl, rfl⟩
  | succ count ih =>
    obtain ⟨hsame, hmax⟩ := ih fun j hj => hok j (Nat.lt_succ_of_lt hj)
    have hfits := hok count (Nat.lt_succ_self count)
    rw [Function.iterate_succ_apply', Function.iterate_succ_apply', hsame]
    exact ⟨step_withLimit (by rw [hmax]; exact hle) hfits, (maxCallDepth_step hfits).trans hmax⟩

theorem ended?_withLimit : (c.withLimit limit).ended? =
    c.ended?.map fun ended => (ended.1, ended.2.withLimit limit) :=
  ended?_within (w := ⟨fun _ => limit, id⟩)

/-- A failure goes out through all the frames, and nothing is printed on the way. -/
theorem iterate_of_failed (e : RuntimeError) (fs : List Frame) : ∀ m : Machine,
    ∃ m', step^[fs.length] ⟨m, .done (.failed e), fs⟩ = ⟨m', .done (.failed e), []⟩ ∧
      m'.printed = m.printed := by
  induction fs with
  | nil => exact fun m => ⟨m, rfl, rfl⟩
  | cons frame fs ih =>
    intro m
    have hstep : ∃ m₁, step ⟨m, .done (.failed e), frame :: fs⟩ = ⟨m₁, .done (.failed e), fs⟩ ∧
        m₁.printed = m.printed := by
      cases frame <;> exact ⟨_, rfl, rfl⟩
    obtain ⟨m₁, hstep, hprinted⟩ := hstep
    obtain ⟨m', hends, hprinted'⟩ := ih m₁
    exact ⟨m', by rw [List.length_cons, Function.iterate_succ_apply, hstep, hends],
      hprinted'.trans hprinted⟩

theorem step_of_tooDeep {t : Token} (h : c.machine.TooDeep t c.attempt?) :
    c.step = ⟨c.machine, .overflow t, c.frames.tail⟩ := by
  obtain ⟨callee, arguments, hattempt, harity, hdepth⟩ := h
  rw [step_of_attempt? hattempt]
  unfold Machine.call
  rw [harity]
  simp only
  rw [if_neg (not_not_intro rfl), if_pos hdepth]
  rfl

/-- Once a step overflows, that is how the run ends. -/
theorem ends_of_tooDeep {j : Nat} {t : Token}
    (h : (step^[j] c).machine.TooDeep t (step^[j] c).attempt?) :
    ∃ count m, step^[count] c = ⟨m, .done (.failed ⟨t, .stackOverflow⟩), []⟩ ∧
      m.printed = (step^[j] c).machine.printed := by
  obtain ⟨m, hends, hprinted⟩ := iterate_of_failed ⟨t, .stackOverflow⟩ (step^[j] c).frames.tail
    (step^[j] c).machine
  refine ⟨(step^[j] c).frames.tail.length + (j + 1), m, ?_, hprinted⟩
  rw [Function.iterate_add_apply, Function.iterate_succ_apply', step_of_tooDeep h]
  exact hends

theorem control_step_of_failed {e : RuntimeError} (h : c.control = .done (.failed e)) :
    c.step.control = .done (.failed e) := by
  obtain ⟨m, control, fs⟩ := c
  obtain rfl : control = .done (.failed e) := h
  cases fs with
  | nil => rfl
  | cons frame fs => cases frame <;> rfl

/-- A failure was raised by one of the steps before it. -/
theorem raises?_of_failed {e : RuntimeError} (hbegin : ∀ e, c.control ≠ .done (.failed e))
    (count : Nat) : (step^[count] c).control = .done (.failed e) →
    ∃ j < count, (step^[j] c).raises? = some e := by
  induction count with
  | zero => exact fun h => absurd h (hbegin e)
  | succ count ih =>
    intro h
    rw [Function.iterate_succ_apply'] at h
    by_cases hfailed : ∃ e', (step^[count] c).control = .done (.failed e')
    · obtain ⟨e', he'⟩ := hfailed
      have hsame := (control_step_of_failed he').symm.trans h
      obtain ⟨j, hj, hraises⟩ := ih (he'.trans hsame)
      exact ⟨j, Nat.lt_succ_of_lt hj, hraises⟩
    · refine ⟨count, Nat.lt_succ_self count, ?_⟩
      unfold raises?
      split
      · rename_i e' he'
        exact absurd ⟨e', he'⟩ hfailed
      · rename_i e' he' _
        rw [h] at he'
        cases he'
        rfl
      · rename_i hnone
        exact absurd h (hnone e)

/-- A run that ends without an overflow had none on its way. -/
theorem fits_of_ended {count : Nat} {m : Machine} {completion : Completion}
    (h : step^[count] c = ⟨m, .done completion, []⟩)
    (hno : ∀ t, completion ≠ .failed ⟨t, .stackOverflow⟩) (j : Nat) : (step^[j] c).Admitted := by
  intro t hdeep
  obtain ⟨count', m', hends, -⟩ := ends_of_tooDeep hdeep
  exact hno t (ended_unique h hends).2

theorem not_admitted : ¬c.Admitted ↔ ∃ t, c.machine.TooDeep t c.attempt? := by
  unfold Admitted
  push Not
  rfl

/-- Of the steps that overflow one is the first. -/
theorem exists_first_overflow {j : Nat} (h : ¬(step^[j] c).Admitted) :
    ∃ first ≤ j, ¬(step^[first] c).Admitted ∧ ∀ i < first, (step^[i] c).Admitted := by
  classical
  have hsome : ∃ j, ¬(step^[j] c).Admitted := ⟨j, h⟩
  exact ⟨Nat.find hsome, Nat.find_min' hsome h, Nat.find_spec hsome,
    fun i hi => not_not.mp (Nat.find_min hsome hi)⟩

/-- A run that ends in an overflow has printed what any machine with a larger limit has printed by
the step that overflows. -/
theorem printed_of_overflow {count : Nat} {m : Machine} {t : Token}
    (hle : c.machine.maxCallDepth ≤ limit) (hbegin : ∀ e, c.control ≠ .done (.failed e))
    (hends : step^[count] c = ⟨m, .done (.failed ⟨t, .stackOverflow⟩), []⟩) :
    ∃ first ≤ count, (step^[first] (c.withLimit limit)).machine.printed = m.printed := by
  obtain ⟨j, hj, hraises⟩ := raises?_of_failed hbegin count (congrArg control hends)
  have hover : ¬(step^[j] c).Admitted := fun hok => hok t (overflows_iff.mp hraises)
  obtain ⟨first, hfirst, hdeep, hbefore⟩ := exists_first_overflow hover
  obtain ⟨t', hdeep⟩ := not_admitted.mp hdeep
  obtain ⟨count', m', hends', hprinted⟩ := ends_of_tooDeep hdeep
  obtain ⟨rfl, -⟩ := ended_unique hends hends'
  refine ⟨first, by omega, ?_⟩
  rw [(iterate_withLimit hle first hbefore).1]
  exact hprinted.symm

end Config

/-! What has been printed stays printed. -/

namespace Machine

variable (m : Machine) (fs : List Frame)

theorem printed_finish (r : Except RuntimeError Value) :
    (m.finish fs r).machine.printed = m.printed := by
  cases r <;> rfl

theorem printed_finishProperty (r : Except RuntimeError (Value × Property)) :
    (m.finishProperty fs r).machine.printed = m.printed := by
  rcases r with e | ⟨receiver, v | f⟩ <;> rfl

theorem printed_finishAssign (r : Reference) (v : Value) :
    (m.finishAssign fs r v).machine.printed = m.printed := by
  unfold finishAssign
  split <;> rfl

theorem printed_runBlock (outer : EnvironmentId) (rest : List Stmt) :
    (m.runBlock fs outer rest).machine.printed = m.printed := by
  cases rest <;> rfl

theorem printed_enter (f : Closure) (arguments : List Value) (result : CallResult) :
    (m.enter fs f arguments result).machine.printed = m.printed :=
  printed_runBlock _ _ _ _

theorem printed_call (callee : Value) (paren : Token) (arguments : List Value) :
    (m.call fs callee paren arguments).machine.printed = m.printed := by
  unfold call
  split
  · rfl
  split
  · rfl
  split
  · rfl
  split
  · rfl
  · unfold callFunction
    split
    · exact printed_enter m fs _ _ _
    · rfl
  · unfold callClass
    simp only
    split
    · rfl
    · exact printed_enter _ fs _ _ _
  · rfl

theorem printed_evaluate (e : Expr) : (m.evaluate fs e).machine.printed = m.printed := by
  cases e with
  | «variable» r => exact printed_finish m fs _
  | receiver r => exact printed_finish m fs _
  | inherited r method => exact printed_finishProperty m fs _
  | _ => rfl

theorem printed_execute (s : Stmt) : (m.execute fs s).machine.printed = m.printed := by
  cases s with
  | varDecl t e => cases e <;> rfl
  | block body => exact printed_runBlock _ fs _ body
  | classDecl t r methods =>
    simp only [execute]
    split <;> rfl
  | returning t e => cases e <;> rfl
  | _ => rfl

theorem printed_afterBody (loop : Loop) : (m.afterBody fs loop).machine.printed = m.printed := by
  unfold afterBody
  split <;> rfl

/-- Only the frame of a `print` prints. -/
theorem printed_resumeValue (v : Value) (frame : Frame) :
    m.printed.toList <+: (m.resumeValue fs v frame).machine.printed.toList := by
  have hsame (h : (m.resumeValue fs v frame).machine.printed = m.printed) :
      m.printed.toList <+: (m.resumeValue fs v frame).machine.printed.toList :=
    h.symm ▸ List.prefix_refl _
  cases frame with
  | print => simp [resumeValue]
  | unary t => exact hsame (printed_finish m fs _)
  | binaryRight left t => exact hsame (printed_finish m fs _)
  | get t => exact hsame (printed_finishProperty m fs _)
  | assign r => exact hsame (printed_finishAssign m fs r v)
  | callee paren arguments =>
    cases arguments with
    | nil => exact hsame (printed_call m fs v paren [])
    | cons e rest => exact hsame rfl
  | argument callee paren done rest =>
    cases rest with
    | nil => exact hsame (printed_call m fs callee paren (done.push v).toList)
    | cons e rest => exact hsame rfl
  | logical t right =>
    refine hsame ?_
    simp only [resumeValue]
    split <;> rfl
  | setObject t e => cases v <;> exact hsame rfl
  | branch s alternative =>
    refine hsame ?_
    simp only [resumeValue]
    split
    · rfl
    · cases alternative <;> rfl
  | loopTest loop =>
    refine hsame ?_
    simp only [resumeValue]
    split <;> rfl
  | _ => exact hsame rfl

theorem printed_resume (frame : Frame) (c : Completion) :
    m.printed.toList <+: (m.resume fs frame c).machine.printed.toList := by
  have hsame (h : (m.resume fs frame c).machine.printed = m.printed) :
      m.printed.toList <+: (m.resume fs frame c).machine.printed.toList :=
    h.symm ▸ List.prefix_refl _
  cases frame with
  | block rest outer =>
    cases c with
    | normal => exact hsame (printed_runBlock m fs outer rest)
    | _ => exact hsame rfl
  | call result => cases c <;> exact hsame rfl
  | loopBody loop =>
    cases c with
    | normal => exact hsame (printed_afterBody m fs loop)
    | continued => exact hsame (printed_afterBody m fs loop)
    | _ => exact hsame rfl
  | _ =>
    cases c with
    | value v => exact printed_resumeValue m fs v _
    | _ => exact hsame rfl

end Machine

namespace Config

variable {c : Config}

theorem printed_step (c : Config) : c.machine.printed.toList <+: c.step.machine.printed.toList := by
  obtain ⟨m, control, fs⟩ := c
  cases control with
  | eval e => exact (congrArg Array.toList (m.printed_evaluate fs e)).symm ▸ List.prefix_refl _
  | exec s => exact (congrArg Array.toList (m.printed_execute fs s)).symm ▸ List.prefix_refl _
  | done c =>
    cases fs with
    | nil => exact List.prefix_refl _
    | cons frame fs => exact m.printed_resume fs frame c

theorem printed_iterate {count more : Nat} (hle : count ≤ more) :
    (step^[count] c).machine.printed.toList <+: (step^[more] c).machine.printed.toList := by
  induction hle with
  | refl => exact List.prefix_refl _
  | step _ ih =>
    rw [Function.iterate_succ_apply']
    exact ih.trans (printed_step _)

end Config

end Lox
