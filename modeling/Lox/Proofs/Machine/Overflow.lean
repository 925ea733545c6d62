import Lox.Machine.Step

/-! Overflow of the stack of calls.

Only a call is refused for it, and a call that is refused for anything else is refused for that
first. -/

namespace Lox

theorem RuntimeFault.message_eq_overflow {fault : RuntimeFault} :
    fault.message = "Stack overflow." ↔ fault = .stackOverflow := by
  constructor
  · intro h
    have htext := congrArg String.toList h
    clear h
    cases fault with
    | stackOverflow => rfl
    | _ =>
      -- The equations of `message` are slow to derive, its value is not.
      delta message at htext
      simp only [String.toList_append] at htext
      simp at htext
  · rintro rfl
    rfl

def Control.overflow (t : Token) : Control := .done (.failed ⟨t, .stackOverflow⟩)

/-- The call that is attempted when the last value it waits for comes to its frame: the callee, the
closing parenthesis and the arguments. -/
def Frame.attempt? (v : Value) : Frame → Option (Value × Token × List Value)
  | .callee paren [] => some (v, paren, [])
  | .argument called paren done [] => some (called, paren, (done.push v).toList)
  | _ => none

/-- The call could be made, but for the limit. -/
def Machine.TooDeep (m : Machine) (t : Token) (attempt : Option (Value × Token × List Value)) :
    Prop :=
  ∃ callee arguments, attempt = some (callee, t, arguments) ∧
    m.heap.arity? callee = some arguments.length ∧ m.maxCallDepth ≤ m.callDepth

namespace Operator

variable {operator t : Token}

theorem unary_ne_overflow (v : Value) : unary operator v ≠ .error ⟨t, .stackOverflow⟩ := by
  unfold unary
  split <;> simp

theorem binary_ne_overflow (v w : Value) : binary operator v w ≠ .error ⟨t, .stackOverflow⟩ := by
  unfold binary
  split
  · simp
  · simp
  · unfold add
    split <;> simp
  · unfold onNumbers
    split
    · split <;> simp
    · simp

end Operator

namespace Machine

variable (m : Machine) (fs : List Frame) (t : Token)

theorem read_ne_overflow (r : Reference) : m.read r ≠ .error ⟨t, .stackOverflow⟩ := by
  unfold read
  split <;> simp [undefinedVariable]

theorem inherited_ne_overflow (r : Reference) (method : Token) :
    m.inherited r method ≠ .error ⟨t, .stackOverflow⟩ := by
  unfold inherited
  split
  · simp
  split
  · split
    · simp
    · split <;> simp [undefinedProperty]
  · simp

theorem property_ne_overflow (v : Value) (name : Token) :
    m.property v name ≠ .error ⟨t, .stackOverflow⟩ := by
  unfold property
  split
  · split <;> simp [undefinedProperty]
  · simp

theorem superclass_ne_overflow (r : Option Reference) :
    m.superclass r ≠ .error ⟨t, .stackOverflow⟩ := by
  unfold superclass
  split
  · simp
  · split
    · simp
    · simp
    · rename_i e he
      intro h
      cases h
      exact m.read_ne_overflow t _ he

theorem finish_ne_overflow {r : Except RuntimeError Value}
    (h : r ≠ .error ⟨t, .stackOverflow⟩) : (m.finish fs r).control ≠ .overflow t := by
  cases r with
  | error e => simpa [finish, Control.overflow] using h
  | ok v => simp [finish, Control.overflow]

theorem finishProperty_ne_overflow {r : Except RuntimeError (Value × Property)}
    (h : r ≠ .error ⟨t, .stackOverflow⟩) : (m.finishProperty fs r).control ≠ .overflow t := by
  rcases r with e | ⟨receiver, v | f⟩
  · simpa [finishProperty, Control.overflow] using h
  · simp [finishProperty, Control.overflow]
  · simp [finishProperty, Control.overflow]

theorem runBlock_ne_overflow (outer : EnvironmentId) (rest : List Stmt) :
    (m.runBlock fs outer rest).control ≠ .overflow t := by
  cases rest <;> simp [runBlock, Control.overflow]

theorem tooDeep_some {callee : Value} {paren : Token} {arguments : List Value} :
    m.TooDeep t (some (callee, paren, arguments)) ↔
      paren = t ∧ m.heap.arity? callee = some arguments.length ∧ m.maxCallDepth ≤ m.callDepth := by
  constructor
  · rintro ⟨_, _, ⟨⟩, h⟩
    exact ⟨rfl, h⟩
  · rintro ⟨rfl, h⟩
    exact ⟨_, _, rfl, h⟩

theorem not_tooDeep_none : ¬m.TooDeep t none := by
  rintro ⟨_, _, ⟨⟩, _⟩

/-- A call overflows at its closing parenthesis. -/
theorem call_eq_overflow (callee : Value) (paren : Token) (arguments : List Value) :
    (m.call fs callee paren arguments).control = .overflow t ↔
      m.TooDeep t (some (callee, paren, arguments)) := by
  rw [tooDeep_some]
  unfold call
  split
  · rename_i harity
    simp [harity, Control.overflow]
  rename_i arity harity
  split
  · rename_i hne
    simp [harity, Control.overflow, Ne.symm hne]
  rename_i heq
  split
  · rename_i hlimit
    simp_all [Control.overflow]
  rename_i hlimit
  simp only [hlimit, and_false, iff_false]
  split
  · simp [Control.overflow]
  · unfold callFunction
    split
    · exact runBlock_ne_overflow _ _ t _ _
    · simp [Control.overflow]
  · unfold callClass
    simp only
    split
    · simp [Control.overflow]
    · exact runBlock_ne_overflow _ _ t _ _
  · simp [Control.overflow]

theorem evaluate_ne_overflow (e : Expr) : (m.evaluate fs e).control ≠ .overflow t := by
  cases e with
  | «variable» r => exact m.finish_ne_overflow fs t (m.read_ne_overflow t r)
  | receiver r => exact m.finish_ne_overflow fs t (m.read_ne_overflow t r)
  | inherited r method =>
    exact m.finishProperty_ne_overflow fs t (m.inherited_ne_overflow t r method)
  | _ => simp [evaluate, Control.overflow]

theorem execute_ne_overflow (s : Stmt) : (m.execute fs s).control ≠ .overflow t := by
  cases s with
  | varDecl name e => cases e <;> simp [execute, Control.overflow]
  | block body => exact runBlock_ne_overflow _ _ t _ _
  | classDecl name superclass methods =>
    simp only [execute]
    split
    · simp [Control.overflow]
    · rename_i e he
      intro h
      cases h
      exact m.superclass_ne_overflow t superclass he
  | returning keyword e => cases e <;> simp [execute, Control.overflow]
  | _ => simp [execute, Control.overflow]

theorem afterBody_ne_overflow (loop : Loop) : (m.afterBody fs loop).control ≠ .overflow t := by
  unfold afterBody
  split <;> simp [testAgain, Control.overflow]

theorem resumeValue_eq_overflow (v : Value) (frame : Frame) :
    (m.resumeValue fs v frame).control = .overflow t ↔ m.TooDeep t (frame.attempt? v) := by
  have hother (h : (m.resumeValue fs v frame).control ≠ .overflow t)
      (hnone : frame.attempt? v = none) :
      (m.resumeValue fs v frame).control = .overflow t ↔ m.TooDeep t (frame.attempt? v) := by
    rw [hnone]
    exact iff_of_false h (m.not_tooDeep_none t)
  cases frame with
  | callee paren arguments =>
    cases arguments with
    | nil => exact m.call_eq_overflow fs t v paren []
    | cons e rest => exact hother (by simp [resumeValue, evaluateArguments, Control.overflow]) rfl
  | argument callee paren done rest =>
    cases rest with
    | nil => exact m.call_eq_overflow fs t callee paren (done.push v).toList
    | cons e rest => exact hother (by simp [resumeValue, evaluateArguments, Control.overflow]) rfl
  | unary operator => exact hother (m.finish_ne_overflow fs t (Operator.unary_ne_overflow v)) rfl
  | binaryRight left operator =>
    exact hother (m.finish_ne_overflow fs t (Operator.binary_ne_overflow left v)) rfl
  | get name =>
    exact hother (m.finishProperty_ne_overflow fs t (m.property_ne_overflow t v name)) rfl
  | assign r =>
    refine hother ?_ rfl
    simp only [resumeValue, finishAssign]
    split <;> simp [undefinedVariable, Control.overflow]
  | logical operator right =>
    refine hother ?_ rfl
    simp only [resumeValue]
    split <;> simp [Control.overflow]
  | setObject name e => cases v <;> exact hother (by simp [resumeValue, Control.overflow]) rfl
  | branch consequent alternative =>
    refine hother ?_ rfl
    simp only [resumeValue]
    split
    · simp [Control.overflow]
    · cases alternative <;> simp [Control.overflow]
  | loopTest loop =>
    refine hother ?_ rfl
    simp only [resumeValue]
    split <;> simp [Control.overflow]
  | _ => exact hother (by simp [resumeValue, testAgain, Control.overflow]) rfl

/-- A completion without a value raises nothing. -/
theorem resume_ne_overflow (frame : Frame) {c : Completion} (hvalue : ∀ v, c ≠ .value v)
    (hfailed : ∀ e, c ≠ .failed e) : (m.resume fs frame c).control ≠ .overflow t := by
  have hpass : Control.done c ≠ .overflow t := by simpa [Control.overflow] using hfailed _
  cases c with
  | value v => exact (hvalue v rfl).elim
  | failed e => exact (hfailed e rfl).elim
  | normal =>
    cases frame with
    | block rest outer => exact m.runBlock_ne_overflow fs t outer rest
    | loopBody loop => exact m.afterBody_ne_overflow fs t loop
    | call result => simp [resume, Control.overflow]
    | _ => exact hpass
  | continued =>
    cases frame with
    | loopBody loop => exact m.afterBody_ne_overflow fs t loop
    | call result => simp [resume, Control.overflow]
    | _ => exact hpass
  | broken =>
    cases frame with
    | loopBody loop => simp [resume, Control.overflow]
    | call result => simp [resume, Control.overflow]
    | _ => exact hpass
  | returned v =>
    cases frame with
    | call result => simp [resume, Control.overflow]
    | _ => exact hpass

end Machine

namespace Config

/-- The error that the next step raises; one that is on its way out is not raised again. -/
def raises? (c : Config) : Option RuntimeError :=
  match c.control, c.step.control with
  | .done (.failed _), _ => none
  | _, .done (.failed e) => some e
  | _, _ => none

/-- The call that the next step attempts. -/
def attempt? : Config → Option (Value × Token × List Value)
  | ⟨_, .done (.value v), frame :: _⟩ => frame.attempt? v
  | _ => none

theorem step_of_attempt? {c : Config} {callee : Value} {paren : Token} {arguments : List Value}
    (h : c.attempt? = some (callee, paren, arguments)) :
    c.step = c.machine.call c.frames.tail callee paren arguments := by
  unfold attempt? at h
  split at h
  · unfold Frame.attempt? at h
    split at h
    · cases h
      rfl
    · cases h
      rfl
    · cases h
  · cases h

theorem raises?_eq_overflow {c : Config} {t : Token} :
    c.raises? = some ⟨t, .stackOverflow⟩ ↔
      (∀ e, c.control ≠ .done (.failed e)) ∧ c.step.control = .overflow t := by
  unfold raises?
  split
  · rename_i e he
    simp [he]
  · rename_i he hnot
    simpa [he, Control.overflow] using fun _ => hnot
  · rename_i hnot hne
    simpa [Control.overflow] using fun _ => hne _

/-- A step overflows exactly where it attempts a call that is too deep. -/
theorem overflows_iff {c : Config} {t : Token} :
    c.raises? = some ⟨t, .stackOverflow⟩ ↔ c.machine.TooDeep t c.attempt? := by
  rw [raises?_eq_overflow]
  obtain ⟨m, control, frames⟩ := c
  cases control with
  | eval e =>
    exact iff_of_false (fun h => m.evaluate_ne_overflow frames t e h.2) (m.not_tooDeep_none t)
  | exec s =>
    exact iff_of_false (fun h => m.execute_ne_overflow frames t s h.2) (m.not_tooDeep_none t)
  | done completion =>
    by_cases hfailed : ∃ e, completion = .failed e
    · obtain ⟨e, rfl⟩ := hfailed
      exact iff_of_false (fun h => h.1 e rfl) (m.not_tooDeep_none t)
    have hfailed (e : RuntimeError) : completion ≠ .failed e := fun h => hfailed ⟨e, h⟩
    have hcontrol (e : RuntimeError) : Control.done completion ≠ .done (.failed e) := by
      simpa using hfailed e
    cases frames with
    | nil =>
      refine iff_of_false (fun h => hcontrol _ h.2) ?_
      cases completion <;> exact m.not_tooDeep_none t
    | cons frame frames =>
      cases completion with
      | value v =>
        refine (and_iff_right hcontrol).trans ?_
        cases frame with
        | block rest outer => exact iff_of_false (hcontrol _) (m.not_tooDeep_none t)
        | call result =>
          exact iff_of_false (by simp [step, Machine.resume, Control.overflow])
            (m.not_tooDeep_none t)
        | loopBody loop => exact iff_of_false (hcontrol _) (m.not_tooDeep_none t)
        | _ => exact m.resumeValue_eq_overflow frames t v _
      | _ =>
        exact iff_of_false
          (fun h => m.resume_ne_overflow frames t frame (by simp) hfailed h.2)
          (m.not_tooDeep_none t)

end Config

end Lox
