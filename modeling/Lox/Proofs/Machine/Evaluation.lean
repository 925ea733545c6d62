import Lox.Proofs.Machine.Growth
import Lox.Proofs.Machine.Returning

/-! How expressions are evaluated.

What is evaluated above a frame comes to its end first, and then the frame goes on; so the evaluation
of an expression is that of its parts, one after the other, and what is done with their values. A
part that does not give a value ends the evaluation of the whole, and changes nothing by that. -/

namespace Lox

/-- The evaluation of an expression comes to an end. -/
def Machine.Evaluates (m : Machine) (fs : List Frame) (e : Expr) (completion : Completion)
    (m' : Machine) : Prop := Config.Returns fs ⟨m, .eval e, fs⟩ completion m'

/-- How an assignment to a property comes to an end: its object is evaluated, then its value if the
object is one, and only if there is a value too, the field is written. -/
inductive Machine.Sets (m : Machine) (fs : List Frame) (object : Expr) (t : Token) (value : Expr) :
    Completion → Machine → Prop where
  | noObject {first m'} : (∀ v, first ≠ .value v) →
    m.Evaluates (.setObject t value :: fs) object first m' → Sets m fs object t value first m'
  | refused {v m'} : (∀ i, v ≠ .object i) →
    m.Evaluates (.setObject t value :: fs) object (.value v) m' →
    Sets m fs object t value (.failed ⟨t, .fieldOfNonObject⟩) m'
  | noValue {i m₁ first m'} : (∀ v, first ≠ .value v) →
    m.Evaluates (.setObject t value :: fs) object (.value (.object i)) m₁ →
    m₁.Evaluates (.setValue i t :: fs) value first m' → Sets m fs object t value first m'
  | stored {i m₁ v m'} :
    m.Evaluates (.setObject t value :: fs) object (.value (.object i)) m₁ →
    m₁.Evaluates (.setValue i t :: fs) value (.value v) m' →
    Sets m fs object t value (.value v) { m' with heap := m'.heap.setField i t.lexeme v }

/-- Arguments of a call have been evaluated one after the other, with the values that they gave, and
some are left. -/
inductive Machine.EvaluatesArguments (m : Machine) (fs : List Frame) (callee : Value)
    (paren : Token) (arguments : List Expr) : Machine → Array Value → List Expr → Prop where
  | none : EvaluatesArguments m fs callee paren arguments m #[] arguments
  | next {m₁ m₂ done e rest v} : EvaluatesArguments m fs callee paren arguments m₁ done (e :: rest) →
    m₁.Evaluates (.argument callee paren done rest :: fs) e (.value v) m₂ →
    EvaluatesArguments m fs callee paren arguments m₂ (done.push v) rest

/-- How far the evaluation of a call has come: the callee is evaluated first, then each argument
after the one before it, and the call is attempted with all their values or not at all. -/
inductive Machine.Calling (m : Machine) (fs : List Frame) (callee : Expr) (paren : Token)
    (arguments : List Expr) : Config → Prop where
  | begun : Calling m fs callee paren arguments ⟨m, .eval (.call callee paren arguments), fs⟩
  | callee {c} : Config.During (.callee paren arguments :: fs)
      ⟨m, .eval callee, .callee paren arguments :: fs⟩ c → Calling m fs callee paren arguments c
  | noCallee {first m'} : (∀ v, first ≠ .value v) →
    m.Evaluates (.callee paren arguments :: fs) callee first m' →
    Calling m fs callee paren arguments ⟨m', .done first, fs⟩
  | argument {v m₁ m₂ done e rest c} :
    m.Evaluates (.callee paren arguments :: fs) callee (.value v) m₁ →
    m₁.EvaluatesArguments fs v paren arguments m₂ done (e :: rest) →
    Config.During (.argument v paren done rest :: fs)
      ⟨m₂, .eval e, .argument v paren done rest :: fs⟩ c → Calling m fs callee paren arguments c
  | noArgument {v m₁ m₂ done e rest first m'} : (∀ v, first ≠ .value v) →
    m.Evaluates (.callee paren arguments :: fs) callee (.value v) m₁ →
    m₁.EvaluatesArguments fs v paren arguments m₂ done (e :: rest) →
    m₂.Evaluates (.argument v paren done rest :: fs) e first m' →
    Calling m fs callee paren arguments ⟨m', .done first, fs⟩
  | call {v m₁ m₂ done c} : m.Evaluates (.callee paren arguments :: fs) callee (.value v) m₁ →
    m₁.EvaluatesArguments fs v paren arguments m₂ done [] →
    Config.During fs (m₂.call fs v paren done.toList) c → Calling m fs callee paren arguments c

/-- A frame that has use for a value alone. -/
def Frame.AwaitsValue : Frame → Prop
  | .block _ _ | .call _ | .loopBody _ => False
  | _ => True

namespace Machine

variable {m m' : Machine} {fs : List Frame} {e object value : Expr} {t : Token}
  {completion : Completion} {frame : Frame}

theorem resume_value (hf : frame.AwaitsValue) (v : Value) :
    m.resume fs frame (.value v) = m.resumeValue fs v frame := by
  cases frame with
  | block rest outer => exact hf.elim
  | call result => exact hf.elim
  | loopBody loop => exact hf.elim
  | _ => rfl

theorem resume_passes (hf : frame.AwaitsValue) (hc : ∀ v, completion ≠ .value v) :
    m.resume fs frame completion = ⟨m, .done completion, fs⟩ := by
  cases frame with
  | block rest outer => exact hf.elim
  | call result => exact hf.elim
  | loopBody loop => exact hf.elim
  | _ =>
    cases completion with
    | value v => exact absurd rfl (hc v)
    | _ => rfl

theorem evaluates_iff :
    m.Evaluates fs e completion m' ↔ (m.evaluate fs e).Returns fs completion m' := by
  constructor
  · intro h
    cases h with
    | step _ h => exact h
  · exact fun h => .step (fun _ hdone => nomatch hdone) h

/-- A frame goes on with the value of what is evaluated above it. -/
theorem returns_above (hf : frame.AwaitsValue) :
    Config.Returns fs ⟨m, .eval e, frame :: fs⟩ completion m' ↔
      ((∀ v, completion ≠ .value v) ∧ m.Evaluates (frame :: fs) e completion m') ∨
      ∃ v m₁, m.Evaluates (frame :: fs) e (.value v) m₁ ∧
        (m₁.resumeValue fs v frame).Returns fs completion m' := by
  constructor
  · intro h
    obtain ⟨first, m₁, hfirst, hlater⟩ := h.through .here
    by_cases hvalue : ∃ v, first = .value v
    · obtain ⟨v, rfl⟩ := hvalue
      rw [resume_value hf] at hlater
      exact .inr ⟨v, m₁, hfirst, hlater⟩
    · have hnone : ∀ v, first ≠ .value v := fun v hv => hvalue ⟨v, hv⟩
      rw [resume_passes hf hnone] at hlater
      obtain ⟨rfl, rfl⟩ := hlater.of_done
      exact .inl ⟨hnone, hfirst⟩
  · rintro (⟨hnone, hfirst⟩ | ⟨v, m₁, hfirst, hlater⟩)
    · refine hfirst.goesOn .here ?_
      rw [resume_passes hf hnone]
      exact .done
    · refine hfirst.goesOn .here ?_
      rwa [resume_value hf]

/-- An assignment to a property writes the field last, and nothing before that is its own doing. -/
theorem evaluates_set : m.Evaluates fs (.set object t value) completion m' ↔
    m.Sets fs object t value completion m' := by
  have hobjectFrame : (Frame.setObject t value).AwaitsValue := trivial
  have hvalueFrame (i : ObjectId) : (Frame.setValue i t).AwaitsValue := trivial
  rw [evaluates_iff]
  refine (returns_above hobjectFrame).trans ⟨?_, ?_⟩
  · rintro (⟨hnone, hobject⟩ | ⟨v, m₁, hobject, hlater⟩)
    · exact .noObject hnone hobject
    by_cases hv : ∃ i, v = .object i
    · obtain ⟨i, rfl⟩ := hv
      rcases (returns_above (hvalueFrame _)).mp hlater with ⟨hnone, hvalue⟩ | ⟨w, m₂, hvalue, hdone⟩
      · exact .noValue hnone hobject hvalue
      · obtain ⟨rfl, rfl⟩ := hdone.of_done
        exact .stored hobject hvalue
    · have hnot : ∀ i, v ≠ .object i := fun i hi => hv ⟨i, hi⟩
      have hrefused : m₁.resumeValue fs v (.setObject t value) =
          ⟨m₁, .done (.failed ⟨t, .fieldOfNonObject⟩), fs⟩ := by
        cases v with
        | object i => exact absurd rfl (hnot i)
        | _ => rfl
      rw [hrefused] at hlater
      obtain ⟨rfl, rfl⟩ := hlater.of_done
      exact .refused hnot hobject
  · intro h
    cases h with
    | noObject hnone hobject => exact .inl ⟨hnone, hobject⟩
    | @refused v _ hnot hobject =>
      refine .inr ⟨v, _, hobject, ?_⟩
      cases v with
      | object i => exact absurd rfl (hnot i)
      | _ => exact .done
    | noValue hnone hobject hvalue =>
      exact .inr ⟨_, _, hobject, (returns_above (hvalueFrame _)).mpr (.inl ⟨hnone, hvalue⟩)⟩
    | stored hobject hvalue =>
      exact .inr ⟨_, _, hobject, (returns_above (hvalueFrame _)).mpr (.inr ⟨_, _, hvalue, .done⟩)⟩

theorem EvaluatesArguments.length {callee : Value} {paren : Token} {arguments rest : List Expr}
    {done : Array Value} (h : m.EvaluatesArguments fs callee paren arguments m' done rest) :
    done.size + rest.length = arguments.length := by
  induction h with
  | none => simp
  | next _ _ ih =>
    simp only [Array.size_push, List.length_cons] at ih ⊢
    omega

end Machine

namespace Config

variable {c c' : Config} {fs : List Frame} {completion : Completion} {m : Machine}

/-- What is on the way to an end has begun on the way to it. -/
theorem During.returns (hd : During fs c c') (hr : c'.Returns fs completion m) :
    c.Returns fs completion m := by
  induction hd with
  | here => exact hr
  | step _ hrest ih => exact ih (.step hrest hr)

/-- The frame below goes on once it is there. -/
theorem During.step_or_returns {frame : Frame} (hd : During (frame :: fs) c c') :
    During (frame :: fs) c c'.step ∨ ∃ completion m, c.Returns (frame :: fs) completion m ∧
      c'.step = m.resume fs frame completion := by
  by_cases hdone : ∃ completion, c'.control = .done completion ∧ c'.frames = frame :: fs
  · obtain ⟨completion, hcontrol, hframes⟩ := hdone
    obtain ⟨m, control, frames⟩ := c'
    obtain rfl : control = .done completion := hcontrol
    obtain rfl : frames = frame :: fs := hframes
    exact .inr ⟨completion, m, hd.returns .done, rfl⟩
  · refine .inl (hd.step fun completion hcontrol hframes => ?_)
    exact hdone ⟨completion, hcontrol, hframes⟩

end Config

namespace Machine

variable {m m₁ m₂ : Machine} {fs : List Frame} {callee : Expr} {paren : Token}
  {arguments : List Expr} {c : Config}

/-- After the callee and some arguments comes the next argument, or the call. -/
theorem Calling.evaluateArguments {v : Value} {done : Array Value} {rest : List Expr}
    (hcallee : m.Evaluates (.callee paren arguments :: fs) callee (.value v) m₁)
    (hdone : m₁.EvaluatesArguments fs v paren arguments m₂ done rest) :
    m.Calling fs callee paren arguments (m₂.evaluateArguments fs v paren done rest) := by
  cases rest with
  | nil => exact .call hcallee hdone .here
  | cons e rest => exact .argument hcallee hdone .here

/-- A step goes on with the evaluation, unless that has come to its end. -/
theorem Calling.step (h : m.Calling fs callee paren arguments c)
    (hrest : ∀ completion, c.control = .done completion → c.frames ≠ fs) :
    m.Calling fs callee paren arguments c.step := by
  cases h with
  | begun => exact .callee .here
  | noCallee => exact absurd rfl (hrest _ rfl)
  | noArgument => exact absurd rfl (hrest _ rfl)
  | call hcallee hdone hd => exact .call hcallee hdone (hd.step hrest)
  | callee hd =>
    rcases hd.step_or_returns with hd | ⟨first, m₁, hfirst, hstep⟩
    · exact .callee hd
    have hframe : (Frame.callee paren arguments).AwaitsValue := trivial
    by_cases hvalue : ∃ v, first = .value v
    · obtain ⟨v, rfl⟩ := hvalue
      rw [hstep, resume_value hframe]
      exact .evaluateArguments hfirst .none
    · have hnone : ∀ v, first ≠ .value v := fun v hv => hvalue ⟨v, hv⟩
      rw [hstep, resume_passes hframe hnone]
      exact .noCallee hnone hfirst
  | @argument f _ _ done e rest _ hcallee hdone hd =>
    rcases hd.step_or_returns with hd | ⟨first, m₁, hfirst, hstep⟩
    · exact .argument hcallee hdone hd
    have hframe : (Frame.argument f paren done rest).AwaitsValue := trivial
    by_cases hvalue : ∃ v, first = .value v
    · obtain ⟨v, rfl⟩ := hvalue
      rw [hstep, resume_value hframe]
      exact .evaluateArguments hcallee (.next hdone hfirst)
    · have hnone : ∀ v, first ≠ .value v := fun v hv => hvalue ⟨v, hv⟩
      rw [hstep, resume_passes hframe hnone]
      exact .noArgument hnone hcallee hdone hfirst

/-- All that happens while a call expression is evaluated is one of its stages. -/
theorem calling_of_during
    (h : Config.During fs ⟨m, .eval (.call callee paren arguments), fs⟩ c) :
    m.Calling fs callee paren arguments c := by
  induction h with
  | here => exact .begun
  | step _ hrest ih => exact ih.step hrest

end Machine

end Lox
