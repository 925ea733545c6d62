import Lox.Proofs.Machine.Attached
import Lox.Proofs.Scope.Blame

/-! The tokens of failures.

An error is raised by a step that works at some node, and is at a token of that node. -/

namespace Lox

/-- What a step can raise, and where. -/
inductive Config.Raises : Config → RuntimeError → Prop where
  | variable {m r e fs} : m.read r = .error e → Raises ⟨m, .eval (.variable r), fs⟩ e
  | receiver {m r e fs} : m.read r = .error e → Raises ⟨m, .eval (.receiver r), fs⟩ e
  | inherited {m r t e fs} : m.inherited r t = .error e → Raises ⟨m, .eval (.inherited r t), fs⟩ e
  | superclass {m t r methods e fs} : m.superclass r = .error e →
    Raises ⟨m, .exec (.classDecl t r methods), fs⟩ e
  | unary {m t v e fs} : Operator.unary t v = .error e →
    Raises ⟨m, .done (.value v), .unary t :: fs⟩ e
  | binary {m t v w e fs} : Operator.binary t v w = .error e →
    Raises ⟨m, .done (.value w), .binaryRight v t :: fs⟩ e
  | assign {m r v fs} :
    Raises ⟨m, .done (.value v), .assign r :: fs⟩ (undefinedVariable r.name)
  | call {c callee paren arguments fault} : c.attempt? = some (callee, paren, arguments) →
    Raises c ⟨paren, fault⟩
  | property {m t v e fs} : m.property v t = .error e →
    Raises ⟨m, .done (.value v), .get t :: fs⟩ e
  | field {m t x v fs} :
    Raises ⟨m, .done (.value v), .setObject t x :: fs⟩ ⟨t, .fieldOfNonObject⟩

/-- The code that a step works at: what the control is about to do, or what the frame was pushed
for that the control hands something to. -/
inductive Config.WorksAt : Config → Node → Prop where
  | expr {m x fs} : WorksAt ⟨m, .eval x, fs⟩ (.expr x)
  | stmt {m s fs} : WorksAt ⟨m, .exec s, fs⟩ (.stmt s)
  | frame {m c frame fs n} : Frame.From frame n → WorksAt ⟨m, .done c, frame :: fs⟩ n

/-- The token at which a frame raises errors. -/
def Frame.blamed? : Frame → Option Token
  | .unary t | .binaryRight _ t | .callee t _ | .argument _ t _ _ | .get t | .setObject t _ => some t
  | .assign r => some r.name
  | _ => none

theorem Frame.From.blamed {frame : Frame} {n : Node} {t : Token} (h : Frame.From frame n)
    (ht : frame.blamed? = some t) : t ∈ n.tokens := by
  cases h <;> cases ht <;> simp [Node.tokens, Expr.tokens]

namespace Operator

variable {t : Token} {v w : Value} {e : RuntimeError}

theorem unary_token (h : unary t v = .error e) : e.token = t := by
  unfold unary at h
  split at h <;> cases h <;> rfl

theorem binary_token (h : binary t v w = .error e) : e.token = t := by
  unfold binary at h
  split at h
  · cases h
  · cases h
  · unfold add at h
    split at h <;> cases h
    rfl
  · unfold onNumbers at h
    split at h
    · split at h <;> cases h
      rfl
    · cases h
      rfl

end Operator

namespace Machine

variable {m : Machine} {fs : List Frame} {e : RuntimeError}

theorem read_token {r : Reference} (h : m.read r = .error e) : e.token = r.name := by
  unfold read at h
  split at h <;> cases h
  rfl

theorem superclass_token {superclass : Option Reference} (h : m.superclass superclass = .error e) :
    ∃ r, superclass = some r ∧ e.token = r.name := by
  unfold Machine.superclass at h
  split at h
  · cases h
  · rename_i r
    refine ⟨r, rfl, ?_⟩
    split at h
    · cases h
    · cases h
      rfl
    · rename_i hr
      cases h
      exact read_token hr

theorem property_token {v : Value} {t : Token} (h : m.property v t = .error e) : e.token = t := by
  unfold property at h
  split at h
  · split at h <;> cases h
    rfl
  · cases h
    rfl

theorem inherited_token {r : Reference} {t : Token} (h : m.inherited r t = .error e) :
    e.token = r.name ∨ e.token = t := by
  unfold inherited at h
  split at h
  · cases h
    exact .inl rfl
  · split at h
    · split at h
      · cases h
        exact .inl rfl
      · split at h <;> cases h
        exact .inr rfl
    · cases h
      exact .inl rfl

theorem finish_failed {r : Except RuntimeError Value}
    (h : (m.finish fs r).control = .done (.failed e)) : r = .error e := by
  cases r <;> cases h
  rfl

theorem finishProperty_failed {r : Except RuntimeError (Value × Property)}
    (h : (m.finishProperty fs r).control = .done (.failed e)) : r = .error e := by
  rcases r with _ | ⟨receiver, v | f⟩ <;> cases h
  rfl

theorem runBlock_not_failed (outer : EnvironmentId) (rest : List Stmt) :
    (m.runBlock fs outer rest).control ≠ .done (.failed e) := by
  cases rest <;> exact nofun

theorem call_failed {callee : Value} {paren : Token} {arguments : List Value}
    (h : (m.call fs callee paren arguments).control = .done (.failed e)) : e.token = paren := by
  have hrefused {fault : RuntimeFault}
      (h : Control.done (.failed ⟨paren, fault⟩) = .done (.failed e)) : e.token = paren := by
    cases h
    rfl
  unfold call at h
  split at h
  · exact hrefused h
  split at h
  · exact hrefused h
  split at h
  · exact hrefused h
  split at h
  · cases h
  · unfold callFunction at h
    split at h
    · exact absurd h (runBlock_not_failed _ _)
    · cases h
  · unfold callClass at h
    dsimp only at h
    split at h
    · cases h
    · exact absurd h (runBlock_not_failed _ _)
  · exact hrefused h

end Machine

namespace Config

open Machine

variable {m : Machine} {fs : List Frame} {e : RuntimeError}

theorem raises_call {c : Config} {callee : Value} {paren : Token} {arguments : List Value}
    (h : c.attempt? = some (callee, paren, arguments))
    (hfailed : c.step.control = .done (.failed e)) : c.Raises e := by
  rw [step_of_attempt? h] at hfailed
  obtain ⟨t, fault⟩ := e
  obtain rfl : t = paren := call_failed hfailed
  exact .call h

theorem raises_evaluate {x : Expr} (h : (m.evaluate fs x).control = .done (.failed e)) :
    Raises ⟨m, .eval x, fs⟩ e := by
  cases x with
  | «variable» r => exact .variable (finish_failed h)
  | receiver r => exact .receiver (finish_failed h)
  | inherited r t => exact .inherited (finishProperty_failed h)
  | _ => cases h

theorem raises_execute {s : Stmt} (h : (m.execute fs s).control = .done (.failed e)) :
    Raises ⟨m, .exec s, fs⟩ e := by
  cases s with
  | varDecl t x => cases x <;> cases h
  | block body => exact absurd h (runBlock_not_failed _ _)
  | classDecl t r methods =>
    rw [execute] at h
    cases hr : m.superclass r with
    | error e' =>
      rw [hr] at h
      cases h
      exact .superclass hr
    | ok k =>
      rw [hr] at h
      cases h
  | returning t x => cases x <;> cases h
  | _ => cases h

theorem raises_resumeValue {v : Value} {frame : Frame}
    (h : (m.resumeValue fs v frame).control = .done (.failed e)) :
    Raises ⟨m, .done (.value v), frame :: fs⟩ e := by
  cases frame with
  | unary t => exact .unary (finish_failed h)
  | binaryRight left t => exact .binary (finish_failed h)
  | logical t right =>
    rw [resumeValue] at h
    split at h <;> cases h
  | assign r =>
    rw [resumeValue, finishAssign] at h
    split at h <;> cases h
    exact .assign
  | callee paren arguments =>
    cases arguments with
    | nil => exact raises_call (c := ⟨m, .done (.value v), .callee paren [] :: fs⟩) rfl h
    | cons x rest => cases h
  | argument callee paren done rest =>
    cases rest with
    | nil =>
      exact raises_call (c := ⟨m, .done (.value v), .argument callee paren done [] :: fs⟩) rfl h
    | cons x rest => cases h
  | get t => exact .property (finishProperty_failed h)
  | setObject t x =>
    cases v with
    | object o => cases h
    | _ =>
      cases h
      exact .field
  | branch s alternative =>
    simp only [resumeValue] at h
    split at h
    · cases h
    · cases alternative <;> cases h
  | loopTest loop =>
    rw [resumeValue] at h
    split at h <;> cases h
  | _ => cases h

theorem raises_resume {frame : Frame} {c : Completion} (hc : ∀ e, c ≠ .failed e)
    (h : (m.resume fs frame c).control = .done (.failed e)) :
    Raises ⟨m, .done c, frame :: fs⟩ e := by
  cases frame with
  | block rest outer =>
    cases c with
    | normal => exact absurd h (runBlock_not_failed _ _)
    | failed e => exact absurd rfl (hc e)
    | _ => cases h
  | call result =>
    cases c with
    | failed e => exact absurd rfl (hc e)
    | _ => cases h
  | loopBody loop =>
    obtain ⟨condition, body, increment⟩ := loop
    cases c with
    | failed e => exact absurd rfl (hc e)
    | _ => cases increment <;> cases h
  | _ =>
    cases c with
    | value v => exact raises_resumeValue h
    | failed e => exact absurd rfl (hc e)
    | _ => cases h

/-- Whatever a step raises is listed. -/
theorem raises_of_raises? {c : Config} (h : c.raises? = some e) : c.Raises e := by
  obtain ⟨m, control, fs⟩ := c
  obtain ⟨hbegin, hfailed⟩ : (∀ e, control ≠ .done (.failed e)) ∧
      (Config.step ⟨m, control, fs⟩).control = .done (.failed e) := by
    unfold raises? at h
    split at h
    · cases h
    · rename_i hstep hbegin
      cases h
      exact ⟨hbegin, hstep⟩
    · cases h
  cases control with
  | eval x => exact raises_evaluate hfailed
  | exec s => exact raises_execute hfailed
  | done c =>
    have hc (e : RuntimeError) : c ≠ .failed e := fun h => hbegin e (congrArg Control.done h)
    cases fs with
    | nil => exact absurd (Control.done.inj hfailed) (hc e)
    | cons frame fs => exact raises_resume hc hfailed

/-- An error that is raised with a frame is at the token of the frame. -/
theorem Raises.blamed {c : Completion} (h : Raises ⟨m, .done c, fs⟩ e) :
    ∃ frame rest, fs = frame :: rest ∧ frame.blamed? = some e.token := by
  cases h with
  | unary he => exact ⟨_, _, rfl, congrArg some (Operator.unary_token he).symm⟩
  | binary he => exact ⟨_, _, rfl, congrArg some (Operator.binary_token he).symm⟩
  | assign => exact ⟨_, _, rfl, rfl⟩
  | call h =>
    unfold attempt? at h
    split at h
    · rename_i v frame rest heq
      cases heq
      refine ⟨frame, rest, rfl, ?_⟩
      unfold Frame.attempt? at h
      split at h <;> cases h <;> rfl
    · cases h
  | property he => exact ⟨_, _, rfl, congrArg some (property_token he).symm⟩
  | field => exact ⟨_, _, rfl, rfl⟩

/-- An error is at a token of the node that the step works at. -/
theorem Raises.token {P : EnvironmentId → Node → Prop} {c : Config} (h : c.Raises e)
    (hc : c.Attached P []) :
    ∃ n, c.WorksAt n ∧ P c.machine.environment n ∧ e.token ∈ n.tokens := by
  obtain ⟨m, control, fs⟩ := c
  obtain ⟨hcontrol, hframes⟩ := hc
  cases control with
  | eval x =>
    refine ⟨_, .expr, hcontrol, ?_⟩
    cases h with
    | «variable» he | receiver he => exact List.mem_singleton.mpr (read_token he)
    | inherited he => simpa [Node.tokens, Expr.tokens] using inherited_token he
    | call h => cases h
  | exec s =>
    refine ⟨_, .stmt, hcontrol, ?_⟩
    cases h with
    | superclass he =>
      obtain ⟨r, rfl, htoken⟩ := superclass_token he
      simp [Node.tokens, Stmt.tokens, htoken]
    | call h => cases h
  | done c =>
    obtain ⟨frame, rest, rfl, hblamed⟩ := h.blamed
    cases hframes with
    | frame hfrom hn _ => exact ⟨_, .frame hfrom, hn, hfrom.blamed hblamed⟩
    | call _ => cases hblamed

end Config

end Lox
