import Lox.Machine.Step

/-! Every exit restores the control state.

A frame that stands for a scope or a call that was entered leaves it again, whatever completion
comes to it. A configuration therefore leads back, through the frames above any point of its stack,
to one environment and one number of calls, and no step before that point is reached changes
either. -/

namespace Lox

/-- Where a machine stands, apart from what it has made and printed. -/
structure ControlState where
  environment : EnvironmentId
  callDepth : Nat
  maxCallDepth : Nat
  depths : Depths

def Machine.controlState (m : Machine) : ControlState :=
  ⟨m.environment, m.callDepth, m.maxCallDepth, m.depths⟩

namespace Frame

def isCall : Frame → Bool
  | .call _ => true
  | _ => false

/-- The environment that a frame goes back to, from the one it is resumed in. -/
def outer (inner : EnvironmentId) : Frame → EnvironmentId
  | .block _ outer => outer
  | _ => inner

/-- The calls in progress. -/
def calls (frames : List Frame) : Nat := frames.countP isCall

@[simp] theorem calls_nil : calls [] = 0 := rfl

@[simp] theorem calls_append (above frames : List Frame) :
    calls (above ++ frames) = calls above + calls frames := List.countP_append

end Frame

/-- The frames that are above a point of the stack lead back from one control state to another.
Calls above the limit, which a lower limit can leave, are not made more. -/
structure ControlState.LeadsTo (s : ControlState) (above : List Frame) (base : ControlState) :
    Prop where
  environment : above.foldl Frame.outer s.environment = base.environment
  callDepth : s.callDepth = base.callDepth + Frame.calls above
  bounded : s.callDepth ≤ max base.callDepth base.maxCallDepth
  maxCallDepth : s.maxCallDepth = base.maxCallDepth
  depths : s.depths = base.depths

namespace ControlState.LeadsTo

variable {s t base : ControlState} {above below : List Frame}

theorem refl (s : ControlState) : s.LeadsTo [] s :=
  ⟨rfl, rfl, Nat.le_max_left _ _, rfl, rfl⟩

theorem trans (h : s.LeadsTo above t) (ht : t.LeadsTo below base) :
    s.LeadsTo (above ++ below) base where
  environment := by rw [List.foldl_append, h.environment, ht.environment]
  callDepth := by rw [h.callDepth, ht.callDepth, Frame.calls_append]; omega
  bounded := by
    have := h.bounded
    have := ht.bounded
    have := ht.maxCallDepth
    omega
  maxCallDepth := h.maxCallDepth.trans ht.maxCallDepth
  depths := h.depths.trans ht.depths

theorem eq (h : s.LeadsTo above base) : base =
    ⟨above.foldl Frame.outer s.environment, s.callDepth - Frame.calls above, s.maxCallDepth,
      s.depths⟩ := by
  obtain ⟨henv, hcalls, -, hmax, hdepths⟩ := h
  rw [henv, hcalls, hmax, hdepths, Nat.add_sub_cancel]

/-- A frame that entered nothing leads nowhere else. -/
theorem plain {frame : Frame} (hcall : frame.isCall = false) (houter : ∀ e, frame.outer e = e) :
    s.LeadsTo [frame] s :=
  ⟨houter _, by simp [Frame.calls, hcall], Nat.le_max_left _ _, rfl, rfl⟩

theorem block (rest : List Stmt) (outer : EnvironmentId) :
    s.LeadsTo [.block rest outer] { s with environment := outer } :=
  ⟨rfl, rfl, Nat.le_max_left _ _, rfl, rfl⟩

theorem call (result : CallResult) (h : s.callDepth < s.maxCallDepth) :
    ControlState.LeadsTo { s with callDepth := s.callDepth + 1 } [.call result] s :=
  ⟨rfl, rfl, Nat.le_trans h (Nat.le_max_right _ _), rfl, rfl⟩

/-- The topmost frame goes back first. -/
theorem uncons {frame : Frame} (h : s.LeadsTo (frame :: above) base) :
    ∃ t, s.LeadsTo [frame] t ∧ t.LeadsTo above base := by
  obtain ⟨henv, hcalls, hbounded, hmax, hdepths⟩ := h
  have hsplit := Frame.calls_append [frame] above
  rw [List.singleton_append] at hsplit
  have hle : Frame.calls [frame] ≤ 1 := List.countP_le_length
  refine ⟨⟨frame.outer s.environment, s.callDepth - Frame.calls [frame], s.maxCallDepth, s.depths⟩,
    ⟨rfl, ?_, ?_, rfl, rfl⟩, ⟨henv, ?_, ?_, hmax, hdepths⟩⟩
  all_goals simp only; omega

end ControlState.LeadsTo

/-- A configuration came from `frames` in the control state `base` and leads back there. -/
def Config.LeadsTo (c : Config) (frames : List Frame) (base : ControlState) : Prop :=
  ∃ above, c.frames = above ++ frames ∧ c.machine.controlState.LeadsTo above base

namespace Config.LeadsTo

variable {c : Config} {m : Machine} {control : Control} {frames : List Frame}
  {base s : ControlState}

theorem here : LeadsTo ⟨m, control, frames⟩ frames m.controlState := ⟨[], rfl, .refl _⟩

theorem trans (above : List Frame) (h : c.LeadsTo (above ++ frames) s)
    (hs : s.LeadsTo above base) : c.LeadsTo frames base := by
  obtain ⟨top, hframes, htop⟩ := h
  exact ⟨top ++ above, by rw [hframes, List.append_assoc], htop.trans hs⟩

/-- A frame that entered nothing was pushed. -/
theorem pushed {frame : Frame} (hcall : frame.isCall = false := by rfl)
    (houter : ∀ e, frame.outer e = e := by exact fun _ => rfl) :
    LeadsTo ⟨m, control, frame :: frames⟩ frames m.controlState :=
  trans [frame] here (.plain hcall houter)

end Config.LeadsTo

namespace Machine

open Config

variable (m : Machine) (fs : List Frame)

theorem finish_leads (r : Except RuntimeError Value) :
    (m.finish fs r).LeadsTo fs m.controlState := by
  cases r <;> exact .here

theorem finishProperty_leads (r : Except RuntimeError (Value × Property)) :
    (m.finishProperty fs r).LeadsTo fs m.controlState := by
  rcases r with e | ⟨receiver, v | f⟩ <;> exact .here

theorem finishAssign_leads (r : Reference) (v : Value) :
    (m.finishAssign fs r v).LeadsTo fs m.controlState := by
  unfold finishAssign
  split <;> exact .here

theorem runBlock_leads (outer : EnvironmentId) (rest : List Stmt) :
    (m.runBlock fs outer rest).LeadsTo fs { m.controlState with environment := outer } := by
  cases rest with
  | nil => exact .here
  | cons s rest => exact .trans [_] .here (.block rest outer)

theorem enter_leads (f : Closure) (arguments : List Value) (result : CallResult)
    (h : m.callDepth < m.maxCallDepth) :
    (m.enter fs f arguments result).LeadsTo fs m.controlState :=
  .trans [.call result] (runBlock_leads _ _ _ _) (.call (s := m.controlState) result h)

theorem call_leads (callee : Value) (paren : Token) (arguments : List Value) :
    (m.call fs callee paren arguments).LeadsTo fs m.controlState := by
  unfold call
  split
  · exact .here
  split
  · exact .here
  split
  · exact .here
  rename_i hlimit
  have hlimit := Nat.lt_of_not_le hlimit
  split
  · exact .here
  · unfold callFunction
    split
    · exact enter_leads m fs _ _ _ hlimit
    · exact .here
  · unfold callClass
    simp only
    split
    · exact .here
    · exact enter_leads _ fs _ _ _ hlimit
  · exact .here

theorem evaluateArguments_leads (callee : Value) (paren : Token) (done : Array Value)
    (rest : List Expr) : (m.evaluateArguments fs callee paren done rest).LeadsTo fs
      m.controlState := by
  cases rest with
  | nil => exact call_leads m fs callee paren done.toList
  | cons e rest => exact .pushed

theorem evaluate_leads (e : Expr) : (m.evaluate fs e).LeadsTo fs m.controlState := by
  cases e with
  | constant v => exact .here
  | group inner => exact .here
  | «variable» r => exact finish_leads m fs _
  | receiver r => exact finish_leads m fs _
  | inherited r method => exact finishProperty_leads m fs _
  | _ => exact .pushed

theorem execute_leads (s : Stmt) : (m.execute fs s).LeadsTo fs m.controlState := by
  cases s with
  | varDecl t e =>
    cases e with
    | none => exact .here
    | some e => exact .pushed
  | block body => exact runBlock_leads _ fs m.environment body
  | function decl => exact .here
  | classDecl t superclass methods =>
    simp only [execute]
    cases m.superclass superclass with
    | error e => exact .here
    | ok c => cases c <;> exact .here
  | returning t e =>
    cases e with
    | none => exact .here
    | some e => exact .pushed
  | breaking t => exact .here
  | continuing t => exact .here
  | _ => exact .pushed

theorem afterBody_leads (loop : Loop) : (m.afterBody fs loop).LeadsTo fs m.controlState := by
  unfold afterBody
  split <;> exact .pushed

theorem resumeValue_leads (v : Value) (frame : Frame) :
    (m.resumeValue fs v frame).LeadsTo fs m.controlState := by
  cases frame with
  | unary t => exact finish_leads m fs _
  | binaryLeft t right => exact .pushed
  | binaryRight left t => exact finish_leads m fs _
  | logical t right =>
    simp only [resumeValue]
    split <;> exact .here
  | assign r => exact finishAssign_leads m fs r v
  | callee t xs => exact evaluateArguments_leads m fs v t #[] xs
  | argument callee t done rest =>
    exact evaluateArguments_leads m fs callee t (done.push v) rest
  | get t => exact finishProperty_leads m fs _
  | setObject t e =>
    cases v with
    | object o => exact .pushed
    | _ => exact .here
  | branch s alternative =>
    simp only [resumeValue]
    split
    · exact .here
    · cases alternative <;> exact .here
  | loopTest loop =>
    simp only [resumeValue]
    split
    · exact .pushed
    · exact .here
  | loopStep loop => exact .pushed
  | _ => exact .here

/-- Whatever completion comes to a frame, the frame leaves what it had entered. -/
theorem resume_leads {frame : Frame} {base : ControlState} (c : Completion)
    (h : m.controlState.LeadsTo [frame] base) : (m.resume fs frame c).LeadsTo fs base := by
  rw [h.eq]
  cases frame with
  | block rest outer =>
    cases c with
    | normal => exact runBlock_leads m fs outer rest
    | _ => exact .here
  | call result => cases c <;> exact .here
  | loopBody loop =>
    cases c with
    | normal => exact afterBody_leads m fs loop
    | continued => exact afterBody_leads m fs loop
    | _ => exact .here
  | _ =>
    cases c with
    | value v => exact resumeValue_leads m fs v _
    | _ => exact .here

end Machine

namespace Config

variable {c : Config} {frames : List Frame} {base : ControlState}

/-- No step but one that leaves the point where the configuration came from leads elsewhere. -/
theorem LeadsTo.step (h : c.LeadsTo frames base)
    (hrest : ∀ completion, c.control = .done completion → c.frames ≠ frames) :
    c.step.LeadsTo frames base := by
  obtain ⟨m, control, fs⟩ := c
  obtain ⟨above, rfl, habove⟩ := h
  cases control with
  | eval e => exact (m.evaluate_leads _ e).trans above habove
  | exec s => exact (m.execute_leads _ s).trans above habove
  | done completion =>
    cases above with
    | nil => exact (hrest completion rfl rfl).elim
    | cons frame above =>
      obtain ⟨t, hframe, hbelow⟩ := habove.uncons
      exact (m.resume_leads _ completion hframe).trans above hbelow

/-- What a configuration does above some frames comes to its end for the first time. -/
inductive Returns (frames : List Frame) : Config → Completion → Machine → Prop where
  | done {m completion} : Returns frames ⟨m, .done completion, frames⟩ completion m
  | step {c completion m} : (∀ completion, c.control = .done completion → c.frames ≠ frames) →
    Returns frames c.step completion m → Returns frames c completion m

theorem Returns.controlState {completion : Completion} {m : Machine}
    (hr : c.Returns frames completion m) (h : c.LeadsTo frames base) :
    m.controlState = base := by
  induction hr with
  | done =>
    obtain ⟨above, hframes, habove⟩ := h
    obtain rfl := List.self_eq_append_left.mp hframes
    exact habove.eq.symm
  | step hrest _ ih => exact ih (h.step hrest)

theorem returns_of_runUpTo {steps : Nat} {completion : Completion} {m : Machine}
    (h : c.runUpTo steps = some (completion, m)) : c.Returns [] completion m := by
  fun_induction runUpTo steps c with
  | case1 steps m c =>
    cases h
    exact .done
  | case2 c hc => cases h
  | case3 steps c hc ih =>
    refine .step (fun completion hdone hfs => ?_) (ih h)
    obtain ⟨m, control, fs⟩ := c
    obtain rfl : control = .done completion := hdone
    obtain rfl : fs = [] := hfs
    exact hc m completion rfl

end Config

/-- What can be begun: an expression, a statement, or a call of a value. -/
inductive Task where
  | expression (e : Expr)
  | statement (s : Stmt)
  | call (callee : Value) (paren : Token) (arguments : List Value)

def Machine.begin (m : Machine) (frames : List Frame) : Task → Config
  | .expression e => ⟨m, .eval e, frames⟩
  | .statement s => ⟨m, .exec s, frames⟩
  | .call callee paren arguments => m.call frames callee paren arguments

theorem Machine.begin_leads (m : Machine) (frames : List Frame) (task : Task) :
    (m.begin frames task).LeadsTo frames m.controlState := by
  cases task with
  | expression e => exact .here
  | statement s => exact .here
  | call callee paren arguments => exact m.call_leads frames callee paren arguments

end Lox
