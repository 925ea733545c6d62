import Lox.Proofs.Machine.Overflow
import Lox.Proofs.Session.Invariant

/-! The control state of a session.

Whatever statement, expression or call is begun in a state that a session can come to, the machine
stands where it stood when it comes to its end. So no run leaves the machine in a scope or in a call
of its own, and the calls in progress are the ones that the stack of frames shows. -/

namespace Lox

/-- Whatever is begun and comes to its end, with any completion, restores the control state. -/
def Machine.Restores (m : Machine) (frames : List Frame) : Prop :=
  ∀ task completion m', (m.begin frames task).Returns frames completion m' →
    m'.controlState = m.controlState

/-- The handle of the globals is that of an environment, and of the outermost one. -/
def Machine.HasGlobals (m : Machine) : Prop :=
  (m.heap.environment? Heap.globals).map (·.enclosing) = some none

/-- The calls in progress are counted and limited, and a call that could be made but for the limit
is what overflows, at its closing parenthesis. -/
structure Config.Counts (c : Config) : Prop where
  calls : c.machine.callDepth = Frame.calls c.frames
  bounded : c.machine.callDepth ≤ c.machine.maxCallDepth
  attempts : ∀ callee paren arguments, c.attempt? = some (callee, paren, arguments) →
    c.step = c.machine.call c.frames.tail callee paren arguments
  overflows : ∀ paren,
    (∃ fault, c.raises? = some ⟨paren, fault⟩ ∧ fault.message = "Stack overflow.") ↔
      ∃ callee arguments, c.attempt? = some (callee, paren, arguments) ∧
        c.machine.heap.arity? callee = some arguments.length ∧
        Frame.calls c.frames = c.machine.maxCallDepth

/-- Outside of a statement the machine is in no scope and in no call. -/
def Activity.Controlled : Activity → Prop
  | .waiting s | .between s _ => s.machine.Restores [] ∧ s.machine.HasGlobals ∧
    s.machine.environment = Heap.globals ∧ s.machine.callDepth = 0
  | .running c _ _ _ => c.machine.Restores c.frames ∧ c.machine.HasGlobals ∧ c.Counts

theorem Machine.restores (m : Machine) (frames : List Frame) : m.Restores frames :=
  fun task _ _ h => h.controlState (m.begin_leads frames task)

theorem Machine.Ready.hasGlobals {programs : List (List Stmt)} {o : Origins} {m : Machine}
    {nextNode : Nat} (h : m.Ready programs o nextNode) : m.HasGlobals := by
  obtain ⟨binders, hroot⟩ := h.kept.rooted
  exact h.faithful.outer _ _ hroot

/-- The frames of a statement lead back to the globals and out of every call. -/
def Activity.Led : Activity → Prop
  | .waiting s | .between s _ => s.machine.callDepth = 0
  | .running c _ _ _ => ∃ base : ControlState,
    base.environment = Heap.globals ∧ base.callDepth = 0 ∧ c.LeadsTo [] base

theorem Config.LeadsTo.step_nil {c : Config} {base : ControlState} (h : c.LeadsTo [] base) :
    c.step.LeadsTo [] base := by
  by_cases hend : ∃ completion, c.control = .done completion ∧ c.frames = []
  · obtain ⟨m, control, frames⟩ := c
    obtain ⟨completion, rfl, rfl⟩ := hend
    exact h
  · exact h.step fun completion hc hfs => hend ⟨completion, hc, hfs⟩

/-- With no frames left, the machine has been led out of every call. -/
theorem Config.LeadsTo.callDepth_of_nil {m : Machine} {control : Control} {base : ControlState}
    (h : LeadsTo ⟨m, control, []⟩ [] base) : m.callDepth = base.callDepth := by
  obtain ⟨above, hframes, hled⟩ := h
  obtain rfl : above = [] := by simpa using hframes
  exact hled.callDepth

theorem Activity.Reachable.led {o : Origins} {programs : List (List Stmt)} {a : Activity}
    (h : Activity.Reachable o programs a) : a.Led := by
  induction h with
  | start now => rfl
  | adjusted printed maxCallDepth now report _ ih => exact ih
  | @unread _ _ s source _ _ ih =>
    rw [Session.read_eq]
    generalize parse (tokensOf source) s.nextNode = p
    exact ih
  | @refused _ _ s source _ _ _ ih =>
    rw [Session.read_eq]
    generalize parse (tokensOf source) s.nextNode = p
    exact ih
  | @accepted _ _ s source _ _ _ ih =>
    rw [Session.read_eq]
    generalize parse (tokensOf source) s.nextNode = p
    exact ih
  | finished _ ih => exact ih
  | @begun _ _ s _ _ h ih => exact ⟨s.machine.controlState, h.invariant.2.1, ih, .here⟩
  | step _ ih =>
    obtain ⟨base, henv, hdepth, hled⟩ := ih
    exact ⟨base, henv, hdepth, hled.step_nil⟩
  | completed _ _ ih =>
    obtain ⟨base, -, hdepth, hled⟩ := ih
    exact hled.callDepth_of_nil.trans hdepth
  | failed _ ih =>
    obtain ⟨base, -, hdepth, hled⟩ := ih
    exact hled.callDepth_of_nil.trans hdepth

theorem Config.LeadsTo.counts {c : Config} {base : ControlState} (h : c.LeadsTo [] base)
    (hbase : base.callDepth = 0) : c.Counts := by
  obtain ⟨above, hframes, hled⟩ := h
  have hcalls : c.machine.callDepth = Frame.calls c.frames := by
    rw [hframes, List.append_nil, ← Nat.zero_add (Frame.calls above), ← hbase]
    exact hled.callDepth
  have hbounded : c.machine.callDepth ≤ c.machine.maxCallDepth := by
    have hle : c.machine.callDepth ≤ max base.callDepth base.maxCallDepth := hled.bounded
    have hmax : c.machine.maxCallDepth = base.maxCallDepth := hled.maxCallDepth
    omega
  refine ⟨hcalls, hbounded, fun _ _ _ => Config.step_of_attempt?, fun paren => ?_⟩
  constructor
  · rintro ⟨fault, hraises, hmessage⟩
    obtain rfl := RuntimeFault.message_eq_overflow.mp hmessage
    obtain ⟨callee, arguments, hattempt, harity, hlimit⟩ := Config.overflows_iff.mp hraises
    exact ⟨callee, arguments, hattempt, harity, by omega⟩
  · rintro ⟨callee, arguments, hattempt, harity, hlimit⟩
    refine ⟨.stackOverflow, Config.overflows_iff.mpr ?_, rfl⟩
    exact ⟨callee, arguments, hattempt, harity, by omega⟩

/-- Every exit restores the control state, in every state that a session can come to. -/
theorem exits_restore {o : Origins} {programs : List (List Stmt)} {a : Activity}
    (h : Activity.Reachable o programs a) : a.Controlled := by
  have hled := h.led
  have hinvariant := h.invariant
  cases a with
  | waiting s => exact ⟨s.machine.restores [], hinvariant.1.hasGlobals, hinvariant.2, hled⟩
  | between s rest => exact ⟨s.machine.restores [], hinvariant.1.hasGlobals, hinvariant.2.1, hled⟩
  | running c rest report nextNode =>
    obtain ⟨base, -, hdepth, hled⟩ := hled
    exact ⟨c.machine.restores c.frames, hinvariant.1.hasGlobals, hled.counts hdepth⟩

/-- With at most two calls in progress, a function that calls itself from a block within its body
overflows at the second call of its own. -/
theorem exits_restore_at_overflow : ∃ c paren,
    c.raises? = some ⟨paren, .stackOverflow⟩ ∧ c.machine.maxCallDepth = 2 ∧
      c.machine.Restores c.frames ∧ Config.Counts c := by
  let s := (Session.start (⟨0⟩ : Number)).setMaxCallDepth 2
  let source := "{ fun f() { { f(); } } f(); }"
  have hs : Activity.Reachable Origins.start [] (.waiting s) :=
    (Activity.Reachable.start (⟨0⟩ : Number)).limited 2
  have hsome : ((s.configAfter? source 16).bind fun c => c.raises?.filter fun e =>
      e.fault = .stackOverflow ∧ c.machine.maxCallDepth = 2).isSome = true := by decide +kernel
  obtain ⟨e, he⟩ := Option.isSome_iff_exists.mp hsome
  obtain ⟨c, hc, he⟩ := Option.bind_eq_some_iff.mp he
  obtain ⟨he, hfault⟩ := Option.filter_eq_some_iff.mp he
  obtain ⟨hfault, hlimit⟩ := of_decide_eq_true hfault
  obtain ⟨o, rest, report, nextNode, h⟩ :=
    hs.configAfter? (by decide +kernel) (by decide +kernel) hc
  obtain ⟨hrestores, -, hcounts⟩ := exits_restore h
  exact ⟨c, e.token, by rw [he, ← hfault], hlimit, hrestores, hcounts⟩

end Lox
