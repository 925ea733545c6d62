import Lox.Proofs.Machine.Calls
import Lox.Proofs.Machine.Evaluation
import Lox.Proofs.Session.Receivers

/-! Calls in a session.

The callee and the arguments of a call are evaluated once each and in order. Nothing is run and
nothing is made before the call is known to be in order, and what is run then finds each parameter
bound to the argument at its place. -/

namespace Lox

/-- Why a call is refused. -/
inductive Machine.Refuses (m : Machine) (callee : Value) (arguments : List Value) :
    RuntimeFault → Prop where
  | notCallable : m.heap.arity? callee = none → Refuses m callee arguments .notCallable
  | wrongCount {arity} : m.heap.arity? callee = some arity → arguments.length ≠ arity →
    Refuses m callee arguments (.wrongArgumentCount arity arguments.length)
  | tooDeep : m.heap.arity? callee = some arguments.length → m.maxCallDepth ≤ m.callDepth →
    Refuses m callee arguments .stackOverflow

namespace Config

/-- The next step begins the body of a function where exactly its parameters are bound. -/
def BeginsPaired (c : Config) (f : FunctionDecl) (arguments : List Value) : Prop :=
  ∃ e, c.Begins e f.body ∧ c.step.machine.heap.Pairs e f.params arguments

/-- How calls are evaluated, refused and begun. -/
structure CallsInOrder (c : Config) : Prop where
  evaluated : ∀ e, c.control = .eval e → ∀ completion m, c.Returns c.frames completion m →
    (∃ v, completion = .value v) ∨ ∃ fault, completion = .failed fault
  stages : ∀ callee paren arguments, c.control = .eval (.call callee paren arguments) →
    ∀ d, c.During c.frames d → c.machine.Calling c.frames callee paren arguments d
  attempted : ∀ callee paren arguments, c.attempt? = some (callee, paren, arguments) →
    c.Calls callee arguments ∨ ∃ fault, c.machine.Refuses callee arguments fault ∧
      c.step = ⟨c.machine, .done (.failed ⟨paren, fault⟩), c.frames.tail⟩
  started : Frame.calls c.frames < Frame.calls c.step.frames ∨
      c.step.machine.heap.objects.size ≠ c.machine.heap.objects.size →
    ∃ callee arguments, c.Calls callee arguments
  function : ∀ id arguments, c.Calls (.function id) arguments → ∃ f,
    c.machine.heap.function? id = some f ∧ c.BeginsPaired f.decl arguments
  classValue : ∀ k arguments, c.Calls (.classValue k) arguments →
    (c.machine.heap.Lacks "init" k ∧ arguments = [] ∧
      ∃ i, c.step.control = .done (.value (.object i)) ∧ c.step.frames = c.frames.tail) ∨
    ∃ j f, c.machine.heap.Finds "init" k j f ∧ c.BeginsPaired f.decl arguments

variable {c : Config} {callee : Value} {paren : Token} {arguments : List Value}

/-- A call that is attempted is made or refused, and a call that is refused does nothing else. -/
theorem calls_or_refused (ha : c.attempt? = some (callee, paren, arguments)) :
    c.Calls callee arguments ∨ ∃ fault, c.machine.Refuses callee arguments fault ∧
      c.step = ⟨c.machine, .done (.failed ⟨paren, fault⟩), c.frames.tail⟩ := by
  rw [step_of_attempt? ha]
  unfold Machine.call
  cases harity : c.machine.heap.arity? callee with
  | none => exact .inr ⟨_, .notCallable harity, rfl⟩
  | some arity =>
    by_cases hcount : arguments.length = arity
    · subst hcount
      by_cases hdepth : c.machine.callDepth < c.machine.maxCallDepth
      · exact .inl ⟨⟨paren, ha⟩, harity, hdepth⟩
      · have hdeep := Nat.not_lt.mp hdepth
        refine .inr ⟨_, .tooDeep harity hdeep, ?_⟩
        simp [hdeep]
    · refine .inr ⟨_, .wrongCount harity hcount, ?_⟩
      simp [hcount]

/-- Only a call that is not refused begins a body or makes an object. -/
theorem calls_of_starts (h : Frame.calls c.frames < Frame.calls c.step.frames ∨
    c.step.machine.heap.objects.size ≠ c.machine.heap.objects.size) :
    ∃ callee arguments, c.Calls callee arguments := by
  cases ha : c.attempt? with
  | none =>
    rcases h with hbody | hobject
    · exact absurd (calls_step ha) (Nat.not_le.mpr hbody)
    · exact absurd (objects_step ha) hobject
  | some attempt =>
    obtain ⟨callee, paren, arguments⟩ := attempt
    rcases calls_or_refused ha with hcalls | ⟨fault, -, hstep⟩
    · exact ⟨callee, arguments, hcalls⟩
    · rw [hstep] at h
      have htail : Frame.calls c.frames.tail ≤ Frame.calls c.frames :=
        (List.tail_sublist _).countP_le
      rcases h with hbody | hobject
      · exact absurd htail (Nat.not_le.mpr hbody)
      · exact absurd rfl hobject

/-- A body that is begun with as many arguments as it has parameters finds them paired. -/
theorem beginsPaired_of_enter {m : Machine} {fs : List Frame} {f : Closure} {result : CallResult}
    (hstep : c.step = m.enter fs f arguments result)
    (hd : (f.decl.params.map (·.lexeme)).Nodup) (hl : f.decl.params.length = arguments.length) :
    c.BeginsPaired f.decl arguments := by
  refine ⟨⟨m.heap.environments.size⟩, ⟨_, _, _, rfl, hstep⟩, ?_⟩
  rw [hstep, Machine.heap_enter]
  exact m.heap.pairs_entered hd hl

end Config

section

variable {programs more : List (List Stmt)} {o o' : Origins} {e e' : EnvironmentId} {hole : Hole}
  {fs : List Frame}

/-- What waits for a value waits for nothing else. -/
theorem Fits.hole_of_value (h : Fits programs o .value e fs) (h' : Fits more o' hole e' fs) :
    hole = .value := by
  cases h <;> cases h' <;> rfl

theorem Hole.Takes.of_value {completion : Completion} (h : Hole.value.Takes o e completion) :
    (∃ v, completion = .value v) ∨ ∃ fault, completion = .failed fault := by
  cases completion with
  | value v => exact .inl ⟨v, rfl⟩
  | failed fault => exact .inr ⟨fault, rfl⟩
  | _ => exact h.elim

end

namespace Activity

variable {o : Origins} {programs : List (List Stmt)} {c : Config} {rest : List Stmt}
  {report : Report} {nextNode : Nat}

/-- An expression gives a value or fails. -/
theorem Reachable.evaluated (h : Reachable o programs (.running c rest report nextNode)) {e : Expr}
    (hc : c.control = .eval e) {completion : Completion} {m : Machine}
    (hr : c.Returns c.frames completion m) :
    (∃ v, completion = .value v) ∨ ∃ fault, completion = .failed fault := by
  obtain ⟨-, hstands, -⟩ := h.invariant
  rw [hc] at hstands
  obtain ⟨Γ, -, -, hfits⟩ := hstands
  obtain ⟨count, hcount⟩ := hr.iterate
  obtain ⟨o', hend⟩ := h.steps count
  rw [hcount] at hend
  obtain ⟨-, ⟨hole, htakes, hfits'⟩, -⟩ := hend.invariant
  obtain rfl := hfits.hole_of_value hfits'
  exact htakes.of_value

/-- Calls do not truncate their arguments, or make up others, or run early. -/
theorem Reachable.calls_in_order (h : Reachable o programs (.running c rest report nextNode)) :
    c.CallsInOrder where
  evaluated e hc completion m hr := h.evaluated hc hr
  stages callee paren arguments hc d hd := by
    obtain ⟨m, control, fs⟩ := c
    obtain rfl : control = .eval (.call callee paren arguments) := hc
    exact Machine.calling_of_during hd
  attempted callee paren arguments ha := Config.calls_or_refused ha
  started hs := Config.calls_of_starts hs
  function id arguments hcalls := by
    have hkept := h.kept
    have hsound : c.Sound := h.sound
    obtain ⟨paren, hattempt⟩ := hcalls.1
    have hlives : id.index < c.machine.heap.functions.size := hsound.callee hattempt
    obtain ⟨f, hf⟩ : ∃ f, c.machine.heap.function? id = some f :=
      ⟨_, Array.getElem?_eq_getElem hlives⟩
    obtain ⟨Γ, kind, hn, -⟩ := hkept.machine.remembers.functions id f hf
    have hstep := hcalls.function
    rw [Machine.callFunction, hf] at hstep
    have harity : f.decl.arity = arguments.length := by
      simpa [Heap.arity?, hf] using hcalls.2.1
    exact ⟨f, hf, Config.beginsPaired_of_enter hstep (hkept.machine.standing hn).params_nodup
      harity⟩
  classValue k arguments hcalls := by
    have hkept := h.kept
    have hsound : c.Sound := h.sound
    have hstep := hcalls.classValue
    have harity := hcalls.2.1
    cases hk : c.machine.heap.initializer? k with
    | none =>
      refine .inl ⟨(Heap.method?_eq_none hsound.heap).mp hk, ?_, ?_⟩
      · have hzero : 0 = arguments.length := by simpa [Heap.arity?, hk] using harity
        exact List.length_eq_zero_iff.mp hzero.symm
      · rw [Machine.callClass, hk] at hstep
        rw [hstep]
        exact ⟨_, rfl, rfl⟩
    | some f =>
      obtain ⟨j, hfinds⟩ := Heap.finds_of_method? hk
      obtain ⟨Γ, outer, hn, -⟩ := hkept.machine.remembers.method? hk
      rw [Machine.callClass, hk] at hstep
      have hl : f.decl.arity = arguments.length := by simpa [Heap.arity?, hk] using harity
      exact .inr ⟨j, f, hfinds, Config.beginsPaired_of_enter
        (f := (c.machine.heap.instantiate k f).1) hstep
        (hkept.machine.standing hn).params_nodup hl⟩

/-- A class is called with as many arguments as the initializer takes that it inherits. -/
theorem calls_in_order_of_a_subclass : ∃ (c : Config) (f : Closure) (j : ClassId),
    c.Calls (.classValue ⟨1⟩) [.bool true, .nil] ∧ c.machine.heap.Finds "init" ⟨1⟩ j f ∧ j ≠ ⟨1⟩ ∧
      f.decl.params.map (·.lexeme) = ["x", "y"] ∧ c.BeginsPaired f.decl [.bool true, .nil] := by
  let s := Session.start (⟨0⟩ : Number)
  let source := "{ class A {init(x, y) {}} class B < A {} B(true, nil); }"
  have hsome : ((s.configAfter? source 12).bind fun c => c.attempt?.map fun call =>
      (call.1, call.2.2, decide (c.machine.heap.arity? (.classValue ⟨1⟩) = some 2 ∧
        c.machine.callDepth < c.machine.maxCallDepth ∧
        (c.machine.heap.class? ⟨1⟩).all (·.methods.contains "init") = false ∧
        (c.machine.heap.initializer? ⟨1⟩).map (·.decl.params.map (·.lexeme)) =
          some ["x", "y"]))) =
      some (.classValue ⟨1⟩, [.bool true, .nil], true) := by
    decide +kernel
  obtain ⟨c, hc, hcall⟩ := Option.bind_eq_some_iff.mp hsome
  obtain ⟨⟨callee, paren, arguments⟩, ha, hfacts⟩ := Option.map_eq_some_iff.mp hcall
  simp only [Prod.mk.injEq, decide_eq_true_eq] at hfacts
  obtain ⟨rfl, rfl, harity, hdepth, hown, hparams⟩ := hfacts
  obtain ⟨o, rest, report, nextNode, h⟩ := (Reachable.start (⟨0⟩ : Number)).configAfter?
    (s := s) (by decide +kernel) (by decide +kernel) hc
  have hcalls : c.Calls (.classValue ⟨1⟩) [.bool true, .nil] := ⟨⟨paren, ha⟩, harity, hdepth⟩
  obtain ⟨f, hf, hnames⟩ := Option.map_eq_some_iff.mp hparams
  have hsound : c.Sound := h.sound
  rcases h.calls_in_order.classValue _ _ hcalls with ⟨hlacks, -⟩ | ⟨j, g, hfinds, hbegins⟩
  · cases hf.symm.trans ((Heap.method?_eq_none hsound.heap).mpr hlacks)
  obtain rfl : f = g := Option.some.inj (hf.symm.trans (hfinds.method? hsound.heap))
  refine ⟨c, f, j, hcalls, hfinds, ?_, hnames, hbegins⟩
  rintro rfl
  obtain ⟨cls, hcls, hget⟩ := hfinds.defines
  simp [hcls, Bindings.contains, hget] at hown

end Activity

end Lox
