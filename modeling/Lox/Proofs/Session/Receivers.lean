import Lox.Proofs.Machine.Binding
import Lox.Proofs.Session.Dispatch

/-! Receivers are for good.

A method that an object gives keeps that object as its receiver, wherever the value is taken and
whenever it is called. A class gives a new object of its own, after the nearest initializer has run
on it, and an initializer that is called on an object gives that object. -/

namespace Lox

namespace Activity

variable {o : Origins} {programs : List (List Stmt)} {a b : Activity}

theorem Reachable.kept {c : Config} {rest : List Stmt} {report : Report} {nextNode : Nat}
    (h : Reachable o programs (.running c rest report nextNode)) : c.Kept programs o :=
  ⟨h.invariant.1.kept, h.invariant.2.1⟩

/-- No move takes a receiver away. -/
theorem Reachable.retains_move (h : Reachable o programs a) (hm : a.Move b) :
    a.machine.heap.Retains b.machine.heap := by
  have hsame {h h' : Heap} (heq : h' = h) : h.Retains h' := heq ▸ .refl h
  cases hm with
  | step => exact h.kept.retains
  | @unread s source _ => exact hsame (s.heap_read source)
  | @refused s source _ _ => exact hsame (s.heap_resolve_read source)
  | @accepted s source _ _ => exact hsame (s.heap_resolve_read source)
  | _ => exact .refl _

theorem Reachable.retains (h : Reachable o programs a) (hg : a.GoesTo b) :
    a.machine.heap.Retains b.machine.heap := by
  induction hg with
  | refl => exact .refl _
  | tail hg hm ih =>
    obtain ⟨o', programs', hb⟩ := h.goesTo hg
    exact ih.trans (hb.retains_move hm)

end Activity

namespace Machine

/-- The frame of a call gives a value, unless the body has failed. -/
theorem resume_call (m : Machine) (fs : List Frame) (result : CallResult) (first : Completion) :
    (∃ e, first = .failed e ∧ (m.resume fs (.call result) first).control = .done (.failed e)) ∨
      (∀ e, first ≠ .failed e) ∧
        m.resume fs (.call result) first =
          ⟨{ m with callDepth := m.callDepth - 1 }, .done (.value (m.callValue result first)), fs⟩ := by
  cases first with
  | failed e => exact .inl ⟨e, rfl, rfl⟩
  | _ => exact .inr ⟨fun _ => nofun, rfl⟩

end Machine

namespace Config

variable {c : Config} {result : CallResult} {fs : List Frame} {completion : Completion}
  {m : Machine} {base : ControlState}

/-- A call that comes to an end has either failed in its body or gives the value of the body. -/
theorem Returns.of_call (hr : c.Returns fs completion m) (h : c.LeadsTo (.call result :: fs) base) :
    (∃ e, completion = .failed e) ∨ ∃ first m', c.Returns (.call result :: fs) first m' ∧
      (∀ e, first ≠ .failed e) ∧ completion = .value (m'.callValue result first) ∧
      m.heap = m'.heap := by
  obtain ⟨first, m', hfirst, hlater⟩ := hr.through h
  rcases m'.resume_call fs result first with ⟨e, rfl, -⟩ | ⟨hnot, hvalue⟩
  · exact .inl ⟨e, hlater.of_done.1⟩
  · rw [hvalue] at hlater
    obtain ⟨hcompletion, hm⟩ := hlater.of_done
    exact .inr ⟨first, m', hfirst, hnot, hcompletion, by rw [hm]⟩

/-- A call of a class, if it succeeds, gives a new object of exactly this class. If a class on the
chain has an initializer, the body of the nearest one was run on the object to its end. -/
def Constructs (c : Config) (k : ClassId) : Prop :=
  ∀ v m, c.step.Returns c.frames.tail (.value v) m → ∃ i, v = .object i ∧
    c.machine.heap.object? i = none ∧ (m.heap.object? i).map (·.ofClass) = some k ∧
    ((c.machine.heap.Lacks "init" k ∧ c.step.control = .done (.value v)) ∨
      ∃ j f e first m', c.machine.heap.Finds "init" k j f ∧ c.Begins e f.decl.body ∧
        c.step.machine.heap.RunsOn e j f i ∧
        c.step.Returns (.call (.object i) :: c.frames.tail) first m' ∧ ∀ fault, first ≠ .failed fault)

end Config

namespace Activity

/-- A function keeps its receiver: a call of it runs the method on the object, there to stay, and
if the method is an initializer, the call gives the object. -/
structure KeepsReceiver (b : Activity) (id : FunctionId) (f : Closure) (i : ObjectId) : Prop where
  bound : b.machine.heap.BoundTo id f i
  calls : ∀ d rest report nextNode arguments, b = .running d rest report nextNode →
    d.Calls (.function id) arguments →
    (∃ e k, d.Begins e f.decl.body ∧ ∀ b', GoesTo (.running d.step rest report nextNode) b' →
      b'.machine.heap.RunsOn e k f i) ∧
    (f.decl.name.lexeme = "init" → ∀ completion m, d.step.Returns d.frames.tail completion m →
      completion = .value (.object i) ∨ ∃ fault, completion = .failed fault)

variable {o : Origins} {programs : List (List Stmt)} {c : Config} {rest : List Stmt}
  {report : Report} {nextNode : Nat}

/-- What has happened after a step, when it comes to an end, has kept the heap. -/
theorem Reachable.retains_returns (h : Reachable o programs (.running c rest report nextNode))
    {fs : List Frame} {completion : Completion} {m : Machine} (hr : c.Returns fs completion m) :
    c.machine.heap.Retains m.heap := by
  obtain ⟨count, hcount⟩ := hr.iterate
  have hkept := h.retains (GoesTo.steps count c)
  rwa [hcount] at hkept

theorem Reachable.keepsReceiver (h : Reachable o programs (.running c rest report nextNode))
    {id : FunctionId} {f : Closure} {i : ObjectId} {k : ClassId}
    (hbound : c.machine.heap.BoundTo id f i) (hm : c.machine.heap.HasMethod i k f)
    (hf : f.isInitializer = f.decl.isInitializer) {arguments : List Value}
    (hcalls : c.Calls (.function id) arguments) :
    (∃ e k, c.Begins e f.decl.body ∧ ∀ b, GoesTo (.running c.step rest report nextNode) b →
      b.machine.heap.RunsOn e k f i) ∧
    (f.decl.name.lexeme = "init" → ∀ completion m, c.step.Returns c.frames.tail completion m →
      completion = .value (.object i) ∨ ∃ fault, completion = .failed fault) := by
  have hkept := h.kept
  obtain ⟨e, env, hid, henv, hthis, hout⟩ := hbound
  have hstep := hcalls.function
  rw [Machine.callFunction, hid] at hstep
  simp only at hstep
  obtain ⟨Γ, kind, hn, -⟩ := hkept.machine.remembers.functions id _ hid
  obtain ⟨inner, hinner, hnone, hinto⟩ := c.machine.heap.environment?_entered
    (f := ⟨f.decl, e, f.isInitializer⟩) (hkept.machine.scope_plain hn) arguments
  rw [← Machine.heap_enter, ← hstep] at hinner
  obtain ⟨env', henv', hout', hsame⟩ := hkept.ages.environments e env henv
  have hthis' := (hsame "this" (.inl rfl)).trans hthis
  have hruns := ((hm.ages hkept.ages).runsOn henv' hthis' (hout'.trans hout)).nested hinner hnone
    hinto
  constructor
  · refine ⟨⟨c.machine.heap.environments.size⟩, k, ⟨_, _, _, rfl, hstep⟩, fun b hb => ?_⟩
    exact hruns.ages (h.step.retains hb).ages
  · intro hinit completion m hr
    have hisInit : f.isInitializer = true := by
      rw [hf, FunctionDecl.isInitializer, hinit]
      rfl
    rw [if_pos hisInit] at hstep
    obtain ⟨base, hleads⟩ := c.machine.leads_enter c.frames.tail
      ⟨f.decl, e, f.isInitializer⟩ arguments (.receiver e)
    rw [← hstep] at hleads
    rcases hr.of_call hleads with hfailed | ⟨first, m', hfirst, -, rfl, -⟩
    · exact .inr hfailed
    · -- The environment of the receiver is as it was when the body is done.
      have hlater := (h.step.retains_returns hfirst).ages
      obtain ⟨env'', henv'', -, hstill⟩ := hlater.environments e env' henv'
      have hlocal : m'.heap.local? e "this" = some (.object i) := by
        rw [Heap.local?, henv'']
        exact (hstill "this" (.inl rfl)).trans hthis'
      have hget : m'.heap.getAt? e 0 "this" = some (.object i) := (Heap.getAt?_of_local rfl hlocal).2
      rw [Machine.callValue, hget]
      exact .inl rfl

theorem Reachable.constructs (h : Reachable o programs (.running c rest report nextNode))
    {k : ClassId} {paren : Token} {arguments : List Value}
    (ha : c.attempt? = some (.classValue k, paren, arguments)) : c.Constructs k := by
  intro v m hr
  have hfresh : c.machine.heap.object? ⟨c.machine.heap.objects.size⟩ = none :=
    Array.getElem?_eq_none (Nat.le_refl _)
  have hclass {i : ObjectId} (hi : c.step.machine.heap.object? i = some ⟨k, Bindings.empty⟩) :
      (m.heap.object? i).map (·.ofClass) = some k := by
    obtain ⟨object, hobject, hsame⟩ := (h.step.retains_returns hr).ages.objects i _ hi
    rw [hobject, Option.map_some, hsame]
  have hcalled := Machine.called_call c.machine c.frames.tail (.classValue k) paren arguments
  obtain ⟨next, hnext⟩ : ∃ next, c.step = next := ⟨_, rfl⟩
  rw [← Config.step_of_attempt? ha, hnext] at hcalled
  cases hcalled with
  | refused e =>
    rw [hnext] at hr
    cases hr.of_done.1
  | object hk =>
    have hmade : c.step.machine.heap.object? ⟨c.machine.heap.objects.size⟩ =
        some ⟨k, Bindings.empty⟩ := by
      rw [hnext]
      exact Array.getElem?_push_size
    have hdone := hr
    rw [hnext] at hdone
    obtain ⟨hv, -⟩ := hdone.of_done
    cases hv
    exact ⟨_, rfl, hfresh, hclass hmade, .inl
      ⟨(Heap.method?_eq_none h.sound.heap).mp hk, congrArg Config.control hnext⟩⟩
  | @initializer _ method _ hk =>
    obtain ⟨j, hfinds, hruns⟩ := h.kept.runsOn_initializer hk hnext
    obtain ⟨base, hleads⟩ := Machine.leads_enter
      { c.machine with heap := (c.machine.heap.instantiate k method).2 } c.frames.tail
      (c.machine.heap.instantiate k method).1 arguments (.object ⟨c.machine.heap.objects.size⟩)
    rw [← hnext] at hleads
    rcases hr.of_call hleads with ⟨e, he⟩ | ⟨first, m', hfirst, hnot, hv, -⟩
    · cases he
    have hmade : c.step.machine.heap.object? ⟨c.machine.heap.objects.size⟩ =
        some ⟨k, Bindings.empty⟩ := by
      rw [hnext, Machine.heap_enter, Heap.object?, (Heap.entered_other _ _ _).2.2]
      exact Array.getElem?_push_size
    exact ⟨_, by simpa [Machine.callValue] using hv, hfresh, hclass hmade, .inr ⟨j, method, _, first,
      m', hfinds, ⟨_, _, _, rfl, hnext⟩, hruns, hfirst, hnot⟩⟩

/-- A `this` is the object that the method around it runs on, a method that an object gives keeps
that object as its receiver, and a class gives a new object of its own. -/
theorem Reachable.receivers_are_permanent
    (h : Reachable o programs (.running c rest report nextNode)) :
    (∀ r, c.control = .eval (.receiver r) →
      (∃ k f i, c.machine.heap.RunsOn c.machine.environment k f i ∧
        f.decl.Contains (.expr (.receiver r))) ∧
      ∀ k f i, c.machine.heap.RunsOn c.machine.environment k f i →
        c.step = ⟨c.machine, .done (.value (.object i)), c.frames⟩) ∧
    (∀ receiver f, c.binding? = some (receiver, f) → ∃ i id, receiver = .object i ∧
      c.Asks i ∧ c.step.control = .done (.value (.function id)) ∧
      ∀ b, GoesTo (.running c.step rest report nextNode) b → b.KeepsReceiver id f i) ∧
    ∀ k paren arguments, c.attempt? = some (.classValue k, paren, arguments) → c.Constructs k := by
  obtain ⟨ht, harranged⟩ := h.arranged
  have hkept := h.kept
  have hfaithful := h.invariant.1.faithful
  refine ⟨fun r hc => ?_, fun receiver f hb => ?_, fun k paren arguments => h.constructs⟩
  · obtain ⟨m, control, fs⟩ := c
    obtain rfl : control = .eval (.receiver r) := hc
    obtain ⟨hruns, hread⟩ := harranged.receiver hkept hfaithful ht
    refine ⟨hruns, fun k f i hr => ?_⟩
    rw [Config.step, Machine.evaluate, hread k f i hr]
    rfl
  · obtain ⟨i, k, rfl, hasks, hm⟩ := harranged.hasMethod hkept hfaithful ht hb
    obtain ⟨name, hunbound⟩ := hkept.unbound hb
    obtain ⟨-, -, -, -, -, hinit, -⟩ := hunbound
    obtain ⟨hvalue, hbound⟩ := c.machine.heap.boundTo_bindMethod f i
    obtain ⟨hcontrol, hheap⟩ := Config.step_of_binding hb
    rw [← hheap] at hbound
    refine ⟨i, _, rfl, hasks, hcontrol, fun b hg => ⟨hbound.retains (h.step.retains hg), ?_⟩⟩
    rintro d rest' report' nextNode' arguments rfl hcalls
    obtain ⟨o', programs', hd⟩ := h.step.goesTo hg
    have hretains := h.step.retains hg
    exact hd.keepsReceiver (hbound.retains hretains) ((hm.ages hkept.ages).ages hretains.ages) hinit
      hcalls

/-- A method of an object of `A` is put into a field of an object of `B` and called there. -/
theorem receivers_are_permanent_in_a_field : ∃ (c d : Config) (f : Closure) (i : ObjectId)
    (id : FunctionId) (e : EnvironmentId) (k : ClassId), c.binding? = some (.object i, f) ∧
      (c.machine.heap.object? i).map (·.ofClass) = some ⟨0⟩ ∧ d.Calls (.function id) [] ∧
      d.Begins e f.decl.body ∧ d.step.machine.heap.RunsOn e k f i := by
  let s := Session.start (⟨0⟩ : Number)
  let source := "{ class A {m() {}} class B {} var b = B(); b.f = A().m; b.f(); }"
  have hsome : ((s.configAfter? source 19).bind fun c => c.binding?.map fun bound =>
      let d := Config.step^[8] c.step
      (bound.1, decide ((c.machine.heap.object? ⟨1⟩).map (·.ofClass) = some ⟨0⟩ ∧
        c.step.completion? = some (.value (.function ⟨0⟩)) ∧
        d.attempt?.map (fun call => (call.1, call.2.2)) = some (.function ⟨0⟩, []) ∧
        d.machine.heap.arity? (.function ⟨0⟩) = some 0 ∧
        d.machine.callDepth < d.machine.maxCallDepth))) = some (.object ⟨1⟩, true) := by
    decide +kernel
  obtain ⟨c, hc, hbound⟩ := Option.bind_eq_some_iff.mp hsome
  obtain ⟨⟨receiver, f⟩, hb, hfacts⟩ := Option.map_eq_some_iff.mp hbound
  simp only [Prod.mk.injEq, decide_eq_true_eq] at hfacts
  obtain ⟨rfl, hclass, hvalue, hattempt, harity, hdepth⟩ := hfacts
  obtain ⟨o, rest, report, nextNode, h⟩ := (Reachable.start (⟨0⟩ : Number)).configAfter?
    (s := s) (by decide +kernel) (by decide +kernel) hc
  obtain ⟨i, id, hi, -, hgives, hkeeps⟩ := h.receivers_are_permanent.2.1 _ f hb
  cases hi
  rw [Config.completion?, hgives] at hvalue
  obtain rfl : id = ⟨0⟩ := by simpa using hvalue
  obtain ⟨⟨callee, paren, arguments⟩, ha, heq⟩ := Option.map_eq_some_iff.mp hattempt
  obtain ⟨rfl, rfl⟩ : callee = .function ⟨0⟩ ∧ arguments = [] := by simpa using heq
  have hcalls : Config.Calls (Config.step^[8] c.step) (.function ⟨0⟩) [] :=
    ⟨⟨paren, ha⟩, harity, hdepth⟩
  obtain ⟨⟨e, k, hbegins, hruns⟩, -⟩ :=
    (hkeeps _ (.steps 8 c.step)).calls _ _ _ _ _ rfl hcalls
  exact ⟨c, _, f, _, _, e, k, hb, hclass, hcalls, hbegins, hruns _ (.refl _)⟩

end Activity

end Lox
