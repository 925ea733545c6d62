import Lox.Proofs.Machine.Growth
import Lox.Proofs.Session.History
import Lox.Proofs.Session.Invariant

/-! Local declarations do not leak out of a session's scopes.

Whatever a session goes through, environments keep their places and their names; blocks, calls and
methods are given new ones; and a statement that declares nothing itself adds no name to any
environment that was there before it. -/

namespace Lox

def Activity.machine : Activity → Machine
  | .waiting s => s.machine
  | .between s _ => s.machine
  | .running c _ _ _ => c.machine

/-- All references of a session lead to something. -/
def Activity.Sound : Activity → Prop
  | .waiting s => s.machine.heap.Sound
  | .between s _ => s.machine.heap.Sound
  | .running c _ _ _ => c.Sound

theorem Machine.sound_initial (now : Nat → Number) : (Machine.initial now).heap.Sound := by
  have hempty {α : Type} {i : Nat} {x : α} (h : (#[] : Array α)[i]? = some x) : False := by
    simp at h
  refine ⟨fun e x v hv => ?_, fun o object x v ho => (hempty ho).elim,
    fun o object ho => (hempty ho).elim, fun k cls s hk => (hempty hk).elim⟩
  obtain ⟨env, henv, hget⟩ := Option.bind_eq_some_iff.mp hv
  obtain ⟨i⟩ := e
  cases i with
  | succ i => simp [initial, Heap.withGlobals, Heap.environment?] at henv
  | zero =>
    cases henv
    obtain ⟨f, -, heq⟩ := List.mem_map.mp (Bindings.mem_of_mem_ofList (Bindings.mem_of_get? hget))
    cases heq
    exact trivial

theorem Activity.Reachable.sound {o : Origins} {programs : List (List Stmt)} {a : Activity}
    (h : Reachable o programs a) : a.Sound := by
  have hsame {h h' : Heap} (heq : h' = h) (hs : h.Sound) : h'.Sound := heq ▸ hs
  induction h with
  | start now => exact Machine.sound_initial now
  | begun _ ih => exact ⟨ih, List.forall_mem_nil _, List.forall_mem_nil _⟩
  | step _ ih => exact Config.Sound.step ih
  | completed _ _ ih => exact ih.heap
  | failed _ ih => exact ih.heap
  | @unread _ _ s source _ _ ih => exact hsame (s.heap_read source) ih
  | @refused _ _ s source _ _ _ ih => exact hsame (s.heap_resolve_read source) ih
  | @accepted _ _ s source _ _ _ ih => exact hsame (s.heap_resolve_read source) ih
  | _ => assumption

/-- The moves of a session only let environments grow. -/
theorem Activity.Move.extends {a b : Activity} (h : a.Move b) :
    a.machine.heap.Extends b.machine.heap := by
  have hsame {h h' : Heap} (heq : h' = h) : h.Extends h' := heq ▸ .refl h
  cases h with
  | @step c => exact c.writes_step.changes.extends
  | @unread s source _ => exact hsame (s.heap_read source)
  | @refused s source _ _ => exact hsame (s.heap_resolve_read source)
  | @accepted s source _ _ => exact hsame (s.heap_resolve_read source)
  | _ => exact .refl _

theorem Activity.GoesTo.extends {a b : Activity} (h : a.GoesTo b) :
    a.machine.heap.Extends b.machine.heap := by
  induction h with
  | refl => exact .refl _
  | tail _ hm ih => exact ih.trans hm.extends

namespace Config

/-- The next step makes an environment that was not there before. -/
structure Makes (c : Config) (e outer : EnvironmentId) : Prop where
  fresh : c.machine.heap.environment? e = none
  made : (c.step.machine.heap.environment? e).map (·.enclosing) = some (some outer)

/-- The next step begins to run statements in an environment. -/
def Begins (c : Config) (e : EnvironmentId) (body : List Stmt) : Prop :=
  ∃ (m : Machine) (frames : List Frame) (outer : EnvironmentId),
    m.environment = e ∧ c.step = m.runBlock frames outer body

/-- The next step makes a call that is not refused. -/
def Calls (c : Config) (callee : Value) (arguments : List Value) : Prop :=
  (∃ paren, c.attempt? = some (callee, paren, arguments)) ∧
    c.machine.heap.arity? callee = some arguments.length ∧
    c.machine.callDepth < c.machine.maxCallDepth

/-- Blocks, calls and methods are given environments that were not there before. -/
structure OpensNew (c : Config) : Prop where
  block : ∀ body, c.control = .exec (.block body) →
    ∃ e, c.Makes e c.machine.environment ∧ c.Begins e body
  function : ∀ f arguments, c.Calls (.function f) arguments →
    ∃ closure e, c.machine.heap.function? f = some closure ∧ c.Makes e closure.scope ∧
      c.Begins e closure.decl.body
  initializer : ∀ k arguments method, c.Calls (.classValue k) arguments →
    c.machine.heap.initializer? k = some method →
    ∃ receiver e, c.Makes receiver method.scope ∧ c.Makes e receiver ∧ c.Begins e method.decl.body
  method : ∀ receiver f, c.binding? = some (receiver, f) →
    ∃ e, c.Makes e f.scope ∧ c.step.machine.heap.local? e "this" = some receiver

end Config

namespace Heap

theorem local?_bindThis (h : Heap) (f : Closure) (receiver : Value) :
    (h.bindThis f receiver).2.local? ⟨h.environments.size⟩ "this" = some receiver := by
  rw [local?, (environment?_of_push (h.bindThis_environments f receiver)).2]
  simp

end Heap

namespace Config

variable {c : Config}

theorem Makes.of_push {h : Heap} {env : Environment} {outer : EnvironmentId}
    (hh : c.step.machine.heap = h) (he : h.environments = c.machine.heap.environments.push env)
    (hout : env.enclosing = some outer) :
    c.Makes ⟨c.machine.heap.environments.size⟩ outer := by
  obtain ⟨hfresh, hmade⟩ := Heap.environment?_of_push he
  exact ⟨hfresh, by rw [hh, hmade]; exact congrArg some hout⟩

/-- A call that is not refused is made. -/
theorem Calls.function {f : FunctionId} {arguments : List Value}
    (h : c.Calls (.function f) arguments) :
    c.step = c.machine.callFunction c.frames.tail f arguments := by
  obtain ⟨⟨paren, hattempt⟩, harity, hdepth⟩ := h
  rw [step_of_attempt? hattempt, Machine.call, harity]
  simp only [ne_eq, not_true_eq_false, if_false, Nat.not_le.mpr hdepth]

theorem Calls.classValue {k : ClassId} {arguments : List Value}
    (h : c.Calls (.classValue k) arguments) :
    c.step = c.machine.callClass c.frames.tail k arguments := by
  obtain ⟨⟨paren, hattempt⟩, harity, hdepth⟩ := h
  rw [step_of_attempt? hattempt, Machine.call, harity]
  simp only [ne_eq, not_true_eq_false, if_false, Nat.not_le.mpr hdepth]

/-- The callee waits in a frame or has just been found. -/
theorem Sound.callee {callee : Value} {paren : Token} {arguments : List Value} (h : c.Sound)
    (ha : c.attempt? = some (callee, paren, arguments)) : callee.Lives c.machine.heap := by
  obtain ⟨m, control, fs⟩ := c
  unfold attempt? at ha
  split at ha
  · rename_i v frame rest heq
    cases heq
    unfold Frame.attempt? at ha
    split at ha
    · cases ha
      exact h.control callee (.head _)
    · cases ha
      exact h.frames _ (.head _) callee (.head _)
    · cases ha
  · cases ha

/-- The next step gives the bound method. -/
theorem step_of_binding {receiver : Value} {f : Closure} (h : c.binding? = some (receiver, f)) :
    c.step.control = .done (.value (c.machine.heap.bindMethod f receiver).1) ∧
      c.step.machine.heap = (c.machine.heap.bindMethod f receiver).2 := by
  unfold binding? at h
  split at h
  · split at h
    · rename_i heq
      cases h
      rw [step, Machine.evaluate, heq]
      exact ⟨rfl, rfl⟩
    · cases h
  · split at h
    · rename_i heq
      cases h
      rw [step, Machine.resume, Machine.resumeValue, heq]
      · exact ⟨rfl, rfl⟩
      all_goals simp
    · cases h
  · cases h

theorem Sound.opensNew (h : c.Sound) : c.OpensNew where
  block body hc := by
    obtain ⟨m, control, fs⟩ := c
    obtain rfl : control = .exec (.block body) := hc
    have hheap : (Config.step ⟨m, .exec (.block body), fs⟩).machine.heap = (m.heap.child m.environment).2 :=
      Machine.heap_runBlock _ _ _ _
    exact ⟨⟨m.heap.environments.size⟩, .of_push hheap rfl rfl, _, _, _, rfl, rfl⟩
  function f arguments hcalls := by
    obtain ⟨paren, hattempt⟩ := hcalls.1
    have hlives : f.index < c.machine.heap.functions.size := h.callee hattempt
    obtain ⟨closure, hf⟩ : ∃ closure, c.machine.heap.function? f = some closure :=
      ⟨_, Array.getElem?_eq_getElem hlives⟩
    have hstep := hcalls.function
    rw [Machine.callFunction, hf] at hstep
    have hheap := (congrArg (fun c => c.machine.heap) hstep).trans (Machine.heap_enter _ _ _ _ _)
    exact ⟨closure, _, hf, .of_push hheap (Heap.entered_environments _ _ _) rfl,
      _, _, _, rfl, hstep⟩
  initializer k arguments method hcalls hk := by
    let m := c.machine
    have hstep : c.step = Machine.enter { m with heap := (m.heap.instantiate k method).2 }
        c.frames.tail (m.heap.instantiate k method).1 arguments (.object ⟨m.heap.objects.size⟩) := by
      rw [hcalls.classValue, Machine.callClass, hk]
      rfl
    have hheap := (congrArg (fun c => c.machine.heap) hstep).trans (Machine.heap_enter _ _ _ _ _)
    have hthis : (m.heap.instantiate k method).2.environments = m.heap.environments.push
      ⟨Bindings.empty.insert "this" (.object ⟨m.heap.objects.size⟩), some method.scope⟩ :=
        Heap.bindThis_environments _ _ _
    have hcalled := Heap.entered_environments (m.heap.instantiate k method).2
      (m.heap.instantiate k method).1 arguments
    obtain ⟨hfresh, hmade⟩ := Heap.environment?_of_push hthis
    have hsize : (m.heap.instantiate k method).2.environments.size = m.heap.environments.size + 1 := by
      rw [hthis, Array.size_push]
    refine ⟨⟨m.heap.environments.size⟩, _, ⟨hfresh, ?_⟩, ⟨?_, ?_⟩, _, _, _, rfl, hstep⟩
    · rw [hheap, Heap.environment?_push hcalled, if_neg (by simp [hsize]), hmade]
      rfl
    · exact Array.getElem?_eq_none (by rw [hsize]; exact Nat.le_succ _)
    · rw [hheap, (Heap.environment?_of_push hcalled).2]
      rfl
  method receiver f hbinding := by
    have hheap := (step_of_binding hbinding).2
    have hthis := c.machine.heap.bindThis_environments f receiver
    refine ⟨_, .of_push hheap hthis rfl, ?_⟩
    rw [hheap]
    exact c.machine.heap.local?_bindThis f receiver

end Config

/-- Environments only grow, and what a statement declares stays within it. -/
theorem Activity.Reachable.environments_grow {o : Origins} {programs : List (List Stmt)}
    {a : Activity} (h : Activity.Reachable o programs a) :
    (∀ b, a.GoesTo b → a.machine.heap.Extends b.machine.heap) ∧
    ∀ c rest report nextNode, a = .running c rest report nextNode → c.OpensNew ∧
      ∀ s c', c.control = .exec s → s.declared? = none → c.During c.frames c' →
        c.machine.heap.Agrees c.machine.heap.environments.size c'.machine.heap := by
  refine ⟨fun b hb => hb.extends, ?_⟩
  rintro c rest report nextNode rfl
  refine ⟨Config.Sound.opensNew h.sound, fun s c' hs hnone hduring => ?_⟩
  obtain ⟨hready, hstands, -⟩ := h.invariant
  obtain ⟨m, control, fs⟩ := c
  obtain rfl : control = .exec s := hs
  obtain ⟨Γ, -, hn, -⟩ := hstands
  exact hduring.agrees (hready.kept.standing hn).wellFormed hnone

/-- In `{ var a; }` the name comes into the new environment of the block and into no other. -/
theorem environments_grow_in_a_block : ∃ (c c' : Config) (body : List Stmt),
    c.control = .exec (.block body) ∧
    c.During c.frames c' ∧ c'.machine.heap.binds ⟨1⟩ "a" = true ∧
    c.machine.heap.Agrees c.machine.heap.environments.size c'.machine.heap := by
  let s := Session.start (⟨0⟩ : Number)
  let source := "{ var a; }"
  have hshape : (s.configAfter? source 0).all (fun c => match c.control, c.step.control with
      | .exec (.block _), .exec _ => c.step.step.machine.heap.binds ⟨1⟩ "a"
      | _, _ => false) = true := by decide +kernel
  have hsome : (s.configAfter? source 0).isSome = true := by decide +kernel
  obtain ⟨c, hc⟩ := Option.isSome_iff_exists.mp hsome
  obtain ⟨o, rest, report, nextNode, h⟩ := (Activity.Reachable.start (⟨0⟩ : Number)).configAfter?
    (s := s) (by decide +kernel) (by decide +kernel) hc
  rw [hc] at hshape
  simp only [Option.all_some] at hshape
  split at hshape
  · rename_i body inner hblock hinner
    have hduring : c.During c.frames c.step.step := by
      refine .step (.step .here fun completion hdone => ?_) fun completion hdone => ?_
      · exact nomatch hblock.symm.trans hdone
      · exact nomatch hinner.symm.trans hdone
    exact ⟨c, c.step.step, body, hblock, hduring, hshape,
      (h.environments_grow.2 c rest report nextNode rfl).2 _ _ hblock rfl hduring⟩
  · cases hshape

end Lox
