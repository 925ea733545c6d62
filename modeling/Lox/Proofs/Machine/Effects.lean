import Lox.Proofs.Machine.Origins
import Lox.Proofs.Machine.Overflow

/-! What a step does to the heap.

Most steps leave it alone. The others declare a name in the current environment, assign to a name
that is bound already, write a field, or make something new; a call and the binding of a method make
environments. Each kind of step is listed once, with what makes it be taken. -/

namespace Lox

/-- A call of a function, up to its body: a new environment with the parameters. -/
def Heap.entered (h : Heap) (f : Closure) (arguments : List Value) : Heap :=
  (f.decl.params.zip arguments).foldl
    (fun heap entry => heap.define ⟨h.environments.size⟩ entry.1.lexeme entry.2) (h.child f.scope).2

/-- The initializer of a class, bound to a new object. -/
def Heap.instantiate (h : Heap) (k : ClassId) (initializer : Closure) : Closure × Heap :=
  (h.newObject ⟨k, Bindings.empty⟩).2.bindThis initializer (.object ⟨h.objects.size⟩)

/-- The arguments are bound to the parameters, and nothing else is. -/
theorem Heap.entered_environments (h : Heap) (f : Closure) (arguments : List Value) :
    (h.entered f arguments).environments = h.environments.push
      ⟨(f.decl.params.zip arguments).foldl (fun b entry => b.insert entry.1.lexeme entry.2)
        Bindings.empty, some f.scope⟩ := by
  have hchild : (h.child f.scope).2.environments =
    h.environments.push ⟨Bindings.empty, some f.scope⟩ := rfl
  exact foldl_define_push (f.decl.params.zip arguments) hchild

theorem Heap.foldl_define_other (e : EnvironmentId) (entries : List (Token × Value)) :
    ∀ h : Heap, let h' := entries.foldl (fun heap entry => heap.define e entry.1.lexeme entry.2) h
      h'.functions = h.functions ∧ h'.classes = h.classes ∧ h'.objects = h.objects := by
  induction entries with
  | nil => exact fun h => ⟨rfl, rfl, rfl⟩
  | cons entry rest ih => exact fun h => ih (h.define e entry.1.lexeme entry.2)

theorem Heap.entered_other (h : Heap) (f : Closure) (arguments : List Value) :
    (h.entered f arguments).functions = h.functions ∧ (h.entered f arguments).classes = h.classes ∧
      (h.entered f arguments).objects = h.objects :=
  foldl_define_other _ _ (h.child f.scope).2

namespace Machine

theorem heap_runBlock (m : Machine) (fs : List Frame) (outer : EnvironmentId) (rest : List Stmt) :
    (m.runBlock fs outer rest).machine.heap = m.heap := by
  cases rest <;> rfl

theorem heap_enter (m : Machine) (fs : List Frame) (f : Closure) (arguments : List Value)
    (result : CallResult) :
    (m.enter fs f arguments result).machine.heap = m.heap.entered f arguments :=
  heap_runBlock _ _ _ _

/-- What a call can come to. -/
inductive Called (m : Machine) (fs : List Frame) : Value → List Value → Config → Prop where
  | refused {callee arguments} (e : RuntimeError) :
    m.Called fs callee arguments ⟨m, .done (.failed e), fs⟩
  | native {f arguments} : m.Called fs (.native f) arguments
      ⟨m.readClock.2, .done (.value (.number m.readClock.1)), fs⟩
  | missing {f arguments} : m.heap.function? f = none →
    m.Called fs (.function f) arguments ⟨m, .done (.value .nil), fs⟩
  | function {f closure arguments} : m.heap.function? f = some closure →
    m.Called fs (.function f) arguments (m.enter fs closure arguments
      (if closure.isInitializer then .receiver closure.scope else .returned))
  | object {k arguments} : m.heap.initializer? k = none →
    m.Called fs (.classValue k) arguments
      ⟨{ m with heap := (m.heap.newObject ⟨k, Bindings.empty⟩).2 },
        .done (.value (.object ⟨m.heap.objects.size⟩)), fs⟩
  | initializer {k method arguments} : m.heap.initializer? k = some method →
    m.Called fs (.classValue k) arguments
      (enter { m with heap := (m.heap.instantiate k method).2 } fs
        (m.heap.instantiate k method).1 arguments (.object ⟨m.heap.objects.size⟩))

theorem called_call (m : Machine) (fs : List Frame) (callee : Value) (paren : Token)
    (arguments : List Value) :
    m.Called fs callee arguments (m.call fs callee paren arguments) := by
  unfold call
  split
  · exact .refused _
  split
  · exact .refused _
  split
  · exact .refused _
  split
  · exact .native
  · rename_i f _
    unfold callFunction
    cases hf : m.heap.function? f with
    | none => exact .missing hf
    | some closure => exact .function hf
  · rename_i k _
    unfold callClass
    cases hk : m.heap.initializer? k with
    | none => exact .object hk
    | some method => exact .initializer hk
  · exact .refused _

end Machine

/-- The receiver and the method that the next step binds to it. -/
def Config.binding? : Config → Option (Value × Closure)
  | ⟨m, .eval (.inherited r t), _⟩ =>
    match m.inherited r t with
    | .ok (receiver, .method f) => some (receiver, f)
    | _ => none
  | ⟨m, .done (.value v), .get t :: _⟩ =>
    match m.property v t with
    | .ok (receiver, .method f) => some (receiver, f)
    | _ => none
  | _ => none

/-- What a step can do to the heap, and what makes it do so. -/
inductive Config.Writes : Config → Heap → Prop where
  | nothing {c} : Writes c c.machine.heap
  | undefined {m t fs} : Writes ⟨m, .exec (.varDecl t none), fs⟩ (m.define t.lexeme .nil).heap
  | variable {m v t fs} :
    Writes ⟨m, .done (.value v), .varDecl t :: fs⟩ (m.define t.lexeme v).heap
  | block {m body fs} : Writes ⟨m, .exec (.block body), fs⟩ (m.heap.child m.environment).2
  | function {m decl fs} : Writes ⟨m, .exec (.function decl), fs⟩ (m.declareFunction decl).heap
  | classDecl {m t r methods k fs} : m.superclass r = .ok k →
    Writes ⟨m, .exec (.classDecl t r methods), fs⟩ (m.declareClass t k methods).heap
  | assigned {m v r e fs} : m.holder? r = some e →
    Writes ⟨m, .done (.value v), .assign r :: fs⟩ (m.heap.define e r.name.lexeme v)
  | field {m v o t fs} :
    Writes ⟨m, .done (.value v), .setValue o t :: fs⟩ (m.heap.setField o t.lexeme v)
  | property {m v t receiver f fs} : m.property v t = .ok (receiver, .method f) →
    Writes ⟨m, .done (.value v), .get t :: fs⟩ (m.heap.bindMethod f receiver).2
  | inherited {m r t receiver f fs} : m.inherited r t = .ok (receiver, .method f) →
    Writes ⟨m, .eval (.inherited r t), fs⟩ (m.heap.bindMethod f receiver).2
  | called {c f paren arguments closure} : c.attempt? = some (.function f, paren, arguments) →
    c.machine.heap.function? f = some closure → Writes c (c.machine.heap.entered closure arguments)
  | object {c k paren arguments} : c.attempt? = some (.classValue k, paren, arguments) →
    c.machine.heap.initializer? k = none →
    Writes c (c.machine.heap.newObject ⟨k, Bindings.empty⟩).2
  | initialized {c k paren arguments method} :
    c.attempt? = some (.classValue k, paren, arguments) →
    c.machine.heap.initializer? k = some method →
    Writes c ((c.machine.heap.instantiate k method).2.entered
      (c.machine.heap.instantiate k method).1 arguments)

namespace Config

open Machine

/-- A step that leaves the heap as it is. -/
theorem Writes.same {c : Config} {h : Heap} (hh : h = c.machine.heap) : c.Writes h := hh ▸ .nothing

theorem writes_call {c : Config} {callee : Value} {paren : Token} {arguments : List Value}
    (h : c.attempt? = some (callee, paren, arguments)) : c.Writes c.step.machine.heap := by
  have hcalled := called_call c.machine c.frames.tail callee paren arguments
  rw [← step_of_attempt? h] at hcalled
  generalize c.step = next at hcalled
  cases hcalled with
  | refused e => exact .nothing
  | native => exact .nothing
  | missing hf => exact .nothing
  | function hf =>
    rw [heap_enter]
    exact .called h hf
  | object hk => exact .object h hk
  | initializer hk =>
    rw [heap_enter]
    exact .initialized h hk

theorem writes_evaluate (m : Machine) (fs : List Frame) (e : Expr) :
    Writes ⟨m, .eval e, fs⟩ (m.evaluate fs e).machine.heap := by
  cases e with
  | «variable» r =>
    refine .same ?_
    rw [evaluate]
    cases m.read r <;> rfl
  | receiver r =>
    refine .same ?_
    rw [evaluate]
    cases m.read r <;> rfl
  | inherited r t =>
    rw [evaluate]
    rcases hr : m.inherited r t with e | ⟨receiver, v | f⟩
    · exact .nothing
    · exact .nothing
    · exact .inherited hr
  | _ => exact .nothing

theorem writes_execute (m : Machine) (fs : List Frame) (s : Stmt) :
    Writes ⟨m, .exec s, fs⟩ (m.execute fs s).machine.heap := by
  cases s with
  | varDecl t e =>
    cases e with
    | none => exact .undefined
    | some e => exact .nothing
  | block body =>
    rw [execute, heap_runBlock]
    exact .block
  | function decl => exact .function
  | classDecl t r methods =>
    rw [execute]
    cases hr : m.superclass r with
    | error e => exact .nothing
    | ok k => exact .classDecl hr
  | returning t e => cases e <;> exact .nothing
  | _ => exact .nothing

theorem writes_resumeValue (m : Machine) (fs : List Frame) (v : Value) (frame : Frame) :
    Writes ⟨m, .done (.value v), frame :: fs⟩ (m.resumeValue fs v frame).machine.heap := by
  cases frame with
  | unary t =>
    refine .same ?_
    rw [resumeValue]
    cases Operator.unary t v <;> rfl
  | binaryRight left t =>
    refine .same ?_
    rw [resumeValue]
    cases Operator.binary t left v <;> rfl
  | logical t right =>
    refine .same ?_
    rw [resumeValue]
    split <;> rfl
  | assign r =>
    rw [resumeValue, finishAssign]
    cases he : m.holder? r with
    | none => exact .nothing
    | some e => exact .assigned he
  | callee paren arguments =>
    cases arguments with
    | nil => exact writes_call (c := ⟨m, .done (.value v), .callee paren [] :: fs⟩) rfl
    | cons e rest => exact .nothing
  | argument callee paren done rest =>
    cases rest with
    | nil => exact writes_call (c := ⟨m, .done (.value v), .argument callee paren done [] :: fs⟩) rfl
    | cons e rest => exact .nothing
  | get t =>
    rw [resumeValue]
    rcases hr : m.property v t with e | ⟨receiver, w | f⟩
    · exact .nothing
    · exact .nothing
    · exact .property hr
  | setObject t e => cases v <;> exact .nothing
  | setValue o t => exact .field
  | varDecl t => exact .variable
  | branch s alternative =>
    refine .same ?_
    simp only [resumeValue]
    split
    · rfl
    · cases alternative <;> rfl
  | loopTest loop =>
    refine .same ?_
    rw [resumeValue]
    split <;> rfl
  | _ => exact .nothing

theorem writes_resume (m : Machine) (fs : List Frame) (frame : Frame) (c : Completion) :
    Writes ⟨m, .done c, frame :: fs⟩ (m.resume fs frame c).machine.heap := by
  cases frame with
  | block rest outer =>
    refine .same ?_
    cases c with
    | normal => exact heap_runBlock m fs outer rest
    | _ => rfl
  | call result =>
    refine .same ?_
    cases c <;> rfl
  | loopBody loop =>
    refine .same ?_
    obtain ⟨condition, body, increment⟩ := loop
    cases c <;> cases increment <;> rfl
  | _ =>
    cases c with
    | value v => exact writes_resumeValue m fs v _
    | _ => exact .nothing

/-- Whatever a step does to the heap is listed. -/
theorem writes_step (c : Config) : c.Writes c.step.machine.heap := by
  obtain ⟨m, control, fs⟩ := c
  cases control with
  | eval e => exact writes_evaluate m fs e
  | exec s => exact writes_execute m fs s
  | done c =>
    cases fs with
    | nil => exact .nothing
    | cons frame fs => exact writes_resume m fs frame c

end Config

end Lox
