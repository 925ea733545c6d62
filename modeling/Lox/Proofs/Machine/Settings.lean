import Lox.Proofs.Machine.Overflow
import Lox.Proofs.Machine.Runs

/-! Machines in another setting.

The limit of calls and the clock are given from outside and read where a call is made, nowhere else.
So a machine in another setting takes the same step, unless that step is a call that is answered
otherwise there. -/

namespace Lox

/-- Another limit and another clock, by those that they take the place of. -/
structure Setting where
  limit : Nat → Nat
  clock : (Nat → Number) → Nat → Number

def Machine.within (m : Machine) (w : Setting) : Machine :=
  { m with maxCallDepth := w.limit m.maxCallDepth, now := w.clock m.now }

def Config.within (c : Config) (w : Setting) : Config :=
  { c with machine := c.machine.within w }

/-- The call that is attempted is admitted alike and reads the same time, if any. -/
structure Setting.Answer (w : Setting) (m : Machine)
    (attempt : Option (Value × Token × List Value)) : Prop where
  admits : ∀ callee paren arguments, attempt = some (callee, paren, arguments) →
    m.heap.arity? callee = some arguments.length →
    (w.limit m.maxCallDepth ≤ m.callDepth ↔ m.maxCallDepth ≤ m.callDepth)
  reads : ∀ paren, attempt = some (.native .clock, paren, []) → m.callDepth < m.maxCallDepth →
    (m.within w).readClock = (m.readClock.1, m.readClock.2.within w)

namespace Machine

variable {m : Machine} {fs : List Frame} {w : Setting}

theorem finish_within (r : Except RuntimeError Value) :
    (m.within w).finish fs r = (m.finish fs r).within w := by
  cases r <;> rfl

theorem finishProperty_within (r : Except RuntimeError (Value × Property)) :
    (m.within w).finishProperty fs r = (m.finishProperty fs r).within w := by
  rcases r with e | ⟨receiver, v | f⟩ <;> rfl

theorem runBlock_within (fs : List Frame) (outer : EnvironmentId) (rest : List Stmt) :
    (m.within w).runBlock fs outer rest = (m.runBlock fs outer rest).within w := by
  cases rest <;> rfl

theorem enter_within (f : Closure) (arguments : List Value) (result : CallResult) :
    (m.within w).enter fs f arguments result = (m.enter fs f arguments result).within w := by
  exact runBlock_within (m := { m with
    heap := (f.decl.params.zip arguments).foldl
      (fun heap entry => heap.define ⟨m.heap.environments.size⟩ entry.1.lexeme entry.2)
      (m.heap.child f.scope).2
    environment := ⟨m.heap.environments.size⟩
    callDepth := m.callDepth + 1 }) (.call result :: fs) m.environment f.decl.body

theorem callFunction_within (f : FunctionId) (arguments : List Value) :
    (m.within w).callFunction fs f arguments = (m.callFunction fs f arguments).within w := by
  have hfunction : (m.within w).heap.function? f = m.heap.function? f := rfl
  simp only [callFunction, hfunction]
  cases m.heap.function? f with
  | none => rfl
  | some closure => exact enter_within closure arguments _

theorem callClass_within (c : ClassId) (arguments : List Value) :
    (m.within w).callClass fs c arguments = (m.callClass fs c arguments).within w := by
  have hinit : (m.within w).heap.initializer? c = m.heap.initializer? c := rfl
  simp only [callClass, hinit]
  cases m.heap.initializer? c with
  | none => rfl
  | some method => exact enter_within (m := { m with heap := _ }) _ arguments _

theorem call_within (callee : Value) (paren : Token) (arguments : List Value)
    (h : w.Answer m (some (callee, paren, arguments))) :
    (m.within w).call fs callee paren arguments = (m.call fs callee paren arguments).within w := by
  have harity : (m.within w).heap.arity? callee = m.heap.arity? callee := rfl
  have hlimit : (m.within w).maxCallDepth = w.limit m.maxCallDepth := rfl
  have hdepth : (m.within w).callDepth = m.callDepth := rfl
  unfold call
  rw [harity, hlimit, hdepth]
  cases ha : m.heap.arity? callee with
  | none => rfl
  | some arity =>
    simp only
    by_cases hlen : arguments.length = arity
    · rw [if_neg (not_not_intro hlen), if_neg (not_not_intro hlen)]
      simp only [h.admits callee paren arguments rfl (by rw [ha, hlen])]
      split
      · rfl
      · rename_i hfits
        cases callee with
        | native f =>
          cases f
          obtain rfl : 0 = arity := Option.some.inj ha
          obtain rfl : arguments = [] := List.eq_nil_of_length_eq_zero hlen
          simp only [h.reads paren rfl (Nat.lt_of_not_le hfits)]
          rfl
        | function f => exact callFunction_within f arguments
        | classValue c => exact callClass_within c arguments
        | _ => rfl
    · rw [if_pos hlen, if_pos hlen]
      rfl

theorem superclass_within (r : Option Reference) : (m.within w).superclass r = m.superclass r := by
  cases r <;> rfl

theorem declareClass_within (t : Token) (c : Option ClassId) (methods : List FunctionDecl) :
    (m.within w).declareClass t c methods = (m.declareClass t c methods).within w := by
  cases c <;> rfl

theorem evaluate_within (e : Expr) :
    (m.within w).evaluate fs e = (m.evaluate fs e).within w := by
  cases e with
  | «variable» r => exact finish_within (m.read r)
  | receiver r => exact finish_within (m.read r)
  | inherited r method => exact finishProperty_within (m.inherited r method)
  | _ => rfl

theorem execute_within (s : Stmt) : (m.within w).execute fs s = (m.execute fs s).within w := by
  cases s with
  | varDecl t e => cases e <;> rfl
  | block body =>
    exact runBlock_within (m := { m with
      heap := (m.heap.child m.environment).2
      environment := (m.heap.child m.environment).1 }) fs m.environment body
  | classDecl t r methods =>
    simp only [execute, superclass_within]
    cases m.superclass r with
    | error e => rfl
    | ok c =>
      simp only [declareClass_within]
      rfl
  | returning t e => cases e <;> rfl
  | _ => rfl

theorem afterBody_within (loop : Loop) :
    (m.within w).afterBody fs loop = (m.afterBody fs loop).within w := by
  unfold afterBody
  cases loop.increment <;> rfl

theorem finishAssign_within (r : Reference) (v : Value) :
    (m.within w).finishAssign fs r v = (m.finishAssign fs r v).within w := by
  have hholder : (m.within w).holder? r = m.holder? r := rfl
  simp only [finishAssign, hholder]
  cases m.holder? r <;> rfl

theorem resumeValue_within (v : Value) (frame : Frame) (h : w.Answer m (frame.attempt? v)) :
    (m.within w).resumeValue fs v frame = (m.resumeValue fs v frame).within w := by
  cases frame with
  | unary t => exact finish_within _
  | binaryRight left t => exact finish_within _
  | logical t right =>
    simp only [resumeValue]
    split <;> rfl
  | assign r => exact finishAssign_within r v
  | callee paren arguments =>
    cases arguments with
    | nil => exact call_within v paren [] h
    | cons e rest => rfl
  | argument callee paren done rest =>
    cases rest with
    | nil => exact call_within callee paren (done.push v).toList h
    | cons e rest => rfl
  | get t => exact finishProperty_within (m.property v t)
  | setObject t e => cases v <;> rfl
  | branch s alternative =>
    simp only [resumeValue]
    split
    · rfl
    · cases alternative <;> rfl
  | loopTest loop =>
    simp only [resumeValue]
    split <;> rfl
  | _ => rfl

theorem resume_within (frame : Frame) (c : Completion)
    (h : w.Answer m (Config.attempt? ⟨m, .done c, frame :: fs⟩)) :
    (m.within w).resume fs frame c = (m.resume fs frame c).within w := by
  have hcall (result : CallResult) : (m.within w).callValue result c = m.callValue result c := rfl
  have hvalue (v : Value) (h : w.Answer m (frame.attempt? v)) :
      (m.within w).resumeValue fs v frame = (m.resumeValue fs v frame).within w :=
    resumeValue_within v frame h
  cases frame with
  | block rest outer =>
    cases c with
    | normal => exact runBlock_within fs outer rest
    | _ => rfl
  | call result =>
    cases c with
    | failed e => rfl
    | _ =>
      simp only [resume, hcall]
      rfl
  | loopBody loop =>
    cases c with
    | normal => exact afterBody_within loop
    | continued => exact afterBody_within loop
    | _ => rfl
  | _ =>
    cases c with
    | value v => exact hvalue v h
    | _ => rfl

end Machine

namespace Config

variable {c : Config} {w : Setting}

theorem step_within (h : w.Answer c.machine c.attempt?) :
    (c.within w).step = c.step.within w := by
  obtain ⟨m, control, fs⟩ := c
  cases control with
  | eval e => exact Machine.evaluate_within e
  | exec s => exact Machine.execute_within s
  | done c =>
    cases fs with
    | nil => rfl
    | cons frame fs => exact Machine.resume_within frame c h

theorem ended?_within : (c.within w).ended? =
    c.ended?.map fun ended => (ended.1, ended.2.within w) := by
  obtain ⟨m, control, fs⟩ := c
  cases control <;> cases fs <;> rfl

end Config

end Lox
