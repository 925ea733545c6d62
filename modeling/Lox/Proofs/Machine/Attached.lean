import Lox.Proofs.Machine.Effects
import Lox.Proofs.Machine.Exits
import Lox.Proofs.Scope.Place

/-! What the frames go on with.

Every frame but that of a call was pushed for a node and goes on with parts of it, in an
environment that the frames above lead back to. What holds of nodes in their environments, passes
on to the parts that stand in the same scope, and holds of each body in the environment that is
opened for it, holds of the whole stack as long as the machine runs. -/

namespace Lox

/-- A part of a node that stands in the scope of the node itself. -/
def Node.Beside (n m : Node) : Prop :=
  ∀ Γ : Place, ∃ Δ, Node.Part Γ n Δ m ∧ Δ.opens.length = Γ.opens.length

@[simp] theorem Place.length_define (Γ : Place) (t : Token) :
    (Γ.define t).opens.length = Γ.opens.length := by
  unfold Place.define
  cases Γ.opens <;> rfl

theorem Place.length_after (Γ : Place) (s : Stmt) : (Γ.after s).opens.length = Γ.opens.length := by
  unfold Place.after
  cases s.declared? with
  | none => rfl
  | some t => exact Γ.length_define t

/-- The node that a frame was pushed for. -/
inductive Frame.From : Frame → Node → Prop where
  | unary {t e} : From (.unary t) (.expr (.unary t e))
  | binaryLeft {l t r} : From (.binaryLeft t r) (.expr (.binary l t r))
  | binaryRight {v l t r} : From (.binaryRight v t) (.expr (.binary l t r))
  | logical {l t r} : From (.logical t r) (.expr (.logical l t r))
  | assign {r e} : From (.assign r) (.expr (.assign r e))
  | callee {e t xs} : From (.callee t xs) (.expr (.call e t xs))
  | argument {e t v vs xs rest} : rest ⊆ xs → From (.argument v t vs rest) (.expr (.call e t xs))
  | get {e t} : From (.get t) (.expr (.get e t))
  | setObject {e t x} : From (.setObject t x) (.expr (.set e t x))
  | setValue {e t x o} : From (.setValue o t) (.expr (.set e t x))
  | discard {e} : From .discard (.stmt (.expression e))
  | print {e} : From .print (.stmt (.print e))
  | varDecl {t e} : From (.varDecl t) (.stmt (.varDecl t (some e)))
  | thenBranch {e s} : From (.branch s none) (.stmt (.ifThen e s))
  | elseBranch {e s alternative} :
    From (.branch s (some alternative)) (.stmt (.ifElse e s alternative))
  | returning {t e} : From .returning (.stmt (.returning t (some e)))
  | loopTest {c b i} : From (.loopTest ⟨c, b, i⟩) (.stmt (.loop c b i))
  | loopBody {c b i} : From (.loopBody ⟨c, b, i⟩) (.stmt (.loop c b i))
  | loopStep {c b i} : From (.loopStep ⟨c, b, i⟩) (.stmt (.loop c b i))
  | block {rest outer} : From (.block rest outer) (.body rest)

/-- The frames above `base` were pushed for nodes of which `P` holds, each in the environment that
it is resumed in. -/
inductive Attached (P : EnvironmentId → Node → Prop) (base : List Frame) :
    EnvironmentId → List Frame → Prop where
  | base {e} : Attached P base e base
  | frame {e f n fs} : Frame.From f n → P e n → Attached P base (f.outer e) fs →
    Attached P base e (f :: fs)
  | call {e result fs} : Attached P base e fs → Attached P base e (.call result :: fs)

/-- What the control is about to do is a node of which `P` holds. -/
def Control.Attached (P : EnvironmentId → Node → Prop) (e : EnvironmentId) : Control → Prop
  | .eval x => P e (.expr x)
  | .exec s => P e (.stmt s)
  | .done _ => True

structure Config.Attached (P : EnvironmentId → Node → Prop) (base : List Frame) (c : Config) :
    Prop where
  control : c.control.Attached P c.machine.environment
  frames : Lox.Attached P base c.machine.environment c.frames

/-- The next step opens an environment for a body and begins to run it there. -/
inductive Config.Opens : Config → EnvironmentId → List Stmt → Prop where
  | block {m body fs} : Opens ⟨m, .exec (.block body), fs⟩ ⟨m.heap.environments.size⟩ body
  | function {c f paren arguments closure result} :
    c.attempt? = some (.function f, paren, arguments) → c.machine.heap.function? f = some closure →
    c.step = c.machine.enter c.frames.tail closure arguments result →
    Opens c ⟨c.machine.heap.environments.size⟩ closure.decl.body
  | initializer {c k paren arguments method} :
    c.attempt? = some (.classValue k, paren, arguments) →
    c.machine.heap.initializer? k = some method →
    c.step = Machine.enter { c.machine with heap := (c.machine.heap.instantiate k method).2 }
      c.frames.tail (c.machine.heap.instantiate k method).1 arguments
      (.object ⟨c.machine.heap.objects.size⟩) →
    Opens c ⟨(c.machine.heap.instantiate k method).2.environments.size⟩ method.decl.body

section

variable {P Q : EnvironmentId → Node → Prop} {base : List Frame}

theorem Attached.mono (hPQ : ∀ e n, P e n → Q e n) {e : EnvironmentId} {fs : List Frame}
    (h : Attached P base e fs) : Attached Q base e fs := by
  induction h with
  | base => exact .base
  | frame hf hn _ ih => exact .frame hf (hPQ _ _ hn) ih
  | call _ ih => exact .call ih

theorem Control.Attached.mono (hPQ : ∀ e n, P e n → Q e n) {e : EnvironmentId} {control : Control}
    (h : control.Attached P e) : control.Attached Q e := by
  cases control with
  | eval x => exact hPQ _ _ h
  | exec s => exact hPQ _ _ h
  | done c => exact trivial

theorem Config.Attached.mono (hPQ : ∀ e n, P e n → Q e n) {c : Config}
    (h : c.Attached P base) : c.Attached Q base :=
  ⟨h.control.mono hPQ, h.frames.mono hPQ⟩

end

/-- What passes on to the parts in the same scope. -/
structure PassesOn (P : EnvironmentId → Node → Prop) : Prop where
  beside : ∀ {e n m}, P e n → Node.Beside n m → P e m

section

variable {P : EnvironmentId → Node → Prop} {base : List Frame} {m : Machine} {fs : List Frame}

namespace Machine

theorem attached_finish (hfs : Attached P base m.environment fs) (r : Except RuntimeError Value) :
    (m.finish fs r).Attached P base := by
  cases r <;> exact ⟨trivial, hfs⟩

theorem attached_finishProperty (hfs : Attached P base m.environment fs)
    (r : Except RuntimeError (Value × Property)) : (m.finishProperty fs r).Attached P base := by
  rcases r with e | ⟨receiver, v | f⟩ <;> exact ⟨trivial, hfs⟩

theorem attached_finishAssign (hfs : Attached P base m.environment fs) (r : Reference) (v : Value) :
    (m.finishAssign fs r v).Attached P base := by
  unfold finishAssign
  split <;> exact ⟨trivial, hfs⟩

theorem attached_runBlock (hP : PassesOn P) {outer : EnvironmentId} {rest : List Stmt}
    (hrest : P m.environment (.body rest)) (hfs : Attached P base outer fs) :
    (m.runBlock fs outer rest).Attached P base := by
  cases rest with
  | nil => exact ⟨trivial, hfs⟩
  | cons s rest =>
    have hfirst : P m.environment (.stmt s) := hP.beside hrest fun Γ => ⟨Γ, .first, rfl⟩
    have hlater : P m.environment (.body rest) :=
      hP.beside hrest fun Γ => ⟨_, .rest, Γ.length_after s⟩
    exact ⟨hfirst, .frame .block hlater hfs⟩

theorem attached_enter (hP : PassesOn P) {f : Closure} {arguments : List Value}
    {result : CallResult} (hbody : P ⟨m.heap.environments.size⟩ (.body f.decl.body))
    (hfs : Attached P base m.environment fs) :
    (m.enter fs f arguments result).Attached P base :=
  attached_runBlock hP hbody (.call hfs)

theorem attached_evaluate (hP : PassesOn P) {e : Expr} (he : P m.environment (.expr e))
    (hfs : Attached P base m.environment fs) : (m.evaluate fs e).Attached P base := by
  cases e with
  | constant value => exact ⟨trivial, hfs⟩
  | group inner => exact ⟨hP.beside he fun Γ => ⟨Γ, .inner, rfl⟩, hfs⟩
  | unary t x => exact ⟨hP.beside he fun Γ => ⟨Γ, .operand, rfl⟩, .frame .unary he hfs⟩
  | binary l t r => exact ⟨hP.beside he fun Γ => ⟨Γ, .left, rfl⟩, .frame .binaryLeft he hfs⟩
  | logical l t r => exact ⟨hP.beside he fun Γ => ⟨Γ, .logicalLeft, rfl⟩, .frame .logical he hfs⟩
  | «variable» r => exact attached_finish hfs _
  | receiver r => exact attached_finish hfs _
  | assign r x => exact ⟨hP.beside he fun Γ => ⟨Γ, .value, rfl⟩, .frame .assign he hfs⟩
  | call x t xs => exact ⟨hP.beside he fun Γ => ⟨Γ, .callee, rfl⟩, .frame .callee he hfs⟩
  | get x t => exact ⟨hP.beside he fun Γ => ⟨Γ, .object, rfl⟩, .frame .get he hfs⟩
  | set x t v => exact ⟨hP.beside he fun Γ => ⟨Γ, .setObject, rfl⟩, .frame .setObject he hfs⟩
  | inherited r method => exact attached_finishProperty hfs _

theorem attached_execute (hP : PassesOn P) {s : Stmt} (hs : P m.environment (.stmt s))
    (hfs : Attached P base m.environment fs)
    (hopens : ∀ e body, Config.Opens ⟨m, .exec s, fs⟩ e body → P e (.body body)) :
    (m.execute fs s).Attached P base := by
  cases s with
  | expression e => exact ⟨hP.beside hs fun Γ => ⟨Γ, .expression, rfl⟩, .frame .discard hs hfs⟩
  | print e => exact ⟨hP.beside hs fun Γ => ⟨Γ, .printed, rfl⟩, .frame .print hs hfs⟩
  | varDecl t initializer =>
    cases initializer with
    | none => exact ⟨trivial, hfs⟩
    | some e => exact ⟨hP.beside hs fun Γ => ⟨_, .initializer, rfl⟩, .frame .varDecl hs hfs⟩
  | block body => exact attached_runBlock hP (hopens _ _ .block) hfs
  | ifThen e s => exact ⟨hP.beside hs fun Γ => ⟨Γ, .thenCondition, rfl⟩, .frame .thenBranch hs hfs⟩
  | ifElse e s t => exact ⟨hP.beside hs fun Γ => ⟨Γ, .elseCondition, rfl⟩, .frame .elseBranch hs hfs⟩
  | loop e s i => exact ⟨hP.beside hs fun Γ => ⟨Γ, .condition, rfl⟩, .frame .loopTest hs hfs⟩
  | function decl => exact ⟨trivial, hfs⟩
  | classDecl t r methods =>
    simp only [execute]
    cases m.superclass r with
    | error e => exact ⟨trivial, hfs⟩
    | ok k => cases k <;> exact ⟨trivial, hfs⟩
  | returning t e =>
    cases e with
    | none => exact ⟨trivial, hfs⟩
    | some e => exact ⟨hP.beside hs fun Γ => ⟨Γ, .returned, rfl⟩, .frame .returning hs hfs⟩
  | breaking t => exact ⟨trivial, hfs⟩
  | continuing t => exact ⟨trivial, hfs⟩

theorem attached_afterBody (hP : PassesOn P) {c : Expr} {b : Stmt} {i : Option Expr}
    (hs : P m.environment (.stmt (.loop c b i))) (hfs : Attached P base m.environment fs) :
    (m.afterBody fs ⟨c, b, i⟩).Attached P base := by
  cases i with
  | none => exact ⟨hP.beside hs fun Γ => ⟨Γ, .condition, rfl⟩, .frame .loopTest hs hfs⟩
  | some e => exact ⟨hP.beside hs fun Γ => ⟨Γ, .increment, rfl⟩, .frame .loopStep hs hfs⟩

end Machine

theorem Config.attached_call (hP : PassesOn P) {c : Config} {callee : Value} {paren : Token}
    {arguments : List Value} (h : c.attempt? = some (callee, paren, arguments))
    (hfs : Lox.Attached P base c.machine.environment c.frames.tail)
    (hopens : ∀ e body, c.Opens e body → P e (.body body)) : c.step.Attached P base := by
  have hcalled := Machine.called_call c.machine c.frames.tail callee paren arguments
  rw [← step_of_attempt? h] at hcalled
  generalize hnext : c.step = next at hcalled
  cases hcalled with
  | refused e => exact ⟨trivial, hfs⟩
  | native => exact ⟨trivial, hfs⟩
  | missing hf => exact ⟨trivial, hfs⟩
  | function hf => exact Machine.attached_enter hP (hopens _ _ (.function h hf hnext)) hfs
  | object hk => exact ⟨trivial, hfs⟩
  | initializer hk => exact Machine.attached_enter hP (hopens _ _ (.initializer h hk hnext)) hfs

namespace Machine

theorem attached_resumeValue (hP : PassesOn P) (v : Value) {frame : Frame} {n : Node}
    (hfrom : frame.From n) (hn : P m.environment n)
    (hfs : Attached P base (frame.outer m.environment) fs)
    (hopens : ∀ e body, Config.Opens ⟨m, .done (.value v), frame :: fs⟩ e body → P e (.body body))
    (hblock : ∀ rest outer, frame ≠ .block rest outer) :
    (m.resumeValue fs v frame).Attached P base := by
  cases hfrom with
  | unary => exact attached_finish hfs _
  | binaryLeft => exact ⟨hP.beside hn fun Γ => ⟨Γ, .right, rfl⟩, .frame .binaryRight hn hfs⟩
  | binaryRight => exact attached_finish hfs _
  | logical =>
    simp only [resumeValue]
    split
    · exact ⟨trivial, hfs⟩
    · exact ⟨hP.beside hn fun Γ => ⟨Γ, .logicalRight, rfl⟩, hfs⟩
  | assign => exact attached_finishAssign hfs _ v
  | @callee e t xs =>
    cases xs with
    | nil =>
      exact Config.attached_call (c := ⟨m, .done (.value v), .callee t [] :: fs⟩) hP rfl hfs hopens
    | cons x rest =>
      exact ⟨hP.beside hn fun Γ => ⟨Γ, .argument (.head _), rfl⟩,
        .frame (.argument (List.subset_cons_self _ _)) hn hfs⟩
  | @argument e t callee done xs rest hsub =>
    cases rest with
    | nil =>
      exact Config.attached_call (c := ⟨m, .done (.value v), .argument callee t done [] :: fs⟩) hP rfl
        hfs hopens
    | cons x rest =>
      obtain ⟨hx, hrest⟩ := List.cons_subset.mp hsub
      exact ⟨hP.beside hn fun Γ => ⟨Γ, .argument hx, rfl⟩, .frame (.argument hrest) hn hfs⟩
  | get => exact attached_finishProperty hfs _
  | setObject =>
    cases v with
    | object o => exact ⟨hP.beside hn fun Γ => ⟨Γ, .setValue, rfl⟩, .frame .setValue hn hfs⟩
    | _ => exact ⟨trivial, hfs⟩
  | thenBranch =>
    simp only [resumeValue]
    split
    · exact ⟨hP.beside hn fun Γ => ⟨Γ, .thenBranch, rfl⟩, hfs⟩
    · exact ⟨trivial, hfs⟩
  | elseBranch =>
    simp only [resumeValue]
    split
    · exact ⟨hP.beside hn fun Γ => ⟨Γ, .consequent, rfl⟩, hfs⟩
    · exact ⟨hP.beside hn fun Γ => ⟨Γ, .alternative, rfl⟩, hfs⟩
  | loopTest =>
    simp only [resumeValue]
    split
    · exact ⟨hP.beside hn fun Γ => ⟨Γ.inLoop, .repeated, rfl⟩, .frame .loopBody hn hfs⟩
    · exact ⟨trivial, hfs⟩
  | loopStep => exact ⟨hP.beside hn fun Γ => ⟨Γ, .condition, rfl⟩, .frame .loopTest hn hfs⟩
  | block => exact absurd rfl (hblock _ _)
  | _ => exact ⟨trivial, hfs⟩

theorem attached_resume (hP : PassesOn P) (c : Completion) {frame : Frame} {n : Node}
    (hfrom : frame.From n) (hn : P m.environment n)
    (hfs : Attached P base (frame.outer m.environment) fs)
    (hopens : ∀ e body, Config.Opens ⟨m, .done c, frame :: fs⟩ e body → P e (.body body)) :
    (m.resume fs frame c).Attached P base := by
  have hvalue (v : Value) (hc : c = .value v) (hblock : ∀ rest outer, frame ≠ .block rest outer) :
      (m.resumeValue fs v frame).Attached P base :=
    attached_resumeValue hP v hfrom hn hfs (hc ▸ hopens) hblock
  cases hfrom with
  | block =>
    cases c with
    | normal => exact attached_runBlock hP hn hfs
    | _ => exact ⟨trivial, hfs⟩
  | loopBody =>
    cases c with
    | normal => exact attached_afterBody hP hn hfs
    | continued => exact attached_afterBody hP hn hfs
    | _ => exact ⟨trivial, hfs⟩
  | _ =>
    cases c with
    | value v => exact hvalue v rfl (by simp)
    | _ => exact ⟨trivial, hfs⟩

end Machine

/-- The frames stay attached, up to the step that would leave the lowest of them. -/
theorem Config.Attached.step {c : Config} (h : c.Attached P base) (hP : PassesOn P)
    (hrest : ∀ completion, c.control = .done completion → c.frames ≠ base)
    (hopens : ∀ e body, c.Opens e body → P e (.body body)) : c.step.Attached P base := by
  obtain ⟨m, control, fs⟩ := c
  obtain ⟨hcontrol, hfs⟩ := h
  cases control with
  | eval e => exact Machine.attached_evaluate hP hcontrol hfs
  | exec s => exact Machine.attached_execute hP hcontrol hfs hopens
  | done c =>
    cases hfs with
    | base => exact absurd rfl (hrest c rfl)
    | frame hfrom hn hfs => exact Machine.attached_resume hP c hfrom hn hfs hopens
    | call hfs => cases c <;> exact ⟨trivial, hfs⟩

/-- A configuration without frames that is done stays as it is. -/
theorem Config.Attached.step_toEnd {c : Config} (h : c.Attached P []) (hP : PassesOn P)
    (hopens : ∀ e body, c.Opens e body → P e (.body body)) : c.step.Attached P [] := by
  by_cases hended : ∃ completion, c.control = .done completion ∧ c.frames = []
  · obtain ⟨completion, hdone, hnil⟩ := hended
    obtain ⟨m, control, fs⟩ := c
    obtain rfl : control = .done completion := hdone
    obtain rfl : fs = [] := hnil
    exact h
  · exact h.step hP (fun completion hdone hnil => hended ⟨completion, hdone, hnil⟩) hopens

end

end Lox
