import Lox.Proofs.Machine.Limits
import Lox.Proofs.Machine.Matching
import Lox.Proofs.Machine.Preservation

/-! Steps of programs with blocks around the bodies of loops.

A step of the program is one step of the wrapped program or several of them: it takes further steps
to enter the blocks and to leave them again. Between a loop and its body there is a frame more in
the wrapped program, and the increment is a statement there, so the stacks differ in these frames
and in nothing else. -/

namespace Lox

/-- Machines in places of the given layout. -/
structure Machine.Wraps (w : Tables) (R : Matching) (p : Layout) (m m' : Machine) : Prop where
  heap : m.heap.Wraps w R m'.heap
  environment : R m.environment m'.environment p
  depths : m.depths = w.depths
  depths' : m'.depths = w.depths'
  printed : m'.printed = m.printed
  callDepth : m'.callDepth = m.callDepth
  maxCallDepth : m'.maxCallDepth = m.maxCallDepth
  now : m'.now = m.now

/-- Frames that take a value and do the same with it. The second flag says whether they give one. -/
inductive Frame.Wraps (L : Links) (k : Bool) (p : Layout) : Bool → Frame → Frame → Prop where
  | unary {t} : Wraps L k p true (.unary t) (.unary t)
  | binaryLeft {t e e'} : Lox.Wraps L k p (.expr e) (.expr e') →
    Wraps L k p true (.binaryLeft t e) (.binaryLeft t e')
  | binaryRight {v t} : Wraps L k p true (.binaryRight v t) (.binaryRight v t)
  | logical {t e e'} : Lox.Wraps L k p (.expr e) (.expr e') →
    Wraps L k p true (.logical t e) (.logical t e')
  | assign {r r'} : L.name p r r' → Wraps L k p true (.assign r) (.assign r')
  | callee {t es es'} : Lox.Wraps L k p (.args es) (.args es') →
    Wraps L k p true (.callee t es) (.callee t es')
  | argument {v t vs es es'} : Lox.Wraps L k p (.args es) (.args es') →
    Wraps L k p true (.argument v t vs es) (.argument v t vs es')
  | get {t} : Wraps L k p true (.get t) (.get t)
  | setObject {t e e'} : Lox.Wraps L k p (.expr e) (.expr e') →
    Wraps L k p true (.setObject t e) (.setObject t e')
  | setValue {o t} : Wraps L k p true (.setValue o t) (.setValue o t)
  | discard : Wraps L k p false .discard .discard
  | print : Wraps L k p false .print .print
  | varDecl {t} : p.Open → Wraps L k p false (.varDecl t) (.varDecl t)
  | branch {s s'} {a a' : Option Stmt} : Lox.Wraps L k p (.stmt s) (.stmt s') →
    Lox.Wraps L k p (.body a.toList) (.body a'.toList) →
    Wraps L k p false (.branch s a) (.branch s' a')
  | returning : Wraps L k p false .returning .returning
  | loopTest {e s i e' s' i'} : Lox.Wraps L k p (.stmt (.loop e s i)) (.stmt (.loop e' s' i')) →
    Wraps L k p false (.loopTest ⟨e, s, i⟩) (.loopTest ⟨e', s', i'⟩)
  | loopStep {e s i e' s' i'} : Lox.Wraps L k p (.stmt (.loop e s i)) (.stmt (.loop e' s' i')) →
    Wraps L k p false (.loopStep ⟨e, s, i⟩) (.loopStep ⟨e', s', i'⟩)

inductive CallResult.Wraps (R : Matching) : CallResult → CallResult → Prop where
  | returned : Wraps R .returned .returned
  | receiver {e e'} : R.Pairs e e' → Wraps R (.receiver e) (.receiver e')
  | object (o : ObjectId) : Wraps R (.object o) (.object o)

/-- Stacks that wait for a value or for a statement, as the first flag says, in the given
environments. -/
inductive Stacks (w : Tables) (R : Matching) : Bool → Bool → Layout → EnvironmentId →
    EnvironmentId → List Frame → List Frame → Prop where
  | nil {k} : Stacks w R false k [] Heap.globals Heap.globals [] []
  | frame {k v p e e' f f' fs fs'} : f.Wraps w.links k p v f' → Stacks w R v k p e e' fs fs' →
    Stacks w R true k p e e' (f :: fs) (f' :: fs')
  | loopBody {k p e e' c c' s s' fs fs'} {i i' : Option Expr} :
    Wraps w.links k p (.expr c) (.expr c') → Wraps w.links true p (.stmt s) (.stmt s') →
    Wraps w.links k p (.args i.toList) (.args i'.toList) → Stacks w R false k p e e' fs fs' →
    Stacks w R false true p e e' (.loopBody ⟨c, s, i⟩ :: fs) (.loopBody ⟨c', s', i'⟩ :: fs')
  | wrappedBody {k p e e' o' c c' s s' fs fs'} {i i' : Option Expr} :
    Wraps w.links k p (.expr c) (.expr c') →
    Wraps w.links false (.wrapper :: p) (.stmt s) (.stmt s') →
    Wraps w.links k (.wrapper :: p) (.args i.toList) (.args i'.toList) → R e o' p →
    Stacks w R false k p e o' fs fs' →
    Stacks w R false false (.wrapper :: p) e e' (.loopBody ⟨c, s, i⟩ :: fs)
      (.block (i'.toList.map .expression) o' ::
        .loopBody ⟨c', .block (s' :: i'.toList.map .expression), none⟩ :: fs')
  | wrappedStep {k p e e' o' c c' s s' fs fs'} {i i' : Option Expr} :
    Wraps w.links k p (.expr c) (.expr c') →
    Wraps w.links false (.wrapper :: p) (.stmt s) (.stmt s') →
    Wraps w.links k (.wrapper :: p) (.args i.toList) (.args i'.toList) → R e o' p →
    Stacks w R false k p e o' fs fs' →
    Stacks w R true k (.wrapper :: p) e e' (.loopStep ⟨c, s, i⟩ :: fs)
      (.discard :: .block [] o' ::
        .loopBody ⟨c', .block (s' :: i'.toList.map .expression), none⟩ :: fs')
  | enclosed {k p e e' o' fs fs'} : R e o' p → Stacks w R false k p e o' fs fs' →
    Stacks w R false k (.wrapper :: p) e e' fs (.block [] o' :: fs')
  | block {k p q e e' o o' rest rest' fs fs'} : Wraps w.links k q (.body rest) (.body rest') →
    R o o' p → Stacks w R false k p o o' fs fs' →
    Stacks w R false k q e e' (.block rest o :: fs) (.block rest' o' :: fs')
  | call {k l p e e' r r' fs fs'} : r.Wraps R r' → Stacks w R true k p e e' fs fs' →
    Stacks w R false l p e e' (.call r :: fs) (.call r' :: fs')

/-- What can come to a stack that waits for a value, or for a statement in which a `continue` may
belong to a loop around it. -/
def Completion.Suits (v k : Bool) : Completion → Prop
  | .value _ => v = true
  | .failed _ => True
  | .continued => v = false ∧ k = true
  | _ => v = false

/-- The second configuration is that of the wrapped program. -/
inductive Config.Wraps (w : Tables) : Config → Config → Prop where
  | eval {R k p m m' e e' fs fs'} : m.Wraps w R p m' → Lox.Wraps w.links k p (.expr e) (.expr e') →
    Stacks w R true k p m.environment m'.environment fs fs' →
    Wraps w ⟨m, .eval e, fs⟩ ⟨m', .eval e', fs'⟩
  | exec {R k p m m' s s' fs fs'} : m.Wraps w R p m' → Lox.Wraps w.links k p (.stmt s) (.stmt s') →
    Stacks w R false k p m.environment m'.environment fs fs' →
    Wraps w ⟨m, .exec s, fs⟩ ⟨m', .exec s', fs'⟩
  | done {R v k p m m' fs fs'} {c : Completion} : m.Wraps w R p m' → c.Suits v k →
    Stacks w R v k p m.environment m'.environment fs fs' →
    Wraps w ⟨m, .done c, fs⟩ ⟨m', .done c, fs'⟩

/-- The wrapped program has some steps to go. -/
def Config.WrapsSoon (w : Tables) (c c' : Config) : Prop := ∃ n, c.Wraps w (Config.step^[n] c')

variable {w : Tables} {R S : Matching} {v k : Bool} {p : Layout} {e e' : EnvironmentId}
  {m m' : Machine} {fs fs' : List Frame}

theorem Config.Wraps.soon {c c' : Config} (h : c.Wraps w c') : c.WrapsSoon w c' := ⟨0, h⟩

theorem Config.WrapsSoon.of_step {c c' : Config} (h : c.WrapsSoon w c'.step) : c.WrapsSoon w c' :=
  let ⟨n, h⟩ := h
  ⟨n + 1, h⟩

theorem CallResult.Wraps.mono {r r' : CallResult} (h : r.Wraps R r') (hle : R ≤ S) :
    r.Wraps S r' := by
  cases h with
  | returned => exact .returned
  | receiver h => exact .receiver (h.mono hle)
  | object o => exact .object o

theorem Stacks.mono (h : Stacks w R v k p e e' fs fs') (hle : R ≤ S) :
    Stacks w S v k p e e' fs fs' := by
  induction h with
  | nil => exact .nil
  | frame hf _ ih => exact .frame hf ih
  | loopBody hc hs hi _ ih => exact .loopBody hc hs hi ih
  | wrappedBody hc hs hi hr _ ih => exact .wrappedBody hc hs hi (hle _ _ _ hr) ih
  | wrappedStep hc hs hi hr _ ih => exact .wrappedStep hc hs hi (hle _ _ _ hr) ih
  | enclosed hr _ ih => exact .enclosed (hle _ _ _ hr) ih
  | block hrest hr _ ih => exact .block hrest (hle _ _ _ hr) ih
  | call hr _ ih => exact .call (hr.mono hle) ih

/-- The conditions of loops of which one wraps the other. -/
theorem Wraps.condition {L : Links} {c c' : Expr} {s s' : Stmt} {i i' : Option Expr}
    (h : Wraps L k p (.stmt (.loop c s i)) (.stmt (.loop c' s' i'))) :
    Wraps L k p (.expr c) (.expr c') := by
  cases h <;> assumption

theorem Wraps.args_cases {L : Links} {i i' : Option Expr}
    (h : Wraps L k p (.args i.toList) (.args i'.toList)) : (i = none ∧ i' = none) ∨
      ∃ x x', i = some x ∧ i' = some x' ∧ Wraps L k p (.expr x) (.expr x') := by
  cases i <;> cases i' <;> cases h
  · exact .inl ⟨rfl, rfl⟩
  · exact .inr ⟨_, _, rfl, rfl, by assumption⟩

theorem Wraps.body_cases {L : Links} {a a' : Option Stmt}
    (h : Wraps L k p (.body a.toList) (.body a'.toList)) : (a = none ∧ a' = none) ∨
      ∃ s s', a = some s ∧ a' = some s' ∧ Wraps L k p (.stmt s) (.stmt s') := by
  cases a <;> cases a' <;> cases h
  · exact .inl ⟨rfl, rfl⟩
  · exact .inr ⟨_, _, rfl, rfl, by assumption⟩

namespace Machine

namespace Wraps

variable (hm : m.Wraps w R p m')

include hm

theorem grown (hle : R ≤ S) {h h' : Heap} (hh : h.Wraps w S h') :
    { m with heap := h }.Wraps w S p { m' with heap := h' } :=
  ⟨hh, hle _ _ _ hm.environment, hm.depths, hm.depths', hm.printed, hm.callDepth, hm.maxCallDepth,
    hm.now⟩

theorem moved {q : Layout} {o o' : EnvironmentId} (hr : R o o' q) :
    { m with environment := o }.Wraps w R q { m' with environment := o' } :=
  ⟨hm.heap, hr, hm.depths, hm.depths', hm.printed, hm.callDepth, hm.maxCallDepth, hm.now⟩

theorem readClock : m'.readClock.1 = m.readClock.1 ∧ m.readClock.2.Wraps w R p m'.readClock.2 :=
  ⟨congrFun hm.now 0, hm.heap, hm.environment, hm.depths, hm.depths', hm.printed, hm.callDepth,
    hm.maxCallDepth, funext fun reading => congrFun hm.now (reading + 1)⟩

theorem holder? {r r' : Reference} (hr : w.Linked p r r') :
    Option.Rel R.Pairs (m.holder? r) (m'.holder? r') := by
  rw [Machine.holder?, Machine.holder?, hm.depths, hm.depths', hr.depth, hr.name]
  cases w.depths.get? r.node with
  | none => exact hm.heap.environments.holder?_globals _
  | some depth => exact hm.heap.environments.holderAt? hm.environment depth _

theorem read {r r' : Reference} (hr : w.Linked p r r') : m'.read r' = m.read r := by
  have hlocal : (m'.holder? r').bind (m'.heap.local? · r'.name.lexeme) =
      (m.holder? r).bind (m.heap.local? · r.name.lexeme) := by
    have hholder := hm.holder? hr
    generalize m.holder? r = found at hholder ⊢
    generalize m'.holder? r' = found' at hholder ⊢
    cases hholder with
    | none => rfl
    | some hp =>
      rw [Option.bind_some, Option.bind_some, hr.name]
      exact hm.heap.environments.local?_eq hp
  rw [Machine.read, Machine.read, hlocal, hr.name]

end Wraps

/-- What a property leads to, or the superclass, in both programs. -/
inductive PropertyWraps (w : Tables) (R : Matching) : Except RuntimeError (Value × Property) →
    Except RuntimeError (Value × Property) → Prop where
  | error (e : RuntimeError) : PropertyWraps w R (.error e) (.error e)
  | ok {receiver f f'} : f.Wraps w R f' → PropertyWraps w R (.ok (receiver, f)) (.ok (receiver, f'))

section

variable (hm : m.Wraps w R p m')

include hm

theorem inherited_wraps {r r' : Reference} (hr : w.links.superclass p r r') (t : Token) :
    PropertyWraps w R (m.inherited r t) (m'.inherited r' t) := by
  obtain ⟨hlinked, depth, hdepth, hlift⟩ := hr
  have hdepth' : w.depths'.get? r'.node = some (p.lift depth + 1) := by
    rw [hlinked.depth, hdepth, Option.map_some, hlift]
  have hsuper : m'.heap.getAt? m'.environment (p.lift depth + 1) "super" =
      m.heap.getAt? m.environment (depth + 1) "super" := by
    rw [← hlift]
    exact hm.heap.environments.getAt?_eq hm.environment (depth + 1) "super"
  have hthis : m'.receiverAt? (p.lift depth + 1) = m.receiverAt? (depth + 1) :=
    hm.heap.environments.getAt?_eq hm.environment depth "this"
  rw [inherited, inherited, hm.depths, hm.depths', hdepth, hdepth']
  simp only [hsuper, hthis, hlinked.name]
  cases m.heap.getAt? m.environment (depth + 1) "super" with
  | none => exact .error _
  | some superclass =>
    cases superclass with
    | classValue c =>
      simp only
      cases m.receiverAt? (depth + 1) with
      | none => exact .error _
      | some receiver =>
        have hmethod := hm.heap.method? c t.lexeme
        generalize m.heap.method? c t.lexeme = f at hmethod ⊢
        generalize m'.heap.method? c t.lexeme = f' at hmethod ⊢
        cases hmethod with
        | none => exact .error _
        | some hf => exact .ok (.method hf)
    | _ => exact .error _

theorem property_wraps (object : Value) (t : Token) :
    PropertyWraps w R (m.property object t) (m'.property object t) := by
  cases object with
  | object o =>
    rw [property, property]
    have hproperty := hm.heap.property? o t.lexeme
    generalize m.heap.property? o t.lexeme = f at hproperty ⊢
    generalize m'.heap.property? o t.lexeme = f' at hproperty ⊢
    cases hproperty with
    | none => exact .error _
    | some hf => exact .ok hf
  | _ => exact .error _

theorem superclass_wraps {r r' : Option Reference}
    (hr : Lox.Wraps w.links k p (.args (r.toList.map .variable))
      (.args (r'.toList.map .variable))) : m'.superclass r' = m.superclass r := by
  rcases hr.superclass_cases with ⟨rfl, rfl⟩ | ⟨q, q', rfl, rfl, hlinked⟩
  · rfl
  · rw [superclass, superclass, hm.read hlinked, hlinked.name]

section

variable (hs : Stacks w R true k p m.environment m'.environment fs fs')

include hs

theorem finish_wraps (r : Except RuntimeError Value) :
    Config.Wraps w (m.finish fs r) (m'.finish fs' r) := by
  cases r with
  | ok value => exact .done hm rfl hs
  | error e => exact .done hm trivial hs

theorem finishProperty_wraps {r r' : Except RuntimeError (Value × Property)}
    (hr : PropertyWraps w R r r') :
    Config.Wraps w (m.finishProperty fs r) (m'.finishProperty fs' r') := by
  cases hr with
  | error e => exact .done hm trivial hs
  | @ok receiver f f' hf =>
    cases hf with
    | field value => exact .done hm rfl hs
    | @method f f' hf =>
      obtain ⟨S, hle, hvalue, hheap⟩ := hm.heap.bindMethod hf receiver
      rw [finishProperty, finishProperty]
      generalize m.heap.bindMethod f receiver = bound at hvalue hheap ⊢
      generalize m'.heap.bindMethod f' receiver = bound' at hvalue hheap ⊢
      obtain ⟨value, h⟩ := bound
      obtain ⟨value', h'⟩ := bound'
      obtain rfl : value' = value := hvalue
      exact .done (hm.grown hle hheap) rfl (hs.mono hle)

theorem finishAssign_wraps {r r' : Reference} (hr : w.Linked p r r') (value : Value) :
    Config.Wraps w (m.finishAssign fs r value) (m'.finishAssign fs' r' value) := by
  rw [finishAssign, finishAssign, hr.name]
  have hholder := hm.holder? hr
  generalize m.holder? r = found at hholder ⊢
  generalize m'.holder? r' = found' at hholder ⊢
  cases hholder with
  | none => exact .done hm trivial hs
  | some hp => exact .done (hm.grown (fun _ _ _ h => h) (hm.heap.define hp _ _)) rfl hs

end

/-- Statements in the current scopes; at their end these are left. -/
theorem runBlock_wraps {q : Layout} {o o' : EnvironmentId} {rest rest' : List Stmt}
    (hrest : Lox.Wraps w.links k p (.body rest) (.body rest')) (hr : R o o' q)
    (hs : Stacks w R false k q o o' fs fs') :
    Config.Wraps w (m.runBlock fs o rest) (m'.runBlock fs' o' rest') := by
  cases hrest with
  | noStmts => exact .done (hm.moved hr) rfl hs
  | moreStmts hfirst hrest => exact .exec hm hfirst (.block hrest hr hs)

section

variable (hs : Stacks w R true k p m.environment m'.environment fs fs')

include hs

theorem enter_wraps {f f' : Closure} (hf : f.Wraps w R [] f') (arguments : List Value)
    {r r' : CallResult} (hr : r.Wraps R r') :
    Config.Wraps w (m.enter fs f arguments r) (m'.enter fs' f' arguments r') := by
  obtain ⟨S, q, hle, hscope, hbody, hheap⟩ := hm.heap.entered hf arguments
  have hinside : Machine.Wraps w S q
      { m with
        heap := m.heap.entered f arguments
        environment := ⟨m.heap.environments.size⟩
        callDepth := m.callDepth + 1 }
      { m' with
        heap := m'.heap.entered f' arguments
        environment := ⟨m'.heap.environments.size⟩
        callDepth := m'.callDepth + 1 } :=
    ⟨hheap, hscope, hm.depths, hm.depths', hm.printed, congrArg (· + 1) hm.callDepth,
      hm.maxCallDepth, hm.now⟩
  exact runBlock_wraps hinside hbody (hle _ _ _ hm.environment) (.call (hr.mono hle) (hs.mono hle))

theorem callFunction_wraps (g : FunctionId) (arguments : List Value) :
    Config.Wraps w (m.callFunction fs g arguments) (m'.callFunction fs' g arguments) := by
  rw [callFunction, callFunction]
  have hfunction := hm.heap.function? g
  generalize m.heap.function? g = f at hfunction ⊢
  generalize m'.heap.function? g = f' at hfunction ⊢
  cases hfunction with
  | none => exact .done hm rfl hs
  | @some f f' hf =>
    refine enter_wraps hm hs hf arguments ?_
    obtain ⟨hinit, q, kind, hq, hscope, -⟩ := hf
    rw [hinit]
    split
    · exact .receiver ⟨q, hq, hscope⟩
    · exact .returned

theorem callClass_wraps (c : ClassId) (arguments : List Value) :
    Config.Wraps w (m.callClass fs c arguments) (m'.callClass fs' c arguments) := by
  obtain ⟨hid, hheap⟩ := hm.heap.newObject ⟨c, Bindings.empty⟩
  rw [callClass, callClass, Heap.initializer?, Heap.initializer?]
  have hmethod := hm.heap.method? c "init"
  generalize m.heap.newObject ⟨c, Bindings.empty⟩ = made at hid hheap ⊢
  generalize m'.heap.newObject ⟨c, Bindings.empty⟩ = made' at hid hheap ⊢
  obtain ⟨o, h⟩ := made
  obtain ⟨o', h'⟩ := made'
  obtain rfl : o' = o := hid
  generalize m.heap.method? c "init" = f at hmethod ⊢
  generalize m'.heap.method? c "init" = f' at hmethod ⊢
  cases hmethod with
  | none => exact .done (hm.grown (fun _ _ _ h => h) hheap) rfl hs
  | some hf =>
    obtain ⟨S, hle, hbound, hheap'⟩ := hheap.bindThis hf (.object o')
    exact enter_wraps (hm.grown hle hheap') (hs.mono hle) hbound arguments (.object o')

theorem call_wraps (callee : Value) (paren : Token) (arguments : List Value) :
    Config.Wraps w (m.call fs callee paren arguments) (m'.call fs' callee paren arguments) := by
  unfold call
  rw [hm.heap.arity?, hm.maxCallDepth, hm.callDepth]
  cases m.heap.arity? callee with
  | none => exact .done hm trivial hs
  | some arity =>
    simp only
    split
    · exact .done hm trivial hs
    · split
      · exact .done hm trivial hs
      · cases callee with
        | native f =>
          cases f
          obtain ⟨hreading, hlater⟩ := hm.readClock
          simp only [hreading]
          exact .done hlater rfl hs
        | function g => exact callFunction_wraps hm hs g arguments
        | classValue c => exact callClass_wraps hm hs c arguments
        | _ => exact .done hm trivial hs

theorem evaluateArguments_wraps (callee : Value) (paren : Token) (done : Array Value)
    {es es' : List Expr} (hes : Lox.Wraps w.links k p (.args es) (.args es')) :
    Config.Wraps w (m.evaluateArguments fs callee paren done es)
      (m'.evaluateArguments fs' callee paren done es') := by
  cases hes with
  | noArgs => exact call_wraps hm hs callee paren done.toList
  | moreArgs he hes => exact .eval hm he (.frame (.argument hes) hs)

theorem evaluate_wraps {x x' : Expr} (hx : Lox.Wraps w.links k p (.expr x) (.expr x')) :
    Config.Wraps w (m.evaluate fs x) (m'.evaluate fs' x') := by
  cases hx with
  | constant => exact .done hm rfl hs
  | group hx => exact .eval hm hx hs
  | unary hx => exact .eval hm hx (.frame .unary hs)
  | binary hl hr => exact .eval hm hl (.frame (.binaryLeft hr) hs)
  | logical hl hr => exact .eval hm hl (.frame (.logical hr) hs)
  | «variable» hr | receiver hr =>
    rw [evaluate, evaluate, hm.read hr]
    exact finish_wraps hm hs _
  | assign hr hx => exact .eval hm hx (.frame (.assign hr) hs)
  | call hx hes => exact .eval hm hx (.frame (.callee hes) hs)
  | get hx => exact .eval hm hx (.frame .get hs)
  | set hx hy => exact .eval hm hx (.frame (.setObject hy) hs)
  | inherited hr => exact finishProperty_wraps hm hs (inherited_wraps hm hr _)

end

end

/-- The methods of a class close over the scope that is given to all of them. -/
theorem methodTable_wraps {scope scope' : EnvironmentId} (hp : p.Open) (hr : R scope scope' p)
    {gs gs' : List FunctionDecl}
    (hgs : Lox.Wraps w.links true (.shared :: p) (.methods gs) (.methods gs')) (x : String) :
    Option.Rel (Closure.Wraps w R [.shared]) ((methodTable scope gs).get? x)
      ((methodTable scope' gs').get? x) := by
  have hinsert {b b' : Bindings Closure}
      (hb : ∀ x, Option.Rel (Closure.Wraps w R [.shared]) (b.get? x) (b'.get? x)) :
      Option.Rel (Closure.Wraps w R [.shared])
        (((gs.map fun g => (g.name.lexeme, (⟨g, scope, g.isInitializer⟩ : Closure))).foldl
          (fun b entry => b.insert entry.1 entry.2) b).get? x)
        (((gs'.map fun g => (g.name.lexeme, (⟨g, scope', g.isInitializer⟩ : Closure))).foldl
          (fun b entry => b.insert entry.1 entry.2) b').get? x) := by
    induction gs generalizing gs' b b' with
    | nil =>
      cases hgs
      exact hb x
    | cons g gs ih =>
      obtain ⟨⟩ := hgs
      rename_i g' gs' hg hgs
      refine ih hgs fun y => ?_
      simp only [Bindings.get?_insert, hg.name_eq.1]
      split
      · exact .some ⟨hg.isInitializer_eq, p, g.methodContext, hp, hr, hg⟩
      · exact hb y
  exact hinsert fun x => .none

section

variable (hm : m.Wraps w R p m')

include hm

theorem define_wraps (hp : p.Open) (x : String) (value : Value) :
    (m.define x value).Wraps w R p (m'.define x value) :=
  hm.grown (fun _ _ _ h => h) (hm.heap.define ⟨p, hp, hm.environment⟩ x value)

theorem declareFunction_wraps (hp : p.Open) {g g' : FunctionDecl}
    (hg : Lox.Wraps w.links true p (.callable .function g) (.callable .function g')) :
    (m.declareFunction g).Wraps w R p (m'.declareFunction g') := by
  have hmade : Closure.Wraps w R [] ⟨g, m.environment, false⟩ ⟨g', m'.environment, false⟩ :=
    ⟨rfl, p, .function, hp, hm.environment, hg⟩
  obtain ⟨hid, hheap⟩ := hm.heap.newFunction hmade
  have hdefine := hheap.define ⟨p, hp, hm.environment⟩ g.name.lexeme
    (.function (m.heap.newFunction ⟨g, m.environment, false⟩).1)
  have hname : (m'.heap.newFunction ⟨g', m'.environment, false⟩).2.define m'.environment
      g'.name.lexeme (.function (m'.heap.newFunction ⟨g', m'.environment, false⟩).1) =
      (m'.heap.newFunction ⟨g', m'.environment, false⟩).2.define m'.environment
        g.name.lexeme (.function (m.heap.newFunction ⟨g, m.environment, false⟩).1) := by
    rw [hid, hg.name_eq.1]
  exact hm.grown (fun _ _ _ h => h) (hname ▸ hdefine)

/-- The environment that the methods of a class are made in. -/
theorem methodScope_wraps (hp : p.Open) {c : Option ClassId} {r : Option Reference}
    (hc : c.isSome = r.isSome) : ∃ (S : Matching) (q : Layout), R ≤ S ∧
      q = (r.toList.map fun _ => Layer.shared) ++ p ∧ q.Open ∧ S (m.methodScope c).1 (m'.methodScope c).1 q ∧
      (m.methodScope c).2.Wraps w S (m'.methodScope c).2 := by
  cases c with
  | none =>
    cases r with
    | none => exact ⟨R, p, fun _ _ _ h => h, rfl, hp, hm.environment, hm.heap⟩
    | some r => cases hc
  | some c =>
    cases r with
    | none => cases hc
    | some r =>
      have hchild (h : Heap) (e : EnvironmentId) : (h.child e).2.environments =
        h.environments.push ⟨Bindings.empty, some e⟩ := rfl
      have hsuper (h : Heap) (e : EnvironmentId) :=
        Heap.define_push (hchild h e) "super" (.classValue c)
      exact ⟨_, .shared :: p, Matching.le_add, rfl, Layout.open_shared p, Matching.add_self,
        hm.heap.opened hm.environment (hsuper m.heap _) (hsuper m'.heap _) ⟨rfl, rfl, rfl⟩
          ⟨rfl, rfl, rfl⟩⟩

theorem declareClass_wraps (hp : p.Open) (t : Token) {c : Option ClassId} {r : Option Reference}
    (hc : c.isSome = r.isSome) {gs gs' : List FunctionDecl}
    (hgs : Lox.Wraps w.links true (.shared :: (r.toList.map fun _ => .shared) ++ p) (.methods gs)
      (.methods gs')) :
    ∃ S, R ≤ S ∧ (m.declareClass t c gs).Wraps w S p (m'.declareClass t c gs') := by
  have hnil := define_wraps hm hp t.lexeme .nil
  obtain ⟨S, q, hle, rfl, hq, hscope, hheap⟩ := methodScope_wraps hnil hp hc
  have hmade : Class.Wraps w S
      ⟨t.lexeme, c, methodTable ((m.define t.lexeme .nil).methodScope c).1 gs⟩
      ⟨t.lexeme, c, methodTable ((m'.define t.lexeme .nil).methodScope c).1 gs'⟩ :=
    ⟨rfl, rfl, methodTable_wraps hq hscope hgs⟩
  obtain ⟨hid, hclass⟩ := hheap.newClass hmade
  refine ⟨S, hle, ?_⟩
  rw [declareClass, declareClass]
  generalize (m.define t.lexeme .nil).methodScope c = made at hid hclass ⊢
  generalize (m'.define t.lexeme .nil).methodScope c = made' at hid hclass ⊢
  obtain ⟨scope, h⟩ := made
  obtain ⟨scope', h'⟩ := made'
  simp only at hid hclass ⊢
  generalize h.newClass ⟨t.lexeme, c, methodTable scope gs⟩ = added at hid hclass ⊢
  generalize h'.newClass ⟨t.lexeme, c, methodTable scope' gs'⟩ = added' at hid hclass ⊢
  obtain ⟨i, h⟩ := added
  obtain ⟨i', h'⟩ := added'
  obtain rfl : i' = i := hid
  exact hnil.grown hle (hclass.define ⟨p, hp, hle _ _ _ hm.environment⟩ t.lexeme (.classValue i'))

/-- The wrapped program is in a wrapper. -/
theorem wrapped_wraps : m.Wraps w
    (R.add m.environment ⟨m'.heap.environments.size⟩ (.wrapper :: p)) (.wrapper :: p)
    { m' with
      heap := (m'.heap.child m'.environment).2
      environment := ⟨m'.heap.environments.size⟩ } :=
  ⟨hm.heap.wrapped hm.environment, Matching.add_self, hm.depths, hm.depths', hm.printed,
    hm.callDepth, hm.maxCallDepth, hm.now⟩

section

variable (hs : Stacks w R false k p m.environment m'.environment fs fs')

include hs

theorem execute_loop_wraps {x x' : Expr} {s s' : Stmt} {i i' : Option Expr}
    (h : Lox.Wraps w.links k p (.stmt (.loop x s i)) (.stmt (.loop x' s' i'))) :
    Config.Wraps w (m.execute fs (.loop x s i)) (m'.execute fs' (.loop x' s' i')) :=
  .eval hm h.condition (.frame (.loopTest h) hs)

theorem execute_wraps {s s' : Stmt} (h : Lox.Wraps w.links k p (.stmt s) (.stmt s')) :
    Config.WrapsSoon w (m.execute fs s) (m'.execute fs' s') := by
  cases h with
  | expression hx => exact Config.Wraps.soon (.eval hm hx (.frame .discard hs))
  | print hx => exact Config.Wraps.soon (.eval hm hx (.frame .print hs))
  | varDecl hp hi =>
    rcases hi.args_cases with ⟨rfl, rfl⟩ | ⟨x, x', rfl, rfl, hx⟩
    · exact Config.Wraps.soon (.done (define_wraps hm hp _ .nil) rfl hs)
    · exact Config.Wraps.soon (.eval hm hx (.frame (.varDecl hp) hs))
  | block hbody =>
    have hheap := hm.heap.child hm.environment
    have hinside := (hm.grown Matching.le_add hheap).moved Matching.add_self
    exact (runBlock_wraps hinside hbody (Matching.le_add _ _ _ hm.environment)
      (hs.mono Matching.le_add)).soon
  | ifThen hx ht => exact Config.Wraps.soon (.eval hm hx (.frame (.branch ht .noStmts) hs))
  | ifElse hx ht hu =>
    exact Config.Wraps.soon (.eval hm hx (.frame (.branch ht (.moreStmts hu .noStmts)) hs))
  | loop hx ht hi => exact (execute_loop_wraps hm hs (.loop hx ht hi)).soon
  | wrapped hx ht hi => exact (execute_loop_wraps hm hs (.wrapped hx ht hi)).soon
  | enclosed h =>
    -- The block around the loop is entered first.
    refine .of_step (execute_loop_wraps (wrapped_wraps hm) ?_ h).soon
    exact .enclosed (Matching.le_add _ _ _ hm.environment) (hs.mono Matching.le_add)
  | function hp hg => exact Config.Wraps.soon (.done (declareFunction_wraps hm hp hg) rfl hs)
  | @classDecl _ _ t gs gs' r r' hp hr hgs =>
    rw [execute, execute, superclass_wraps hm hr]
    cases hsuper : m.superclass r with
    | error e => exact Config.Wraps.soon (.done hm trivial hs)
    | ok c =>
      obtain ⟨S, hle, hclass⟩ := declareClass_wraps hm hp t (isSome_superclass hsuper) hgs
      exact Config.Wraps.soon (.done hclass rfl (hs.mono hle))
  | returning hv =>
    rcases hv.args_cases with ⟨rfl, rfl⟩ | ⟨x, x', rfl, rfl, hx⟩
    · exact Config.Wraps.soon (.done hm rfl hs)
    · exact Config.Wraps.soon (.eval hm hx (.frame .returning hs))
  | breaking => exact Config.Wraps.soon (.done hm rfl hs)
  | continuing => exact Config.Wraps.soon (.done hm ⟨rfl, rfl⟩ hs)

end

section

variable (hs : Stacks w R false k p m.environment m'.environment fs fs')

include hs

theorem testAgain_wraps {x x' : Expr} {s s' : Stmt} {i i' : Option Expr}
    (h : Lox.Wraps w.links k p (.stmt (.loop x s i)) (.stmt (.loop x' s' i'))) :
    Config.Wraps w (m.testAgain fs ⟨x, s, i⟩) (m'.testAgain fs' ⟨x', s', i'⟩) :=
  execute_loop_wraps hm hs h

/-- The body of a loop is begun; in the wrapped program that may be in a block of its own. -/
theorem beginBody_wraps {x x' : Expr} {s s' : Stmt} {i i' : Option Expr}
    (h : Lox.Wraps w.links k p (.stmt (.loop x s i)) (.stmt (.loop x' s' i'))) :
    Config.WrapsSoon w ⟨m, .exec s, .loopBody ⟨x, s, i⟩ :: fs⟩
      ⟨m', .exec s', .loopBody ⟨x', s', i'⟩ :: fs'⟩ := by
  cases h with
  | loop hx hbody hi => exact Config.Wraps.soon (.exec hm hbody (.loopBody hx hbody hi hs))
  | wrapped hx hbody hi =>
    refine .of_step (Config.Wraps.soon (.exec (wrapped_wraps hm) hbody ?_))
    exact .wrappedBody hx hbody hi (Matching.le_add _ _ _ hm.environment) (hs.mono Matching.le_add)

/-- The increment of a loop is evaluated, if it has one, and the condition after that. -/
theorem afterBody_wraps {x x' : Expr} {s s' : Stmt} {i i' : Option Expr}
    (hx : Lox.Wraps w.links k p (.expr x) (.expr x'))
    (hbody : Lox.Wraps w.links true p (.stmt s) (.stmt s'))
    (hi : Lox.Wraps w.links k p (.args i.toList) (.args i'.toList)) :
    Config.WrapsSoon w (m.afterBody fs ⟨x, s, i⟩) (m'.afterBody fs' ⟨x', s', i'⟩) := by
  rcases hi.args_cases with ⟨rfl, rfl⟩ | ⟨i, i', rfl, rfl, hi'⟩
  · exact (testAgain_wraps hm hs (.loop hx hbody hi)).soon
  · exact Config.Wraps.soon (.eval hm hi' (.frame (.loopStep (.loop hx hbody hi)) hs))

end

theorem resumeValue_wraps {g : Bool} {f f' : Frame} (hf : f.Wraps w.links k p g f')
    (hs : Stacks w R g k p m.environment m'.environment fs fs') (value : Value) :
    Config.WrapsSoon w (m.resumeValue fs value f) (m'.resumeValue fs' value f') := by
  cases hf with
  | unary | binaryRight => exact (finish_wraps hm hs _).soon
  | binaryLeft hx => exact Config.Wraps.soon (.eval hm hx (.frame .binaryRight hs))
  | logical hx =>
    rw [resumeValue, resumeValue]
    split
    · exact Config.Wraps.soon (.done hm rfl hs)
    · exact Config.Wraps.soon (.eval hm hx hs)
  | assign hr => exact (finishAssign_wraps hm hs hr value).soon
  | callee hes => exact (evaluateArguments_wraps hm hs value _ #[] hes).soon
  | argument hes => exact (evaluateArguments_wraps hm hs _ _ _ hes).soon
  | get => exact (finishProperty_wraps hm hs (property_wraps hm value _)).soon
  | setObject hx =>
    cases value with
    | object o => exact Config.Wraps.soon (.eval hm hx (.frame .setValue hs))
    | _ => exact Config.Wraps.soon (.done hm trivial hs)
  | setValue =>
    have hheap := hm.heap.setField
    exact Config.Wraps.soon (.done (hm.grown (fun _ _ _ h => h) (hheap _ _ _)) rfl hs)
  | discard => exact Config.Wraps.soon (.done hm rfl hs)
  | print =>
    have hprinted : m'.printed.push (m'.heap.textOf value) =
        m.printed.push (m.heap.textOf value) := by
      rw [hm.printed, hm.heap.textOf]
    exact Config.Wraps.soon (.done ⟨hm.heap, hm.environment, hm.depths, hm.depths', hprinted,
      hm.callDepth, hm.maxCallDepth, hm.now⟩ rfl hs)
  | varDecl hp => exact Config.Wraps.soon (.done (define_wraps hm hp _ value) rfl hs)
  | branch ht ha =>
    simp only [resumeValue]
    split
    · exact Config.Wraps.soon (.exec hm ht hs)
    · rcases ha.body_cases with ⟨rfl, rfl⟩ | ⟨s, s', rfl, rfl, hu⟩
      · exact Config.Wraps.soon (.done hm rfl hs)
      · exact Config.Wraps.soon (.exec hm hu hs)
  | returning => exact Config.Wraps.soon (.done hm rfl hs)
  | loopTest h =>
    rw [resumeValue, resumeValue]
    split
    · exact beginBody_wraps hm hs h
    · exact Config.Wraps.soon (.done hm rfl hs)
  | loopStep h => exact (testAgain_wraps hm hs h).soon

theorem callValue_wraps {r r' : CallResult} (hr : r.Wraps R r') (c : Completion) :
    m'.callValue r' c = m.callValue r c := by
  cases hr with
  | returned => cases c <;> rfl
  | object o => cases c <;> rfl
  | receiver hp =>
    have hthis := hm.heap.environments.local?_eq (x := "this") hp
    have hget (h : Heap) (e : EnvironmentId) : h.getAt? e 0 "this" = h.local? e "this" := by
      rw [Heap.getAt?_eq]
      rfl
    cases c <;> simp only [callValue, hget, hthis]

/-- Both programs have come back from a call. -/
theorem returned_wraps : Machine.Wraps w R p { m with callDepth := m.callDepth - 1 }
    { m' with callDepth := m'.callDepth - 1 } :=
  ⟨hm.heap, hm.environment, hm.depths, hm.depths', hm.printed, congrArg (· - 1) hm.callDepth,
    hm.maxCallDepth, hm.now⟩

end

/-- What is done with a completion. The wrapped program may have blocks to leave before. -/
theorem resume_wraps {c : Completion} (hs : Stacks w R v k p e e' fs fs') (hc : c.Suits v k) :
    ∀ {m m' : Machine}, m.Wraps w R p m' → m.environment = e → m'.environment = e' →
      Config.WrapsSoon w (Config.step ⟨m, .done c, fs⟩) (Config.step ⟨m', .done c, fs'⟩) := by
  induction hs with
  | @nil k =>
    intro m m' hm he he'
    have hnil : Stacks w R false k [] m.environment m'.environment [] [] := by
      rw [he, he']
      exact .nil
    exact Config.Wraps.soon (.done hm hc hnil)
  | @frame k g p e e' f f' fs fs' hf hs _ =>
    rintro m m' hm rfl rfl
    cases c with
    | value x =>
      have hvalue := resumeValue_wraps hm hf hs x
      cases hf <;> exact hvalue
    | failed x =>
      have hfailed := Config.Wraps.done hm (c := .failed x) trivial hs
      cases hf <;> exact hfailed.soon
    | continued => cases hc.1
    | _ => cases hc
  | loopBody hx hbody hi hs _ =>
    rintro m m' hm rfl rfl
    cases c with
    | value x => cases hc
    | normal | continued => exact afterBody_wraps hm hs hx hbody hi
    | broken => exact Config.Wraps.soon (.done hm rfl hs)
    | returned x => exact Config.Wraps.soon (.done hm (c := .returned x) rfl hs)
    | failed x => exact Config.Wraps.soon (.done hm (c := .failed x) trivial hs)
  | @wrappedBody k p e e' o' x x' s s' fs fs' i i' hx hbody hi hr hs _ =>
    rintro m m' hm rfl rfl
    have hout := hm.moved hr
    cases c with
    | value x => cases hc
    | continued => cases hc.2
    | normal =>
      rcases hi.args_cases with ⟨rfl, rfl⟩ | ⟨i, i', rfl, rfl, hi'⟩
      · exact .of_step (testAgain_wraps hout hs (.wrapped hx hbody hi)).soon
      · exact .of_step (Config.Wraps.soon (.eval hm hi' (.wrappedStep hx hbody hi hr hs)))
    | broken => exact .of_step (Config.Wraps.soon (.done hout rfl hs))
    | returned x => exact .of_step (Config.Wraps.soon (.done hout (c := .returned x) rfl hs))
    | failed x => exact .of_step (Config.Wraps.soon (.done hout (c := .failed x) trivial hs))
  | wrappedStep hx hbody hi hr hs _ =>
    rintro m m' hm rfl rfl
    have hout := hm.moved hr
    cases c with
    | value x => exact .of_step (.of_step (testAgain_wraps hout hs (.wrapped hx hbody hi)).soon)
    | failed x =>
      have hfailed := Config.Wraps.done hout (c := .failed x) trivial hs
      exact .of_step (.of_step hfailed.soon)
    | continued => cases hc.1
    | _ => cases hc
  | enclosed hr _ ih =>
    rintro m m' hm rfl rfl
    have hout := ih hc (hm.moved hr) rfl rfl
    cases c <;> exact .of_step hout
  | block hrest hr hs _ =>
    rintro m m' hm rfl rfl
    cases c with
    | value x => cases hc
    | normal => exact (runBlock_wraps hm hrest hr hs).soon
    | continued => exact Config.Wraps.soon (.done (hm.moved hr) (c := .continued) hc hs)
    | broken => exact Config.Wraps.soon (.done (hm.moved hr) (c := .broken) rfl hs)
    | returned x => exact Config.Wraps.soon (.done (hm.moved hr) (c := .returned x) rfl hs)
    | failed x => exact Config.Wraps.soon (.done (hm.moved hr) (c := .failed x) trivial hs)
  | @call k l p e e' r r' fs fs' hr hs _ =>
    rintro m m' hm rfl rfl
    have hback := returned_wraps hm
    cases c with
    | failed x => exact Config.Wraps.soon (.done hback (c := .failed x) trivial hs)
    | value x => cases hc
    | _ =>
      rw [Config.step, Config.step, resume, resume, callValue_wraps hm hr]
      · exact (Config.Wraps.done hback (c := .value _) rfl hs).soon
      all_goals simp

end Machine

/-- A step of the program is followed by the wrapped program, in one step or in several. -/
theorem Config.Wraps.step {c c' : Config} (h : c.Wraps w c') : c.step.WrapsSoon w c'.step := by
  cases h with
  | eval hm he hs => exact (Machine.evaluate_wraps hm hs he).soon
  | exec hm h hs => exact Machine.execute_wraps hm hs h
  | done hm hc hs => exact Machine.resume_wraps hs hc hm rfl rfl

namespace Config

variable {c c' : Config} {completion : Completion}

/-- However far the program has come, the wrapped program comes as far, and not in fewer steps. -/
theorem Wraps.iterate (h : c.Wraps w c') (count : Nat) :
    ∃ more, count ≤ more ∧ (Config.step^[count] c).Wraps w (Config.step^[more] c') := by
  induction count with
  | zero => exact ⟨0, Nat.le_refl 0, h⟩
  | succ count ih =>
    obtain ⟨more, hle, hmore⟩ := ih
    obtain ⟨n, hn⟩ := hmore.step
    refine ⟨n + (more + 1), by omega, ?_⟩
    rw [Function.iterate_succ_apply', Function.iterate_add_apply, Function.iterate_succ_apply']
    exact hn

theorem Wraps.printed (h : c.Wraps w c') : c'.machine.printed = c.machine.printed := by
  cases h with
  | eval hm | exec hm | done hm => exact hm.printed

/-- Below the last frame of the program the wrapped program has only blocks to leave. -/
theorem ends_of_stacks {R : Matching} {v k : Bool} {p : Layout} {fs fs' : List Frame}
    {e e' : EnvironmentId} (hs : Stacks w R v k p e e' fs fs') (hfs : fs = [])
    (he : m.environment = e) : ∀ {m' : Machine}, m.Wraps w R p m' →
      ∃ (n : Nat) (n' : Machine), Config.step^[n] ⟨m', .done completion, fs'⟩ =
        ⟨n', .done completion, []⟩ ∧ m.Wraps w R [] n' := by
  induction hs with
  | nil => exact fun hm => ⟨0, _, rfl, hm⟩
  | enclosed hr _ ih =>
    subst he
    intro m' hm
    obtain ⟨n, n', hn, hm'⟩ := ih hfs rfl (hm.moved hr)
    refine ⟨n + 1, n', ?_, hm'⟩
    rw [Function.iterate_succ_apply, ← hn]
    cases completion <;> rfl
  | _ => cases hfs

theorem Wraps.ends (h : Wraps w ⟨m, .done completion, []⟩ c') : ∃ (n : Nat) (m' : Machine),
    Config.step^[n] c' = ⟨m', .done completion, []⟩ ∧ ∃ S : Matching, m.Wraps w S [] m' := by
  cases h with
  | @done R v k p m m' fs fs' completion hm hc hs =>
    obtain ⟨n, n', hn, hm'⟩ := ends_of_stacks hs rfl rfl hm
    exact ⟨n, n', hn, R, hm'⟩

/-- Where the wrapped program has come to its end, so has the program. -/
theorem Wraps.of_ends (h : c.Wraps w ⟨m', .done completion, []⟩) : ∃ m : Machine,
    c = ⟨m, .done completion, []⟩ ∧ ∃ S : Matching, m.Wraps w S [] m' := by
  cases h with
  | @done R v k p m m' fs fs' completion hm hc hs =>
    generalize m.environment = e at hs
    generalize m'.environment = e' at hs
    cases hs
    exact ⟨m, rfl, R, hm⟩

end Config

end Lox
