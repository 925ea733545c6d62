import Lox.Machine.Step
import Lox.Proofs.Scope.Lookup

/-! What every environment was made for.

A run is accompanied by a record that it does not read: for each environment the scope that it was
made for, the declarations that have bound names in it, and the environment it was nested in. The
record is kept by the deeds of each step, and it is true of the heap whatever the program does. -/

namespace Lox

structure Origin where
  scope : OpenScope
  outer : Option EnvironmentId
  deriving DecidableEq, Repr

/-- The origins of environments, in the order in which they were made. -/
abbrev Origins := Array Origin

/-- What a step does to environments, other than to give a new value to a name. -/
inductive Deed where
  | opened (scope : OpenScope) (outer : EnvironmentId)
  | bound (e : EnvironmentId) (name : Token)
  deriving DecidableEq, Repr

namespace Origins

/-- Before any program the globals are the only environment. -/
def start : Origins := #[⟨⟨.globals, []⟩, none⟩]

def of? (o : Origins) (e : EnvironmentId) : Option Origin := o[e.index]?

def perform (o : Origins) : Deed → Origins
  | .opened scope outer => o.push ⟨scope, some outer⟩
  | .bound e name =>
    o.modify e.index fun origin => { origin with scope := origin.scope.add (.named name) }

def performAll (o : Origins) (deeds : List Deed) : Origins := deeds.foldl perform o

@[simp] theorem performAll_nil (o : Origins) : o.performAll [] = o := rfl

@[simp] theorem performAll_cons (o : Origins) (d : Deed) (rest : List Deed) :
    o.performAll (d :: rest) = (o.perform d).performAll rest := rfl

theorem of?_opened (o : Origins) (scope : OpenScope) (outer e : EnvironmentId) :
    (o.perform (.opened scope outer)).of? e =
      if e.index = o.size then some ⟨scope, some outer⟩ else o.of? e := by
  simp [perform, of?, Array.getElem?_push]

theorem of?_bound (o : Origins) (e' : EnvironmentId) (t : Token) (e : EnvironmentId) :
    (o.perform (.bound e' t)).of? e =
      if e' = e then (o.of? e).map fun origin => { origin with scope := origin.scope.add (.named t) }
      else o.of? e := by
  obtain ⟨i⟩ := e
  obtain ⟨j⟩ := e'
  simp only [perform, of?, Array.getElem?_modify, EnvironmentId.mk.injEq]

end Origins

namespace Machine

def deedsOfExec (m : Machine) : Stmt → List Deed
  | .varDecl name none => [.bound m.environment name]
  | .block _ => [.opened ⟨.block, []⟩ m.environment]
  | .function f => [.bound m.environment f.name]
  | .classDecl name superclass _ =>
    match m.superclass superclass with
    | .ok none => [.bound m.environment name]
    | .ok (some _) => [.bound m.environment name, .opened .superclass m.environment]
    | .error _ => []
  | _ => []

def deedsOfProperty : Except RuntimeError (Value × Property) → List Deed
  | .ok (_, .method f) => [.opened .receiver f.scope]
  | _ => []

def deedsOfFunction (m : Machine) (f : FunctionId) : List Deed :=
  match m.heap.function? f with
  | some closure => [.opened closure.decl.scope closure.scope]
  | none => []

/-- An initializer is bound to the new object and called. -/
def deedsOfClass (m : Machine) (c : ClassId) : List Deed :=
  match m.heap.initializer? c with
  | some method =>
    [.opened .receiver method.scope, .opened method.decl.scope ⟨m.heap.environments.size⟩]
  | none => []

def deedsOfCall (m : Machine) (callee : Value) (arguments : List Value) : List Deed :=
  match m.heap.arity? callee with
  | none => []
  | some arity =>
    if arguments.length ≠ arity then []
    else if m.maxCallDepth ≤ m.callDepth then []
    else
      match callee with
      | .function f => m.deedsOfFunction f
      | .classValue c => m.deedsOfClass c
      | _ => []

def deedsOfResume (m : Machine) (value : Value) : Frame → List Deed
  | .callee _ [] => m.deedsOfCall value []
  | .argument callee _ done [] => m.deedsOfCall callee (done.push value).toList
  | .get name => deedsOfProperty (m.property value name)
  | .varDecl name => [.bound m.environment name]
  | _ => []

end Machine

/-- The deeds of the next step. -/
def Config.deeds : Config → List Deed
  | ⟨m, .eval (.inherited keyword method), _⟩ => Machine.deedsOfProperty (m.inherited keyword method)
  | ⟨m, .exec s, _⟩ => m.deedsOfExec s
  | ⟨m, .done (.value value), frame :: _⟩ => m.deedsOfResume value frame
  | _ => []

/-- A record is true of a heap. The names among the globals are not recorded in full. -/
structure Origins.Faithful (o : Origins) (h : Heap) : Prop where
  size : o.size = h.environments.size
  outer : ∀ e origin, o.of? e = some origin →
    (h.environment? e).map (·.enclosing) = some origin.outer
  names : ∀ e origin, o.of? e = some origin → e ≠ Heap.globals → ∀ x : String,
    h.binds e x = true ↔ ∃ b ∈ origin.scope.binders, b.name = x

namespace Heap

theorem environment?_define (h : Heap) (e e' : EnvironmentId) (x : String) (v : Value) :
    (h.define e x v).environment? e' =
      if e = e' then
        (h.environment? e').map fun env => { env with bindings := env.bindings.insert x v }
      else h.environment? e' := by
  obtain ⟨i⟩ := e
  obtain ⟨j⟩ := e'
  simp only [define, environment?, Array.getElem?_modify, EnvironmentId.mk.injEq]

@[simp] theorem size_define (h : Heap) (e : EnvironmentId) (x : String) (v : Value) :
    (h.define e x v).environments.size = h.environments.size := by
  simp [define]

theorem local?_define (h : Heap) (e e' : EnvironmentId) (x y : String) (v : Value) :
    (h.define e x v).local? e' y =
      if e = e' ∧ x = y ∧ (h.environment? e').isSome then some v else h.local? e' y := by
  unfold local?
  rw [environment?_define]
  by_cases he : e = e'
  · rw [if_pos he]
    cases h.environment? e' with
    | none => simp
    | some env => by_cases hx : x = y <;> simp [he, hx]
  · simp [he]

theorem environment?_child (h : Heap) (outer e : EnvironmentId) :
    (h.child outer).2.environment? e =
      if e.index = h.environments.size then some ⟨Bindings.empty, some outer⟩
      else h.environment? e := by
  simp [child, newEnvironment, environment?, Array.getElem?_push]

theorem environment?_push {h h' : Heap} {env : Environment}
    (he : h'.environments = h.environments.push env) (e : EnvironmentId) :
    h'.environment? e = if e.index = h.environments.size then some env else h.environment? e := by
  simp [environment?, he, Array.getElem?_push]

theorem environment?_of_push {h h' : Heap} {env : Environment}
    (he : h'.environments = h.environments.push env) :
    h.environment? ⟨h.environments.size⟩ = none ∧
      h'.environment? ⟨h.environments.size⟩ = some env :=
  ⟨by simp [environment?], by rw [environment?_push he, if_pos rfl]⟩

theorem local?_push {h h' : Heap} {env : Environment}
    (he : h'.environments = h.environments.push env) (e : EnvironmentId) (x : String) :
    h'.local? e x =
      if e.index = h.environments.size then env.bindings.get? x else h.local? e x := by
  rw [local?, environment?_push he]
  split <;> rfl

theorem index_lt_of_isSome {h : Heap} {e : EnvironmentId} (he : (h.environment? e).isSome = true) :
    e.index < h.environments.size := by
  simpa [environment?] using he

theorem define_push {h : Heap} {es : Array Environment} {env : Environment}
    (he : h.environments = es.push env) (x : String) (v : Value) :
    (h.define ⟨es.size⟩ x v).environments =
      es.push { env with bindings := env.bindings.insert x v } := by
  refine Array.ext_getElem? fun i => ?_
  simp only [define, he, Array.getElem?_modify, Array.getElem?_push]
  by_cases hi : es.size = i
  · simp [hi]
  · simp [hi, Ne.symm hi]

theorem foldl_define_push {es : Array Environment} (entries : List (Token × Value)) :
    ∀ {h : Heap} {env : Environment}, h.environments = es.push env →
    (entries.foldl (fun heap entry => heap.define ⟨es.size⟩ entry.1.lexeme entry.2) h).environments =
      es.push ⟨entries.foldl (fun b entry => b.insert entry.1.lexeme entry.2) env.bindings,
        env.enclosing⟩ := by
  induction entries with
  | nil => exact fun he => he
  | cons entry rest ih => exact fun he => ih (define_push he entry.1.lexeme entry.2)

theorem bindThis_environments (h : Heap) (method : Closure) (receiver : Value) :
    (h.bindThis method receiver).2.environments =
      h.environments.push ⟨Bindings.empty.insert "this" receiver, some method.scope⟩ := by
  have hc : (h.child method.scope).2.environments =
    h.environments.push ⟨Bindings.empty, some method.scope⟩ := rfl
  exact define_push hc "this" receiver

end Heap

theorem Heap.binds_of_holderUpTo? {h : Heap} {x : String} {e' : EnvironmentId} (count : Nat) :
    ∀ e : EnvironmentId, h.holderUpTo? x count e = some e' → h.binds e' x = true := by
  induction count with
  | zero => intro e he; cases he
  | succ count ih =>
    intro e he
    rw [Heap.holderUpTo?] at he
    split at he
    · rename_i hb
      obtain rfl := Option.some.inj he
      exact hb
    · split at he
      · exact ih _ he
      · cases he

/-- A name is held where it is bound. -/
theorem Machine.binds_of_holder? {m : Machine} {target : Reference} {e : EnvironmentId}
    (h : m.holder? target = some e) : m.heap.binds e target.name.lexeme = true := by
  unfold Machine.holder? at h
  split at h
  · exact (Option.filter_eq_some_iff.mp h).2
  · exact Heap.binds_of_holderUpTo? _ _ h

theorem isSome_foldl_insert (entries : List (Token × Value)) (x : String) :
    ∀ b : Bindings Value,
    ((entries.foldl (fun b entry => b.insert entry.1.lexeme entry.2) b).get? x).isSome = true ↔
      (∃ entry ∈ entries, entry.1.lexeme = x) ∨ (b.get? x).isSome = true := by
  induction entries with
  | nil => simp
  | cons entry rest ih =>
    intro b
    rw [List.foldl_cons, ih, Bindings.get?_insert]
    by_cases hx : entry.1.lexeme = x <;> simp [hx]

namespace Origins.Faithful

variable {o : Origins} {h h' : Heap}

theorem congr (hf : o.Faithful h) (he : h'.environments = h.environments) : o.Faithful h' := by
  have hl : ∀ e, h'.environment? e = h.environment? e := fun e => by
    simp [Heap.environment?, he]
  refine ⟨he ▸ hf.size, fun e origin ho => hl e ▸ hf.outer e origin ho, fun e origin ho hg x => ?_⟩
  rw [← hf.names e origin ho hg x]
  simp [Heap.binds, Heap.local?, hl]

theorem newFunction (hf : o.Faithful h) (f : Closure) : o.Faithful (h.newFunction f).2 :=
  hf.congr rfl

theorem newClass (hf : o.Faithful h) (c : Class) : o.Faithful (h.newClass c).2 := hf.congr rfl

theorem newObject (hf : o.Faithful h) (x : Object) : o.Faithful (h.newObject x).2 := hf.congr rfl

/-- A new value for a name that is bound already changes nothing that is recorded. -/
theorem assign (hf : o.Faithful h) {e : EnvironmentId} {x : String} (hb : h.binds e x = true)
    (v : Value) : o.Faithful (h.define e x v) := by
  refine ⟨by simp [hf.size], fun e' origin ho => ?_, fun e' origin ho hg y => ?_⟩
  · rw [← hf.outer e' origin ho, Heap.environment?_define]
    split
    · simp [Function.comp_def]
    · rfl
  · rw [← hf.names e' origin ho hg y, Heap.binds, Heap.local?_define, Heap.binds]
    split
    · rename_i hc
      obtain ⟨rfl, rfl, -⟩ := hc
      simpa [Heap.binds] using hb
    · rfl

theorem bind (hf : o.Faithful h) (e : EnvironmentId) (t : Token) (v : Value) :
    (o.perform (.bound e t)).Faithful (h.define e t.lexeme v) := by
  refine ⟨by simp [perform, hf.size], fun e' origin ho => ?_, fun e' origin ho hg y => ?_⟩
  · rw [of?_bound] at ho
    rw [Heap.environment?_define]
    split at ho
    · rename_i he
      obtain ⟨origin', ho', rfl⟩ := Option.map_eq_some_iff.mp ho
      simp [he, ← hf.outer e' origin' ho', Function.comp_def]
    · rename_i he
      rw [if_neg he]
      exact hf.outer e' origin ho
  · rw [of?_bound] at ho
    rw [Heap.binds, Heap.local?_define]
    split at ho
    · rename_i he
      obtain ⟨origin', ho', rfl⟩ := Option.map_eq_some_iff.mp ho
      have hn := hf.names e' origin' ho' hg y
      have henv : (h.environment? e').isSome = true := by
        have := hf.outer e' origin' ho'
        cases henv : h.environment? e' with
        | none => simp [henv] at this
        | some env => rfl
      rw [Heap.binds] at hn
      by_cases hx : t.lexeme = y
      · simp [he, hx, henv, Binder.name]
      · simp [hx, hn, Binder.name]
    · rename_i he
      rw [if_neg fun hc => he hc.1]
      exact hf.names e' origin ho hg y

theorem opened (hf : o.Faithful h) (scope : OpenScope) {outer : EnvironmentId}
    {bindings : Bindings Value} (he : h'.environments = h.environments.push ⟨bindings, some outer⟩)
    (hb : ∀ x, (bindings.get? x).isSome = true ↔ ∃ b ∈ scope.binders, b.name = x) :
    (o.perform (.opened scope outer)).Faithful h' := by
  have hnew : ∀ e : EnvironmentId, h'.environment? e =
      if e.index = o.size then some ⟨bindings, some outer⟩ else h.environment? e := fun e => by
    simp [Heap.environment?, he, Array.getElem?_push, hf.size]
  refine ⟨by simp [perform, he, hf.size], fun e origin ho => ?_, fun e origin ho hg x => ?_⟩
  · rw [of?_opened] at ho
    rw [hnew]
    split at ho
    · obtain rfl := Option.some.inj ho
      rename_i hi
      simp [hi]
    · rename_i hi
      rw [if_neg hi]
      exact hf.outer e origin ho
  · rw [of?_opened] at ho
    rw [Heap.binds, Heap.local?, hnew]
    split at ho
    · obtain rfl := Option.some.inj ho
      rename_i hi
      rw [if_pos hi, ← hb]
      rfl
    · rename_i hi
      rw [if_neg hi]
      exact hf.names e origin ho hg x

theorem openedThis (hf : o.Faithful h) (method : Closure) (receiver : Value) :
    (o.perform (.opened .receiver method.scope)).Faithful (h.bindThis method receiver).2 :=
  hf.opened .receiver (h.bindThis_environments method receiver) fun x => by
    simp [OpenScope.receiver, Binder.name]

end Origins.Faithful

namespace Machine

variable {o : Origins} {m : Machine}

theorem faithful_finishProperty (hf : o.Faithful m.heap) (frames : List Frame)
    (r : Except RuntimeError (Value × Property)) :
    (o.performAll (deedsOfProperty r)).Faithful (m.finishProperty frames r).machine.heap := by
  rcases r with e | ⟨receiver, v | f⟩
  · exact hf
  · exact hf
  · exact (hf.openedThis f receiver).congr rfl

theorem faithful_runBlock (hf : o.Faithful m.heap) (frames : List Frame) (outer : EnvironmentId)
    (rest : List Stmt) : o.Faithful (m.runBlock frames outer rest).machine.heap := by
  cases rest <;> exact hf

theorem faithful_enter (hf : o.Faithful m.heap) (frames : List Frame) (f : Closure)
    (arguments : List Value) (result : CallResult) (ha : arguments.length = f.decl.arity) :
    (o.perform (.opened f.decl.scope f.scope)).Faithful
      (m.enter frames f arguments result).machine.heap := by
  have hchild : (m.heap.child f.scope).2.environments =
    m.heap.environments.push ⟨Bindings.empty, some f.scope⟩ := rfl
  have hscope := Heap.foldl_define_push (f.decl.params.zip arguments) hchild
  have hnames (x : String) : (∃ entry ∈ f.decl.params.zip arguments, entry.1.lexeme = x) ↔
      ∃ p ∈ f.decl.params, p.lexeme = x := by
    have hfst : (f.decl.params.zip arguments).map Prod.fst = f.decl.params :=
      List.map_fst_zip (Nat.le_of_eq ha.symm)
    have hmem (p : Token) : p ∈ f.decl.params ↔ ∃ v, (p, v) ∈ f.decl.params.zip arguments := by
      simpa using congrArg (p ∈ ·) hfst.symm
    simp [hmem]
  refine faithful_runBlock (hf.opened f.decl.scope hscope fun x => ?_) _ _ _
  rw [isSome_foldl_insert, hnames]
  simp [FunctionDecl.scope, Binder.name]

/-- The arguments are as many as the callee takes, so every parameter is bound. -/
theorem faithful_call (hf : o.Faithful m.heap) (frames : List Frame) (callee : Value)
    (paren : Token) (arguments : List Value) :
    (o.performAll (m.deedsOfCall callee arguments)).Faithful
      (m.call frames callee paren arguments).machine.heap := by
  unfold call deedsOfCall
  cases harity : m.heap.arity? callee with
  | none => exact hf
  | some arity =>
    simp only
    split
    · exact hf
    rename_i hlen
    split
    · exact hf
    rw [not_ne_iff] at hlen
    cases callee with
    | native f => cases f; exact hf
    | function f =>
      simp only [callFunction, deedsOfFunction]
      cases hc : m.heap.function? f with
      | none => exact hf
      | some closure =>
        refine faithful_enter hf frames closure arguments _ (hlen.trans ?_)
        simpa [Heap.arity?, hc] using harity.symm
    | classValue c =>
      simp only [callClass, deedsOfClass]
      cases hi : m.heap.initializer? c with
      | none => exact hf.congr rfl
      | some method =>
        have hnew := hf.newObject ⟨c, Bindings.empty⟩
        have hthis := hnew.openedThis method (.object (m.heap.newObject ⟨c, Bindings.empty⟩).1)
        have harity' : arguments.length = method.decl.arity :=
          hlen.trans (by simpa [Heap.arity?, hi] using harity.symm)
        exact faithful_enter (m := { m with heap := _ }) hthis frames
          ⟨method.decl, ⟨m.heap.environments.size⟩, method.isInitializer⟩ arguments _ harity'
    | _ => exact hf

theorem faithful_declareClass (hf : o.Faithful m.heap)
    (he : (m.heap.environment? m.environment).isSome = true) (name : Token) (c : Option ClassId)
    (methods : List FunctionDecl) :
    (o.performAll (match c with
      | none => [.bound m.environment name]
      | some _ => [.bound m.environment name, .opened .superclass m.environment])).Faithful
      (m.declareClass name c methods).heap := by
  have hnil := hf.bind m.environment name .nil
  have hbound : (m.heap.define m.environment name.lexeme .nil).binds m.environment name.lexeme =
      true := by
    simp [Heap.binds, Heap.local?_define, he]
  cases c with
  | none =>
    exact (hnil.newClass ⟨name.lexeme, none, methodTable m.environment methods⟩).assign hbound _
  | some c =>
    have hchild : ((m.heap.define m.environment name.lexeme .nil).child m.environment).2.environments =
      (m.heap.define m.environment name.lexeme .nil).environments.push
        ⟨Bindings.empty, some m.environment⟩ := rfl
    have hsuper := Heap.define_push hchild "super" (.classValue c)
    have hopened := hnil.opened .superclass hsuper fun x => by
      simp [OpenScope.superclass, Binder.name]
    refine (hopened.newClass ⟨name.lexeme, some c, _⟩).assign ?_ _
    have hlt := Heap.index_lt_of_isSome he
    have hne : (⟨m.heap.environments.size⟩ : EnvironmentId) ≠ m.environment := by
      rintro h
      rw [← h] at hlt
      exact Nat.lt_irrefl _ hlt
    have hlocal : (((m.heap.define m.environment name.lexeme .nil).child m.environment).2.define
        ⟨(m.heap.define m.environment name.lexeme .nil).environments.size⟩ "super"
        (.classValue c)).local? m.environment name.lexeme = some .nil := by
      rw [Heap.local?_define, if_neg (by simp [hne]), Heap.local?, Heap.environment?_child,
        if_neg (by simpa using Nat.ne_of_lt hlt), ← Heap.local?, Heap.local?_define]
      simp [he]
    exact congrArg Option.isSome hlocal

theorem faithful_execute (hf : o.Faithful m.heap)
    (he : (m.heap.environment? m.environment).isSome = true) (frames : List Frame) (s : Stmt) :
    (o.performAll (m.deedsOfExec s)).Faithful (m.execute frames s).machine.heap := by
  cases s with
  | varDecl name e =>
    cases e with
    | none => exact hf.bind m.environment name .nil
    | some e => exact hf
  | block body =>
    have hchild : (m.heap.child m.environment).2.environments =
      m.heap.environments.push ⟨Bindings.empty, some m.environment⟩ := rfl
    exact faithful_runBlock (hf.opened ⟨.block, []⟩ hchild fun x => by simp) _ _ _
  | function f =>
    exact (hf.newFunction ⟨f, m.environment, false⟩).bind m.environment f.name _
  | classDecl name superclass methods =>
    simp only [execute, deedsOfExec]
    cases hs : m.superclass superclass with
    | error e => exact hf
    | ok c =>
      have hc := faithful_declareClass hf he name c methods
      cases c <;> exact hc
  | returning t e => cases e <;> exact hf
  | _ => exact hf

theorem faithful_finishAssign (hf : o.Faithful m.heap) (frames : List Frame) (target : Reference)
    (value : Value) : o.Faithful (m.finishAssign frames target value).machine.heap := by
  unfold finishAssign
  cases hh : m.holder? target with
  | none => exact hf
  | some e => exact hf.assign (binds_of_holder? hh) value

theorem faithful_resumeValue (hf : o.Faithful m.heap) (frames : List Frame) (value : Value)
    (frame : Frame) : (o.performAll (m.deedsOfResume value frame)).Faithful
      (m.resumeValue frames value frame).machine.heap := by
  cases frame with
  | unary t =>
    simp only [resumeValue]
    cases Operator.unary t value <;> exact hf
  | binaryRight left t =>
    simp only [resumeValue]
    cases Operator.binary t left value <;> exact hf
  | logical t right =>
    simp only [resumeValue]
    split <;> exact hf
  | assign target => exact faithful_finishAssign hf frames target value
  | callee paren rest =>
    cases rest with
    | nil => exact faithful_call hf frames value paren []
    | cons e rest => exact hf
  | argument callee paren done rest =>
    cases rest with
    | nil => exact faithful_call hf frames callee paren (done.push value).toList
    | cons e rest => exact hf
  | get name => exact faithful_finishProperty hf frames (m.property value name)
  | setObject name e => cases value <;> exact hf
  | setValue object name => exact hf.congr rfl
  | varDecl name => exact hf.bind m.environment name value
  | branch consequent alternative =>
    simp only [resumeValue]
    split
    · exact hf
    · cases alternative <;> exact hf
  | loopTest loop =>
    simp only [resumeValue]
    split <;> exact hf
  | _ => exact hf

theorem faithful_afterBody (hf : o.Faithful m.heap) (frames : List Frame) (loop : Loop) :
    o.Faithful (m.afterBody frames loop).machine.heap := by
  obtain ⟨condition, body, increment⟩ := loop
  cases increment <;> exact hf

theorem faithful_resume (hf : o.Faithful m.heap) (frames : List Frame) (frame : Frame)
    (c : Completion) :
    (o.performAll (Config.deeds ⟨m, .done c, frame :: frames⟩)).Faithful
      (m.resume frames frame c).machine.heap := by
  cases c with
  | value v =>
    have hv := faithful_resumeValue hf frames v frame
    cases frame with
    | block rest outer => exact hf
    | call result => exact hf
    | _ => exact hv
  | normal =>
    cases frame with
    | block rest outer => exact faithful_runBlock hf frames outer rest
    | loopBody loop => exact faithful_afterBody hf frames loop
    | _ => exact hf
  | continued =>
    cases frame with
    | loopBody loop => exact faithful_afterBody hf frames loop
    | _ => exact hf
  | _ => cases frame <;> exact hf

end Machine

/-- The record stays true of the heap. -/
theorem Config.step_faithful {o : Origins} {c : Config} (hf : o.Faithful c.machine.heap)
    (he : ∀ s, c.control = .exec s →
      (c.machine.heap.environment? c.machine.environment).isSome = true) :
    (o.performAll c.deeds).Faithful c.step.machine.heap := by
  obtain ⟨m, control, frames⟩ := c
  cases control with
  | eval e =>
    cases e with
    | inherited keyword method => exact Machine.faithful_finishProperty hf frames _
    | «variable» r =>
      simp only [Config.step, Machine.evaluate]
      cases m.read r <;> exact hf
    | receiver r =>
      simp only [Config.step, Machine.evaluate]
      cases m.read r <;> exact hf
    | _ => exact hf
  | exec s => exact Machine.faithful_execute hf (he s rfl) frames s
  | done c =>
    cases frames with
    | nil => cases c <;> exact hf
    | cons frame frames => exact Machine.faithful_resume hf frames frame c

end Lox
