import Lox.Proofs.Machine.Runs
import Lox.Proofs.Scope.Relabelling

/-! Machines whose programs have other node identities.

A machine looks at the identity of a node only to find its depth in the table. With a table that
holds the same depths at the new identities it takes the same steps: every function below gives,
from renamed arguments, its renamed result. -/

namespace Lox

namespace Bindings

variable {α β : Type} (f : α → β)

def map (b : Bindings α) : Bindings β := ⟨b.entries.map fun entry => (entry.1, f entry.2)⟩

@[simp] theorem get?_map (b : Bindings α) (x : String) : (b.map f).get? x = (b.get? x).map f := by
  unfold get? map
  induction b.entries with
  | nil => rfl
  | cons entry rest ih =>
    simp only [List.map_cons, find]
    split
    · rfl
    · exact ih

theorem map_insert (b : Bindings α) (x : String) (a : α) :
    (b.insert x a).map f = (b.map f).insert x (f a) := by
  unfold insert map
  congr 1
  induction b.entries with
  | nil => rfl
  | cons entry rest ih =>
    simp only [List.map_cons, put]
    split
    · rfl
    · simp only [List.map_cons, ih]

theorem map_foldl_insert (entries : List (String × α)) : ∀ b : Bindings α,
    (entries.foldl (fun b entry => b.insert entry.1 entry.2) b).map f =
      (entries.map fun entry => (entry.1, f entry.2)).foldl
        (fun b entry => b.insert entry.1 entry.2) (b.map f) := by
  induction entries with
  | nil => exact fun _ => rfl
  | cons entry rest ih =>
    intro b
    rw [List.foldl_cons, ih, map_insert, List.map_cons, List.foldl_cons]

theorem map_ofList (entries : List (String × α)) :
    (ofList entries).map f = ofList (entries.map fun entry => (entry.1, f entry.2)) :=
  map_foldl_insert f entries empty

end Bindings

section

variable (g : NodeId → NodeId)

def Closure.rename (f : Closure) : Closure := { f with decl := f.decl.relabel (.ofNodes g) }

def Class.rename (c : Class) : Class := { c with methods := c.methods.map (Closure.rename g) }

def Property.rename : Property → Property
  | .field value => .field value
  | .method f => .method (f.rename g)

def Heap.rename (h : Heap) : Heap :=
  { h with functions := h.functions.map (Closure.rename g)
           classes := h.classes.map (Class.rename g) }

/-- A machine with other identities and another table of depths. -/
def Machine.rename (d : Depths) (m : Machine) : Machine :=
  { m with heap := m.heap.rename g, depths := d }

def Loop.rename (l : Loop) : Loop :=
  ⟨l.condition.relabel (.ofNodes g), l.body.relabel (.ofNodes g),
    l.increment.map (Expr.relabel (.ofNodes g))⟩

def Frame.rename : Frame → Frame
  | .binaryLeft operator right => .binaryLeft operator (right.relabel (.ofNodes g))
  | .logical operator right => .logical operator (right.relabel (.ofNodes g))
  | .assign target => .assign (target.relabel (.ofNodes g))
  | .callee paren arguments => .callee paren (arguments.map (Expr.relabel (.ofNodes g)))
  | .argument f paren done rest =>
    .argument f paren done (rest.map (Expr.relabel (.ofNodes g)))
  | .setObject name value => .setObject name (value.relabel (.ofNodes g))
  | .branch consequent alternative =>
    .branch (consequent.relabel (.ofNodes g)) (alternative.map (Stmt.relabel (.ofNodes g)))
  | .loopTest l => .loopTest (l.rename g)
  | .loopBody l => .loopBody (l.rename g)
  | .loopStep l => .loopStep (l.rename g)
  | .block rest outer => .block (rest.map (Stmt.relabel (.ofNodes g))) outer
  | frame => frame

def Control.rename : Control → Control
  | .eval e => .eval (e.relabel (.ofNodes g))
  | .exec s => .exec (s.relabel (.ofNodes g))
  | .done c => .done c

def Config.rename (d : Depths) (c : Config) : Config :=
  ⟨c.machine.rename g d, c.control.rename g, c.frames.map (Frame.rename g)⟩

end

variable {g : NodeId → NodeId}

namespace Heap

variable (h : Heap)

@[simp] theorem environment?_rename (e : EnvironmentId) :
    (h.rename g).environment? e = h.environment? e := rfl

@[simp] theorem object?_rename (o : ObjectId) : (h.rename g).object? o = h.object? o := rfl

@[simp] theorem function?_rename (f : FunctionId) :
    (h.rename g).function? f = (h.function? f).map (Closure.rename g) := by
  simp [function?, rename]

@[simp] theorem class?_rename (c : ClassId) :
    (h.rename g).class? c = (h.class? c).map (Class.rename g) := by
  simp [class?, rename]

@[simp] theorem local?_rename (e : EnvironmentId) (x : String) :
    (h.rename g).local? e x = h.local? e x := rfl

@[simp] theorem binds_rename (e : EnvironmentId) (x : String) :
    (h.rename g).binds e x = h.binds e x := rfl

/-- How far out an environment lies is a matter of nesting alone. -/
theorem ancestor?_congr {h h' : Heap} (he : ∀ e, (h'.environment? e).map (·.enclosing) =
    (h.environment? e).map (·.enclosing)) (distance : Nat) : ∀ e : EnvironmentId,
    h'.ancestor? e distance = h.ancestor? e distance := by
  induction distance with
  | zero => exact fun _ => rfl
  | succ distance ih =>
    intro e
    have hbind (env : Option Environment) :
        env.bind (·.enclosing) = (env.map (·.enclosing)).join := by
      cases env <;> rfl
    rw [ancestor?, ancestor?, hbind, he, ← hbind]
    cases (h.environment? e).bind (·.enclosing) with
    | none => rfl
    | some outer => exact ih outer

theorem ancestor?_rename (distance : Nat) (e : EnvironmentId) :
    (h.rename g).ancestor? e distance = h.ancestor? e distance :=
  ancestor?_congr (fun e => congrArg _ (h.environment?_rename (g := g) e)) distance e

@[simp] theorem holderAt?_rename (e : EnvironmentId) (distance : Nat) (x : String) :
    (h.rename g).holderAt? e distance x = h.holderAt? e distance x := by
  rw [holderAt?, ancestor?_rename]
  rfl

theorem holderUpTo?_rename (x : String) (count : Nat) : ∀ e : EnvironmentId,
    (h.rename g).holderUpTo? x count e = h.holderUpTo? x count e := by
  induction count with
  | zero => exact fun _ => rfl
  | succ count ih =>
    intro e
    rw [holderUpTo?, holderUpTo?, binds_rename, environment?_rename]
    split
    · rfl
    · cases (h.environment? e).bind (·.enclosing) with
      | none => rfl
      | some outer => exact ih outer

@[simp] theorem holder?_rename (e : EnvironmentId) (x : String) :
    (h.rename g).holder? e x = h.holder? e x := h.holderUpTo?_rename x _ e

@[simp] theorem getAt?_rename (e : EnvironmentId) (distance : Nat) (x : String) :
    (h.rename g).getAt? e distance x = h.getAt? e distance x := by
  rw [getAt?, holderAt?_rename]
  rfl

/-- Methods that are changed one by one are found under the names that they had. -/
theorem methodUpTo?_map {h h' : Heap} {k : Closure → Closure}
    (hc : ∀ c, h'.class? c = (h.class? c).map fun cls => { cls with methods := cls.methods.map k })
    (x : String) (count : Nat) : ∀ c : ClassId,
    h'.methodUpTo? x count c = (h.methodUpTo? x count c).map k := by
  induction count with
  | zero => exact fun _ => rfl
  | succ count ih =>
    intro c
    rw [methodUpTo?, methodUpTo?, hc]
    cases h.class? c with
    | none => rfl
    | some cls =>
      simp only [Option.map_some, Bindings.get?_map]
      cases cls.methods.get? x with
      | some method => rfl
      | none =>
        cases cls.superclass with
        | some superclass => exact ih superclass
        | none => rfl

theorem methodUpTo?_rename (x : String) (count : Nat) (c : ClassId) :
    (h.rename g).methodUpTo? x count c = (h.methodUpTo? x count c).map (Closure.rename g) :=
  methodUpTo?_map h.class?_rename x count c

@[simp] theorem method?_rename (c : ClassId) (x : String) :
    (h.rename g).method? c x = (h.method? c x).map (Closure.rename g) := by
  unfold method?
  rw [methodUpTo?_rename]
  simp [rename]

@[simp] theorem property?_rename (o : ObjectId) (x : String) :
    (h.rename g).property? o x = (h.property? o x).map (Property.rename g) := by
  unfold property?
  rw [object?_rename]
  cases h.object? o with
  | none => rfl
  | some object =>
    simp only
    cases object.fields.get? x with
    | some value => rfl
    | none =>
      rw [method?_rename]
      cases h.method? object.ofClass x <;> rfl

/-- A renaming that keeps every function and method keeps the heap. -/
theorem rename_eq_self {h : Heap}
    (hf : ∀ f closure, h.function? f = some closure → closure.rename g = closure)
    (hm : ∀ c cls name method, h.class? c = some cls → (name, method) ∈ cls.methods.entries →
      method.rename g = method) : h.rename g = h := by
  have hclass : ∀ cls ∈ h.classes, cls.rename g = cls := by
    intro cls hcls
    obtain ⟨i, hi⟩ := Array.mem_iff_getElem?.mp hcls
    have hentries : cls.methods.entries.map (fun entry => (entry.1, entry.2.rename g)) =
        cls.methods.entries := by
      refine (List.map_congr_left fun entry hentry => ?_).trans (List.map_id _)
      exact Prod.ext rfl (hm ⟨i⟩ cls entry.1 entry.2 hi hentry)
    rw [Class.rename, Bindings.map, hentries]
  have hfunction : ∀ f ∈ h.functions, f.rename g = f := by
    intro f hfs
    obtain ⟨i, hi⟩ := Array.mem_iff_getElem?.mp hfs
    exact hf ⟨i⟩ f hi
  rw [rename, (Array.map_congr_left hfunction).trans (Array.map_id' _),
    (Array.map_congr_left hclass).trans (Array.map_id' _)]

theorem newFunction_rename (f : Closure) :
    (h.rename g).newFunction (f.rename g) = ((h.newFunction f).1, (h.newFunction f).2.rename g) := by
  simp [newFunction, rename]

theorem newClass_rename (c : Class) :
    (h.rename g).newClass (c.rename g) = ((h.newClass c).1, (h.newClass c).2.rename g) := by
  simp [newClass, rename]

theorem bindThis_rename (f : Closure) (receiver : Value) :
    (h.rename g).bindThis (f.rename g) receiver =
      ((h.bindThis f receiver).1.rename g, (h.bindThis f receiver).2.rename g) := rfl

theorem bindMethod_rename (f : Closure) (receiver : Value) :
    (h.rename g).bindMethod (f.rename g) receiver =
      ((h.bindMethod f receiver).1, (h.bindMethod f receiver).2.rename g) := by
  unfold bindMethod
  rw [bindThis_rename]
  simp only [newFunction_rename]

@[simp] theorem functionName_rename (f : FunctionId) :
    (h.rename g).functionName f = h.functionName f := by
  rw [functionName, function?_rename, functionName]
  cases h.function? f with
  | none => rfl
  | some closure => simp [Closure.rename]

@[simp] theorem className_rename (c : ClassId) : (h.rename g).className c = h.className c := by
  rw [className, class?_rename, className]
  cases h.class? c <;> rfl

@[simp] theorem textOf_rename (v : Value) : (h.rename g).textOf v = h.textOf v := by
  cases v with
  | bool b => cases b <;> rfl
  | function f => simp [textOf]
  | classValue c => simp [textOf]
  | object o => simp [textOf]
  | _ => rfl

@[simp] theorem arity?_rename (v : Value) : (h.rename g).arity? v = h.arity? v := by
  have harity (f : Option Closure) : ((f.map (Closure.rename g)).map (·.decl.arity)).getD 0 =
      (f.map (·.decl.arity)).getD 0 := by
    cases f <;> simp [Closure.rename, FunctionDecl.arity]
  cases v with
  | function f => rw [arity?, function?_rename, harity, arity?]
  | classValue c => rw [arity?, initializer?, method?_rename, harity, arity?, initializer?]
  | _ => rfl

end Heap

namespace Machine

variable {d : Depths} {m : Machine} {fs : List Frame}

@[simp] theorem finish_rename (r : Except RuntimeError Value) :
    (m.rename g d).finish (fs.map (Frame.rename g)) r = (m.finish fs r).rename g d := by
  cases r <;> rfl

theorem finishProperty_rename (r : Except RuntimeError (Value × Property)) :
    (m.rename g d).finishProperty (fs.map (Frame.rename g))
      (r.map fun found => (found.1, found.2.rename g)) = (m.finishProperty fs r).rename g d := by
  rcases r with e | ⟨receiver, value | f⟩
  · rfl
  · rfl
  · change finishProperty _ _ (.ok (receiver, .method (f.rename g))) = _
    rw [finishProperty, finishProperty, show (m.rename g d).heap = m.heap.rename g from rfl,
      Heap.bindMethod_rename]
    rfl

theorem property_rename (v : Value) (name : Token) :
    (m.rename g d).property v name =
      (m.property v name).map fun found => (found.1, found.2.rename g) := by
  cases v with
  | object o =>
    simp only [property, rename, Heap.property?_rename]
    cases m.heap.property? o name.lexeme <;> rfl
  | _ => rfl

theorem runBlock_rename (fs : List Frame) (outer : EnvironmentId) (body : List Stmt) :
    (m.rename g d).runBlock (fs.map (Frame.rename g)) outer
      (body.map (Stmt.relabel (.ofNodes g))) = (m.runBlock fs outer body).rename g d := by
  cases body <;> rfl

theorem foldl_define_rename (h : Heap) (scope : EnvironmentId) (entries : List (Token × Value)) :
    entries.foldl (fun heap entry => heap.define scope entry.1.lexeme entry.2) (h.rename g) =
      (entries.foldl (fun heap entry => heap.define scope entry.1.lexeme entry.2) h).rename g := by
  induction entries generalizing h with
  | nil => rfl
  | cons entry rest ih => exact ih (h.define scope entry.1.lexeme entry.2)

theorem enter_rename (fs : List Frame) (f : Closure) (arguments : List Value) (result : CallResult) :
    (m.rename g d).enter (fs.map (Frame.rename g)) (f.rename g) arguments result =
      (m.enter fs f arguments result).rename g d := by
  have hparams : (f.rename g).decl.params = f.decl.params := by simp [Closure.rename]
  have hbody : (f.rename g).decl.body = f.decl.body.map (Stmt.relabel (.ofNodes g)) := by
    simp [Closure.rename]
  have hheap := foldl_define_rename (g := g) (m.heap.child f.scope).2 (m.heap.child f.scope).1
    (f.decl.params.zip arguments)
  unfold enter
  rw [hparams, hbody]
  exact (congrArg (fun heap => runBlock
    ⟨heap, (m.heap.child f.scope).1, d, m.printed, m.callDepth + 1, m.maxCallDepth, m.now⟩
    (.call result :: fs.map (Frame.rename g)) m.environment
    (f.decl.body.map (Stmt.relabel (.ofNodes g)))) hheap).trans (runBlock_rename
      (m := ⟨_, (m.heap.child f.scope).1, m.depths, m.printed, m.callDepth + 1, m.maxCallDepth,
        m.now⟩) (.call result :: fs) m.environment f.decl.body)

theorem callFunction_rename (f : FunctionId) (arguments : List Value) :
    (m.rename g d).callFunction (fs.map (Frame.rename g)) f arguments =
      (m.callFunction fs f arguments).rename g d := by
  simp only [callFunction, show (m.rename g d).heap = m.heap.rename g from rfl,
    Heap.function?_rename]
  cases m.heap.function? f with
  | none => rfl
  | some closure => exact enter_rename fs closure arguments _

theorem callClass_rename (c : ClassId) (arguments : List Value) :
    (m.rename g d).callClass (fs.map (Frame.rename g)) c arguments =
      (m.callClass fs c arguments).rename g d := by
  simp only [callClass, show (m.rename g d).heap = m.heap.rename g from rfl, Heap.initializer?,
    Heap.method?_rename]
  cases m.heap.method? c "init" with
  | none => rfl
  | some method =>
    exact enter_rename (m := { m with
      heap := ((m.heap.newObject ⟨c, Bindings.empty⟩).2.bindThis method
        (.object (m.heap.newObject ⟨c, Bindings.empty⟩).1)).2 })
      fs ((m.heap.newObject ⟨c, Bindings.empty⟩).2.bindThis method
        (.object (m.heap.newObject ⟨c, Bindings.empty⟩).1)).1 arguments
      (.object (m.heap.newObject ⟨c, Bindings.empty⟩).1)

theorem call_rename (callee : Value) (paren : Token) (arguments : List Value) :
    (m.rename g d).call (fs.map (Frame.rename g)) callee paren arguments =
      (m.call fs callee paren arguments).rename g d := by
  simp only [call, show (m.rename g d).heap = m.heap.rename g from rfl, Heap.arity?_rename]
  cases m.heap.arity? callee with
  | none => rfl
  | some arity =>
    simp only
    split
    · rfl
    split
    · rename_i hdepth
      rw [if_pos (show m.maxCallDepth ≤ m.callDepth from hdepth)]
      rfl
    · rename_i hdepth
      rw [if_neg (show ¬m.maxCallDepth ≤ m.callDepth from hdepth)]
      cases callee with
      | function f => exact callFunction_rename f arguments
      | classValue c => exact callClass_rename c arguments
      | native f => cases f; rfl
      | _ => rfl

theorem evaluateArguments_rename (callee : Value) (paren : Token) (done : Array Value)
    (rest : List Expr) :
    (m.rename g d).evaluateArguments (fs.map (Frame.rename g)) callee paren done
      (rest.map (Expr.relabel (.ofNodes g))) =
        (m.evaluateArguments fs callee paren done rest).rename g d := by
  cases rest with
  | nil => exact call_rename callee paren done.toList
  | cons e rest => rfl

theorem declareFunction_rename (decl : FunctionDecl) :
    (m.rename g d).declareFunction (decl.relabel (.ofNodes g)) =
      (m.declareFunction decl).rename g d := by
  have h := m.heap.newFunction_rename (g := g) ⟨decl, m.environment, false⟩
  unfold declareFunction
  rw [FunctionDecl.relabel_name, Token.relabel_ofNodes]
  exact congrArg (fun made : FunctionId × Heap => ({ m.rename g d with
    heap := made.2.define m.environment decl.name.lexeme (.function made.1) } : Machine)) h

theorem methodScope_rename (c : Option ClassId) :
    (m.rename g d).methodScope c = ((m.methodScope c).1, (m.methodScope c).2.rename g) := by
  cases c <;> rfl

theorem methodTable_rename (scope : EnvironmentId) (methods : List FunctionDecl) :
    methodTable scope (methods.map (FunctionDecl.relabel (.ofNodes g))) =
      (methodTable scope methods).map (Closure.rename g) := by
  rw [methodTable, methodTable, Bindings.map_ofList, List.map_map, List.map_map]
  congr 1
  refine List.map_congr_left fun decl _ => ?_
  simp [Closure.rename]

theorem declareClass_rename (name : Token) (c : Option ClassId) (methods : List FunctionDecl) :
    (m.rename g d).declareClass name c (methods.map (FunctionDecl.relabel (.ofNodes g))) =
      (m.declareClass name c methods).rename g d := by
  unfold declareClass
  simp only [show (m.rename g d).define name.lexeme .nil = (m.define name.lexeme .nil).rename g d
    from rfl, methodScope_rename, methodTable_rename]
  generalize m.define name.lexeme .nil = m
  have h := (m.methodScope c).2.newClass_rename (g := g)
    ⟨name.lexeme, c, methodTable (m.methodScope c).1 methods⟩
  exact congrArg (fun made : ClassId × Heap => ({ m.rename g d with
    heap := made.2.define m.environment name.lexeme (.classValue made.1) } : Machine)) h

section

variable (hd : m.depths.Renames g d)

include hd

theorem holder?_rename (target : Reference) :
    (m.rename g d).holder? (target.relabel (.ofNodes g)) = m.holder? target := by
  unfold holder?
  rw [show (m.rename g d).depths.get? (target.relabel (.ofNodes g)).node =
    m.depths.get? target.node from hd target.node]
  cases m.depths.get? target.node with
  | none => exact m.heap.holder?_rename _ _
  | some depth => exact m.heap.holderAt?_rename _ _ _

theorem read_rename (target : Reference) :
    (m.rename g d).read (target.relabel (.ofNodes g)) = m.read target := by
  unfold read
  rw [holder?_rename hd]
  rfl

theorem inherited_rename (keyword : Reference) (method : Token) :
    (m.rename g d).inherited (keyword.relabel (.ofNodes g)) method =
      (m.inherited keyword method).map fun found => (found.1, found.2.rename g) := by
  have hreceiver (depth : Nat) : (m.rename g d).receiverAt? depth = m.receiverAt? depth := by
    cases depth with
    | zero => rfl
    | succ depth => exact m.heap.getAt?_rename _ _ _
  unfold inherited
  rw [show (m.rename g d).depths.get? (keyword.relabel (.ofNodes g)).node =
    m.depths.get? keyword.node from hd keyword.node]
  cases m.depths.get? keyword.node with
  | none => rfl
  | some depth =>
    simp only [hreceiver, show (m.rename g d).heap = m.heap.rename g from rfl,
      show (m.rename g d).environment = m.environment from rfl, Heap.getAt?_rename,
      Heap.method?_rename, Reference.relabel_name, Token.relabel_ofNodes]
    rcases m.heap.getAt? m.environment depth "super" with _ | v
    · rfl
    cases v with
    | classValue superclass =>
      simp only
      cases m.receiverAt? depth with
      | none => rfl
      | some receiver => cases m.heap.method? superclass method.lexeme <;> rfl
    | _ => rfl

theorem superclass_rename (target : Option Reference) :
    (m.rename g d).superclass (target.map (Reference.relabel (.ofNodes g))) =
      m.superclass target := by
  cases target with
  | none => rfl
  | some target =>
    simp only [Option.map_some, superclass, read_rename hd]
    rfl

theorem finishAssign_rename (target : Reference) (v : Value) :
    (m.rename g d).finishAssign (fs.map (Frame.rename g)) (target.relabel (.ofNodes g)) v =
      (m.finishAssign fs target v).rename g d := by
  unfold finishAssign
  rw [holder?_rename hd]
  cases m.holder? target <;> rfl

theorem evaluate_rename (e : Expr) :
    (m.rename g d).evaluate (fs.map (Frame.rename g)) (e.relabel (.ofNodes g)) =
      (m.evaluate fs e).rename g d := by
  cases e with
  | «variable» r =>
    rw [Expr.relabel, evaluate, read_rename hd, finish_rename, evaluate]
  | receiver r =>
    rw [Expr.relabel, evaluate, read_rename hd, finish_rename, evaluate]
  | inherited r method =>
    rw [Expr.relabel, evaluate, Token.relabel_ofNodes, inherited_rename hd,
      finishProperty_rename, evaluate]
  | call e paren es =>
    rw [Expr.relabel, Expr.relabelAll_eq_map]
    rfl
  | _ => rfl

theorem execute_rename (s : Stmt) :
    (m.rename g d).execute (fs.map (Frame.rename g)) (s.relabel (.ofNodes g)) =
      (m.execute fs s).rename g d := by
  cases s with
  | varDecl t e => cases e <;> rfl
  | block body =>
    rw [Stmt.relabel, Stmt.relabelAll_eq_map]
    exact runBlock_rename (m := { m with
      heap := (m.heap.child m.environment).2
      environment := (m.heap.child m.environment).1 }) fs m.environment body
  | function decl =>
    rw [Stmt.relabel, execute, declareFunction_rename]
    rfl
  | classDecl t r methods =>
    rw [Stmt.relabel, FunctionDecl.relabelAll_eq_map, execute, superclass_rename hd, execute]
    cases m.superclass r with
    | error e => rfl
    | ok c =>
      simp only [Token.relabel_ofNodes, declareClass_rename]
      rfl
  | returning t e => cases e <;> rfl
  | _ => rfl

theorem resumeValue_rename (v : Value) (frame : Frame) :
    (m.rename g d).resumeValue (fs.map (Frame.rename g)) v (frame.rename g) =
      (m.resumeValue fs v frame).rename g d := by
  cases frame with
  | unary t => exact finish_rename _
  | binaryRight left t => exact finish_rename _
  | logical t right =>
    simp only [Frame.rename, resumeValue]
    split <;> rfl
  | assign r => exact finishAssign_rename hd r v
  | callee t es => exact evaluateArguments_rename v t #[] es
  | argument f t done rest => exact evaluateArguments_rename f t (done.push v) rest
  | get t => exact (congrArg _ (property_rename v t)).trans (finishProperty_rename _)
  | setObject t e => cases v <;> rfl
  | print =>
    simp only [Frame.rename, resumeValue, show (m.rename g d).heap = m.heap.rename g from rfl,
      Heap.textOf_rename]
    rfl
  | branch s alternative =>
    simp only [Frame.rename, resumeValue]
    split
    · rfl
    · cases alternative <;> rfl
  | loopTest loop =>
    simp only [Frame.rename, resumeValue]
    split <;> rfl
  | _ => rfl

theorem resume_rename (frame : Frame) (c : Completion) :
    (m.rename g d).resume (fs.map (Frame.rename g)) (frame.rename g) c =
      (m.resume fs frame c).rename g d := by
  have hafter (l : Loop) : (m.rename g d).afterBody (fs.map (Frame.rename g)) (l.rename g) =
      (m.afterBody fs l).rename g d := by
    obtain ⟨condition, body, increment⟩ := l
    cases increment <;> rfl
  have hcall (result : CallResult) :
      (m.rename g d).callValue result c = m.callValue result c := by
    unfold callValue
    rw [show (m.rename g d).heap = m.heap.rename g from rfl]
    simp only [Heap.getAt?_rename]
  have hvalue (v : Value) : (m.rename g d).resumeValue (fs.map (Frame.rename g)) v
      (frame.rename g) = (m.resumeValue fs v frame).rename g d := resumeValue_rename hd v frame
  cases frame with
  | block rest outer =>
    cases c with
    | normal => exact runBlock_rename fs outer rest
    | _ => rfl
  | call result =>
    cases c with
    | failed e => rfl
    | _ =>
      simp only [Frame.rename, resume, hcall]
      rfl
  | loopBody l =>
    cases c with
    | normal => exact hafter l
    | continued => exact hafter l
    | _ => rfl
  | _ =>
    cases c with
    | value v => exact hvalue v
    | _ => rfl

end

end Machine

namespace Config

variable {d : Depths}

/-- A machine with renamed programs takes the renamed steps. -/
theorem step_rename {c : Config} (hd : c.machine.depths.Renames g d) :
    (c.rename g d).step = c.step.rename g d := by
  obtain ⟨m, control, fs⟩ := c
  cases control with
  | eval e => exact Machine.evaluate_rename hd e
  | exec s => exact Machine.execute_rename hd s
  | done c =>
    cases fs with
    | nil => rfl
    | cons frame fs => exact Machine.resume_rename hd frame c

theorem iterate_rename (count : Nat) : ∀ {c : Config}, c.machine.depths.Renames g d →
    step^[count] (c.rename g d) = (step^[count] c).rename g d := by
  induction count with
  | zero => exact fun _ => rfl
  | succ count ih =>
    intro c hd
    rw [Function.iterate_succ_apply, Function.iterate_succ_apply, step_rename hd]
    exact ih (by rwa [depths_step])

theorem ended?_rename (c : Config) : (c.rename g d).ended? =
    c.ended?.map fun ended => (ended.1, ended.2.rename g d) := by
  obtain ⟨m, control, fs⟩ := c
  cases control <;> cases fs <;> rfl

theorem runUpTo_rename (steps : Nat) {c : Config} (hd : c.machine.depths.Renames g d) :
    (c.rename g d).runUpTo steps =
      (c.runUpTo steps).map fun ended => (ended.1, ended.2.rename g d) := by
  rw [runUpTo_eq, runUpTo_eq, iterate_rename steps hd, ended?_rename]

end Config

theorem Machine.exec?_rename {m : Machine} {d : Depths} (hd : m.depths.Renames g d) (steps : Nat)
    (s : Stmt) : (m.rename g d).exec? steps (s.relabel (.ofNodes g)) =
      (m.exec? steps s).map fun ended => (ended.1, ended.2.rename g d) :=
  Config.runUpTo_rename steps (c := ⟨m, .exec s, []⟩) hd

end Lox
