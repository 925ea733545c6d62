import Lox.Heap
import Lox.Operator
import Lox.Scope.Depths

/-! The abstract machine that runs programs.

A configuration is the state of the machine, what it is about to do, and a stack of frames that say
what is done with the result. Statements and expressions report how they completed; a completion
that a frame has no use for, such as a failure, goes on to the next frame, and the frames that
entered a scope or a call leave it again whatever the completion is. Nothing but the stack of
frames grows with the nesting of calls. -/

namespace Lox

structure Machine where
  heap : Heap
  environment : EnvironmentId
  depths : Depths
  printed : Array String
  callDepth : Nat
  maxCallDepth : Nat
  /-- What the clock shows at each of the readings to come, in seconds. -/
  now : Nat → Number

/-- A clock that stands still. -/
instance : Coe Number (Nat → Number) := ⟨fun reading _ => reading⟩

/-- How an expression or a statement came to its end. -/
inductive Completion where
  | value (v : Value)
  | normal
  | returned (v : Value)
  | broken
  | continued
  | failed (e : RuntimeError)
  deriving DecidableEq, Repr

/-- What a call gives when its body is done: what the body returned, the receiver of an
initializer, or the object under construction. -/
inductive CallResult where
  | returned
  | receiver (scope : EnvironmentId)
  | object (o : ObjectId)
  deriving DecidableEq, Repr

structure Loop where
  condition : Expr
  body : Stmt
  increment : Option Expr

inductive Frame where
  | unary (operator : Token)
  | binaryLeft (operator : Token) (right : Expr)
  | binaryRight (left : Value) (operator : Token)
  | logical (operator : Token) (right : Expr)
  | assign (target : Reference)
  | callee (paren : Token) (arguments : List Expr)
  | argument (callee : Value) (paren : Token) (done : Array Value) (rest : List Expr)
  | get (name : Token)
  | setObject (name : Token) (value : Expr)
  | setValue (object : ObjectId) (name : Token)
  | discard
  | print
  | varDecl (name : Token)
  | branch (consequent : Stmt) (alternative : Option Stmt)
  | returning
  | loopTest (loop : Loop)
  | loopBody (loop : Loop)
  | loopStep (loop : Loop)
  | block (rest : List Stmt) (outer : EnvironmentId)
  | call (result : CallResult)

inductive Control where
  | eval (e : Expr)
  | exec (s : Stmt)
  | done (c : Completion)

structure Config where
  machine : Machine
  control : Control
  frames : List Frame

/-- The deepest nesting of calls for a stack of the given size in bytes. -/
def maxCallDepthForStack (bytes : Nat) : Nat := max 1 (bytes / 65536)

def defaultMaxCallDepth : Nat := maxCallDepthForStack (256 * 1024 * 1024)

namespace Machine

def initial (now : Nat → Number) : Machine where
  heap := Heap.withGlobals (Bindings.ofList (Native.all.map fun f => (f.name, .native f)))
  environment := Heap.globals
  depths := Depths.empty
  printed := #[]
  callDepth := 0
  maxCallDepth := defaultMaxCallDepth
  now := now

def define (m : Machine) (name : String) (value : Value) : Machine :=
  { m with heap := m.heap.define m.environment name value }

/-- Reads the clock; the later readings are left to the machine. -/
def readClock (m : Machine) : Number × Machine :=
  (m.now 0, { m with now := fun reading => m.now (reading + 1) })

/-- The environment that holds the variable of an occurrence. A recorded depth leads to exactly one
environment; without one, only the globals count. -/
def holder? (m : Machine) (target : Reference) : Option EnvironmentId :=
  match m.depths.get? target.node with
  | some depth => m.heap.holderAt? m.environment depth target.name.lexeme
  | none => m.heap.holder? Heap.globals target.name.lexeme

def read (m : Machine) (target : Reference) : Except RuntimeError Value :=
  match (m.holder? target).bind (m.heap.local? · target.name.lexeme) with
  | some value => .ok value
  | none => .error (undefinedVariable target.name)

/-- The receiver is bound one scope nearer than the superclass. -/
def receiverAt? (m : Machine) : Nat → Option Value
  | 0 => none
  | depth + 1 => m.heap.getAt? m.environment depth "this"

/-- A method of the superclass and the receiver to bind it to. -/
def inherited (m : Machine) (keyword : Reference) (method : Token) :
    Except RuntimeError (Value × Property) :=
  match m.depths.get? keyword.node with
  | none => .error ⟨keyword.name, .superWithoutClass⟩
  | some depth =>
    match m.heap.getAt? m.environment depth "super" with
    | some (.classValue superclass) =>
      match m.receiverAt? depth with
      | none => .error ⟨keyword.name, .superWithoutReceiver⟩
      | some receiver =>
        match m.heap.method? superclass method.lexeme with
        | some found => .ok (receiver, .method found)
        | none => .error (undefinedProperty method)
    | _ => .error ⟨keyword.name, .superclassNotClass⟩

def property (m : Machine) (object : Value) (name : Token) :
    Except RuntimeError (Value × Property) :=
  match object with
  | .object o =>
    match m.heap.property? o name.lexeme with
    | some found => .ok (object, found)
    | none => .error (undefinedProperty name)
  | _ => .error ⟨name, .propertyOfNonObject⟩

def superclass (m : Machine) : Option Reference → Except RuntimeError (Option ClassId)
  | none => .ok none
  | some target =>
    match m.read target with
    | .ok (.classValue c) => .ok (some c)
    | .ok _ => .error ⟨target.name, .superclassNotClass⟩
    | .error e => .error e

def declareFunction (m : Machine) (decl : FunctionDecl) : Machine :=
  let (f, heap) := m.heap.newFunction ⟨decl, m.environment, false⟩
  { m with heap := heap.define m.environment decl.name.lexeme (.function f) }

/-- The scope of the methods of a class; only a subclass has one of its own, for `super`. -/
def methodScope (m : Machine) : Option ClassId → EnvironmentId × Heap
  | none => (m.environment, m.heap)
  | some c =>
    let (scope, heap) := m.heap.child m.environment
    (scope, heap.define scope "super" (.classValue c))

def methodTable (scope : EnvironmentId) (methods : List FunctionDecl) : Bindings Closure :=
  Bindings.ofList (methods.map fun f => (f.name.lexeme, ⟨f, scope, f.isInitializer⟩))

/-- The name of a class is bound to `nil` until the class is there. -/
def declareClass (m : Machine) (name : Token) (superclass : Option ClassId)
    (methods : List FunctionDecl) : Machine :=
  let m := m.define name.lexeme .nil
  let (scope, heap) := m.methodScope superclass
  let (c, heap) := heap.newClass ⟨name.lexeme, superclass, methodTable scope methods⟩
  { m with heap := heap.define m.environment name.lexeme (.classValue c) }

end Machine

end Lox
