import Lox.Value

/-! The heap: everything that outlives the statement that made it.

Things are only ever added. An environment is nested in an older one and a class derives from an
older one, so a walk along either chain is never longer than the heap is large. -/

namespace Lox

/-- What the name of a property stands for. -/
inductive Property where
  | field (value : Value)
  | method (f : Closure)

structure Heap where
  environments : Array Environment
  functions : Array Closure
  classes : Array Class
  objects : Array Object

namespace Heap

def globals : EnvironmentId := ⟨0⟩

/-- A heap with one environment, the globals, and the given bindings in it. -/
def withGlobals (bindings : Bindings Value) : Heap := ⟨#[⟨bindings, none⟩], #[], #[], #[]⟩

def environment? (h : Heap) (e : EnvironmentId) : Option Environment := h.environments[e.index]?

def function? (h : Heap) (f : FunctionId) : Option Closure := h.functions[f.index]?

def class? (h : Heap) (c : ClassId) : Option Class := h.classes[c.index]?

def object? (h : Heap) (o : ObjectId) : Option Object := h.objects[o.index]?

def newEnvironment (h : Heap) (e : Environment) : EnvironmentId × Heap :=
  (⟨h.environments.size⟩, { h with environments := h.environments.push e })

def newFunction (h : Heap) (f : Closure) : FunctionId × Heap :=
  (⟨h.functions.size⟩, { h with functions := h.functions.push f })

def newClass (h : Heap) (c : Class) : ClassId × Heap :=
  (⟨h.classes.size⟩, { h with classes := h.classes.push c })

def newObject (h : Heap) (o : Object) : ObjectId × Heap :=
  (⟨h.objects.size⟩, { h with objects := h.objects.push o })

/-- An environment without bindings, nested in `e`. -/
def child (h : Heap) (e : EnvironmentId) : EnvironmentId × Heap :=
  h.newEnvironment ⟨Bindings.empty, some e⟩

/-- Binds a name in an environment, whether or not it is bound there already. -/
def define (h : Heap) (e : EnvironmentId) (name : String) (value : Value) : Heap :=
  { h with environments := h.environments.modify e.index fun environment =>
      { environment with bindings := environment.bindings.insert name value } }

/-- The environment exactly `distance` links out from `e`. -/
def ancestor? (h : Heap) (e : EnvironmentId) : Nat → Option EnvironmentId
  | 0 => some e
  | distance + 1 =>
    match (h.environment? e).bind (·.enclosing) with
    | some outer => h.ancestor? outer distance
    | none => none

/-- What an environment itself binds a name to. -/
def local? (h : Heap) (e : EnvironmentId) (name : String) : Option Value :=
  (h.environment? e).bind (·.bindings.get? name)

def binds (h : Heap) (e : EnvironmentId) (name : String) : Bool := (h.local? e name).isSome

/-- The environment exactly `distance` links out from `e`, if it binds a name. -/
def holderAt? (h : Heap) (e : EnvironmentId) (distance : Nat) (name : String) :
    Option EnvironmentId :=
  (h.ancestor? e distance).filter (h.binds · name)

def holderUpTo? (h : Heap) (name : String) : Nat → EnvironmentId → Option EnvironmentId
  | 0, _ => none
  | count + 1, e =>
    if h.binds e name then some e
    else
      match (h.environment? e).bind (·.enclosing) with
      | some outer => h.holderUpTo? name count outer
      | none => none

/-- The nearest environment from `e` outwards that binds a name. -/
def holder? (h : Heap) (e : EnvironmentId) (name : String) : Option EnvironmentId :=
  h.holderUpTo? name h.environments.size e

def getAt? (h : Heap) (e : EnvironmentId) (distance : Nat) (name : String) : Option Value :=
  (h.holderAt? e distance name).bind (h.local? · name)

def get? (h : Heap) (e : EnvironmentId) (name : String) : Option Value :=
  (h.holder? e name).bind (h.local? · name)

/-- Gives a new value to a name that is bound at the given distance. -/
def assignAt? (h : Heap) (e : EnvironmentId) (distance : Nat) (name : String) (value : Value) :
    Option Heap :=
  (h.holderAt? e distance name).map (h.define · name value)

/-- Gives a new value to a name where it is bound nearest. -/
def assign? (h : Heap) (e : EnvironmentId) (name : String) (value : Value) : Option Heap :=
  (h.holder? e name).map (h.define · name value)

def methodUpTo? (h : Heap) (name : String) : Nat → ClassId → Option Closure
  | 0, _ => none
  | count + 1, c =>
    match h.class? c with
    | none => none
    | some cls =>
      match cls.methods.get? name with
      | some method => some method
      | none =>
        match cls.superclass with
        | some superclass => h.methodUpTo? name count superclass
        | none => none

/-- The method of the nearest class from `c` up the chain of superclasses. -/
def method? (h : Heap) (c : ClassId) (name : String) : Option Closure :=
  h.methodUpTo? name h.classes.size c

def initializer? (h : Heap) (c : ClassId) : Option Closure := h.method? c "init"

/-- A method whose `this` is the given value. -/
def bindThis (h : Heap) (method : Closure) (receiver : Value) : Closure × Heap :=
  let (scope, h) := h.child method.scope
  (⟨method.decl, scope, method.isInitializer⟩, h.define scope "this" receiver)

/-- A bound method as a value of its own. -/
def bindMethod (h : Heap) (method : Closure) (receiver : Value) : Value × Heap :=
  let (bound, h) := h.bindThis method receiver
  let (f, h) := h.newFunction bound
  (.function f, h)

/-- What a property name leads to: a field, which hides a method of the same name, or a method that
is not bound to its receiver yet. -/
def property? (h : Heap) (o : ObjectId) (name : String) : Option Property :=
  match h.object? o with
  | none => none
  | some object =>
    match object.fields.get? name with
    | some value => some (.field value)
    | none => (h.method? object.ofClass name).map .method

def setField (h : Heap) (o : ObjectId) (name : String) (value : Value) : Heap :=
  { h with objects := h.objects.modify o.index fun object =>
      { object with fields := object.fields.insert name value } }

def functionName (h : Heap) (f : FunctionId) : String :=
  ((h.function? f).map (·.decl.name.lexeme)).getD ""

def className (h : Heap) (c : ClassId) : String := ((h.class? c).map (·.name)).getD ""

/-- How many arguments a value takes; `none` if it cannot be called. -/
def arity? (h : Heap) : Value → Option Nat
  | .native f => some f.arity
  | .function f => some (((h.function? f).map (·.decl.arity)).getD 0)
  | .classValue c => some (((h.initializer? c).map (·.decl.arity)).getD 0)
  | _ => none

/-- The text that `print` writes for a value. -/
def textOf (h : Heap) : Value → String
  | .nil => "nil"
  | .bool true => "true"
  | .bool false => "false"
  | .number value => value.text
  | .string contents => contents
  | .native _ => "<native fn>"
  | .function f => "<fn " ++ h.functionName f ++ ">"
  | .classValue c => h.className c
  | .object o => ((h.object? o).map (h.className ·.ofClass)).getD "" ++ " instance"

end Heap

end Lox
