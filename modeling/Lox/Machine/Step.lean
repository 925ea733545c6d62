import Lox.Machine

/-! One step of the machine, and runs of many. -/

namespace Lox

namespace Machine

def finish (m : Machine) (frames : List Frame) : Except RuntimeError Value → Config
  | .ok value => ⟨m, .done (.value value), frames⟩
  | .error e => ⟨m, .done (.failed e), frames⟩

/-- Gives the value of a property; a method is bound to its receiver anew each time. -/
def finishProperty (m : Machine) (frames : List Frame) :
    Except RuntimeError (Value × Property) → Config
  | .ok (_, .field value) => ⟨m, .done (.value value), frames⟩
  | .ok (receiver, .method f) =>
    let (value, heap) := m.heap.bindMethod f receiver
    ⟨{ m with heap := heap }, .done (.value value), frames⟩
  | .error e => ⟨m, .done (.failed e), frames⟩

/-- Writes to the variable of an occurrence. -/
def finishAssign (m : Machine) (frames : List Frame) (target : Reference) (value : Value) :
    Config :=
  match m.holder? target with
  | some e =>
    ⟨{ m with heap := m.heap.define e target.name.lexeme value }, .done (.value value), frames⟩
  | none => ⟨m, .done (.failed (undefinedVariable target.name)), frames⟩

/-- Runs statements in the current scope and leaves it for `outer` at the end. -/
def runBlock (m : Machine) (frames : List Frame) (outer : EnvironmentId) : List Stmt → Config
  | [] => ⟨{ m with environment := outer }, .done .normal, frames⟩
  | s :: rest => ⟨m, .exec s, .block rest outer :: frames⟩

/-- Runs the body of a function in a new scope that binds its parameters. -/
def enter (m : Machine) (frames : List Frame) (f : Closure) (arguments : List Value)
    (result : CallResult) : Config :=
  let outer := m.environment
  let (scope, heap) := m.heap.child f.scope
  let heap := (f.decl.params.zip arguments).foldl
    (fun heap entry => heap.define scope entry.1.lexeme entry.2) heap
  let inside := { m with heap := heap, environment := scope, callDepth := m.callDepth + 1 }
  inside.runBlock (.call result :: frames) outer f.decl.body

def callFunction (m : Machine) (frames : List Frame) (f : FunctionId) (arguments : List Value) :
    Config :=
  match m.heap.function? f with
  | some closure =>
    m.enter frames closure arguments
      (if closure.isInitializer then .receiver closure.scope else .returned)
  | none => ⟨m, .done (.value .nil), frames⟩

/-- Calling a class makes an object and runs its initializer, if there is one. -/
def callClass (m : Machine) (frames : List Frame) (c : ClassId) (arguments : List Value) :
    Config :=
  let initializer := m.heap.initializer? c
  let (o, heap) := m.heap.newObject ⟨c, Bindings.empty⟩
  match initializer with
  | none => ⟨{ m with heap := heap }, .done (.value (.object o)), frames⟩
  | some method =>
    let (bound, heap) := heap.bindThis method (.object o)
    { m with heap := heap }.enter frames bound arguments (.object o)

/-- A call that is refused starts nothing: the callee must be callable, the arguments must be as
many as it takes, and the calls in progress fewer than the limit. -/
def call (m : Machine) (frames : List Frame) (callee : Value) (paren : Token)
    (arguments : List Value) : Config :=
  let refuse fault := ⟨m, .done (.failed ⟨paren, fault⟩), frames⟩
  match m.heap.arity? callee with
  | none => refuse .notCallable
  | some arity =>
    if arguments.length ≠ arity then refuse (.wrongArgumentCount arity arguments.length)
    else if m.maxCallDepth ≤ m.callDepth then refuse .stackOverflow
    else
      match callee with
      | .native .clock =>
        let (now, m) := m.readClock
        ⟨m, .done (.value (.number now)), frames⟩
      | .function f => m.callFunction frames f arguments
      | .classValue c => m.callClass frames c arguments
      | _ => refuse .notCallable

/-- Goes on to the next argument, or to the call after the last one. -/
def evaluateArguments (m : Machine) (frames : List Frame) (callee : Value) (paren : Token)
    (done : Array Value) : List Expr → Config
  | [] => m.call frames callee paren done.toList
  | e :: rest => ⟨m, .eval e, .argument callee paren done rest :: frames⟩

def evaluate (m : Machine) (frames : List Frame) : Expr → Config
  | .constant value => ⟨m, .done (.value (.ofConstant value)), frames⟩
  | .group inner => ⟨m, .eval inner, frames⟩
  | .unary operator operand => ⟨m, .eval operand, .unary operator :: frames⟩
  | .binary left operator right => ⟨m, .eval left, .binaryLeft operator right :: frames⟩
  | .logical left operator right => ⟨m, .eval left, .logical operator right :: frames⟩
  | .variable target | .receiver target => m.finish frames (m.read target)
  | .assign target value => ⟨m, .eval value, .assign target :: frames⟩
  | .call callee paren arguments => ⟨m, .eval callee, .callee paren arguments :: frames⟩
  | .get object name => ⟨m, .eval object, .get name :: frames⟩
  | .set object name value => ⟨m, .eval object, .setObject name value :: frames⟩
  | .inherited keyword method => m.finishProperty frames (m.inherited keyword method)

def execute (m : Machine) (frames : List Frame) : Stmt → Config
  | .expression value => ⟨m, .eval value, .discard :: frames⟩
  | .print value => ⟨m, .eval value, .print :: frames⟩
  | .varDecl name none => ⟨m.define name.lexeme .nil, .done .normal, frames⟩
  | .varDecl name (some initializer) => ⟨m, .eval initializer, .varDecl name :: frames⟩
  | .block body =>
    let outer := m.environment
    let (scope, heap) := m.heap.child outer
    { m with heap := heap, environment := scope }.runBlock frames outer body
  | .ifThen condition consequent => ⟨m, .eval condition, .branch consequent none :: frames⟩
  | .ifElse condition consequent alternative =>
    ⟨m, .eval condition, .branch consequent (some alternative) :: frames⟩
  | .loop condition body increment =>
    ⟨m, .eval condition, .loopTest ⟨condition, body, increment⟩ :: frames⟩
  | .function decl => ⟨m.declareFunction decl, .done .normal, frames⟩
  | .classDecl name superclass methods =>
    match m.superclass superclass with
    | .ok c => ⟨m.declareClass name c methods, .done .normal, frames⟩
    | .error e => ⟨m, .done (.failed e), frames⟩
  | .returning _ none => ⟨m, .done (.returned .nil), frames⟩
  | .returning _ (some value) => ⟨m, .eval value, .returning :: frames⟩
  | .breaking _ => ⟨m, .done .broken, frames⟩
  | .continuing _ => ⟨m, .done .continued, frames⟩

/-- A loop whose body or increment is done tests its condition again. -/
def testAgain (m : Machine) (frames : List Frame) (loop : Loop) : Config :=
  ⟨m, .eval loop.condition, .loopTest loop :: frames⟩

def afterBody (m : Machine) (frames : List Frame) (loop : Loop) : Config :=
  match loop.increment with
  | some increment => ⟨m, .eval increment, .loopStep loop :: frames⟩
  | none => m.testAgain frames loop

def callValue (m : Machine) (result : CallResult) (c : Completion) : Value :=
  match result, c with
  | .returned, .returned value => value
  | .returned, _ => .nil
  | .receiver scope, _ => (m.heap.getAt? scope 0 "this").getD .nil
  | .object o, _ => .object o

def resumeValue (m : Machine) (frames : List Frame) (value : Value) : Frame → Config
  | .unary operator => m.finish frames (Operator.unary operator value)
  | .binaryLeft operator right => ⟨m, .eval right, .binaryRight value operator :: frames⟩
  | .binaryRight left operator => m.finish frames (Operator.binary operator left value)
  | .logical operator right =>
    if Operator.decides operator value then ⟨m, .done (.value value), frames⟩
    else ⟨m, .eval right, frames⟩
  | .assign target => m.finishAssign frames target value
  | .callee paren arguments => m.evaluateArguments frames value paren #[] arguments
  | .argument callee paren done rest =>
    m.evaluateArguments frames callee paren (done.push value) rest
  | .get name => m.finishProperty frames (m.property value name)
  | .setObject name e =>
    match value with
    | .object o => ⟨m, .eval e, .setValue o name :: frames⟩
    | _ => ⟨m, .done (.failed ⟨name, .fieldOfNonObject⟩), frames⟩
  | .setValue o name =>
    ⟨{ m with heap := m.heap.setField o name.lexeme value }, .done (.value value), frames⟩
  | .discard => ⟨m, .done .normal, frames⟩
  | .print =>
    let text := m.heap.textOf value
    ⟨{ m with printed := m.printed.push text }, .done .normal, frames⟩
  | .varDecl name => ⟨m.define name.lexeme value, .done .normal, frames⟩
  | .branch consequent alternative =>
    if value.isTruthy then ⟨m, .exec consequent, frames⟩
    else
      match alternative with
      | some s => ⟨m, .exec s, frames⟩
      | none => ⟨m, .done .normal, frames⟩
  | .returning => ⟨m, .done (.returned value), frames⟩
  | .loopTest loop =>
    if value.isTruthy then ⟨m, .exec loop.body, .loopBody loop :: frames⟩
    else ⟨m, .done .normal, frames⟩
  | .loopStep loop => m.testAgain frames loop
  | .loopBody _ | .block _ _ | .call _ => ⟨m, .done (.value value), frames⟩

/-- What a frame does with a completion. -/
def resume (m : Machine) (frames : List Frame) (frame : Frame) (c : Completion) : Config :=
  match frame, c with
  | .block rest outer, .normal => m.runBlock frames outer rest
  | .block _ outer, c => ⟨{ m with environment := outer }, .done c, frames⟩
  | .call _, .failed e => ⟨{ m with callDepth := m.callDepth - 1 }, .done (.failed e), frames⟩
  | .call result, c =>
    let value := m.callValue result c
    ⟨{ m with callDepth := m.callDepth - 1 }, .done (.value value), frames⟩
  | .loopBody loop, .normal | .loopBody loop, .continued => m.afterBody frames loop
  | .loopBody _, .broken => ⟨m, .done .normal, frames⟩
  | frame, .value value => m.resumeValue frames value frame
  | _, c => ⟨m, .done c, frames⟩

end Machine

namespace Config

/-- A configuration that is done and has no frames left stays as it is. -/
def step : Config → Config
  | ⟨m, .eval e, frames⟩ => m.evaluate frames e
  | ⟨m, .exec s, frames⟩ => m.execute frames s
  | ⟨m, .done c, []⟩ => ⟨m, .done c, []⟩
  | ⟨m, .done c, frame :: frames⟩ => m.resume frames frame c

def runUpTo : Nat → Config → Option (Completion × Machine)
  | _, ⟨m, .done c, []⟩ => some (c, m)
  | 0, _ => none
  | steps + 1, c => runUpTo steps c.step

end Config

namespace Machine

/-- Runs a statement to its end; `none` if that takes more than the given number of steps. -/
def exec? (m : Machine) (steps : Nat) (s : Stmt) : Option (Completion × Machine) :=
  Config.runUpTo steps ⟨m, .exec s, []⟩

def eval? (m : Machine) (steps : Nat) (e : Expr) : Option (Completion × Machine) :=
  Config.runUpTo steps ⟨m, .eval e, []⟩

end Machine

end Lox
