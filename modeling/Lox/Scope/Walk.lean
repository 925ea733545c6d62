import Lox.Scope.Analysis

/-! The analysis as one walk that carries its state along.

Blocks, callables, classes and loops each change a part of the state on the way in and put it back
on the way out. What the walk meets it notes in order, and no error ends it. -/

namespace Lox

structure ScopeState where
  scopes : Scopes
  function : FunctionContext
  classKind : ClassContext
  loopDepth : Nat
  deriving DecidableEq, Repr

def ScopeState.fresh : ScopeState := ⟨[], .none, .none, 0⟩

/-- A part of the walk: what it makes of a state, and what it notes meanwhile. -/
def Walk := ScopeState → ScopeState × List ScopeNote

namespace Walk

def andThen (first second : Walk) : Walk := fun a =>
  let (b, before) := first a
  let (c, after) := second b
  (c, before ++ after)

instance : Append Walk := ⟨andThen⟩

def change (f : ScopeState → ScopeState) : Walk := fun a => (f a, [])

def note (f : ScopeState → List ScopeNote) : Walk := fun a => (a, f a)

def skip : Walk := note fun _ => []

def errorWhen (condition : ScopeState → Bool) (token : Token) (fault : ScopeFault) : Walk :=
  note fun a => ScopeNote.errorIf (condition a) token fault

def bind (target : Reference) : Walk := note fun a => [ScopeNote.ofReference a.scopes target]

def read (target : Reference) : Walk :=
  errorWhen (·.scopes.isIncomplete target.name.lexeme) target.name .readInOwnInitializer
    ++ bind target

def bindReceiver (keyword : Reference) : Walk := fun a =>
  if a.classKind = .none then (a, [.error ⟨keyword.name, .thisOutsideClass⟩])
  else bind keyword a

def bindInherited (keyword : Reference) : Walk :=
  errorWhen (·.classKind == .none) keyword.name .superOutsideClass
    ++ errorWhen (·.classKind == .root) keyword.name .superWithoutSuperclass ++ bind keyword

def declare (name : Token) : Walk :=
  errorWhen (·.scopes.isDeclared name.lexeme) name .alreadyDeclared
    ++ change fun a => { a with scopes := a.scopes.declare name.lexeme }

def define (name : String) : Walk := change fun a => { a with scopes := a.scopes.define name }

@[simp] theorem append_fst (f g : Walk) (a : ScopeState) : ((f ++ g) a).1 = (g (f a).1).1 := rfl

@[simp] theorem append_snd (f g : Walk) (a : ScopeState) :
    ((f ++ g) a).2 = (f a).2 ++ (g (f a).1).2 := rfl

@[simp] theorem change_fst (f : ScopeState → ScopeState) (a : ScopeState) :
    (change f a).1 = f a := rfl

@[simp] theorem change_snd (f : ScopeState → ScopeState) (a : ScopeState) :
    (change f a).2 = [] := rfl

theorem errorWhen_snd (condition : ScopeState → Bool) (token : Token) (fault : ScopeFault)
    (a : ScopeState) :
    (errorWhen condition token fault a).2 = ScopeNote.errorIf (condition a) token fault := rfl

theorem declare_fst (name : Token) (a : ScopeState) :
    (declare name a).1 = { a with scopes := a.scopes.declare name.lexeme } := rfl

theorem declare_snd (name : Token) (a : ScopeState) :
    (declare name a).2 = ScopeNote.ofDeclaration a.scopes name := List.append_nil _

theorem define_fst (name : String) (a : ScopeState) :
    (define name a).1 = { a with scopes := a.scopes.define name } := rfl

theorem define_snd (name : String) (a : ScopeState) : (define name a).2 = [] := rfl

/-- A scope of its own around a part of the walk. -/
def inScope (body : Walk) : Walk :=
  change (fun a => { a with scopes := Bindings.empty :: a.scopes }) ++ body
    ++ change fun a => { a with scopes := a.scopes.tail }

def inLoop (body : Walk) : Walk :=
  change (fun a => { a with loopDepth := a.loopDepth + 1 }) ++ body
    ++ change fun a => { a with loopDepth := a.loopDepth - 1 }

/-- The loops around a callable are not around its body. -/
def inCallable (kind : FunctionContext) (body : Walk) : Walk := fun a =>
  (change (fun b => { b with function := kind, loopDepth := 0 }) ++ inScope body
    ++ change fun b => { b with function := a.function, loopDepth := a.loopDepth }) a

def inClassKind (kind : ClassContext) : Walk := change fun a => { a with classKind := kind }

def inClass (body : Walk) : Walk := fun a =>
  (inClassKind .root ++ body ++ inClassKind a.classKind) a

/-- Methods stand in a scope for `this`, and in one for `super` around it if there is a
superclass. -/
def inheriting (name : Token) (superclass : Option Reference) (methods : Walk) : Walk :=
  match superclass with
  | none => inScope (define "this" ++ methods)
  | some target =>
    errorWhen (fun _ => target.name.lexeme == name.lexeme) target.name .inheritsFromItself
      ++ inClassKind .derived ++ read target
      ++ inScope (define "super" ++ inScope (define "this" ++ methods))

def parameters : List Token → Walk
  | [] => skip
  | p :: rest => declare p ++ define p.lexeme ++ parameters rest

end Walk

open Walk

mutual

def Expr.walk : Expr → Walk
  | .constant _ => skip
  | .group inner => inner.walk
  | .unary _ operand => operand.walk
  | .binary left _ right | .logical left _ right => left.walk ++ right.walk
  | .variable target => read target
  | .assign target value => value.walk ++ bind target
  | .call callee _ arguments => callee.walk ++ Expr.walkAll arguments
  | .get object _ => object.walk
  | .set object _ value => value.walk ++ object.walk
  | .receiver keyword => bindReceiver keyword
  | .inherited keyword _ => bindInherited keyword

def Expr.walkAll : List Expr → Walk
  | [] => skip
  | e :: rest => e.walk ++ Expr.walkAll rest

end

def Expr.walk? : Option Expr → Walk
  | none => skip
  | some e => e.walk

mutual

def Stmt.walk : Stmt → Walk
  | .expression value | .print value => value.walk
  | .varDecl name initializer =>
    declare name ++ Expr.walk? initializer ++ define name.lexeme
  | .block body => inScope (Stmt.walkAll body)
  | .ifThen condition consequent => condition.walk ++ consequent.walk
  | .ifElse condition consequent alternative =>
    condition.walk ++ consequent.walk ++ alternative.walk
  | .loop condition body increment =>
    condition.walk ++ inLoop body.walk ++ Expr.walk? increment
  | .function decl => declare decl.name ++ define decl.name.lexeme ++ decl.walk .function
  | .classDecl name superclass methods =>
    inClass (declare name ++ define name.lexeme
      ++ inheriting name superclass (FunctionDecl.walkMethods methods))
  | .returning keyword value =>
    errorWhen (·.function == .none) keyword .returnOutsideFunction
      ++ errorWhen (fun a => value.isSome && a.function == .initializer) keyword
        .valueFromInitializer
      ++ Expr.walk? value
  | .breaking keyword => errorWhen (·.loopDepth == 0) keyword .breakOutsideLoop
  | .continuing keyword => errorWhen (·.loopDepth == 0) keyword .continueOutsideLoop

def Stmt.walkAll : List Stmt → Walk
  | [] => skip
  | s :: rest => s.walk ++ Stmt.walkAll rest

def FunctionDecl.walk (kind : FunctionContext) : FunctionDecl → Walk
  | .mk _ params body => inCallable kind (parameters params ++ Stmt.walkAll body)

def FunctionDecl.walkMethods : List FunctionDecl → Walk
  | [] => skip
  | f :: rest => f.walk f.methodContext ++ FunctionDecl.walkMethods rest

end

end Lox
