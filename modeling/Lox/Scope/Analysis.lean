import Lox.Scope

/-! Static analysis of scopes.

The analysis lists notes in the order in which it meets their causes: an error, or an occurrence of
a name with the depth it is bound at. It never stops at an error. An assignment's value comes before
its target and a property's new value before its object; a loop's increment comes after its body. -/

namespace Lox

inductive FunctionContext where
  | none | function | method | initializer
  deriving DecidableEq, Repr

inductive ClassContext where
  | none | root | derived
  deriving DecidableEq, Repr

/-- What encloses a statement or expression. A function ends the loops around it, a class does not
end the functions around it. -/
structure ScopeContext where
  function : FunctionContext
  classKind : ClassContext
  inLoop : Bool
  deriving DecidableEq, Repr

def ScopeContext.topLevel : ScopeContext := ⟨.none, .none, false⟩

inductive ScopeNote where
  | error (e : ScopeError)
  | bound (target : Reference) (depth : Option Nat)
  deriving DecidableEq, Repr

namespace ScopeNote

def errorIf (condition : Bool) (token : Token) (fault : ScopeFault) : List ScopeNote :=
  if condition then [.error ⟨token, fault⟩] else []

def ofReference (scopes : Scopes) (target : Reference) : ScopeNote :=
  .bound target (scopes.depth? target.name.lexeme)

def ofRead (scopes : Scopes) (target : Reference) : List ScopeNote :=
  errorIf (scopes.isIncomplete target.name.lexeme) target.name .readInOwnInitializer
    ++ [ofReference scopes target]

def ofDeclaration (scopes : Scopes) (name : Token) : List ScopeNote :=
  errorIf (scopes.isDeclared name.lexeme) name .alreadyDeclared

def ofSuperclass (scopes : Scopes) (name : Token) : Option Reference → List ScopeNote
  | none => []
  | some target =>
    errorIf (target.name.lexeme == name.lexeme) target.name .inheritsFromItself
      ++ ofRead scopes target

def ofParameters : Scopes → List Token → List ScopeNote
  | _, [] => []
  | scopes, p :: rest => ofDeclaration scopes p ++ ofParameters (scopes.define p.lexeme) rest

end ScopeNote

open ScopeNote

mutual

def Expr.notes (context : ScopeContext) (scopes : Scopes) : Expr → List ScopeNote
  | .constant _ => []
  | .group inner => inner.notes context scopes
  | .unary _ operand => operand.notes context scopes
  | .binary left _ right | .logical left _ right =>
    left.notes context scopes ++ right.notes context scopes
  | .variable target => ofRead scopes target
  | .assign target value => value.notes context scopes ++ [ofReference scopes target]
  | .call callee _ arguments =>
    callee.notes context scopes ++ Expr.notesOfAll context scopes arguments
  | .get object _ => object.notes context scopes
  | .set object _ value => value.notes context scopes ++ object.notes context scopes
  | .receiver keyword =>
    if context.classKind = .none then [.error ⟨keyword.name, .thisOutsideClass⟩]
    else [ofReference scopes keyword]
  | .inherited keyword _ =>
    errorIf (context.classKind == .none) keyword.name .superOutsideClass
      ++ errorIf (context.classKind == .root) keyword.name .superWithoutSuperclass
      ++ [ofReference scopes keyword]

def Expr.notesOfAll (context : ScopeContext) (scopes : Scopes) : List Expr → List ScopeNote
  | [] => []
  | e :: rest => e.notes context scopes ++ Expr.notesOfAll context scopes rest

end

def Expr.notesOf? (context : ScopeContext) (scopes : Scopes) : Option Expr → List ScopeNote
  | none => []
  | some e => e.notes context scopes

/-- The name that a statement declares in its own scope. -/
def Stmt.declared? : Stmt → Option Token
  | .varDecl name _ => some name
  | .function decl => some decl.name
  | .classDecl name _ _ => some name
  | _ => none

/-- The scopes in which the statements after `s` stand. -/
def Scopes.after (scopes : Scopes) (s : Stmt) : Scopes :=
  match s.declared? with
  | some name => scopes.define name.lexeme
  | none => scopes

/-- The scopes in which the methods of a class stand: `this` inside of `super`. -/
def Scopes.ofMethods (scopes : Scopes) (superclass : Option Reference) : Scopes :=
  match superclass with
  | none => scopes.nest "this"
  | some _ => (scopes.nest "super").nest "this"

def FunctionDecl.methodContext (f : FunctionDecl) : FunctionContext :=
  if f.isInitializer then .initializer else .method

mutual

def Stmt.notes (context : ScopeContext) (scopes : Scopes) : Stmt → List ScopeNote
  | .expression value | .print value => value.notes context scopes
  | .varDecl name initializer =>
    ofDeclaration scopes name
      ++ Expr.notesOf? context (scopes.declare name.lexeme) initializer
  | .block body => Stmt.notesOfAll context (Bindings.empty :: scopes) body
  | .ifThen condition consequent =>
    condition.notes context scopes ++ consequent.notes context scopes
  | .ifElse condition consequent alternative =>
    condition.notes context scopes ++ consequent.notes context scopes
      ++ alternative.notes context scopes
  | .loop condition body increment =>
    condition.notes context scopes ++ body.notes { context with inLoop := true } scopes
      ++ Expr.notesOf? context scopes increment
  | .function decl =>
    ofDeclaration scopes decl.name
      ++ decl.notes context .function (scopes.define decl.name.lexeme)
  | .classDecl name superclass methods =>
    let inside := scopes.define name.lexeme
    ofDeclaration scopes name ++ ofSuperclass inside name superclass
      ++ FunctionDecl.notesOfMethods
        { context with classKind := if superclass.isSome then .derived else .root }
        (inside.ofMethods superclass) methods
  | .returning keyword value =>
    errorIf (context.function == .none) keyword .returnOutsideFunction
      ++ errorIf (value.isSome && context.function == .initializer) keyword .valueFromInitializer
      ++ Expr.notesOf? context scopes value
  | .breaking keyword => errorIf (!context.inLoop) keyword .breakOutsideLoop
  | .continuing keyword => errorIf (!context.inLoop) keyword .continueOutsideLoop

def Stmt.notesOfAll (context : ScopeContext) (scopes : Scopes) : List Stmt → List ScopeNote
  | [] => []
  | s :: rest => s.notes context scopes ++ Stmt.notesOfAll context (scopes.after s) rest

/-- Parameters and body share one scope. -/
def FunctionDecl.notes (context : ScopeContext) (kind : FunctionContext) (scopes : Scopes) :
    FunctionDecl → List ScopeNote
  | .mk _ params body =>
    let inside : Scopes := Bindings.empty :: scopes
    ofParameters inside params
      ++ Stmt.notesOfAll { context with function := kind, inLoop := false }
        (params.foldl (fun scopes p => scopes.define p.lexeme) inside) body

def FunctionDecl.notesOfMethods (context : ScopeContext) (scopes : Scopes) :
    List FunctionDecl → List ScopeNote
  | [] => []
  | f :: rest =>
    f.notes context f.methodContext scopes ++ FunctionDecl.notesOfMethods context scopes rest

end

def ScopeNote.error? : ScopeNote → Option ScopeError
  | .error e => some e
  | .bound _ _ => none

/-- The analysis of a whole program. -/
def analyse (statements : List Stmt) : List ScopeNote :=
  Stmt.notesOfAll .topLevel [] statements

end Lox
