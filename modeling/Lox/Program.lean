import Lox.Token

/-! Programs as trees.

Expressions contain no statements, so a running expression leaves its scope only through a call.
Every node that names a variable carries an identity, under which static analysis records how far
away the declaration is. -/

namespace Lox

structure NodeId where
  index : Nat
  deriving DecidableEq, Repr

inductive Constant where
  | nil
  | bool (value : Bool)
  | number (value : Number)
  | string (contents : String)
  deriving DecidableEq, Repr

/-- An occurrence of a name: its identity and the token that spells it. -/
structure Reference where
  node : NodeId
  name : Token
  deriving DecidableEq, Repr

inductive Expr where
  | constant (value : Constant)
  | group (inner : Expr)
  | unary (operator : Token) (operand : Expr)
  | binary (left : Expr) (operator : Token) (right : Expr)
  | logical (left : Expr) (operator : Token) (right : Expr)
  | variable (target : Reference)
  | assign (target : Reference) (value : Expr)
  | call (callee : Expr) (paren : Token) (arguments : List Expr)
  | get (object : Expr) (name : Token)
  | set (object : Expr) (name : Token) (value : Expr)
  | receiver (keyword : Reference)
  | inherited (keyword : Reference) (method : Token)
  deriving Repr

mutual

inductive Stmt where
  | expression (value : Expr)
  | print (value : Expr)
  | varDecl (name : Token) (initializer : Option Expr)
  | block (body : List Stmt)
  | ifThen (condition : Expr) (consequent : Stmt)
  | ifElse (condition : Expr) (consequent alternative : Stmt)
  | loop (condition : Expr) (body : Stmt) (increment : Option Expr)
  | function (decl : FunctionDecl)
  | classDecl (name : Token) (superclass : Option Reference) (methods : List FunctionDecl)
  | returning (keyword : Token) (value : Option Expr)
  | breaking (keyword : Token)
  | continuing (keyword : Token)

/-- A function or method: its name, its parameters and its body. -/
inductive FunctionDecl where
  | mk (name : Token) (params : List Token) (body : List Stmt)

end

namespace FunctionDecl

def name : FunctionDecl → Token
  | .mk name _ _ => name

def params : FunctionDecl → List Token
  | .mk _ params _ => params

def body : FunctionDecl → List Stmt
  | .mk _ _ body => body

def arity (f : FunctionDecl) : Nat := f.params.length

/-- A method of this name builds the instance that it is called on. -/
def isInitializer (f : FunctionDecl) : Bool := f.name.lexeme == "init"

end FunctionDecl

end Lox
