import Lox.Bindings
import Lox.Diagnostic
import Lox.Program

/-! Scopes as static analysis sees them, and the faults it can find.

The innermost scope comes first. A name maps to whether its declaration is complete; in between it
is declared but must not be read. The global level is not a scope. -/

namespace Lox

inductive ScopeFault where
  | alreadyDeclared
  | readInOwnInitializer
  | returnOutsideFunction
  | valueFromInitializer
  | breakOutsideLoop
  | continueOutsideLoop
  | thisOutsideClass
  | superOutsideClass
  | superWithoutSuperclass
  | inheritsFromItself
  deriving DecidableEq, Repr

def ScopeFault.message : ScopeFault → String
  | .alreadyDeclared => "Already a variable with this name in this scope."
  | .readInOwnInitializer => "Can't read local variable in its own initializer."
  | .returnOutsideFunction => "Can't return from top-level code."
  | .valueFromInitializer => "Can't return a value from an initializer."
  | .breakOutsideLoop => "Can't use 'break' outside of a loop."
  | .continueOutsideLoop => "Can't use 'continue' outside of a loop."
  | .thisOutsideClass => "Can't use 'this' outside of a class."
  | .superOutsideClass => "Can't use 'super' outside of a class."
  | .superWithoutSuperclass => "Can't use 'super' in a class with no superclass."
  | .inheritsFromItself => "A class can't inherit from itself."

structure ScopeError where
  token : Token
  fault : ScopeFault
  deriving DecidableEq, Repr

def ScopeError.diagnostic (e : ScopeError) : Diagnostic := .resolve e.token e.fault.message

abbrev Scope := Bindings Bool

abbrev Scopes := List Scope

namespace Scopes

/-- The number of scopes between an occurrence and the declaration it is bound to; `none` for a
global. -/
def depth? (scopes : Scopes) (name : String) : Option Nat := scopes.findIdx? (·.contains name)

def mark (complete : Bool) (name : String) : Scopes → Scopes
  | [] => []
  | scope :: outer => scope.insert name complete :: outer

/-- Completes the declaration of a name in the innermost scope. -/
def define (scopes : Scopes) (name : String) : Scopes := scopes.mark true name

def isDeclared : Scopes → String → Bool
  | [], _ => false
  | scope :: _, name => scope.contains name

/-- Begins the declaration of a name. One that was declared before stays as it is. -/
def declare (scopes : Scopes) (name : String) : Scopes :=
  if scopes.isDeclared name then scopes else scopes.mark false name

def isIncomplete : Scopes → String → Bool
  | [], _ => false
  | scope :: _, name => scope.get? name == some false

/-- A new innermost scope that holds one name. -/
def nest (scopes : Scopes) (name : String) : Scopes := Bindings.empty.insert name true :: scopes

end Scopes

end Lox
