import Lox.Bindings
import Lox.Program

/-! Values and the things they refer to.

Functions, classes and objects live in a heap and are values by identity: two of them are equal
only if they are the same one. -/

namespace Lox

structure EnvironmentId where
  index : Nat
  deriving DecidableEq, Repr

structure FunctionId where
  index : Nat
  deriving DecidableEq, Repr

structure ClassId where
  index : Nat
  deriving DecidableEq, Repr

structure ObjectId where
  index : Nat
  deriving DecidableEq, Repr

/-- Functions that every program finds among its globals. -/
inductive Native where
  | clock
  deriving DecidableEq, Repr

def Native.all : List Native := [.clock]

def Native.name : Native → String
  | .clock => "clock"

def Native.arity : Native → Nat
  | .clock => 0

inductive Value where
  | nil
  | bool (value : Bool)
  | number (value : Number)
  | string (contents : String)
  | native (f : Native)
  | function (f : FunctionId)
  | classValue (c : ClassId)
  | object (o : ObjectId)
  deriving DecidableEq, Repr

namespace Value

def ofConstant : Constant → Value
  | .nil => .nil
  | .bool value => .bool value
  | .number value => .number value
  | .string contents => .string contents

/-- Only `nil` and `false` count as false. -/
def isTruthy : Value → Bool
  | .nil | .bool false => false
  | _ => true

/-- Numbers compare as numbers, everything else by sameness. -/
def equals : Value → Value → Bool
  | .number a, .number b => a.equals b
  | a, b => a == b

end Value

/-- The bindings of one scope and the scope it is nested in; the globals are nested in none. -/
structure Environment where
  bindings : Bindings Value
  enclosing : Option EnvironmentId
  deriving DecidableEq, Repr

/-- A function or method with the scope it was declared in. -/
structure Closure where
  decl : FunctionDecl
  scope : EnvironmentId
  isInitializer : Bool

structure Class where
  name : String
  superclass : Option ClassId
  methods : Bindings Closure

structure Object where
  ofClass : ClassId
  fields : Bindings Value
  deriving DecidableEq, Repr

end Lox
