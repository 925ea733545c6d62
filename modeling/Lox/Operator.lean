import Lox.Diagnostic
import Lox.Value

/-! Faults of running programs, and the operators, which are where most of them arise. -/

namespace Lox

inductive RuntimeFault where
  | undefinedVariable (name : String)
  | undefinedProperty (name : String)
  | operandNotNumber
  | operandsNotNumbers
  | operandsNotAddable
  | noUnaryOperator
  | noBinaryOperator
  | notCallable
  | wrongArgumentCount (expected got : Nat)
  | stackOverflow
  | propertyOfNonObject
  | fieldOfNonObject
  | superclassNotClass
  | superWithoutClass
  | superWithoutReceiver
  deriving DecidableEq, Repr

def RuntimeFault.message : RuntimeFault → String
  | .undefinedVariable name => "Undefined variable '" ++ name ++ "'."
  | .undefinedProperty name => "Undefined property '" ++ name ++ "'."
  | .operandNotNumber => "Operand must be a number."
  | .operandsNotNumbers => "Operands must be numbers."
  | .operandsNotAddable => "Operands must be two numbers or two strings."
  | .noUnaryOperator => "Invalid unary operator."
  | .noBinaryOperator => "Invalid binary operator."
  | .notCallable => "Can only call functions and classes."
  | .wrongArgumentCount expected got =>
    "Expected " ++ toString expected ++ " arguments but got " ++ toString got ++ "."
  | .stackOverflow => "Stack overflow."
  | .propertyOfNonObject => "Only instances have properties."
  | .fieldOfNonObject => "Only instances have fields."
  | .superclassNotClass => "Superclass must be a class."
  | .superWithoutClass => "Can't use 'super' outside of a class."
  | .superWithoutReceiver => "Can't use 'super' outside of a method."

structure RuntimeError where
  token : Token
  fault : RuntimeFault
  deriving DecidableEq, Repr

def RuntimeError.diagnostic (e : RuntimeError) : Diagnostic := .runtime e.token e.fault.message

def undefinedVariable (name : Token) : RuntimeError := ⟨name, .undefinedVariable name.lexeme⟩

def undefinedProperty (name : Token) : RuntimeError := ⟨name, .undefinedProperty name.lexeme⟩

namespace Operator

def unary (operator : Token) (operand : Value) : Except RuntimeError Value :=
  match operator.kind, operand with
  | .minus, .number n => .ok (.number n.negate)
  | .minus, _ => .error ⟨operator, .operandNotNumber⟩
  | .bang, _ => .ok (.bool !operand.isTruthy)
  | _, _ => .error ⟨operator, .noUnaryOperator⟩

def add (operator : Token) : Value → Value → Except RuntimeError Value
  | .number a, .number b => .ok (.number (a.add b))
  | .string a, .string b => .ok (.string (a ++ b))
  | _, _ => .error ⟨operator, .operandsNotAddable⟩

/-- The operators that take numbers only. -/
def arithmetic? (a b : Number) : TokenKind → Option Value
  | .minus => some (.number (a.subtract b))
  | .star => some (.number (a.multiply b))
  | .slash => some (.number (a.divide b))
  | .greater => some (.bool (b.less a))
  | .greaterEqual => some (.bool (b.lessOrEqual a))
  | .less => some (.bool (a.less b))
  | .lessEqual => some (.bool (a.lessOrEqual b))
  | _ => none

def onNumbers (operator : Token) : Value → Value → Except RuntimeError Value
  | .number a, .number b =>
    match arithmetic? a b operator.kind with
    | some value => .ok value
    | none => .error ⟨operator, .noBinaryOperator⟩
  | _, _ => .error ⟨operator, .operandsNotNumbers⟩

def binary (operator : Token) (left right : Value) : Except RuntimeError Value :=
  match operator.kind with
  | .equalEqual => .ok (.bool (left.equals right))
  | .bangEqual => .ok (.bool !left.equals right)
  | .plus => add operator left right
  | _ => onNumbers operator left right

/-- Whether the left operand alone decides; an operator other than `or` counts as `and`. -/
def decides (operator : Token) (left : Value) : Bool :=
  if operator.kind = .kwOr then left.isTruthy else !left.isTruthy

end Operator

end Lox
