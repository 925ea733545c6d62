import Lox.Diagnostic

/-! What the grammar demands and how a broken demand is worded. -/

namespace Lox

inductive Callable where
  | function
  | method
  deriving DecidableEq, Repr

def Callable.noun : Callable → String
  | .function => "function"
  | .method => "method"

/-- A place of the grammar where exactly one kind of token can stand. -/
inductive Expectation where
  | className | superclassName | classBodyStart | classBodyEnd
  | callableName (c : Callable) | parametersStart (c : Callable) | parameterName | parametersEnd
  | callableBodyStart (c : Callable) | blockEnd
  | variableName | variableEnd
  | breakEnd | continueEnd | printEnd | returnEnd | expressionEnd
  | forStart | forConditionEnd | forClausesEnd
  | ifStart | ifConditionEnd
  | whileStart | whileConditionEnd
  | propertyName | argumentsEnd | groupEnd
  | superDot | superMethodName
  deriving DecidableEq, Repr

namespace Expectation

def kind : Expectation → TokenKind
  | .className | .superclassName | .callableName _ | .parameterName | .variableName
  | .propertyName | .superMethodName => .identifier
  | .classBodyStart | .callableBodyStart _ => .leftBrace
  | .classBodyEnd | .blockEnd => .rightBrace
  | .parametersStart _ | .forStart | .ifStart | .whileStart => .leftParen
  | .parametersEnd | .forClausesEnd | .ifConditionEnd | .whileConditionEnd | .argumentsEnd
  | .groupEnd => .rightParen
  | .variableEnd | .breakEnd | .continueEnd | .printEnd | .returnEnd | .expressionEnd
  | .forConditionEnd => .semicolon
  | .superDot => .dot

def message : Expectation → String
  | .className => "Expect class name."
  | .superclassName => "Expect superclass name."
  | .classBodyStart => "Expect '\x7b' before class body."
  | .classBodyEnd => "Expect '\x7d' after class body."
  | .callableName c => "Expect " ++ c.noun ++ " name."
  | .parametersStart c => "Expect '(' after " ++ c.noun ++ " name."
  | .parameterName => "Expect parameter name."
  | .parametersEnd => "Expect ')' after parameters."
  | .callableBodyStart c => "Expect '\x7b' before " ++ c.noun ++ " body."
  | .blockEnd => "Expect '\x7d' after block."
  | .variableName => "Expect variable name."
  | .variableEnd => "Expect ';' after variable declaration."
  | .breakEnd => "Expect ';' after 'break'."
  | .continueEnd => "Expect ';' after 'continue'."
  | .printEnd => "Expect ';' after value."
  | .returnEnd => "Expect ';' after return value."
  | .expressionEnd => "Expect ';' after expression."
  | .forStart => "Expect '(' after 'for'."
  | .forConditionEnd => "Expect ';' after loop condition."
  | .forClausesEnd => "Expect ')' after for clauses."
  | .ifStart => "Expect '(' after 'if'."
  | .ifConditionEnd => "Expect ')' after if condition."
  | .whileStart => "Expect '(' after 'while'."
  | .whileConditionEnd => "Expect ')' after condition."
  | .propertyName => "Expect property name after '.'."
  | .argumentsEnd => "Expect ')' after arguments."
  | .groupEnd => "Expect ')' after expression."
  | .superDot => "Expect '.' after 'super'."
  | .superMethodName => "Expect superclass method name."

end Expectation

/-- A list of parameters or arguments is this long at most. -/
def maxListLength : Nat := 255

inductive ParseFault where
  | expected (e : Expectation)
  | expectedExpression
  | invalidAssignmentTarget
  | tooManyParameters
  | tooManyArguments
  deriving DecidableEq, Repr

def ParseFault.message : ParseFault → String
  | .expected e => e.message
  | .expectedExpression => "Expect expression."
  | .invalidAssignmentTarget => "Invalid assignment target."
  | .tooManyParameters => "Can't have more than 255 parameters."
  | .tooManyArguments => "Can't have more than 255 arguments."

structure ParseError where
  token : Token
  fault : ParseFault
  deriving DecidableEq, Repr

def ParseError.diagnostic (e : ParseError) : Diagnostic := .parse e.token e.fault.message

end Lox
