import Lox.Grammar.Parser

/-! The expression grammar.

    expression  → assignment
    assignment  → ( call "." )? IDENT "=" assignment | disjunction
    disjunction → conjunction ( "or" conjunction )*
    conjunction → equality ( "and" equality )*
    equality    → comparison ( ( "!=" | "==" ) comparison )*
    comparison  → term ( ( ">" | ">=" | "<" | "<=" ) term )*
    term        → factor ( ( "-" | "+" ) factor )*
    factor      → unary ( ( "/" | "*" ) unary )*
    unary       → ( "!" | "-" ) unary | call
    call        → primary ( "(" arguments? ")" | "." IDENT )*
    primary     → NUMBER | STRING | "true" | "false" | "nil" | "this" | IDENT
                | "(" expression ")" | "super" "." IDENT

Each rule takes the parser of nested expressions. Nesting costs at least one token per level, so
`expression` allows as many levels as there are tokens. -/

namespace Lox.Grammar

open Lox.Parser

/-- The constant that a literal token stands for. -/
def constantOf : Option Literal → Constant
  | some (.number value) => .number value
  | some (.string contents) => .string contents
  | none => .nil

def primary (nested : Parser Expr) : Parser Expr := do
  let t ← peek
  match t.kind with
  | .kwFalse => do advance; return .constant (.bool false)
  | .kwTrue => do advance; return .constant (.bool true)
  | .kwNil => do advance; return .constant .nil
  | .number | .string => do advance; return .constant (constantOf t.literal)
  | .kwSuper => do
    advance
    let _ ← expect .superDot
    let method ← expect .superMethodName
    return .inherited ⟨← freshNode, t⟩ method
  | .kwThis => do advance; return .receiver ⟨← freshNode, t⟩
  | .identifier => do advance; return .variable ⟨← freshNode, t⟩
  | .leftParen => do
    advance
    let inner ← nested
    let _ ← expect .groupEnd
    return .group inner
  | _ => fail .expectedExpression

def arguments (nested : Parser Expr) : Parser (List Expr) := do
  if ← check .rightParen then return [] else commaSeparated nested .tooManyArguments

/-- One call or property access on `object`, if there is one. -/
def suffix? (nested : Parser Expr) (object : Expr) : Parser (Option Expr) := do
  if ← accept .leftParen then
    let args ← arguments nested
    let paren ← expect .argumentsEnd
    return some (.call object paren args)
  else if ← accept .dot then
    return some (.get object (← expect .propertyName))
  else return none

def call (nested : Parser Expr) : Parser Expr := do
  iterate (suffix? nested) (← primary nested)

def isUnaryOperator (k : TokenKind) : Bool := k == .bang || k == .minus

/-- Operators in front of an operand, the last one first. -/
def unaryOperators : Parser (List Token) :=
  iterate (fun operators => do return (← acceptIf? isUnaryOperator).map (· :: operators)) []

def unary (nested : Parser Expr) : Parser Expr := do
  let operators ← unaryOperators
  let operand ← call nested
  return operators.foldl (fun e operator => .unary operator e) operand

/-- Operands with operators between them, grouped to the left. -/
def leftAssociative (isOperator : TokenKind → Bool) (node : Expr → Token → Expr → Expr)
    (operand : Parser Expr) : Parser Expr := do
  let first ← operand
  iterate (fun left => do
    match ← acceptIf? isOperator with
    | some operator => return some (node left operator (← operand))
    | none => return none) first

def isFactorOperator (k : TokenKind) : Bool := k == .slash || k == .star

def isTermOperator (k : TokenKind) : Bool := k == .minus || k == .plus

def isComparisonOperator (k : TokenKind) : Bool :=
  k == .greater || k == .greaterEqual || k == .less || k == .lessEqual

def isEqualityOperator (k : TokenKind) : Bool := k == .bangEqual || k == .equalEqual

def factor (nested : Parser Expr) : Parser Expr :=
  leftAssociative isFactorOperator .binary (unary nested)

def term (nested : Parser Expr) : Parser Expr :=
  leftAssociative isTermOperator .binary (factor nested)

def comparison (nested : Parser Expr) : Parser Expr :=
  leftAssociative isComparisonOperator .binary (term nested)

def equality (nested : Parser Expr) : Parser Expr :=
  leftAssociative isEqualityOperator .binary (comparison nested)

def conjunction (nested : Parser Expr) : Parser Expr :=
  leftAssociative (· == .kwAnd) .logical (equality nested)

def disjunction (nested : Parser Expr) : Parser Expr :=
  leftAssociative (· == .kwOr) .logical (conjunction nested)

/-- The left side is read as an expression; what cannot be assigned to is an error at the equals
sign, and the left side alone remains. -/
def assignment (nested : Parser Expr) : Parser Expr := do
  let target ← disjunction nested
  match ← accept? .equal with
  | none => return target
  | some equals =>
    let value ← nested
    match target with
    | .variable ⟨_, name⟩ => return .assign ⟨← freshNode, name⟩ value
    | .get object name => return .set object name value
    | _ => do record equals .invalidAssignmentTarget; return target

/-- Running out of levels is an error like any other, so that a parse without errors never has. -/
def expressionUpTo : Nat → Parser Expr
  | 0 => fail .expectedExpression
  | depth + 1 => fun c => assignment (expressionUpTo depth) c

def expression : Parser Expr := fun c => expressionUpTo (c.pending.length + 1) c

end Lox.Grammar
