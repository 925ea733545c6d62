import Lox.Grammar.Expression

/-! The grammar of statements, declarations and programs.

    program     → declaration* EOF
    declaration → "class" classDecl | "fun" function | "var" varDecl | statement
    classDecl   → IDENT ( "<" IDENT )? "{" function* "}"
    function    → IDENT "(" parameters? ")" "{" block
    varDecl     → IDENT ( "=" expression )? ";"
    statement   → for | if | print | return | while | break | continue | "{" block | expression ";"
    for         → "for" "(" ( "var" varDecl | expression ";" | ";" ) expression? ";" expression? ")"
                  statement
    block       → declaration* "}"

A declaration that cannot be read leaves an error, and reading goes on at the next boundary, in a
block as well as at the top level. A `for` becomes a loop that keeps its increment apart from its
body, so that `continue` still reaches it, in a block of its own if it has an initializer. -/

namespace Lox.Grammar

open Lox.Parser

def parameters : Parser (List Token) := do
  if ← check .rightParen then return []
  else commaSeparated (expect .parameterName) .tooManyParameters

def function (c : Callable) (block : Parser (List Stmt)) : Parser FunctionDecl := do
  let name ← expect (.callableName c)
  let _ ← expect (.parametersStart c)
  let params ← parameters
  let _ ← expect .parametersEnd
  let _ ← expect (.callableBodyStart c)
  return .mk name params (← block)

def superclass? : Parser (Option Reference) := do
  if ← accept .less then
    let name ← expect .superclassName
    return some ⟨← freshNode, name⟩
  else return none

/-- Whether neither a closing brace nor the end of input comes next. -/
def bodyGoesOn : Parser Bool := do
  return !((← check .rightBrace) || (← atEnd))

def classDeclaration (block : Parser (List Stmt)) : Parser Stmt := do
  let name ← expect .className
  let superclass ← superclass?
  let _ ← expect .classBodyStart
  let methods ← iterate (fun (methods : Array FunctionDecl) => do
    if ← bodyGoesOn then return some (methods.push (← function .method block))
    else return none) #[]
  let _ ← expect .classBodyEnd
  return .classDecl name superclass methods.toList

def varDeclaration : Parser Stmt := do
  let name ← expect .variableName
  let initializer ← if ← accept .equal then some <$> expression else pure none
  let _ ← expect .variableEnd
  return .varDecl name initializer

def expressionStatement : Parser Stmt := do
  let value ← expression
  let _ ← expect .expressionEnd
  return .expression value

/-- An expression, unless a token of the given kind comes first. -/
def expressionUnless (kind : TokenKind) : Parser (Option Expr) := do
  if ← check kind then return none else some <$> expression

def forInitializer : Parser (Option Stmt) := do
  if ← accept .semicolon then return none
  else if ← accept .kwVar then some <$> varDeclaration
  else some <$> expressionStatement

def forStatement (statement : Parser Stmt) : Parser Stmt := do
  let _ ← expect .forStart
  let initializer ← forInitializer
  let condition ← expressionUnless .semicolon
  let _ ← expect .forConditionEnd
  let increment ← expressionUnless .rightParen
  let _ ← expect .forClausesEnd
  let body ← statement
  let loop := Stmt.loop (condition.getD (.constant (.bool true))) body increment
  return match initializer with
    | some first => .block [first, loop]
    | none => loop

def ifStatement (statement : Parser Stmt) : Parser Stmt := do
  let _ ← expect .ifStart
  let condition ← expression
  let _ ← expect .ifConditionEnd
  let consequent ← statement
  if ← accept .kwElse then return .ifElse condition consequent (← statement)
  else return .ifThen condition consequent

def whileStatement (statement : Parser Stmt) : Parser Stmt := do
  let _ ← expect .whileStart
  let condition ← expression
  let _ ← expect .whileConditionEnd
  return .loop condition (← statement) none

def printStatement : Parser Stmt := do
  let value ← expression
  let _ ← expect .printEnd
  return .print value

def returnStatement (keyword : Token) : Parser Stmt := do
  let value ← expressionUnless .semicolon
  let _ ← expect .returnEnd
  return .returning keyword value

/-- The declarations of a block and its closing brace. -/
def block (declaration : Parser (Option Stmt)) : Parser (List Stmt) := do
  let body ← iterate (fun (body : Array Stmt) => do
    if ← bodyGoesOn then
      match ← declaration with
      | some s => return some (body.push s)
      | none => return some body
    else return none) #[]
  let _ ← expect .blockEnd
  return body.toList

def statement (nested : Parser Stmt) (declaration : Parser (Option Stmt)) : Parser Stmt := do
  let t ← peek
  match t.kind with
  | .kwFor => do advance; forStatement nested
  | .kwIf => do advance; ifStatement nested
  | .kwPrint => do advance; printStatement
  | .kwReturn => do advance; returnStatement t
  | .kwWhile => do advance; whileStatement nested
  | .kwBreak => do advance; let _ ← expect .breakEnd; return .breaking t
  | .kwContinue => do advance; let _ ← expect .continueEnd; return .continuing t
  | .leftBrace => do advance; return .block (← block declaration)
  | _ => expressionStatement

/-- A declaration, or `none` after an error. -/
def declaration (statement : Parser Stmt) (nested : Parser (Option Stmt)) : Parser (Option Stmt) :=
  recovering do
    match (← peek).kind with
    | .kwClass => do advance; classDeclaration (block nested)
    | .kwFun => do advance; return .function (← function .function (block nested))
    | .kwVar => do advance; varDeclaration
    | _ => statement

mutual

def statementUpTo : Nat → Parser Stmt
  | 0 => fail .expectedExpression
  | depth + 1 => fun c => statement (statementUpTo depth) (declarationUpTo depth) c

def declarationUpTo : Nat → Parser (Option Stmt)
  | 0 => recovering (fail .expectedExpression)
  | depth + 1 => fun c => declaration (statementUpTo depth) (declarationUpTo depth) c

end

/-- All declarations up to the end of input, without those that had an error. -/
def program (depth : Nat) : Parser (List Stmt) := do
  let body ← iterate (fun (body : Array Stmt) => do
    if ← atEnd then return none
    else
      match ← declarationUpTo depth with
      | some s => return some (body.push s)
      | none => return some body) #[]
  return body.toList

end Lox.Grammar

namespace Lox

structure Parsed where
  statements : List Stmt
  errors : List ParseError
  nextNode : Nat

/-- Reading stops before the first end-of-input token; a list without one ends on the line of its
last token. -/
def Cursor.ofTokens (tokens : List Token) (nextNode : Nat) : Cursor where
  pending := tokens.takeWhile (·.kind != .eof)
  finish := (tokens.find? (·.kind == .eof)).getD
    (Token.endOfInput ((tokens.getLast?.map (·.line)).getD 1))
  nextNode := nextNode
  errors := #[]

/-- Reads a program; node identities are drawn from `nextNode` on. -/
def parse (tokens : List Token) (nextNode : Nat) : Parsed :=
  let start := Cursor.ofTokens tokens nextNode
  let (body, finish) := Grammar.program (2 * start.pending.length + 2) start
  ⟨body.getD [], finish.errors.toList, finish.nextNode⟩

end Lox
