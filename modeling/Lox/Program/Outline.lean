import Lox.Program

/-! Programs written out as parenthesised outlines.

Each node is a list with its tag first; tokens are written as `lexeme@line`, numbers by their bit
pattern and strings in quotes with the control characters escaped. -/

namespace Lox

def hexDigits (width n : Nat) : List Char :=
  let digits := Nat.toDigits 16 n
  List.replicate (width - digits.length) '0' ++ digits

/-- How a character stands in a quoted string. -/
def quotedChar (c : Char) : List Char :=
  match c with
  | '"' => ['\\', '"']
  | '\\' => ['\\', '\\']
  | '\x08' => ['\\', 'b']
  | '\x0c' => ['\\', 'f']
  | '\n' => ['\\', 'n']
  | '\r' => ['\\', 'r']
  | '\t' => ['\\', 't']
  | c => if c.toNat < 32 then '\\' :: 'u' :: hexDigits 4 c.toNat else [c]

def quoted (text : String) : String :=
  String.ofList ('"' :: text.toList.flatMap quotedChar ++ ['"'])

def outlineList (tag : String) (parts : List String) : String :=
  "(" ++ " ".intercalate (tag :: parts) ++ ")"

def Token.outline (t : Token) : String := t.lexeme ++ "@" ++ toString t.line

def Constant.outline : Constant → String
  | .nil => "nil"
  | .bool true => "true"
  | .bool false => "false"
  | .number value => outlineList "num" [String.ofList (hexDigits 16 value.bits.toNat)]
  | .string contents => outlineList "str" [quoted contents]

mutual

def Expr.outline : Expr → String
  | .constant value => value.outline
  | .group inner => outlineList "group" [inner.outline]
  | .unary operator operand => outlineList "unary" [operator.outline, operand.outline]
  | .binary left operator right =>
    outlineList "binary" [operator.outline, left.outline, right.outline]
  | .logical left operator right =>
    outlineList "logical" [operator.outline, left.outline, right.outline]
  | .variable target => outlineList "var" [target.name.outline]
  | .assign target value => outlineList "assign" [target.name.outline, value.outline]
  | .call callee paren arguments =>
    outlineList "call" (paren.outline :: callee.outline :: Expr.outlines arguments)
  | .get object name => outlineList "get" [name.outline, object.outline]
  | .set object name value => outlineList "set" [name.outline, object.outline, value.outline]
  | .receiver keyword => outlineList "this" [keyword.name.outline]
  | .inherited keyword method => outlineList "super" [keyword.name.outline, method.outline]

def Expr.outlines : List Expr → List String
  | [] => []
  | e :: rest => e.outline :: Expr.outlines rest

end

def Reference.outline (r : Reference) : String := outlineList "var" [r.name.outline]

def Expr.optionOutline : Option Expr → List String
  | none => []
  | some e => [e.outline]

mutual

def Stmt.outline : Stmt → String
  | .expression value => outlineList "expr" [value.outline]
  | .print value => outlineList "print" [value.outline]
  | .varDecl name initializer =>
    outlineList "var-decl" (name.outline :: Expr.optionOutline initializer)
  | .block body => outlineList "block" (Stmt.outlines body)
  | .ifThen condition consequent => outlineList "if" [condition.outline, consequent.outline]
  | .ifElse condition consequent alternative =>
    outlineList "if-else" [condition.outline, consequent.outline, alternative.outline]
  | .loop condition body none => outlineList "while" [condition.outline, body.outline]
  | .loop condition body (some increment) =>
    outlineList "while-inc" [condition.outline, body.outline, increment.outline]
  | .function decl => decl.outline
  | .classDecl name superclass methods =>
    outlineList "class" (name.outline :: ((superclass.map (·.outline)).getD "none")
      :: FunctionDecl.outlines methods)
  | .returning keyword value =>
    outlineList "return" (keyword.outline :: Expr.optionOutline value)
  | .breaking keyword => outlineList "break" [keyword.outline]
  | .continuing keyword => outlineList "continue" [keyword.outline]

def Stmt.outlines : List Stmt → List String
  | [] => []
  | s :: rest => s.outline :: Stmt.outlines rest

def FunctionDecl.outline : FunctionDecl → String
  | .mk name params body =>
    outlineList "fun" (name.outline :: outlineList "params" (params.map (·.outline))
      :: Stmt.outlines body)

def FunctionDecl.outlines : List FunctionDecl → List String
  | [] => []
  | f :: rest => f.outline :: FunctionDecl.outlines rest

end

end Lox
