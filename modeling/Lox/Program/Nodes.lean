import Lox.Program

/-! The nodes of a program that carry an identity, in the order in which an outline opens them. -/

namespace Lox

mutual

def Expr.nodes : Expr → List NodeId
  | .constant _ => []
  | .group inner => inner.nodes
  | .unary _ operand => operand.nodes
  | .binary left _ right | .logical left _ right => left.nodes ++ right.nodes
  | .variable target => [target.node]
  | .assign target value => target.node :: value.nodes
  | .call callee _ arguments => callee.nodes ++ Expr.nodesOfAll arguments
  | .get object _ => object.nodes
  | .set object _ value => object.nodes ++ value.nodes
  | .receiver keyword => [keyword.node]
  | .inherited keyword _ => [keyword.node]

def Expr.nodesOfAll : List Expr → List NodeId
  | [] => []
  | e :: rest => e.nodes ++ Expr.nodesOfAll rest

end

def Expr.nodesOf? : Option Expr → List NodeId
  | none => []
  | some e => e.nodes

mutual

def Stmt.nodes : Stmt → List NodeId
  | .expression value | .print value => value.nodes
  | .varDecl _ initializer => Expr.nodesOf? initializer
  | .block body => Stmt.nodesOfAll body
  | .ifThen condition consequent => condition.nodes ++ consequent.nodes
  | .ifElse condition consequent alternative =>
    condition.nodes ++ consequent.nodes ++ alternative.nodes
  | .loop condition body increment => condition.nodes ++ body.nodes ++ Expr.nodesOf? increment
  | .function decl => decl.nodes
  | .classDecl _ superclass methods =>
    superclass.toList.map (·.node) ++ FunctionDecl.nodesOfAll methods
  | .returning _ value => Expr.nodesOf? value
  | .breaking _ | .continuing _ => []

def Stmt.nodesOfAll : List Stmt → List NodeId
  | [] => []
  | s :: rest => s.nodes ++ Stmt.nodesOfAll rest

def FunctionDecl.nodes : FunctionDecl → List NodeId
  | .mk _ _ body => Stmt.nodesOfAll body

def FunctionDecl.nodesOfAll : List FunctionDecl → List NodeId
  | [] => []
  | f :: rest => f.nodes ++ FunctionDecl.nodesOfAll rest

end

end Lox
