import Lox.Grammar.Statement
import Lox.Scope.Analysis

/-! What reading guarantees of tokens and trees.

Analysis and execution look names up by their text, `this` and `super` among them, so a program
makes sense only where those two are not the names of variables. The grammar also keeps operators
to the places where they mean something, and declarations out of branches and loop bodies. -/

namespace Lox

/-- The two words that are looked up like names are spelled by their own tokens only. -/
structure Token.Sound (t : Token) : Prop where
  name : t.kind = .identifier → t.lexeme ≠ "this" ∧ t.lexeme ≠ "super"
  receiver : t.kind = .kwThis → t.lexeme = "this"
  superclass : t.kind = .kwSuper → t.lexeme = "super"

theorem Token.Sound.of_kind {t : Token}
    (h : t.kind ≠ .identifier ∧ t.kind ≠ .kwThis ∧ t.kind ≠ .kwSuper) : t.Sound :=
  ⟨fun hk => absurd hk h.1, fun hk => absurd hk h.2.1, fun hk => absurd hk h.2.2⟩

/-- A token that can name a variable. -/
structure Token.IsName (t : Token) : Prop where
  kind : t.kind = .identifier
  not_this : t.lexeme ≠ "this"
  not_super : t.lexeme ≠ "super"

theorem Token.Sound.isName {t : Token} (h : t.Sound) (hk : t.kind = .identifier) : t.IsName :=
  ⟨hk, (h.name hk).1, (h.name hk).2⟩

def Grammar.isBinaryOperator (k : TokenKind) : Bool :=
  isFactorOperator k || isTermOperator k || isComparisonOperator k || isEqualityOperator k

mutual

def Expr.WellFormed : Expr → Prop
  | .constant _ => True
  | .group inner => inner.WellFormed
  | .unary operator operand => Grammar.isUnaryOperator operator.kind ∧ operand.WellFormed
  | .binary left operator right =>
    Grammar.isBinaryOperator operator.kind ∧ left.WellFormed ∧ right.WellFormed
  | .logical left _ right => left.WellFormed ∧ right.WellFormed
  | .variable target => target.name.IsName
  | .assign target value => target.name.IsName ∧ value.WellFormed
  | .call callee _ arguments => callee.WellFormed ∧ Expr.AllWellFormed arguments
  | .get object _ => object.WellFormed
  | .set object _ value => object.WellFormed ∧ value.WellFormed
  | .receiver keyword => keyword.name.kind = .kwThis ∧ keyword.name.lexeme = "this"
  | .inherited keyword _ => keyword.name.kind = .kwSuper ∧ keyword.name.lexeme = "super"

def Expr.AllWellFormed : List Expr → Prop
  | [] => True
  | e :: rest => e.WellFormed ∧ Expr.AllWellFormed rest

end

mutual

def Stmt.WellFormed : Stmt → Prop
  | .expression value | .print value => value.WellFormed
  | .varDecl name initializer => name.IsName ∧ ∀ e ∈ initializer, e.WellFormed
  | .block body => Stmt.AllWellFormed body
  | .ifThen condition consequent =>
    condition.WellFormed ∧ consequent.WellFormed ∧ consequent.declared? = none
  | .ifElse condition consequent alternative =>
    condition.WellFormed ∧ consequent.WellFormed ∧ consequent.declared? = none ∧
      alternative.WellFormed ∧ alternative.declared? = none
  | .loop condition body increment =>
    condition.WellFormed ∧ body.WellFormed ∧ body.declared? = none ∧
      ∀ e ∈ increment, e.WellFormed
  | .function decl => decl.WellFormed
  | .classDecl name superclass methods =>
    name.IsName ∧ (∀ r ∈ superclass, r.name.IsName) ∧ FunctionDecl.AllWellFormed methods
  | .returning _ value => ∀ e ∈ value, e.WellFormed
  | .breaking _ | .continuing _ => True

def Stmt.AllWellFormed : List Stmt → Prop
  | [] => True
  | s :: rest => s.WellFormed ∧ Stmt.AllWellFormed rest

def FunctionDecl.WellFormed : FunctionDecl → Prop
  | .mk name params body => name.IsName ∧ (∀ p ∈ params, p.IsName) ∧ Stmt.AllWellFormed body

def FunctionDecl.AllWellFormed : List FunctionDecl → Prop
  | [] => True
  | f :: rest => f.WellFormed ∧ FunctionDecl.AllWellFormed rest

end

theorem Expr.allWellFormed_iff (es : List Expr) :
    Expr.AllWellFormed es ↔ ∀ e ∈ es, e.WellFormed := by
  induction es with
  | nil => simp [Expr.AllWellFormed]
  | cons e rest ih => simp [Expr.AllWellFormed, ih]

theorem Stmt.allWellFormed_iff (ss : List Stmt) :
    Stmt.AllWellFormed ss ↔ ∀ s ∈ ss, s.WellFormed := by
  induction ss with
  | nil => simp [Stmt.AllWellFormed]
  | cons s rest ih => simp [Stmt.AllWellFormed, ih]

theorem FunctionDecl.allWellFormed_iff (fs : List FunctionDecl) :
    FunctionDecl.AllWellFormed fs ↔ ∀ f ∈ fs, f.WellFormed := by
  induction fs with
  | nil => simp [FunctionDecl.AllWellFormed]
  | cons f rest ih => simp [FunctionDecl.AllWellFormed, ih]

theorem FunctionDecl.wellFormed_iff (f : FunctionDecl) :
    f.WellFormed ↔ f.name.IsName ∧ (∀ p ∈ f.params, p.IsName) ∧ Stmt.AllWellFormed f.body := by
  cases f
  rfl

end Lox
