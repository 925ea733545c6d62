import Lox.Grammar.Statement
import Lox.Proofs.Grammar.Closing
import Lox.Proofs.Program.Respelling

/-! The rules of the grammar side by side.

Each rule keeps step with itself when the parsers of nested expressions and statements do, so that
expressions, statements and declarations keep step at all numbers of levels. -/

namespace Lox.Grammar

open Lox.Parser

variable {k : Comparison}

section Expressions

variable {nested nested' : Parser Expr}

theorem follows_primary (h : Follows k (Expr.respell k.respell) nested nested') :
    Follows k (Expr.respell k.respell) (primary nested) (primary nested') := by
  refine Follows.peek.bind fun t => ?_
  simp only [Respelling.kind, Respelling.literal]
  split
  · exact Follows.advance.bind fun _ => .pure _ (Expr.constant (.bool false))
  · exact Follows.advance.bind fun _ => .pure _ (Expr.constant (.bool true))
  · exact Follows.advance.bind fun _ => .pure _ (Expr.constant .nil)
  · exact Follows.advance.bind fun _ => .pure _ (Expr.constant (constantOf t.literal))
  · exact Follows.advance.bind fun _ => .pure _ (Expr.constant (constantOf t.literal))
  · exact Follows.advance.bind fun _ => (Follows.expect _).bind fun _ => (Follows.expect _).bind
      fun method => Follows.freshNode.bind fun n => .pure _ (Expr.inherited ⟨n, t⟩ method)
  · exact Follows.advance.bind fun _ => Follows.freshNode.bind
      fun n => .pure _ (Expr.receiver ⟨n, t⟩)
  · exact Follows.advance.bind fun _ => Follows.freshNode.bind
      fun n => .pure _ (Expr.variable ⟨n, t⟩)
  · exact Follows.advance.bind fun _ => h.bind fun inner => (Follows.expect _).bind
      fun _ => .pure _ (Expr.group inner)
  · exact .fail _ rfl

theorem follows_commaSeparated {α β : Type} {φ : α → β} {item : Parser α} {item' : Parser β}
    (h : Follows k φ item item') (fault : ParseFault) :
    Follows k (List.map φ) (commaSeparated item fault) (commaSeparated item' fault) := by
  refine h.bind fun first => ?_
  have hpush (items : Array α) (a : α) : (items.map φ).push (φ a) = (items.push a).map φ := by simp
  have hlist (items : Array α) : (items.map φ).toList = items.toList.map φ := by simp
  refine (Follows.iterate_after (φ := Array.map φ) (Follows.accept _) (Shortens.accept _)
    (fun items b => ?_) (fun items b hb => ?_) (by simp)).bind fun items => ?_
  · simp only [Array.size_map]
    refine .ite _ (.ite _ ?_ ?_) (.pure _ none)
    · refine Follows.peek.bind fun t => (Follows.record _ _).bind fun _ => h.bind fun a => ?_
      rw [hpush]
      exact .pure _ (some (items.push a))
    · refine h.bind fun a => ?_
      rw [hpush]
      exact .pure _ (some (items.push a))
  · rw [if_neg hb]
    exact .pure_none
  · rw [hlist]
    exact .pure _ items.toList

theorem follows_arguments (h : Follows k (Expr.respell k.respell) nested nested') :
    Follows k (List.map (Expr.respell k.respell)) (arguments nested) (arguments nested') :=
  (Follows.check _).bind fun _ => .ite _ (.pure _ []) (follows_commaSeparated h _)

theorem follows_suffix? (h : Follows k (Expr.respell k.respell) nested nested') (object : Expr) :
    Follows k (Option.map (Expr.respell k.respell)) (suffix? nested object)
      (suffix? nested' (object.respell k.respell)) := by
  refine (Follows.accept _).bind fun _ => .ite _ ?_ ?_
  · refine (follows_arguments h).bind fun args => (Follows.expect _).bind fun paren => ?_
    rw [← Expr.respellAll_eq_map]
    exact .pure _ (some (Expr.call object paren args))
  · exact (Follows.accept _).bind fun _ => .ite _
      ((Follows.expect _).bind fun name => .pure _ (some (Expr.get object name))) (.pure _ none)

theorem shortens_suffix? (h : Follows k (Expr.respell k.respell) nested nested') (object : Expr) :
    Shortens (fun e => e.isSome) (suffix? nested object) := by
  have hcall : Reads (do
      let args ← arguments nested
      let paren ← expect .argumentsEnd
      return some (Expr.call object paren args)) :=
    (follows_arguments h).toReads.bind fun _ => (Reads.expect _).bind fun _ => .pure _
  have hget : Reads (do return some (Expr.get object (← expect .propertyName))) :=
    (Reads.expect _).bind fun _ => .pure _
  refine (Shortens.accept _).bind (.accept _) (fun _ => .ite _ hcall ((Reads.accept _).bind
    fun _ => .ite _ hget (.pure none))) fun b hb => ?_
  rw [if_neg hb]
  refine (Shortens.accept _).bind (.accept _) (fun _ => .ite _ hget (.pure none)) fun b hb => ?_
  rw [if_neg hb]
  exact .pure_none

theorem follows_call (h : Follows k (Expr.respell k.respell) nested nested') :
    Follows k (Expr.respell k.respell) (call nested) (call nested') :=
  (follows_primary h).bind fun _ =>
    .iterate (follows_suffix? h) (shortens_suffix? h) rfl

theorem follows_unaryOperators :
    Follows k (List.map k.respell.token) unaryOperators unaryOperators := by
  refine Follows.iterate_after (φ := List.map k.respell.token) (Follows.acceptIf? _)
    (Shortens.acceptIf? _) (fun operators t => ?_) (fun operators t ht => ?_) rfl
  · cases t with
    | none => exact .pure _ none
    | some t => exact .pure _ (some (t :: operators))
  · rw [Option.not_isSome_iff_eq_none.mp ht]
    exact .pure_none

theorem respell_unary_foldl (f : Respelling) (operators : List Token) : ∀ e : Expr,
    (operators.foldl (fun e operator => Expr.unary operator e) e).respell f =
      (operators.map f.token).foldl (fun e operator => Expr.unary operator e)
        (e.respell f) := by
  induction operators with
  | nil => exact fun _ => rfl
  | cons operator rest ih => exact fun e => ih (.unary operator e)

theorem follows_unary (h : Follows k (Expr.respell k.respell) nested nested') :
    Follows k (Expr.respell k.respell) (unary nested) (unary nested') := by
  refine follows_unaryOperators.bind fun operators => (follows_call h).bind fun operand => ?_
  rw [← respell_unary_foldl]
  exact .pure _ _

theorem follows_leftAssociative {isOperator : TokenKind → Bool} {node : Expr → Token → Expr → Expr}
    {operand operand' : Parser Expr} (h : Follows k (Expr.respell k.respell) operand operand')
    (hn : ∀ l t r, (node l t r).respell k.respell =
      node (l.respell k.respell) (k.respell.token t) (r.respell k.respell)) :
    Follows k (Expr.respell k.respell) (leftAssociative isOperator node operand)
      (leftAssociative isOperator node operand') := by
  refine h.bind fun first => ?_
  refine Follows.iterate_after (Follows.acceptIf? _) (Shortens.acceptIf? _) (fun left t => ?_)
    (fun left t ht => ?_) rfl
  · cases t with
    | none => exact .pure _ none
    | some t =>
      refine h.bind fun right => ?_
      rw [← hn]
      exact .pure _ (some (node left t right))
  · rw [Option.not_isSome_iff_eq_none.mp ht]
    exact .pure_none

theorem follows_disjunction (h : Follows k (Expr.respell k.respell) nested nested') :
    Follows k (Expr.respell k.respell) (disjunction nested) (disjunction nested') := by
  have hbinary (l r : Expr) (t : Token) : (Expr.binary l t r).respell k.respell =
    .binary (l.respell k.respell) (k.respell.token t) (r.respell k.respell) := rfl
  have hlogical (l r : Expr) (t : Token) : (Expr.logical l t r).respell k.respell =
    .logical (l.respell k.respell) (k.respell.token t) (r.respell k.respell) := rfl
  have hfactor : Follows k _ (factor nested) (factor nested') :=
    follows_leftAssociative (follows_unary h) fun l t r => hbinary l r t
  have hterm : Follows k _ (term nested) (term nested') :=
    follows_leftAssociative hfactor fun l t r => hbinary l r t
  have hcomparison : Follows k _ (comparison nested) (comparison nested') :=
    follows_leftAssociative hterm fun l t r => hbinary l r t
  have hequality : Follows k _ (equality nested) (equality nested') :=
    follows_leftAssociative hcomparison fun l t r => hbinary l r t
  have hconjunction : Follows k _ (conjunction nested) (conjunction nested') :=
    follows_leftAssociative hequality fun l t r => hlogical l r t
  exact follows_leftAssociative hconjunction fun l t r => hlogical l r t

theorem follows_assignment (h : Follows k (Expr.respell k.respell) nested nested') :
    Follows k (Expr.respell k.respell) (assignment nested) (assignment nested') := by
  refine (follows_disjunction h).bind fun target => (Follows.accept? _).bind fun equals => ?_
  cases equals with
  | none => exact .pure _ target
  | some equals =>
    refine h.bind fun value => ?_
    cases target with
    | «variable» r => exact Follows.freshNode.bind fun n => .pure _ (Expr.assign ⟨n, r.name⟩ value)
    | get object name => exact .pure _ (Expr.set object name value)
    | _ => exact (Follows.record _ _).bind fun _ => .pure _ _

/-- The second parser may have more levels to spare, unless the comparison is exact. -/
theorem follows_expressionUpTo (depth : Nat) : ∀ depth' : Nat, depth ≤ depth' →
    (k.exact → depth = depth') →
    Follows k (Expr.respell k.respell) (expressionUpTo depth) (expressionUpTo depth') := by
  induction depth with
  | zero =>
    intro depth' _ hx
    by_cases he : k.exact
    · obtain rfl := hx he
      exact .fail _ rfl
    · exact .fail_left _ rfl _ he
  | succ depth ih =>
    intro depth' hd hx
    cases depth' with
    | zero => exact absurd hd (Nat.not_succ_le_zero depth)
    | succ depth' =>
      exact follows_assignment (ih depth' (Nat.le_of_succ_le_succ hd) fun he =>
        Nat.succ.inj (hx he))

theorem expression_apply (c : Cursor) :
    expression c = expressionUpTo (c.pending.length + 1) c := rfl

theorem follows_expression : Follows k (Expr.respell k.respell) expression expression where
  reads c := by
    rw [expression_apply]
    exact (follows_expressionUpTo (k := k) _ _ (Nat.le_refl _) fun _ => rfl).reads c
  faults c := by
    rw [expression_apply]
    exact (follows_expressionUpTo (k := k) _ _ (Nat.le_refl _) fun _ => rfl).faults c
  along c d h := by
    have hp := congrArg List.length h.pending
    rw [List.length_append, List.length_map] at hp
    rw [expression_apply, expression_apply]
    refine (follows_expressionUpTo _ _ ?_ fun he => ?_).along c d h
    · omega
    · rw [k.more_nil he] at hp
      exact congrArg (· + 1) hp.symm

end Expressions

theorem follows_parameters :
    Follows k (List.map k.respell.token) parameters parameters :=
  (Follows.check _).bind fun _ => .ite _ (.pure _ []) (follows_commaSeparated (.expect _) _)

theorem follows_bodyGoesOn : Follows k id bodyGoesOn bodyGoesOn := by
  refine (Follows.check _).bind fun closes => ?_
  cases closes with
  | false => exact Follows.atEnd.bind fun ends => .pure _ (!ends)
  | true => exact .pure _ false

theorem follows_superclass? :
    Follows k (Option.map (Reference.respell k.respell)) superclass? superclass? :=
  (Follows.accept _).bind fun _ => .ite _
    ((Follows.expect _).bind fun name => Follows.freshNode.bind
      fun n => .pure _ (some (Reference.mk n name)))
    (.pure _ none)

theorem follows_expressionUnless (kind : TokenKind) :
    Follows k (Option.map (Expr.respell k.respell)) (expressionUnless kind)
      (expressionUnless kind) :=
  (Follows.check _).bind fun _ => .ite _ (.pure _ none) (follows_expression.map fun _ => rfl)

section Declarations

variable {block block' : Parser (List Stmt)}

theorem closes_function (callable : Callable)
    (h : Closes k (List.map (Stmt.respell k.respell)) block block') :
    Closes k (FunctionDecl.respell k.respell) (function callable block)
      (function callable block') := by
  refine (Follows.expect _).before fun name => (Follows.expect _).before fun _ =>
    follows_parameters.before fun params => (Follows.expect _).before fun _ =>
    (Follows.expect _).before fun _ => h.bind fun body => ?_
  rw [← Stmt.respellAll_eq_map]
  exact .pure _ (FunctionDecl.mk name params body)

theorem closes_classDeclaration
    (h : Closes k (List.map (Stmt.respell k.respell)) block block') :
    Closes k (Stmt.respell k.respell) (classDeclaration block) (classDeclaration block') := by
  refine (Follows.expect _).before fun name => follows_superclass?.before fun superclass =>
    (Follows.expect _).before fun _ => ?_
  refine (Follows.iterate (φ := Array.map (FunctionDecl.respell k.respell)) (fun methods => ?_)
    (fun methods => ?_) (by simp)).before fun methods => (Closes.expect _).bind fun _ => ?_
  · refine follows_bodyGoesOn.bind fun _ => .ite _ ?_ (.pure _ none)
    refine (closes_function _ h).toFollows.bind fun f => ?_
    rw [← Array.map_push]
    exact .pure _ (some (methods.push f))
  · refine Shortens.later (follows_bodyGoesOn (k := k)).toReads fun b => ?_
    split
    · exact (closes_function _ h).shortens.first fun _ => .pure _
    · exact .pure_none
  · rw [Array.toList_map, ← FunctionDecl.respellAll_eq_map]
    exact .pure _ (Stmt.classDecl name superclass methods.toList)

end Declarations

theorem closes_varDeclaration :
    Closes k (Stmt.respell k.respell) varDeclaration varDeclaration := by
  refine (Follows.expect _).before fun name => (Follows.accept _).before fun given => ?_
  cases given with
  | false => exact (Closes.expect _).bind fun _ => .pure _ (Stmt.varDecl name none)
  | true =>
    have h : Follows k (Option.map (Expr.respell k.respell)) (some <$> expression)
        (some <$> expression) := follows_expression.map fun _ => rfl
    exact h.before fun e => (Closes.expect _).bind fun _ => .pure _ (Stmt.varDecl name e)

theorem closes_expressionStatement :
    Closes k (Stmt.respell k.respell) expressionStatement expressionStatement :=
  follows_expression.before fun e => (Closes.expect _).bind fun _ => .pure _ (Stmt.expression e)

theorem closes_printStatement : Closes k (Stmt.respell k.respell) printStatement printStatement :=
  follows_expression.before fun e => (Closes.expect _).bind fun _ => .pure _ (Stmt.print e)

theorem closes_returnStatement (keyword : Token) :
    Closes k (Stmt.respell k.respell) (returnStatement keyword)
      (returnStatement (k.respell.token keyword)) :=
  (follows_expressionUnless _).before fun e => (Closes.expect _).bind
    fun _ => .pure _ (Stmt.returning keyword e)

theorem follows_forInitializer :
    Follows k (Option.map (Stmt.respell k.respell)) forInitializer forInitializer :=
  (Follows.accept _).bind fun _ => .ite _ (.pure _ none) <| (Follows.accept _).bind fun _ => .ite _
    (closes_varDeclaration.toFollows.map fun _ => rfl)
    (closes_expressionStatement.toFollows.map fun _ => rfl)

section Statements

variable {nested nested' : Parser Stmt} {declared declared' : Parser (Option Stmt)}

theorem closes_forStatement (h : Closes k (Stmt.respell k.respell) nested nested') :
    Closes k (Stmt.respell k.respell) (forStatement nested) (forStatement nested') := by
  refine (Follows.expect _).before fun _ => follows_forInitializer.before fun initializer =>
    (follows_expressionUnless _).before fun condition => (Follows.expect _).before fun _ =>
    (follows_expressionUnless _).before fun increment => (Follows.expect _).before fun _ =>
    h.bind fun body => ?_
  have hcondition : (condition.map (Expr.respell k.respell)).getD (.constant (.bool true)) =
      (condition.getD (.constant (.bool true))).respell k.respell := by
    cases condition <;> rfl
  rw [hcondition]
  cases initializer with
  | none => exact .pure _ (Stmt.loop _ body increment)
  | some first => exact .pure _ (Stmt.block [first, .loop _ body increment])

theorem closes_ifStatement (h : Closes k (Stmt.respell k.respell) nested nested') :
    Closes k (Stmt.respell k.respell) (ifStatement nested) (ifStatement nested') :=
  (Follows.expect _).before fun _ => follows_expression.before fun e =>
    (Follows.expect _).before fun _ => h.bind fun s => Settles.acceptElse.bind fun _ => .ite _
      (h.toSettles.bind fun t => .pure _ (Stmt.ifElse e s t)) (.pure _ (Stmt.ifThen e s))

theorem closes_whileStatement (h : Closes k (Stmt.respell k.respell) nested nested') :
    Closes k (Stmt.respell k.respell) (whileStatement nested) (whileStatement nested') :=
  (Follows.expect _).before fun _ => follows_expression.before fun e =>
    (Follows.expect _).before fun _ => h.bind fun s => .pure _ (Stmt.loop e s none)

/-- A declaration goes behind those that were gathered before it, if one is read. -/
theorem follows_gather (h : Follows k (Option.map (Stmt.respell k.respell)) declared declared')
    (body : Array Stmt) : Follows k (Option.map (Array.map (Stmt.respell k.respell)))
      (do match ← declared with
          | some s => return some (body.push s)
          | none => return some body)
      (do match ← declared' with
          | some s => return some ((body.map (Stmt.respell k.respell)).push s)
          | none => return some (body.map (Stmt.respell k.respell))) := by
  refine h.bind fun s => ?_
  cases s with
  | none => exact .pure _ (some body)
  | some s =>
    have hpush : (body.map (Stmt.respell k.respell)).push (s.respell k.respell) =
      (body.push s).map (Stmt.respell k.respell) := by simp
    simp only [Option.map_some, hpush]
    exact .pure _ (some (body.push s))

theorem shortens_gather {Q : Option (Array Stmt) → Prop} (hs : Shortens (fun _ => True) declared)
    (body : Array Stmt) : Shortens Q
      (do match ← declared with
          | some s => return some (body.push s)
          | none => return some body) := by
  refine hs.first fun s => ?_
  cases s with
  | none => exact .pure _
  | some s => exact .pure _

theorem closes_block (h : Follows k (Option.map (Stmt.respell k.respell)) declared declared')
    (hs : Shortens (fun _ => True) declared) :
    Closes k (List.map (Stmt.respell k.respell)) (block declared) (block declared') := by
  refine (Follows.iterate (φ := Array.map (Stmt.respell k.respell)) (fun body => ?_)
    (fun body => ?_) (by simp)).before fun body => (Closes.expect _).bind fun _ => ?_
  · exact follows_bodyGoesOn.bind fun _ => .ite _ (follows_gather h body) (.pure _ none)
  · refine Shortens.later (follows_bodyGoesOn (k := k)).toReads fun b => ?_
    split
    · exact shortens_gather hs body
    · exact .pure_none
  · rw [Array.toList_map]
    exact .pure _ body.toList

theorem closes_statement (h : Closes k (Stmt.respell k.respell) nested nested')
    (hd : Follows k (Option.map (Stmt.respell k.respell)) declared declared')
    (hs : Shortens (fun _ => True) declared) :
    Closes k (Stmt.respell k.respell) (statement nested declared)
      (statement nested' declared') := by
  refine Follows.peek.before fun t => ?_
  simp only [Respelling.kind]
  split
  · exact Follows.advance.before fun _ => closes_forStatement h
  · exact Follows.advance.before fun _ => closes_ifStatement h
  · exact Follows.advance.before fun _ => closes_printStatement
  · exact Follows.advance.before fun _ => closes_returnStatement t
  · exact Follows.advance.before fun _ => closes_whileStatement h
  · exact Follows.advance.before fun _ => (Closes.expect _).bind
      fun _ => .pure _ (Stmt.breaking t)
  · exact Follows.advance.before fun _ => (Closes.expect _).bind
      fun _ => .pure _ (Stmt.continuing t)
  · refine Follows.advance.before fun _ => (closes_block hd hs).bind fun body => ?_
    rw [← Stmt.respellAll_eq_map]
    exact .pure _ (Stmt.block body)
  · exact closes_expressionStatement

/-- A declaration before what is done about its errors. -/
theorem closes_declared (h : Closes k (Stmt.respell k.respell) nested nested')
    (hd : Follows k (Option.map (Stmt.respell k.respell)) declared declared')
    (hs : Shortens (fun _ => True) declared) :
    Closes k (Stmt.respell k.respell)
      (do
        match (← peek).kind with
        | .kwClass => do advance; classDeclaration (block declared)
        | .kwFun => do advance; return .function (← function .function (block declared))
        | .kwVar => do advance; varDeclaration
        | _ => nested)
      (do
        match (← peek).kind with
        | .kwClass => do advance; classDeclaration (block declared')
        | .kwFun => do advance; return .function (← function .function (block declared'))
        | .kwVar => do advance; varDeclaration
        | _ => nested') := by
  refine Follows.peek.before fun t => ?_
  simp only [Respelling.kind]
  split
  · exact Follows.advance.before fun _ => closes_classDeclaration (closes_block hd hs)
  · exact Follows.advance.before fun _ => (closes_function _ (closes_block hd hs)).bind
      fun f => .pure _ (Stmt.function f)
  · exact Follows.advance.before fun _ => closes_varDeclaration
  · exact h

theorem settles_declaration (h : Closes k (Stmt.respell k.respell) nested nested')
    (hd : Follows k (Option.map (Stmt.respell k.respell)) declared declared')
    (hs : Shortens (fun _ => True) declared) :
    Settles k (Option.map (Stmt.respell k.respell)) (declaration nested declared)
        (declaration nested' declared') ∧
      Shortens (fun _ => True) (declaration nested declared) := by
  have hc := closes_declared h hd hs
  exact ⟨hc.toSettles.recovering, hc.shortens.recovering hc.toReads⟩

end Statements

/-- What statements and declarations of some number of levels have in common with those of
another. -/
structure LevelsFollow (k : Comparison) (depth depth' : Nat) : Prop where
  statement : Closes k (Stmt.respell k.respell) (statementUpTo depth) (statementUpTo depth')
  declaration : Settles k (Option.map (Stmt.respell k.respell)) (declarationUpTo depth)
    (declarationUpTo depth')
  shortens : Shortens (fun _ => True) (declarationUpTo depth)

theorem levelsFollow (depth : Nat) : ∀ depth' : Nat, depth ≤ depth' →
    (k.exact → depth = depth') → LevelsFollow k depth depth' := by
  induction depth with
  | zero =>
    intro depth' _ hx
    have hs : Shortens (fun _ => True) (declarationUpTo 0) :=
      (Shortens.fail _).recovering (.fail rfl)
    by_cases he : k.exact
    · obtain rfl := hx he
      exact ⟨.fail _ rfl, (Closes.fail _ rfl).toSettles.recovering, hs⟩
    · refine ⟨.fail_left _ rfl _ he, ?_, hs⟩
      cases depth' with
      | zero => exact (Closes.fail_left _ rfl _ he).toSettles.recovering
      | succ depth' => exact (Closes.fail_left _ rfl _ he).toSettles.recovering
  | succ depth ih =>
    intro depth' hd hx
    cases depth' with
    | zero => exact absurd hd (Nat.not_succ_le_zero depth)
    | succ depth' =>
      obtain ⟨hs, hd, hds⟩ := ih depth' (Nat.le_of_succ_le_succ hd) fun he =>
        Nat.succ.inj (hx he)
      have hdeclaration := settles_declaration hs hd.toFollows hds
      exact ⟨closes_statement hs hd.toFollows hds, hdeclaration.1, hdeclaration.2⟩

/-- A whole program ends where the input does, so nothing is said of it if tokens are added. -/
theorem follows_program (depth : Nat) :
    Follows k (List.map (Stmt.respell k.respell)) (program depth) (program depth) := by
  obtain ⟨-, h, hs⟩ := levelsFollow (k := k) depth depth (Nat.le_refl _) fun _ => rfl
  refine (Follows.iterate (φ := Array.map (Stmt.respell k.respell)) (fun body => ?_)
    (fun body => ?_) (by simp)).bind fun body => ?_
  · exact Follows.atEnd.bind fun _ => .ite _ (.pure _ none) (follows_gather h.toFollows body)
  · refine Shortens.later .atEnd fun b => ?_
    split
    · exact .pure_none
    · exact shortens_gather hs body
  · rw [Array.toList_map]
    exact .pure _ body.toList

end Lox.Grammar
