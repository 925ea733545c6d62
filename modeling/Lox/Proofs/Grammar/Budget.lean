import Lox.Proofs.Grammar.Completeness.Statement
import Lox.Proofs.Grammar.Thrift

/-! What the rules of the grammar cost.

Each rule is frugal when the nested expressions and statements are: it reads a token before it
comes to them, and its errors are paid. A declaration is read or given up, and in both cases the
cursor moves on and the load does not grow, since the token at fault is skipped and pays. -/

namespace Lox.Grammar

open Lox.Parser

variable {n : Nat}

section Expressions

variable {nested nested' : Parser Expr}

theorem frugal_primary (h : Frugal n nested nested') :
    Frugal (n + 1) (primary nested) (primary nested') := by
  refine Chosen.frugal fun t => ?_
  split
  case h_10 => exact .inl (.fail _)
  all_goals
    rename_i hk
    refine .advance (by simp [hk]) fun _ => ?_
  · exact .pure _
  · exact .pure _
  · exact .pure _
  · exact .pure _
  · exact .pure _
  · exact (Frugal.expect _).steady.bind fun _ => (Frugal.expect _).steady.bind fun _ =>
      Harmless.freshNode.steady fun _ => .pure _
  · exact Harmless.freshNode.steady fun _ => .pure _
  · exact Harmless.freshNode.steady fun _ => .pure _
  · exact h.steady.bind fun _ => (Frugal.expect _).steady.bind fun _ => .pure _

/-- The comma pays for an item beyond the limit. -/
theorem steady_commaSeparated {α : Type} {item item' : Parser α} (h : Frugal n item item')
    (fault : ParseFault) :
    Steady 0 n (commaSeparated item fault) (commaSeparated item' fault) := by
  have hadd (items : Array α) : Steady 0 n (item >>= fun a => pure (some (items.push a)))
      (item' >>= fun a => pure (some (items.push a))) :=
    h.steady.bind fun _ => .pure _
  refine h.steady.bind fun first => (Steady.iterate (fun items => ?_) #[first]).bind
    fun items => .pure items.toList
  refine .accepted (.ite _ ?_ ((hadd items).weaken (Nat.zero_le 1))) (.pure none)
  exact Harmless.peek.steady fun t => (Steady.record t fault).bind fun _ => hadd items

theorem steady_arguments (h : Frugal n nested nested') :
    Steady 0 n (arguments nested) (arguments nested') :=
  (Harmless.check _).steady fun _ => .ite _ (.pure _) (steady_commaSeparated h _)

theorem steady_suffix? (h : Frugal n nested nested') (object : Expr) :
    Steady 0 n (suffix? nested object) (suffix? nested' object) :=
  (Harmless.accept _).steady fun _ => .ite _
    ((steady_arguments h).bind fun _ => (Frugal.expect _).steady.bind fun _ => .pure _)
    ((Harmless.accept _).steady fun _ => .ite _
      ((Frugal.expect _).steady.bind fun _ => .pure _) (.pure _))

theorem frugal_call (h : Frugal n nested nested') :
    Frugal (n + 1) (call nested) (call nested') :=
  (frugal_primary h).bind fun e => .iterate (steady_suffix? h) e

theorem harmless_iterate {α : Type} {next : α → Parser (Option α)} (h : ∀ a, Harmless (next a))
    (a : α) : Harmless (iterate next a) := by
  have hup : ∀ (m : Nat) (a : α), Harmless (iterateUpTo m next a) := by
    intro m
    induction m with
    | zero => exact .pure
    | succ m ih =>
      refine fun a => (h a).bind fun b? => ?_
      cases b? with
      | none => exact .pure a
      | some b => exact ih b
  refine (h a).bind fun b? => ?_
  cases b? with
  | none => exact .pure a
  | some b => exact ⟨.sized fun m => (hup m b).guarded, fun c => (hup _ b).yields c⟩

theorem harmless_unaryOperators : Harmless unaryOperators :=
  harmless_iterate (fun _ => (Harmless.acceptIf? _).bind fun _ => .pure _) []

theorem frugal_unary (h : Frugal n nested nested') :
    Frugal (n + 1) (unary nested) (unary nested') :=
  harmless_unaryOperators.frugal fun _ => (frugal_call h).bind fun _ => .pure _

theorem frugal_leftAssociative {isOperator : TokenKind → Bool} {node : Expr → Token → Expr → Expr}
    {operand operand' : Parser Expr} (h : Frugal (n + 1) operand operand') :
    Frugal (n + 1) (leftAssociative isOperator node operand)
      (leftAssociative isOperator node operand') := by
  refine h.bind fun first => .iterate (fun left => (Harmless.acceptIf? _).steady fun t => ?_) first
  cases t with
  | none => exact .pure _
  | some operator => exact (h.mono (Nat.le_succ n)).steady.bind fun _ => .pure _

/-- Every level but that of assignments, which are read from the operands on. -/
theorem frugal_atLevel (h : Frugal n nested nested') (k : Nat) (hk : 1 ≤ k) :
    Frugal (n + 1) (atLevel nested k) (atLevel nested' k) := by
  have hunary : Frugal (n + 1) (atLevel nested 7) (atLevel nested' 7) := frugal_unary h
  have hfactor : Frugal (n + 1) (atLevel nested 6) (atLevel nested' 6) :=
    frugal_leftAssociative hunary
  have hterm : Frugal (n + 1) (atLevel nested 5) (atLevel nested' 5) :=
    frugal_leftAssociative hfactor
  have hcomparison : Frugal (n + 1) (atLevel nested 4) (atLevel nested' 4) :=
    frugal_leftAssociative hterm
  have hequality : Frugal (n + 1) (atLevel nested 3) (atLevel nested' 3) :=
    frugal_leftAssociative hcomparison
  have hconjunction : Frugal (n + 1) (atLevel nested 2) (atLevel nested' 2) :=
    frugal_leftAssociative hequality
  match k with
  | 1 => exact frugal_leftAssociative hconjunction
  | 2 => exact hconjunction
  | 3 => exact hequality
  | 4 => exact hcomparison
  | 5 => exact hterm
  | 6 => exact hfactor
  | 7 => exact hunary
  | 8 => exact frugal_call h
  | _ + 9 => exact frugal_primary h

/-- The value pays for a target that cannot be assigned to. -/
theorem frugal_assignment (h : Frugal n nested nested') :
    Frugal (n + 1) (assignment nested) (assignment nested') := by
  refine (frugal_atLevel h 1 (Nat.le_refl 1)).bind fun target => ?_
  refine (Harmless.acceptIf? _).steady fun equals => ?_
  cases equals with
  | none => exact .pure target
  | some equals =>
    refine h.pays fun value => ?_
    have hrecord (e : Expr) : Steady 1 n
        (record equals .invalidAssignmentTarget >>= fun _ => pure e)
        (record equals .invalidAssignmentTarget >>= fun _ => pure e) :=
      (Steady.record _ _).bind fun _ => .pure _
    cases target with
    | «variable» r => exact (Harmless.freshNode.steady fun _ => .pure _).weaken (Nat.zero_le 1)
    | get object name => exact (Steady.pure _).weaken (Nat.zero_le 1)
    | _ => exact hrecord _

/-- As many levels as there are tokens, and one more, are as good as any number. -/
theorem frugal_expressionUpTo (depth : Nat) : ∀ depth' n : Nat, n ≤ depth → n ≤ depth' →
    Frugal n (expressionUpTo depth) (expressionUpTo depth') := by
  induction depth with
  | zero =>
    intro depth' n hn _
    obtain rfl : n = 0 := by omega
    exact .fail_left _ _
  | succ depth ih =>
    intro depth' n hn hn'
    cases n with
    | zero => exact (frugal_assignment (ih depth 0 (Nat.zero_le _) (Nat.zero_le _))).zero _
    | succ n =>
      cases depth' with
      | zero => omega
      | succ depth' => exact frugal_assignment (ih depth' n (by omega) (by omega))

theorem frugal_expression : Frugal n expression expression :=
  .sized (fun m => expressionUpTo (m + 1)) (fun m => expressionUpTo (m + 1)) fun m =>
    (frugal_expressionUpTo (m + 1) (m + 1) 0 (Nat.zero_le _) (Nat.zero_le _)).self

end Expressions

theorem steady_parameters : Steady 0 n parameters parameters :=
  (Harmless.check _).steady fun _ => .ite _ (.pure _) (steady_commaSeparated (.expect _) _)

theorem harmless_bodyGoesOn : Harmless bodyGoesOn := by
  refine (Harmless.check _).bind fun closes => ?_
  cases closes with
  | false => exact Harmless.atEnd.bind fun _ => .pure _
  | true => exact .pure _

theorem steady_superclass? : Steady 0 n superclass? superclass? :=
  (Harmless.accept _).steady fun _ => .ite _
    ((Frugal.expect _).steady.bind fun _ => Harmless.freshNode.steady fun _ => .pure _) (.pure _)

theorem steady_expressionUnless (kind : TokenKind) :
    Steady 0 n (expressionUnless kind) (expressionUnless kind) :=
  (Harmless.check _).steady fun _ => .ite _ (.pure _)
    (frugal_expression.steady.bind fun _ => .pure _)

section Declarations

variable {block block' : Parser (List Stmt)}

theorem frugal_function (callable : Callable) (h : Steady 0 n block block') :
    Frugal (n + 1) (function callable block) (function callable block') :=
  (Frugal.expect _).bind fun _ => (Frugal.expect _).steady.bind fun _ =>
    steady_parameters.bind fun _ => (Frugal.expect _).steady.bind fun _ =>
    (Frugal.expect _).steady.bind fun _ => h.bind fun _ => .pure _

theorem steady_function (callable : Callable) (h : Steady 0 n block block') :
    Steady 0 n (function callable block) (function callable block') :=
  ((frugal_function callable h).mono (Nat.le_succ n)).steady

theorem steady_classDeclaration (h : Steady 0 n block block') :
    Steady 0 n (classDeclaration block) (classDeclaration block') := by
  refine (Frugal.expect _).steady.bind fun _ => steady_superclass?.bind fun _ =>
    (Frugal.expect _).steady.bind fun _ => (Steady.iterate (fun methods => ?_) _).bind fun _ =>
    (Frugal.expect _).steady.bind fun _ => .pure _
  exact harmless_bodyGoesOn.steady fun _ => .ite _
    ((steady_function _ h).bind fun _ => .pure _) (.pure _)

end Declarations

theorem steady_varDeclaration : Steady 0 n varDeclaration varDeclaration := by
  refine (Frugal.expect _).steady.bind fun _ => (Harmless.accept _).steady fun given => ?_
  cases given with
  | false => exact (Frugal.expect _).steady.bind fun _ => .pure _
  | true =>
    have h : Steady 0 n (some <$> expression) (some <$> expression) :=
      frugal_expression.steady.bind fun _ => .pure _
    exact h.bind fun _ => (Frugal.expect _).steady.bind fun _ => .pure _

theorem frugal_expressionStatement : Frugal (n + 1) expressionStatement expressionStatement :=
  frugal_expression.bind fun _ => (Frugal.expect _).steady.bind fun _ => .pure _

theorem steady_forInitializer : Steady 0 n forInitializer forInitializer :=
  (Harmless.accept _).steady fun _ => .ite _ (.pure _) <| (Harmless.accept _).steady fun _ =>
    .ite _ (steady_varDeclaration.bind fun _ => .pure _)
      ((frugal_expressionStatement.mono (Nat.le_succ n)).steady.bind fun _ => .pure _)

theorem steady_printStatement : Steady 0 n printStatement printStatement :=
  frugal_expression.steady.bind fun _ => (Frugal.expect _).steady.bind fun _ => .pure _

theorem steady_returnStatement (keyword : Token) :
    Steady 0 n (returnStatement keyword) (returnStatement keyword) :=
  (steady_expressionUnless _).bind fun _ => (Frugal.expect _).steady.bind fun _ => .pure _

/-- What a parser of declarations is to do before the end of input: it moves on, and the load does
not grow. -/
structure Forward (n : Nat) (p q : Parser (Option Stmt)) : Prop extends Keeps n p q where
  yields : ∀ c : Cursor, (p c).1.isSome
  shorter : ∀ c : Cursor, c.finish.kind = .eof → c.pending ≠ [] →
    (p c).2.pending.length < c.pending.length
  load_le : ∀ c : Cursor, c.finish.kind = .eof → c.pending ≠ [] → (p c).2.load ≤ c.load

theorem length_afterFault_le (ts : List Token) : (afterFault ts).length ≤ ts.length - 1 := by
  cases ts with
  | nil => exact Nat.le_refl _
  | cons t rest => exact (Reads.skipToBoundary_suffix rest t.kind).length_le

/-- Skipping the token at fault pays for the error. -/
theorem Forward.of_recovering {p q : Parser Stmt} (h : Frugal n p q) :
    Forward n (recovering p) (recovering q) where
  guarded := h.guarded.recovering
  same c hf hn := by
    unfold recovering
    rw [h.same c hf hn]
  yields c := by
    unfold recovering
    rcases p c with ⟨_ | s, d⟩ <;> rfl
  shorter c hf hp := by
    have hpos := List.length_pos_iff.mpr hp
    unfold recovering
    rcases hd : p c with ⟨_ | s, d⟩
    · have := h.length_le hd
      have := length_afterFault_le d.pending
      simp only
      omega
    · exact h.shorter hf hd
  load_le c hf hp := by
    have hpos := List.length_pos_iff.mpr hp
    unfold recovering
    rcases hd : p c with ⟨_ | s, d⟩
    · have howes := h.owes c d hf hd
      have := length_afterFault_le d.pending
      simp only [Cursor.load, Cursor.debt, Cursor.room] at howes ⊢
      omega
    · exact Nat.le_of_lt (h.gains c d s hf hd)

section Statements

variable {nested nested' : Parser Stmt} {declared declared' : Parser (Option Stmt)}

theorem steady_forStatement (h : Steady 0 n nested nested') :
    Steady 0 n (forStatement nested) (forStatement nested') :=
  (Frugal.expect _).steady.bind fun _ => steady_forInitializer.bind fun _ =>
    (steady_expressionUnless _).bind fun _ => (Frugal.expect _).steady.bind fun _ =>
    (steady_expressionUnless _).bind fun _ => (Frugal.expect _).steady.bind fun _ =>
    h.bind fun _ => .pure _

theorem steady_ifStatement (h : Steady 0 n nested nested') :
    Steady 0 n (ifStatement nested) (ifStatement nested') :=
  (Frugal.expect _).steady.bind fun _ => frugal_expression.steady.bind fun _ =>
    (Frugal.expect _).steady.bind fun _ => h.bind fun _ => (Harmless.accept _).steady fun _ =>
    .ite _ (h.bind fun _ => .pure _) (.pure _)

theorem steady_whileStatement (h : Steady 0 n nested nested') :
    Steady 0 n (whileStatement nested) (whileStatement nested') :=
  (Frugal.expect _).steady.bind fun _ => frugal_expression.steady.bind fun _ =>
    (Frugal.expect _).steady.bind fun _ => h.bind fun _ => .pure _

end Statements

section Loops

/-- A loop that stops where it is told to, before the end of input at the latest, and elsewhere adds
the declaration that it reads. -/
structure Gathers (stops : Cursor → Bool) (declared : Parser (Option Stmt))
    (next : Array Stmt → Parser (Option (Array Stmt))) : Prop where
  before_end : ∀ c : Cursor, stops c = false → c.pending ≠ []
  guarded : Guarded declared → ∀ body, Guarded (next body)
  turn : ∀ (body : Array Stmt) (c : Cursor), next body c =
    if stops c then (some none, c)
    else ((declared c).1.map fun s? => some (s?.elim body body.push), (declared c).2)

theorem bodyGoesOn_eq (c : Cursor) : bodyGoesOn c = (some !c.closes, c) := by
  cases hb : c.check .rightBrace <;>
    simp [bodyGoesOn, bind_apply, Parser.check, atEnd, Cursor.closes, hb]

theorem gathers_blockNext (declared : Parser (Option Stmt)) :
    Gathers Cursor.closes declared (blockNext declared) where
  before_end c hc hn := by simp [Cursor.closes, Cursor.atEnd, hn] at hc
  guarded h body := by
    refine harmless_bodyGoesOn.guarded.bind fun _ => .ite _ (h.bind fun s? => ?_) (.pure none)
    cases s? <;> exact .pure _
  turn body c := by
    rw [blockNext, bind_apply, bodyGoesOn_eq]
    cases Cursor.closes c with
    | true => rfl
    | false =>
      simp only [Bool.not_false, if_true, bind_apply, Bool.false_eq_true, if_false]
      rcases declared c with ⟨_ | _ | s, d⟩ <;> rfl

theorem gathers_declareNext (depth : Nat) :
    Gathers Cursor.atEnd (declarationUpTo depth) (declareNext depth) where
  before_end c hc hn := by simp [Cursor.atEnd, hn] at hc
  guarded h body := by
    refine Harmless.atEnd.guarded.bind fun _ => .ite _ (.pure none) (h.bind fun s? => ?_)
    cases s? <;> exact .pure _
  turn body c := by
    cases he : c.atEnd <;> simp [declareNext, bind_apply, atEnd, he]
    rcases declarationUpTo depth c with ⟨_ | _ | s, d⟩ <;> rfl

variable {declared declared' : Parser (Option Stmt)} {stops : Cursor → Bool}
  {next next' : Array Stmt → Parser (Option (Array Stmt))}

/-- The declarations that are gathered cost no more than their own tokens. -/
theorem Forward.gathers (h : Forward n declared declared') (hg : Gathers stops declared next)
    (hg' : Gathers stops declared' next') (body : Array Stmt) :
    Steady 0 n (next body) (next' body) where
  guarded := hg.guarded h.guarded body
  same c hf hn := by
    rw [hg.turn, hg'.turn, h.same c hf hn]
  gains c d b hf hd := by
    rw [hg.turn] at hd
    split at hd
    · obtain ⟨-, rfl⟩ := Prod.mk.inj hd
      exact Nat.le_refl _
    · rename_i hs
      obtain ⟨-, rfl⟩ := Prod.mk.inj hd
      exact h.load_le c hf (hg.before_end c (by simpa using hs))
  owes c d hf hd := by
    rw [hg.turn] at hd
    split at hd
    · cases hd
    · have hy := h.yields c
      rw [Option.map_eq_none_iff.mp (Prod.mk.inj hd).1] at hy
      cases hy

theorem Forward.steady_block (h : Forward n declared declared') :
    Steady 0 n (block declared) (block declared') := by
  rw [block_eq, block_eq]
  exact (Steady.iterate (h.gathers (gathers_blockNext _) (gathers_blockNext _)) _).bind fun _ =>
    (Frugal.expect _).steady.bind fun _ => .pure _

end Loops

section Levels

variable {nested nested' : Parser Stmt} {declared declared' : Parser (Option Stmt)}

theorem frugal_statement (h : Steady 0 n nested nested') (hd : Forward n declared declared') :
    Frugal (n + 1) (statement nested declared) (statement nested' declared') := by
  refine Chosen.frugal fun t => ?_
  split
  case h_9 => exact .inl frugal_expressionStatement
  all_goals
    rename_i hk
    refine .advance (by simp [hk]) fun _ => ?_
  · exact steady_forStatement h
  · exact steady_ifStatement h
  · exact steady_printStatement
  · exact steady_returnStatement t
  · exact steady_whileStatement h
  · exact (Frugal.expect _).steady.bind fun _ => .pure _
  · exact (Frugal.expect _).steady.bind fun _ => .pure _
  · exact hd.steady_block.bind fun _ => .pure _

theorem forward_declaration (h : Frugal (n + 1) nested nested')
    (hd : Forward n declared declared') :
    Forward (n + 1) (declaration nested declared) (declaration nested' declared') := by
  refine .of_recovering (Chosen.frugal fun t => ?_)
  split
  case h_4 => exact .inl h
  all_goals
    rename_i hk
    refine .advance (by simp [hk]) fun _ => ?_
  · exact steady_classDeclaration hd.steady_block
  · exact (steady_function _ hd.steady_block).bind fun _ => .pure _
  · exact steady_varDeclaration

theorem Forward.zero (h : Forward n declared declared') (q : Parser (Option Stmt)) :
    Forward 0 declared q where
  toKeeps := h.toKeeps.zero q
  yields := h.yields
  shorter := h.shorter
  load_le := h.load_le

/-- A statement takes two levels for each of its tokens at most, and a declaration one more, so that
this many levels are as good as any number. -/
theorem levels_suffice (depth : Nat) : ∀ depth' n : Nat,
    (2 * n ≤ depth + 1 → 2 * n ≤ depth' + 1 →
      Frugal n (statementUpTo depth) (statementUpTo depth')) ∧
    (2 * n ≤ depth → 2 * n ≤ depth' →
      Forward n (declarationUpTo depth) (declarationUpTo depth')) := by
  induction depth with
  | zero =>
    intro depth' n
    constructor
    · intro hn _
      obtain rfl : n = 0 := by omega
      exact .fail_left _ _
    · intro hn _
      obtain rfl : n = 0 := by omega
      exact (Forward.of_recovering (.fail_left _ (Parser.fail .expectedExpression))).zero _
  | succ depth ih =>
    intro depth' n
    have hstatement := (ih depth 0).1 (Nat.zero_le _) (Nat.zero_le _)
    have hdeclaration := (ih depth 0).2 (Nat.zero_le _) (Nat.zero_le _)
    constructor
    · intro hn hn'
      cases n with
      | zero => exact (frugal_statement hstatement.steady hdeclaration).zero _
      | succ n =>
        cases depth' with
        | zero => omega
        | succ depth' =>
          exact frugal_statement ((ih depth' n).1 (by omega) (by omega)).steady
            ((ih depth' n).2 (by omega) (by omega))
    · intro hn hn'
      cases n with
      | zero => exact (forward_declaration hstatement.self hdeclaration).zero _
      | succ n =>
        cases depth' with
        | zero => omega
        | succ depth' =>
          exact forward_declaration ((ih depth' (n + 1)).1 (by omega) (by omega))
            ((ih depth' n).2 (by omega) (by omega))

theorem forward_declarationUpTo (depth : Nat) :
    Forward 0 (declarationUpTo depth) (declarationUpTo depth) :=
  (levels_suffice depth depth 0).2 (Nat.zero_le _) (Nat.zero_le _)

theorem steady_program (depth depth' : Nat) (hn : 2 * n ≤ depth) (hn' : 2 * n ≤ depth') :
    Steady 0 n (program depth) (program depth') := by
  rw [program_eq, program_eq]
  exact (Steady.iterate (((levels_suffice depth depth' n).2 hn hn').gathers
    (gathers_declareNext depth) (gathers_declareNext depth')) _).bind fun _ => .pure _

theorem steady_program_self (depth : Nat) : Steady 0 0 (program depth) (program depth) :=
  steady_program depth depth (Nat.zero_le _) (Nat.zero_le _)

end Levels

end Lox.Grammar
