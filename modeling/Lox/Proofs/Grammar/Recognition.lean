import Lox.Proofs.Grammar.Completeness.Statement
import Lox.Proofs.Grammar.Ebnf
import Lox.Proofs.Grammar.Soundness

/-! The parser accepts exactly its grammar.

What is spelled derives, by induction on the spelling, and what derives is spelled, because the
spelled phrases are preserved by the rules of the grammar. The grammar lets an `else` follow any
statement, so the second part reads it as one of the innermost `if` that is still open. -/

namespace Lox.Grammar

open Ebnf Relation

def levelRule : Nat → Nonterminal
  | 0 => .assignment
  | 1 => .logicOr
  | 2 => .logicAnd
  | 3 => .equality
  | 4 => .comparison
  | 5 => .term
  | 6 => .factor
  | 7 => .unary
  | 8 => .call
  | _ => .primary

def operatorsAt : Nat → Ebnf
  | 1 => token .kwOr
  | 2 => token .kwAnd
  | 3 => token .bangEqual ||| token .equalEqual
  | 4 => token .greater ||| token .greaterEqual ||| token .less ||| token .lessEqual
  | 5 => token .minus ||| token .plus
  | _ => token .slash ||| token .star

section Levels

variable {S : Nonterminal → List Token → List Token → Prop} {k : Nat} {ts us : List Token}

theorem rules_levelRule (h1 : 1 ≤ k) (h6 : k ≤ 6) : rules (levelRule k) =
    rule (levelRule (k + 1)) ++ many (operatorsAt k ++ rule (levelRule (k + 1))) := by
  obtain rfl | rfl | rfl | rfl | rfl | rfl :
    k = 1 ∨ k = 2 ∨ k = 3 ∨ k = 4 ∨ k = 5 ∨ k = 6 := by omega
  all_goals rfl

theorem holds_operatorsAt (h1 : 1 ≤ k) (h6 : k ≤ 6) :
    Holds S (operatorsAt k) ts us ↔ ∃ t : Token, joinsAt k t.kind = true ∧ ts = t :: us := by
  obtain rfl | rfl | rfl | rfl | rfl | rfl :
    k = 1 ∨ k = 2 ∨ k = 3 ∨ k = 4 ∨ k = 5 ∨ k = 6 := by omega
  all_goals
    simp only [operatorsAt, holds_or, Holds, joinsAt, isEqualityOperator, isComparisonOperator,
      isTermOperator, isFactorOperator, Bool.or_eq_true, beq_iff_eq, or_and_right, exists_or]

end Levels

section Derivations

/-- What the grammar derives from a rule. -/
abbrev Derived (n : Nonterminal) (ts us : List Token) : Prop := Stands (rule n) ts us

abbrev HoldsDerived : Ebnf → List Token → List Token → Prop := Holds Derived

variable {ts us : List Token}

theorem derived_looser {k : Nat} (hk : k < 9) (h : Derived (levelRule (k + 1)) ts us) :
    Derived (levelRule k) ts us := by
  by_cases hr : 1 ≤ k ∧ k ≤ 6
  · refine stands_of_holds ?_
    rw [rules_levelRule hr.1 hr.2]
    exact ⟨us, h, .refl⟩
  · obtain rfl | rfl | rfl : k = 0 ∨ k = 7 ∨ k = 8 := by omega
    · exact stands_of_holds (.inr h)
    · exact stands_of_holds (.inr h)
    · exact stands_of_holds ⟨us, h, .refl⟩

theorem derived_join {k : Nat} {operator : Token} {vs : List Token}
    (h : Derived (levelRule k) ts (operator :: us)) (hj : joinsAt k operator.kind = true)
    (hright : Derived (levelRule (k + 1)) us vs) : Derived (levelRule k) ts vs := by
  obtain ⟨-, h1, h6⟩ := bindsAt_of_joinsAt hj
  have hleft := holds_of_stands h
  refine stands_of_holds ?_
  rw [rules_levelRule h1 h6] at hleft ⊢
  obtain ⟨ws, hfirst, hmany⟩ := hleft
  exact ⟨ws, hfirst, hmany.tail ⟨us, (holds_operatorsAt h1 h6).mpr ⟨operator, hj, rfl⟩, hright⟩⟩

/-- One more call or property access. -/
theorem derived_suffix {vs : List Token} (h : Derived .call ts us)
    (hs : HoldsDerived (token .leftParen ++ optional (rule .arguments) ++ token .rightParen |||
      token .dot ++ token .identifier) us vs) : Derived .call ts vs := by
  obtain ⟨ws, hfirst, hmany⟩ := holds_of_stands h
  exact stands_of_holds ⟨ws, hfirst, hmany.tail hs⟩

theorem derived_constant {t : Token} {value : Constant} (h : constantAt? t = some value) :
    Derived .primary (t :: us) us := by
  refine stands_of_holds ?_
  have hkind : t.kind = .number ∨ t.kind = .string ∨ t.kind = .kwTrue ∨ t.kind = .kwFalse ∨
      t.kind = .kwNil := by
    unfold constantAt? at h
    split at h <;> simp_all
  simp only [rules, holds_or, Holds]
  rcases hkind with hk | hk | hk | hk | hk <;> simp [hk]

theorem steps_mono {r : List Token → List Token → Prop} {n m : Nat} (hnm : n ≤ m)
    (h : Steps r n ts us) : Steps r m ts us := by
  induction m generalizing n us with
  | zero =>
    obtain rfl : n = 0 := by omega
    exact h
  | succ m ih =>
    cases n with
    | zero => exact .inl h
    | succ n => exact h.imp id fun ⟨vs, hvs, hr⟩ => ⟨vs, ih (by omega) hvs, hr⟩

theorem derived_listed {α : Type} {item : List Token → α → List Token → Prop} {x : Ebnf}
    (hitem : ∀ ts a us, item ts a us → HoldsDerived x ts us) {as : List α}
    (h : Listed item ts as us) (hlen : as.length ≤ maxListLength) :
    HoldsDerived (x ++ upTo (maxListLength - 1) (token .comma ++ x)) ts us := by
  have hcount : ∃ vs, HoldsDerived x ts vs ∧
      Steps (HoldsDerived (token .comma ++ x)) (as.length - 1) vs us := by
    clear hlen
    induction h with
    | one h => exact ⟨_, hitem _ _ _ h, rfl⟩
    | @more as a comma ts us vs has hk h ih =>
      obtain ⟨ws, hfirst, hsteps⟩ := ih
      have hpos : (as ++ [a]).length - 1 = as.length - 1 + 1 := by
        cases has <;> simp
      rw [hpos]
      exact ⟨ws, hfirst, .inr ⟨_, hsteps, us, ⟨comma, hk, rfl⟩, hitem _ _ _ h⟩⟩
  obtain ⟨vs, hfirst, hsteps⟩ := hcount
  exact ⟨vs, hfirst, steps_mono (by omega) hsteps⟩

theorem derived_expression (h : Derived (levelRule 0) ts us) : Derived .expression ts us :=
  stands_of_holds h

theorem derived_of_spellsExpr {p : ExprPhrase} (h : SpellsExpr p ts us) :
    match p with
    | .expr k _ => Derived (levelRule k) ts us
    | .items es => Listed (fun ts _ us => Derived .expression ts us) ts es us := by
  induction h with
  | looser hk _ ih => exact derived_looser hk ih
  | @assign _ name equals _ _ _ hn heq _ ih =>
    exact stands_of_holds (.inl ⟨_, ⟨_, ⟨_, .inr rfl, name, hn, rfl⟩, equals, heq, rfl⟩, ih⟩)
  | @set _ _ dot name equals _ _ _ _ hd hn heq _ ih ih' =>
    exact stands_of_holds (.inl ⟨_, ⟨_, ⟨_, .inl ⟨_, ih, dot, hd, rfl⟩, name, hn, rfl⟩, equals, heq,
      rfl⟩, ih'⟩)
  | join _ hj _ ih ih' => exact derived_join ih hj ih'
  | @unary operator _ _ _ ho _ ih =>
    refine stands_of_holds (.inl ⟨_, ?_, ih⟩)
    simp only [isUnaryOperator, Bool.or_eq_true, beq_iff_eq] at ho
    exact ho.imp (fun hk => ⟨operator, hk, rfl⟩) fun hk => ⟨operator, hk, rfl⟩
  | @call _ opening paren _ _ _ ho hp ih =>
    exact derived_suffix ih (.inl ⟨_, ⟨_, ⟨opening, ho, rfl⟩, .inr rfl⟩, paren, hp, rfl⟩)
  | @callWith _ opening paren _ _ _ _ _ ho _ hp hlen ih ih' =>
    exact derived_suffix ih (.inl ⟨_, ⟨_, ⟨opening, ho, rfl⟩,
      .inl (stands_of_holds (derived_listed (fun _ _ _ h => h) ih' hlen))⟩, paren, hp, rfl⟩)
  | @get _ dot name _ _ _ hd hn ih =>
    exact derived_suffix ih (.inr ⟨_, ⟨dot, hd, rfl⟩, name, hn, rfl⟩)
  | constant hc => exact derived_constant hc
  | @inherited _ keyword dot method _ hk hd hm =>
    exact stands_of_holds (.inr ⟨_, ⟨_, ⟨keyword, hk, rfl⟩, dot, hd, rfl⟩, method, hm, rfl⟩)
  | @receiver _ keyword _ hk =>
    exact stands_of_holds (.inl (.inl (.inl (.inr ⟨keyword, hk, rfl⟩))))
  | @occurrence _ name _ hn =>
    exact stands_of_holds (.inl (.inl (.inr ⟨name, hn, rfl⟩)))
  | @group opening closing _ _ _ ho _ hc ih =>
    exact stands_of_holds (.inl (.inr
      ⟨_, ⟨_, ⟨opening, ho, rfl⟩, derived_expression ih⟩, closing, hc, rfl⟩))
  | one _ ih => exact .one (derived_expression ih)
  | more _ hk _ ih ih' => exact .more ih hk (derived_expression ih')

theorem derived_of_expr {e : Expr} (h : SpellsExpr (.expr 0 e) ts us) : Derived .expression ts us :=
  derived_expression (derived_of_spellsExpr h)

theorem derived_of_option {e : Option Expr} (h : SpellsOption e ts us) :
    HoldsDerived (optional (rule .expression)) ts us := by
  cases e with
  | none => exact .inr h
  | some e => exact .inl (derived_of_expr h)

theorem derived_varDecl {keyword : Token} {s : Stmt} (hk : keyword.kind = .kwVar)
    (h : SpellsVariable s ts us) : Derived .varDecl (keyword :: ts) us := by
  cases h with
  | @bare name closing _ hn hc =>
    exact stands_of_holds
      ⟨_, ⟨_, ⟨_, ⟨keyword, hk, rfl⟩, name, hn, rfl⟩, .inr rfl⟩, closing, hc, rfl⟩
  | @initialized name equals closing _ _ _ hn heq he hc =>
    exact stands_of_holds ⟨_, ⟨_, ⟨_, ⟨keyword, hk, rfl⟩, name, hn, rfl⟩,
      .inl ⟨_, ⟨equals, heq, rfl⟩, derived_of_expr he⟩⟩, closing, hc, rfl⟩

theorem derived_exprStmt {e : Expr} {closing : Token}
    (h : SpellsExpr (.expr 0 e) ts (closing :: us)) (hc : closing.kind = .semicolon) :
    Derived .exprStmt ts us :=
  stands_of_holds ⟨_, derived_of_expr h, closing, hc, rfl⟩

theorem derived_initializer {s : Option Stmt} (h : SpellsInitializer s ts us) :
    HoldsDerived (rule .varDecl ||| rule .exprStmt ||| token .semicolon) ts us := by
  cases h with
  | @none closing _ hc => exact .inr ⟨closing, hc, rfl⟩
  | varDecl hk hs => exact .inl (.inl (derived_varDecl hk hs))
  | expression he hc => exact .inl (.inr (derived_exprStmt he hc))

theorem derived_parameters {params : List Token} (h : SpellsParameters params ts us) :
    HoldsDerived (optional (rule .parameters)) ts us := by
  rcases h with ⟨-, rfl⟩ | ⟨hlisted, hlen⟩
  · exact .inr rfl
  · exact .inl (stands_of_holds (derived_listed (fun _ a _ h => ⟨a, h.1, h.2⟩) hlisted hlen))

theorem derived_superclass {r : Option Reference} (h : SpellsSuperclass r ts us) :
    HoldsDerived (optional (token .less ++ token .identifier)) ts us := by
  cases r with
  | none => exact .inr h
  | some r =>
    obtain ⟨less, hless, hname, rfl⟩ := h
    exact .inl ⟨_, ⟨less, hless, rfl⟩, r.name, hname, rfl⟩

/-- The rules of the single statements. -/
def statementRules : List Nonterminal :=
  [.exprStmt, .forStmt, .ifStmt, .printStmt, .returnStmt, .whileStmt, .breakStmt, .continueStmt,
    .block]

theorem holds_statement {S : Nonterminal → List Token → List Token → Prop} :
    Holds S (rules .statement) ts us ↔ ∃ n ∈ statementRules, S n ts us := by
  simp [rules, Holds, statementRules, or_assoc]

theorem derived_statement {n : Nonterminal} (hn : n ∈ statementRules)
    (h : Holds Derived (rules n) ts us) : Derived .statement ts us :=
  stands_of_holds (holds_statement.mpr ⟨n, hn, stands_of_holds h⟩)

theorem derived_block {opening closing : Token} (ho : opening.kind = .leftBrace)
    (h : ReflTransGen (Derived .declaration) ts (closing :: us))
    (hc : closing.kind = .rightBrace) : Derived .block (opening :: ts) us :=
  stands_of_holds ⟨_, ⟨_, ⟨opening, ho, rfl⟩, h⟩, closing, hc, rfl⟩

theorem derived_of_spells {p : Phrase} (h : Spells p ts us) :
    match p with
    | .statement .. => Derived .statement ts us
    | .declaration _ => Derived .declaration ts us
    | .declarations _ => ReflTransGen (Derived .declaration) ts us
    | .callable _ => Derived .function ts us
    | .methods _ => ReflTransGen (Derived .function) ts us := by
  induction h with
  | @expression _ closing _ _ he hc =>
    exact derived_statement (n := .exprStmt) (by decide) ⟨_, derived_of_expr he, closing, hc, rfl⟩
  | @print keyword closing _ _ _ hk he hc =>
    exact derived_statement (n := .printStmt) (by decide)
      ⟨_, ⟨_, ⟨keyword, hk, rfl⟩, derived_of_expr he⟩, closing, hc, rfl⟩
  | @returning keyword closing _ _ _ hk he hc =>
    exact derived_statement (n := .returnStmt) (by decide)
      ⟨_, ⟨_, ⟨keyword, hk, rfl⟩, derived_of_option he⟩, closing, hc, rfl⟩
  | @breaking keyword closing _ hk hc =>
    exact derived_statement (n := .breakStmt) (by decide) ⟨_, ⟨keyword, hk, rfl⟩, closing, hc, rfl⟩
  | @continuing keyword closing _ hk hc =>
    exact derived_statement (n := .continueStmt) (by decide)
      ⟨_, ⟨keyword, hk, rfl⟩, closing, hc, rfl⟩
  | @block opening closing _ _ _ ho _ hc ih =>
    exact derived_statement (n := .block) (by decide)
      ⟨_, ⟨_, ⟨opening, ho, rfl⟩, ih⟩, closing, hc, rfl⟩
  | @ifThen keyword opening closing _ _ _ _ _ _ hk ho he hc _ ih =>
    exact derived_statement (n := .ifStmt) (by decide)
      ⟨_, ⟨_, ⟨_, ⟨_, ⟨_, ⟨keyword, hk, rfl⟩, opening, ho, rfl⟩, derived_of_expr he⟩,
        closing, hc, rfl⟩, ih⟩, .inr rfl⟩
  | @ifElse keyword opening closing other _ _ _ _ _ _ _ _ hk ho he hc _ hother _ ih ih' =>
    exact derived_statement (n := .ifStmt) (by decide)
      ⟨_, ⟨_, ⟨_, ⟨_, ⟨_, ⟨keyword, hk, rfl⟩, opening, ho, rfl⟩, derived_of_expr he⟩,
        closing, hc, rfl⟩, ih⟩, .inl ⟨_, ⟨other, hother, rfl⟩, ih'⟩⟩
  | @whileLoop keyword opening closing _ _ _ _ _ _ hk ho he hc _ ih =>
    exact derived_statement (n := .whileStmt) (by decide)
      ⟨_, ⟨_, ⟨_, ⟨_, ⟨keyword, hk, rfl⟩, opening, ho, rfl⟩, derived_of_expr he⟩,
        closing, hc, rfl⟩, ih⟩
  | @forLoop keyword opening closing closing' _ _ _ _ _ _ _ _ _ _ hk ho hi he hc hn hc' _ ih =>
    exact derived_statement (n := .forStmt) (by decide)
      ⟨_, ⟨_, ⟨_, ⟨_, ⟨_, ⟨_, ⟨_, ⟨keyword, hk, rfl⟩, opening, ho, rfl⟩, derived_initializer hi⟩,
        derived_of_option he⟩, closing, hc, rfl⟩, derived_of_option hn⟩, closing', hc', rfl⟩, ih⟩
  | varDecl hk hs => exact stands_of_holds (.inl (.inr (derived_varDecl hk hs)))
  | @function keyword _ _ _ hk _ ih =>
    exact stands_of_holds (.inl (.inl (.inr (stands_of_holds ⟨_, ⟨keyword, hk, rfl⟩, ih⟩))))
  | @classDecl keyword name opening closing _ _ _ _ _ hk hn hs ho _ hc ih =>
    exact stands_of_holds (.inl (.inl (.inl (stands_of_holds ⟨_, ⟨_, ⟨_, ⟨_, ⟨_, ⟨keyword, hk, rfl⟩,
      name, hn, rfl⟩, derived_superclass hs⟩, opening, ho, rfl⟩, ih⟩, closing, hc, rfl⟩))))
  | statement _ ih => exact stands_of_holds (.inr ih)
  | none | noMethods => exact .refl
  | more _ _ ih ih' | moreMethods _ _ ih ih' => exact ih.tail ih'
  | @callable name opening closing opening' closing' _ _ _ _ _ hn ho hp hc ho' _ hc' ih =>
    exact stands_of_holds
      ⟨_, ⟨_, ⟨_, ⟨_, ⟨name, hn, rfl⟩, opening, ho, rfl⟩, derived_parameters hp⟩, closing, hc, rfl⟩,
        derived_block ho' ih hc'⟩

end Derivations

section Meanings

variable {ts us : List Token}

/-- The trees that the phrases of a rule spell. -/
def Means : Nonterminal → List Token → List Token → Prop
  | .program, _, _ => True
  | .declaration, ts, us | .classDecl, ts, us | .funDecl, ts, us =>
    ∃ s, Spells (.declaration s) ts us
  | .function, ts, us => ∃ f, Spells (.callable f) ts us
  | .parameters, ts, us => ∃ params, Listed SpellsParameter ts params us ∧
    params.length ≤ maxListLength
  | .varDecl, ts, us => ∃ (keyword : Token) (rest : List Token) (s : Stmt),
    keyword.kind = .kwVar ∧ ts = keyword :: rest ∧ SpellsVariable s rest us
  | .exprStmt, ts, us => ∃ (e : Expr) (closing : Token), closing.kind = .semicolon ∧
    SpellsExpr (.expr 0 e) ts (closing :: us)
  | .block, ts, us => ∃ (opening closing : Token) (rest : List Token) (body : List Stmt),
    opening.kind = .leftBrace ∧ closing.kind = .rightBrace ∧ ts = opening :: rest ∧
      Spells (.declarations body) rest (closing :: us)
  | .statement, ts, us | .forStmt, ts, us | .ifStmt, ts, us | .printStmt, ts, us
  | .returnStmt, ts, us | .whileStmt, ts, us | .breakStmt, ts, us | .continueStmt, ts, us =>
    ∃ b s, Spells (.statement b s) ts us
  | .expression, ts, us | .assignment, ts, us => ∃ e, SpellsExpr (.expr 0 e) ts us
  | .logicOr, ts, us => ∃ e, SpellsExpr (.expr 1 e) ts us
  | .logicAnd, ts, us => ∃ e, SpellsExpr (.expr 2 e) ts us
  | .equality, ts, us => ∃ e, SpellsExpr (.expr 3 e) ts us
  | .comparison, ts, us => ∃ e, SpellsExpr (.expr 4 e) ts us
  | .term, ts, us => ∃ e, SpellsExpr (.expr 5 e) ts us
  | .factor, ts, us => ∃ e, SpellsExpr (.expr 6 e) ts us
  | .unary, ts, us => ∃ e, SpellsExpr (.expr 7 e) ts us
  | .call, ts, us => ∃ e, SpellsExpr (.expr 8 e) ts us
  | .arguments, ts, us => ∃ es, SpellsExpr (.items es) ts us ∧ es.length ≤ maxListLength
  | .primary, ts, us => ∃ e, SpellsExpr (.expr 9 e) ts us

theorem means_levelRule {k : Nat} (hk : k ≤ 9) :
    Means (levelRule k) ts us ↔ ∃ e, SpellsExpr (.expr k e) ts us := by
  obtain rfl | rfl | rfl | rfl | rfl | rfl | rfl | rfl | rfl | rfl :
    k = 0 ∨ k = 1 ∨ k = 2 ∨ k = 3 ∨ k = 4 ∨ k = 5 ∨ k = 6 ∨ k = 7 ∨ k = 8 ∨ k = 9 := by omega
  all_goals rfl

theorem means_join {k : Nat} (h1 : 1 ≤ k) (h6 : k ≤ 6)
    (h : Holds Means (rules (levelRule k)) ts us) : Means (levelRule k) ts us := by
  rw [rules_levelRule h1 h6] at h
  obtain ⟨vs, hfirst, hmany⟩ := h
  rw [means_levelRule (by omega)]
  obtain ⟨first, hspelled⟩ := (means_levelRule (by omega)).mp hfirst
  have hloop : ∃ e, SpellsExpr (.expr k e) ts us := by
    induction hmany with
    | refl => exact ⟨first, .looser (by omega) hspelled⟩
    | tail _ hstep ih =>
      obtain ⟨left, hleft⟩ := ih
      obtain ⟨ws, hoperator, hright⟩ := hstep
      obtain ⟨operator, hj, rfl⟩ := (holds_operatorsAt h1 h6).mp hoperator
      obtain ⟨right, hright⟩ := (means_levelRule (by omega)).mp hright
      exact ⟨_, .join hleft hj hright⟩
  exact hloop

theorem means_call (h : Holds Means (rules .call) ts us) : Means .call ts us := by
  obtain ⟨vs, ⟨first, hfirst⟩, hmany⟩ := h
  induction hmany with
  | refl => exact ⟨first, .looser (by decide) hfirst⟩
  | tail _ hstep ih =>
    obtain ⟨object, hobject⟩ := ih
    rcases hstep with ⟨_, ⟨_, ⟨opening, ho, rfl⟩, hargs⟩, paren, hp, rfl⟩ |
      ⟨_, ⟨dot, hd, rfl⟩, name, hn, rfl⟩
    · rcases hargs with ⟨es, hes, hlen⟩ | rfl
      · exact ⟨_, .callWith hobject ho hes hp hlen⟩
      · exact ⟨_, .call hobject ho hp⟩
    · exact ⟨_, .get hobject hd hn⟩

theorem means_unary (h : Holds Means (rules .unary) ts us) : Means .unary ts us := by
  rcases h with ⟨_, hoperator, e, he⟩ | ⟨e, he⟩
  · rcases hoperator with ⟨operator, hk, rfl⟩ | ⟨operator, hk, rfl⟩
    · exact ⟨_, .unary (by rw [hk]; rfl) he⟩
    · exact ⟨_, .unary (by rw [hk]; rfl) he⟩
  · exact ⟨e, .looser (by decide) he⟩

theorem means_assignment (h : Holds Means (rules .assignment) ts us) : Means .assignment ts us := by
  rcases h with ⟨_, ⟨_, ⟨_, hobject, name, hn, rfl⟩, equals, heq, rfl⟩, value, hvalue⟩ | ⟨e, he⟩
  · rcases hobject with ⟨_, ⟨object, hobject⟩, dot, hd, rfl⟩ | rfl
    · exact ⟨_, .set hobject hd hn heq hvalue⟩
    · exact ⟨.assign ⟨⟨0⟩, name⟩ value, .assign hn heq hvalue⟩
  · exact ⟨e, .looser (by decide) he⟩

theorem means_primary (h : Holds Means (rules .primary) ts us) : Means .primary ts us := by
  have hconstant {k : TokenKind} (hk : ∀ t : Token, t.kind = k → (constantAt? t).isSome)
      (h : Holds Means (token k) ts us) : Means .primary ts us := by
    obtain ⟨t, ht, rfl⟩ := h
    obtain ⟨value, hv⟩ := Option.isSome_iff_exists.mp (hk t ht)
    exact ⟨_, .constant hv⟩
  simp only [rules, holds_or, or_assoc] at h
  rcases h with h | h | h | h | h | ⟨keyword, hk, rfl⟩ | ⟨name, hn, rfl⟩ |
    ⟨_, ⟨_, ⟨opening, ho, rfl⟩, inner, hinner⟩, closing, hc, rfl⟩ |
    ⟨_, ⟨_, ⟨keyword, hk, rfl⟩, dot, hd, rfl⟩, method, hm, rfl⟩
  · exact hconstant (fun t ht => by simp [constantAt?, ht]) h
  · exact hconstant (fun t ht => by simp [constantAt?, ht]) h
  · exact hconstant (fun t ht => by simp [constantAt?, ht]) h
  · exact hconstant (fun t ht => by simp [constantAt?, ht]) h
  · exact hconstant (fun t ht => by simp [constantAt?, ht]) h
  · exact ⟨.receiver ⟨⟨0⟩, keyword⟩, .receiver hk⟩
  · exact ⟨.variable ⟨⟨0⟩, name⟩, .occurrence hn⟩
  · exact ⟨_, .group ho hinner hc⟩
  · exact ⟨.inherited ⟨⟨0⟩, keyword⟩ method, .inherited hk hd hm⟩

/-- A list with at most so many entries after the first. -/
theorem listed_of_holds {α : Type} {item : List Token → α → List Token → Prop} {x : Ebnf}
    (hitem : ∀ ts us, Holds Means x ts us → ∃ a, item ts a us)
    (h : Holds Means (x ++ upTo (maxListLength - 1) (token .comma ++ x)) ts us) :
    ∃ as, Listed item ts as us ∧ as.length ≤ maxListLength := by
  obtain ⟨vs, hfirst, hsteps⟩ := h
  obtain ⟨first, hfirst⟩ := hitem _ _ hfirst
  have hcount : ∀ (n : Nat) (us : List Token), Steps (Holds Means (token .comma ++ x)) n vs us →
      ∃ as, Listed item ts as us ∧ as.length ≤ n + 1 := by
    intro n
    induction n with
    | zero =>
      rintro _ rfl
      exact ⟨[first], .one hfirst, Nat.le_refl _⟩
    | succ n ih =>
      rintro us (rfl | ⟨_, hws, _, ⟨comma, hk, rfl⟩, hx⟩)
      · exact ⟨[first], .one hfirst, Nat.le_add_left ..⟩
      · obtain ⟨as, has, hlen⟩ := ih _ hws
        obtain ⟨a, ha⟩ := hitem _ _ hx
        exact ⟨as ++ [a], .more has hk ha, by simpa using hlen⟩
  exact hcount _ us hsteps

/-- An `else` behind an open statement goes to the innermost `if` that has none. -/
theorem attach {p : Phrase} {s : Stmt} {other : Token} {rest vs : List Token} {b : Bool}
    {alternative : Stmt} (h : Spells p ts us) (hp : p = .statement true s)
    (hus : us = other :: rest) (hother : other.kind = .kwElse)
    (halternative : Spells (.statement b alternative) rest vs) :
    ∃ b' s', Spells (.statement b' s') ts vs := by
  -- Along the last statement of each statement, down to the `if` that is open.
  induction h generalizing s with
  | @ifThen _ _ _ _ _ b' _ _ _ hk ho he hc h ih =>
    cases b' with
    | false => exact ⟨_, _, .ifElse hk ho he hc (hus ▸ h) hother halternative⟩
    | true =>
      obtain ⟨_, _, hs⟩ := ih rfl hus
      exact ⟨_, _, .ifThen hk ho he hc hs⟩
  | ifElse hk ho he hc h hother' _ _ ih' =>
    cases hp
    obtain ⟨_, _, hs⟩ := ih' rfl hus
    exact ⟨_, _, .ifElse hk ho he hc h hother' hs⟩
  | whileLoop hk ho he hc _ ih =>
    cases hp
    obtain ⟨_, _, hs⟩ := ih rfl hus
    exact ⟨_, _, .whileLoop hk ho he hc hs⟩
  | forLoop hk ho hi he hc hn hc' _ ih =>
    injection hp with hb _
    subst hb
    obtain ⟨_, _, hs⟩ := ih rfl hus
    exact ⟨_, _, .forLoop hk ho hi he hc hn hc' hs⟩
  | _ => cases hp

theorem means_ifStmt (h : Holds Means (rules .ifStmt) ts us) : Means .ifStmt ts us := by
  obtain ⟨_, ⟨_, ⟨_, ⟨_, ⟨_, ⟨keyword, hk, rfl⟩, opening, ho, rfl⟩, condition, hcondition⟩, closing,
    hc, rfl⟩, b, consequent, hconsequent⟩, helse⟩ := h
  rcases helse with ⟨_, ⟨other, hother, rfl⟩, b', alternative, halternative⟩ | rfl
  · cases b with
    | false => exact ⟨_, _, .ifElse hk ho hcondition hc hconsequent hother halternative⟩
    | true =>
      obtain ⟨_, _, hs⟩ := attach hconsequent rfl rfl hother halternative
      exact ⟨_, _, .ifThen hk ho hcondition hc hs⟩
  · exact ⟨_, _, .ifThen hk ho hcondition hc hconsequent⟩

theorem spellsOption_of_holds (h : Holds Means (optional (rule .expression)) ts us) :
    ∃ e, SpellsOption e ts us := by
  rcases h with ⟨e, he⟩ | rfl
  · exact ⟨some e, he⟩
  · exact ⟨none, rfl⟩

theorem means_forStmt (h : Holds Means (rules .forStmt) ts us) : Means .forStmt ts us := by
  obtain ⟨_, ⟨_, ⟨_, ⟨_, ⟨_, ⟨_, ⟨_, ⟨keyword, hk, rfl⟩, opening, ho, rfl⟩, hinitializer⟩,
    hcondition⟩, closing, hc, rfl⟩, hincrement⟩, closing', hc', rfl⟩, b, body, hbody⟩ := h
  obtain ⟨condition, hcondition⟩ := spellsOption_of_holds hcondition
  obtain ⟨increment, hincrement⟩ := spellsOption_of_holds hincrement
  rcases hinitializer with ((⟨keyword', _, s, hk', rfl, hs⟩ | ⟨e, closing'', hc'', he⟩) |
    ⟨closing'', hc'', rfl⟩)
  · exact ⟨_, _, .forLoop hk ho (.varDecl hk' hs) hcondition hc hincrement hc' hbody⟩
  · exact ⟨_, _, .forLoop hk ho (.expression he hc'') hcondition hc hincrement hc' hbody⟩
  · exact ⟨_, _, .forLoop hk ho (.none hc'') hcondition hc hincrement hc' hbody⟩

theorem means_statement (h : Holds Means (rules .statement) ts us) : Means .statement ts us := by
  obtain ⟨n, hn, h⟩ := holds_statement.mp h
  simp only [statementRules, List.mem_cons, List.not_mem_nil, or_false] at hn
  rcases hn with rfl | rfl | rfl | rfl | rfl | rfl | rfl | rfl | rfl
  · obtain ⟨e, closing, hc, he⟩ := h
    exact ⟨_, _, .expression he hc⟩
  · exact h
  · exact h
  · exact h
  · exact h
  · exact h
  · exact h
  · exact h
  · obtain ⟨opening, closing, rest, body, ho, hc, rfl, hbody⟩ := h
    exact ⟨_, _, .block ho hbody hc⟩

theorem spells_of_many (h : ReflTransGen (Means .declaration) ts us) :
    ∃ ss, Spells (.declarations ss) ts us := by
  induction h with
  | refl => exact ⟨[], .none⟩
  | tail _ hs ih =>
    obtain ⟨ss, hss⟩ := ih
    obtain ⟨s, hs⟩ := hs
    exact ⟨ss ++ [s], .more hss hs⟩

theorem spells_of_many_functions (h : ReflTransGen (Means .function) ts us) :
    ∃ fs, Spells (.methods fs) ts us := by
  induction h with
  | refl => exact ⟨[], .noMethods⟩
  | tail _ hf ih =>
    obtain ⟨fs, hfs⟩ := ih
    obtain ⟨f, hf⟩ := hf
    exact ⟨fs ++ [f], .moreMethods hfs hf⟩

theorem means_classDecl (h : Holds Means (rules .classDecl) ts us) : Means .classDecl ts us := by
  obtain ⟨_, ⟨_, ⟨_, ⟨_, ⟨_, ⟨keyword, hk, rfl⟩, name, hn, rfl⟩, hsuperclass⟩, opening, ho, rfl⟩,
    hmethods⟩, closing, hc, rfl⟩ := h
  obtain ⟨methods, hmethods⟩ := spells_of_many_functions hmethods
  rcases hsuperclass with ⟨_, ⟨less, hless, rfl⟩, superclass, hname, rfl⟩ | rfl
  · exact ⟨.classDecl name (some ⟨⟨0⟩, superclass⟩) methods,
      .classDecl hk hn ⟨less, hless, hname, rfl⟩ ho hmethods hc⟩
  · exact ⟨.classDecl name none methods, .classDecl hk hn rfl ho hmethods hc⟩

theorem means_function (h : Holds Means (rules .function) ts us) : Means .function ts us := by
  obtain ⟨_, ⟨_, ⟨_, ⟨_, ⟨name, hn, rfl⟩, opening, ho, rfl⟩, hparams⟩, closing, hc, rfl⟩,
    opening', closing', _, body, ho', hc', rfl, hbody⟩ := h
  rcases hparams with ⟨params, hlisted, hlen⟩ | rfl
  · exact ⟨_, .callable hn ho (.inr ⟨hlisted, hlen⟩) hc ho' hbody hc'⟩
  · exact ⟨_, .callable hn ho (.inl ⟨rfl, rfl⟩) hc ho' hbody hc'⟩

theorem means_varDecl (h : Holds Means (rules .varDecl) ts us) : Means .varDecl ts us := by
  obtain ⟨_, ⟨_, ⟨_, ⟨keyword, hk, rfl⟩, name, hn, rfl⟩, hinitializer⟩, closing, hc, rfl⟩ := h
  rcases hinitializer with ⟨_, ⟨equals, heq, rfl⟩, e, he⟩ | rfl
  · exact ⟨keyword, _, _, hk, rfl, .initialized hn heq he hc⟩
  · exact ⟨keyword, _, _, hk, rfl, .bare hn hc⟩

theorem means_declaration (h : Holds Means (rules .declaration) ts us) :
    Means .declaration ts us := by
  rcases h with ((hclass | hfun) | ⟨keyword, _, s, hk, rfl, hs⟩) | ⟨b, s, hs⟩
  · exact hclass
  · exact hfun
  · exact ⟨s, .varDecl hk hs⟩
  · exact ⟨s, .statement hs⟩

/-- The spelled phrases are closed under the rules. -/
theorem means_of_holds (n : Nonterminal) (ts us : List Token) (h : Holds Means (rules n) ts us) :
    Means n ts us := by
  cases n with
  | program => trivial
  | declaration => exact means_declaration h
  | classDecl => exact means_classDecl h
  | funDecl =>
    obtain ⟨_, ⟨keyword, hk, rfl⟩, f, hf⟩ := h
    exact ⟨_, .function hk hf⟩
  | function => exact means_function h
  | parameters => exact listed_of_holds (x := token .identifier) (fun _ _ h => h) h
  | varDecl => exact means_varDecl h
  | statement => exact means_statement h
  | exprStmt =>
    obtain ⟨_, ⟨e, he⟩, closing, hc, rfl⟩ := h
    exact ⟨e, closing, hc, he⟩
  | forStmt => exact means_forStmt h
  | ifStmt => exact means_ifStmt h
  | printStmt =>
    obtain ⟨_, ⟨_, ⟨keyword, hk, rfl⟩, e, he⟩, closing, hc, rfl⟩ := h
    exact ⟨_, _, .print hk he hc⟩
  | returnStmt =>
    obtain ⟨_, ⟨_, ⟨keyword, hk, rfl⟩, hvalue⟩, closing, hc, rfl⟩ := h
    obtain ⟨value, hvalue⟩ := spellsOption_of_holds hvalue
    exact ⟨_, _, .returning hk hvalue hc⟩
  | whileStmt =>
    obtain ⟨_, ⟨_, ⟨_, ⟨_, ⟨keyword, hk, rfl⟩, opening, ho, rfl⟩, e, he⟩, closing, hc, rfl⟩,
      b, s, hs⟩ := h
    exact ⟨_, _, .whileLoop hk ho he hc hs⟩
  | breakStmt =>
    obtain ⟨_, ⟨keyword, hk, rfl⟩, closing, hc, rfl⟩ := h
    exact ⟨_, _, .breaking hk hc⟩
  | continueStmt =>
    obtain ⟨_, ⟨keyword, hk, rfl⟩, closing, hc, rfl⟩ := h
    exact ⟨_, _, .continuing hk hc⟩
  | block =>
    obtain ⟨_, ⟨_, ⟨opening, ho, rfl⟩, hbody⟩, closing, hc, rfl⟩ := h
    obtain ⟨body, hbody⟩ := spells_of_many hbody
    exact ⟨opening, closing, _, body, ho, hc, rfl, hbody⟩
  | expression => exact h
  | assignment => exact means_assignment h
  | logicOr => exact means_join (k := 1) (by decide) (by decide) h
  | logicAnd => exact means_join (k := 2) (by decide) (by decide) h
  | equality => exact means_join (k := 3) (by decide) (by decide) h
  | comparison => exact means_join (k := 4) (by decide) (by decide) h
  | term => exact means_join (k := 5) (by decide) (by decide) h
  | factor => exact means_join (k := 6) (by decide) (by decide) h
  | unary => exact means_unary h
  | call => exact means_call h
  | arguments =>
    obtain ⟨es, hes, hlen⟩ := listed_of_holds (x := rule .expression) (fun _ _ h => h) h
    exact ⟨es, .of_listed hes, hlen⟩
  | primary => exact means_primary h

theorem spells_of_derives (h : Derives (many (rule .declaration)) ts) :
    ∃ ss, Spells (.declarations ss) ts [] := by
  have hmany := h.holds means_of_holds []
  rw [List.append_nil] at hmany
  exact spells_of_many hmany

theorem derives_of_spells {ss : List Stmt} (h : Spells (.declarations ss) ts []) :
    Derives (many (rule .declaration)) ts := by
  obtain ⟨ws, rfl, hws⟩ := Holds.stands (x := many (rule .declaration)) (derived_of_spells h)
  rwa [List.append_nil]

end Meanings

end Lox.Grammar

namespace Lox

open Grammar Grammar.Ebnf

/-- A list of tokens is read without an error just when the tokens before its end derive from the
grammar. -/
theorem accepts_exactly (tokens : List Token) (next line : Nat) :
    (parse tokens next).errors = [] ↔
      Derives (rule .program)
        (tokens.takeWhile (·.kind != .eof) ++ [Token.endOfInput line]) := by
  constructor
  · intro h
    exact .rule (.seq (derives_of_spells (spells_of_parse h)) (.token rfl))
  · intro h
    have hown : Derives (many (rule .declaration)) (tokens.takeWhile (·.kind != .eof)) := by
      generalize hall : tokens.takeWhile (·.kind != .eof) ++ [Token.endOfInput line] = all at h
      cases h with
      | rule h =>
        cases h with
        | seq hmany hend =>
          cases hend with
          | token _ => exact (List.append_inj_left' hall rfl).symm ▸ hmany
    obtain ⟨ss, hss⟩ := spells_of_derives hown
    exact (parse_of_spells hss next).1

end Lox
