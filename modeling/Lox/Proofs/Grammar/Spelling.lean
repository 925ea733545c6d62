import Lox.Grammar.Statement

/-! The tokens that spell a tree.

A phrase of the grammar stands at the front of a list of tokens and leaves the rest of the list
behind it, so a spelling relates a tree to the tokens before and behind it. Repetitions grow to the
left, the way the parser builds their trees. A statement is open if it ends in an `if` that an
`else` behind it would belong to; only a statement that is not open stands between `if` and
`else`. -/

namespace Lox.Grammar

/-- How tightly the operators between operands bind. Assignment is level 0, the prefix operators are
level 7, calls and property accesses level 8, and what needs no parentheses level 9. -/
def joinsAt : Nat → TokenKind → Bool
  | 1 => (· == .kwOr)
  | 2 => (· == .kwAnd)
  | 3 => isEqualityOperator
  | 4 => isComparisonOperator
  | 5 => isTermOperator
  | 6 => isFactorOperator
  | _ => fun _ => false

def joined (level : Nat) : Expr → Token → Expr → Expr := if level ≤ 2 then .logical else .binary

def constantAt? (t : Token) : Option Constant :=
  match t.kind with
  | .kwFalse => some (.bool false)
  | .kwTrue => some (.bool true)
  | .kwNil => some .nil
  | .number | .string => some (constantOf t.literal)
  | _ => none

inductive ExprPhrase where
  | expr (level : Nat) (e : Expr)
  | items (es : List Expr)

inductive SpellsExpr : ExprPhrase → List Token → List Token → Prop where
  | looser {k : Nat} {e : Expr} {ts us : List Token} :
    k < 9 → SpellsExpr (.expr (k + 1) e) ts us → SpellsExpr (.expr k e) ts us
  | assign {node : NodeId} {name equals : Token} {value : Expr} {ts us : List Token} :
    name.kind = .identifier → equals.kind = .equal → SpellsExpr (.expr 0 value) ts us →
    SpellsExpr (.expr 0 (.assign ⟨node, name⟩ value)) (name :: equals :: ts) us
  | set {object value : Expr} {dot name equals : Token} {ts us vs : List Token} :
    SpellsExpr (.expr 8 object) ts (dot :: name :: equals :: us) → dot.kind = .dot →
    name.kind = .identifier → equals.kind = .equal → SpellsExpr (.expr 0 value) us vs →
    SpellsExpr (.expr 0 (.set object name value)) ts vs
  | join {k : Nat} {left right : Expr} {operator : Token} {ts us vs : List Token} :
    SpellsExpr (.expr k left) ts (operator :: us) → joinsAt k operator.kind = true →
    SpellsExpr (.expr (k + 1) right) us vs →
    SpellsExpr (.expr k (joined k left operator right)) ts vs
  | unary {operator : Token} {operand : Expr} {ts us : List Token} :
    isUnaryOperator operator.kind = true → SpellsExpr (.expr 7 operand) ts us →
    SpellsExpr (.expr 7 (.unary operator operand)) (operator :: ts) us
  | call {callee : Expr} {opening paren : Token} {ts us : List Token} :
    SpellsExpr (.expr 8 callee) ts (opening :: paren :: us) → opening.kind = .leftParen →
    paren.kind = .rightParen → SpellsExpr (.expr 8 (.call callee paren [])) ts us
  | callWith {callee : Expr} {opening paren : Token} {args : List Expr} {ts us vs : List Token} :
    SpellsExpr (.expr 8 callee) ts (opening :: us) → opening.kind = .leftParen →
    SpellsExpr (.items args) us (paren :: vs) → paren.kind = .rightParen →
    args.length ≤ maxListLength → SpellsExpr (.expr 8 (.call callee paren args)) ts vs
  | get {object : Expr} {dot name : Token} {ts us : List Token} :
    SpellsExpr (.expr 8 object) ts (dot :: name :: us) → dot.kind = .dot →
    name.kind = .identifier → SpellsExpr (.expr 8 (.get object name)) ts us
  | constant {t : Token} {value : Constant} {us : List Token} :
    constantAt? t = some value → SpellsExpr (.expr 9 (.constant value)) (t :: us) us
  | inherited {node : NodeId} {keyword dot method : Token} {us : List Token} :
    keyword.kind = .kwSuper → dot.kind = .dot → method.kind = .identifier →
    SpellsExpr (.expr 9 (.inherited ⟨node, keyword⟩ method)) (keyword :: dot :: method :: us) us
  | receiver {node : NodeId} {keyword : Token} {us : List Token} :
    keyword.kind = .kwThis → SpellsExpr (.expr 9 (.receiver ⟨node, keyword⟩)) (keyword :: us) us
  | occurrence {node : NodeId} {name : Token} {us : List Token} :
    name.kind = .identifier → SpellsExpr (.expr 9 (.variable ⟨node, name⟩)) (name :: us) us
  | group {opening closing : Token} {inner : Expr} {ts us : List Token} :
    opening.kind = .leftParen → SpellsExpr (.expr 0 inner) ts (closing :: us) →
    closing.kind = .rightParen → SpellsExpr (.expr 9 (.group inner)) (opening :: ts) us
  | one {e : Expr} {ts us : List Token} :
    SpellsExpr (.expr 0 e) ts us → SpellsExpr (.items [e]) ts us
  | more {es : List Expr} {e : Expr} {comma : Token} {ts us vs : List Token} :
    SpellsExpr (.items es) ts (comma :: us) → comma.kind = .comma →
    SpellsExpr (.expr 0 e) us vs → SpellsExpr (.items (es ++ [e])) ts vs

/-- One item or more with commas between them. -/
inductive Listed {α : Type} (item : List Token → α → List Token → Prop) :
    List Token → List α → List Token → Prop where
  | one {a : α} {ts us : List Token} : item ts a us → Listed item ts [a] us
  | more {as : List α} {a : α} {comma : Token} {ts us vs : List Token} :
    Listed item ts as (comma :: us) → comma.kind = .comma → item us a vs →
    Listed item ts (as ++ [a]) vs

theorem Listed.mono {α : Type} {item item' : List Token → α → List Token → Prop}
    (hitem : ∀ ts a us, item ts a us → item' ts a us) {ts us : List Token} {as : List α}
    (h : Listed item ts as us) : Listed item' ts as us := by
  induction h with
  | one h => exact .one (hitem _ _ _ h)
  | more _ hk h ih => exact .more ih hk (hitem _ _ _ h)

def SpellsParameter (ts : List Token) (name : Token) (us : List Token) : Prop :=
  name.kind = .identifier ∧ ts = name :: us

def SpellsParameters (params ts us : List Token) : Prop :=
  (params = [] ∧ ts = us) ∨ (Listed SpellsParameter ts params us ∧ params.length ≤ maxListLength)

def SpellsOption : Option Expr → List Token → List Token → Prop
  | none, ts, us => ts = us
  | some e, ts, us => SpellsExpr (.expr 0 e) ts us

def SpellsSuperclass : Option Reference → List Token → List Token → Prop
  | none, ts, us => ts = us
  | some r, ts, us => ∃ less : Token, less.kind = .less ∧ r.name.kind = .identifier ∧
    ts = less :: r.name :: us

inductive SpellsVariable : Stmt → List Token → List Token → Prop where
  | bare {name closing : Token} {us : List Token} :
    name.kind = .identifier → closing.kind = .semicolon →
    SpellsVariable (.varDecl name none) (name :: closing :: us) us
  | initialized {name equals closing : Token} {e : Expr} {ts us : List Token} :
    name.kind = .identifier → equals.kind = .equal → SpellsExpr (.expr 0 e) ts (closing :: us) →
    closing.kind = .semicolon → SpellsVariable (.varDecl name (some e)) (name :: equals :: ts) us

inductive SpellsInitializer : Option Stmt → List Token → List Token → Prop where
  | none {closing : Token} {us : List Token} :
    closing.kind = .semicolon → SpellsInitializer none (closing :: us) us
  | varDecl {keyword : Token} {s : Stmt} {ts us : List Token} :
    keyword.kind = .kwVar → SpellsVariable s ts us →
    SpellsInitializer (some s) (keyword :: ts) us
  | expression {e : Expr} {closing : Token} {ts us : List Token} :
    SpellsExpr (.expr 0 e) ts (closing :: us) → closing.kind = .semicolon →
    SpellsInitializer (some (.expression e)) ts us

/-- What a `for` becomes. -/
def forLoop (initializer : Option Stmt) (condition : Option Expr) (increment : Option Expr)
    (body : Stmt) : Stmt :=
  let loop := Stmt.loop (condition.getD (.constant (.bool true))) body increment
  match initializer with
  | some first => .block [first, loop]
  | none => loop

inductive Phrase where
  | statement (isOpen : Bool) (s : Stmt)
  | declaration (s : Stmt)
  | declarations (ss : List Stmt)
  | callable (f : FunctionDecl)
  | methods (fs : List FunctionDecl)

inductive Spells : Phrase → List Token → List Token → Prop where
  | expression {e : Expr} {closing : Token} {ts us : List Token} :
    SpellsExpr (.expr 0 e) ts (closing :: us) → closing.kind = .semicolon →
    Spells (.statement false (.expression e)) ts us
  | print {keyword closing : Token} {e : Expr} {ts us : List Token} :
    keyword.kind = .kwPrint → SpellsExpr (.expr 0 e) ts (closing :: us) →
    closing.kind = .semicolon → Spells (.statement false (.print e)) (keyword :: ts) us
  | returning {keyword closing : Token} {value : Option Expr} {ts us : List Token} :
    keyword.kind = .kwReturn → SpellsOption value ts (closing :: us) →
    closing.kind = .semicolon → Spells (.statement false (.returning keyword value))
      (keyword :: ts) us
  | breaking {keyword closing : Token} {us : List Token} :
    keyword.kind = .kwBreak → closing.kind = .semicolon →
    Spells (.statement false (.breaking keyword)) (keyword :: closing :: us) us
  | continuing {keyword closing : Token} {us : List Token} :
    keyword.kind = .kwContinue → closing.kind = .semicolon →
    Spells (.statement false (.continuing keyword)) (keyword :: closing :: us) us
  | block {opening closing : Token} {body : List Stmt} {ts us : List Token} :
    opening.kind = .leftBrace → Spells (.declarations body) ts (closing :: us) →
    closing.kind = .rightBrace → Spells (.statement false (.block body)) (opening :: ts) us
  | ifThen {keyword opening closing : Token} {condition : Expr} {consequent : Stmt} {b : Bool}
      {ts us vs : List Token} :
    keyword.kind = .kwIf → opening.kind = .leftParen →
    SpellsExpr (.expr 0 condition) ts (closing :: us) → closing.kind = .rightParen →
    Spells (.statement b consequent) us vs →
    Spells (.statement true (.ifThen condition consequent)) (keyword :: opening :: ts) vs
  | ifElse {keyword opening closing other : Token} {condition : Expr}
      {consequent alternative : Stmt} {b : Bool} {ts us vs ws : List Token} :
    keyword.kind = .kwIf → opening.kind = .leftParen →
    SpellsExpr (.expr 0 condition) ts (closing :: us) → closing.kind = .rightParen →
    Spells (.statement false consequent) us (other :: vs) → other.kind = .kwElse →
    Spells (.statement b alternative) vs ws →
    Spells (.statement b (.ifElse condition consequent alternative)) (keyword :: opening :: ts) ws
  | whileLoop {keyword opening closing : Token} {condition : Expr} {body : Stmt} {b : Bool}
      {ts us vs : List Token} :
    keyword.kind = .kwWhile → opening.kind = .leftParen →
    SpellsExpr (.expr 0 condition) ts (closing :: us) → closing.kind = .rightParen →
    Spells (.statement b body) us vs →
    Spells (.statement b (.loop condition body none)) (keyword :: opening :: ts) vs
  | forLoop {keyword opening closing closing' : Token} {initializer : Option Stmt}
      {condition increment : Option Expr} {body : Stmt} {b : Bool} {ts us vs ws xs : List Token} :
    keyword.kind = .kwFor → opening.kind = .leftParen → SpellsInitializer initializer ts us →
    SpellsOption condition us (closing :: vs) → closing.kind = .semicolon →
    SpellsOption increment vs (closing' :: ws) → closing'.kind = .rightParen →
    Spells (.statement b body) ws xs →
    Spells (.statement b (forLoop initializer condition increment body))
      (keyword :: opening :: ts) xs
  | varDecl {keyword : Token} {s : Stmt} {ts us : List Token} :
    keyword.kind = .kwVar → SpellsVariable s ts us → Spells (.declaration s) (keyword :: ts) us
  | function {keyword : Token} {f : FunctionDecl} {ts us : List Token} :
    keyword.kind = .kwFun → Spells (.callable f) ts us →
    Spells (.declaration (.function f)) (keyword :: ts) us
  | classDecl {keyword name opening closing : Token} {superclass : Option Reference}
      {methods : List FunctionDecl} {ts us vs : List Token} :
    keyword.kind = .kwClass → name.kind = .identifier →
    SpellsSuperclass superclass ts (opening :: us) → opening.kind = .leftBrace →
    Spells (.methods methods) us (closing :: vs) → closing.kind = .rightBrace →
    Spells (.declaration (.classDecl name superclass methods)) (keyword :: name :: ts) vs
  | statement {s : Stmt} {b : Bool} {ts us : List Token} :
    Spells (.statement b s) ts us → Spells (.declaration s) ts us
  | none {ts : List Token} : Spells (.declarations []) ts ts
  | more {ss : List Stmt} {s : Stmt} {ts us vs : List Token} :
    Spells (.declarations ss) ts us → Spells (.declaration s) us vs →
    Spells (.declarations (ss ++ [s])) ts vs
  | callable {name opening closing opening' closing' : Token} {params : List Token}
      {body : List Stmt} {ts us vs : List Token} :
    name.kind = .identifier → opening.kind = .leftParen →
    SpellsParameters params ts (closing :: opening' :: us) → closing.kind = .rightParen →
    opening'.kind = .leftBrace → Spells (.declarations body) us (closing' :: vs) →
    closing'.kind = .rightBrace →
    Spells (.callable (.mk name params body)) (name :: opening :: ts) vs
  | noMethods {ts : List Token} : Spells (.methods []) ts ts
  | moreMethods {fs : List FunctionDecl} {f : FunctionDecl} {ts us vs : List Token} :
    Spells (.methods fs) ts us → Spells (.callable f) us vs →
    Spells (.methods (fs ++ [f])) ts vs

def beginsExpression : TokenKind → Bool
  | .bang | .minus | .kwFalse | .kwTrue | .kwNil | .number | .string | .kwSuper | .kwThis
  | .identifier | .leftParen => true
  | _ => false

theorem beginsExpression_of_unary {k : TokenKind} (h : isUnaryOperator k = true) :
    beginsExpression k = true := by
  cases k <;> first | rfl | cases h

theorem beginsExpression_of_constantAt? {t : Token} {value : Constant}
    (h : constantAt? t = some value) : beginsExpression t.kind = true := by
  unfold constantAt? at h
  cases hk : t.kind <;> rw [hk] at h <;> first | rfl | cases h

namespace SpellsExpr

theorem length_lt {p : ExprPhrase} {ts us : List Token} (h : SpellsExpr p ts us) :
    us.length < ts.length := by
  induction h with
  | looser _ _ ih | one _ ih => exact ih
  | assign _ _ _ ih | unary _ _ ih =>
    simp only [List.length_cons]
    omega
  | set _ _ _ _ _ ih ih' | join _ _ _ ih ih' | callWith _ _ _ _ _ ih ih' | more _ _ _ ih ih' =>
    simp only [List.length_cons] at ih ih'
    omega
  | call _ _ _ ih | get _ _ _ ih | group _ _ _ ih =>
    simp only [List.length_cons] at ih ⊢
    omega
  | constant | inherited | receiver | occurrence =>
    simp only [List.length_cons]
    omega

theorem first {p : ExprPhrase} {ts us : List Token} (h : SpellsExpr p ts us) :
    ∃ t rest, ts = t :: rest ∧ beginsExpression t.kind = true := by
  induction h with
  | looser _ _ ih | one _ ih => exact ih
  | set _ _ _ _ _ ih _ | join _ _ _ ih _ | callWith _ _ _ _ _ ih _ | more _ _ _ ih _ => exact ih
  | call _ _ _ ih | get _ _ _ ih => exact ih
  | assign hname _ _ _ | occurrence hname => exact ⟨_, _, rfl, by rw [hname]; rfl⟩
  | unary ho _ _ => exact ⟨_, _, rfl, beginsExpression_of_unary ho⟩
  | constant hc => exact ⟨_, _, rfl, beginsExpression_of_constantAt? hc⟩
  | inherited hk _ _ | receiver hk | group hk _ _ _ => exact ⟨_, _, rfl, by rw [hk]; rfl⟩

/-- What stands at a level stands at every lower one. -/
theorem lower {k l : Nat} {e : Expr} {ts us : List Token} (h : SpellsExpr (.expr l e) ts us)
    (hkl : k ≤ l) (hl : l ≤ 9) : SpellsExpr (.expr k e) ts us := by
  induction hd : l - k generalizing k with
  | zero => exact (show l = k by omega) ▸ h
  | succ d ih => exact .looser (by omega) (ih (by omega) (by omega))

theorem joined_ne (k : Nat) (left right : Expr) (operator : Token) :
    (∀ r, joined k left operator right ≠ .variable r) ∧
      ∀ object name, joined k left operator right ≠ .get object name := by
  unfold joined
  split <;> simp

theorem of_variable {k : Nat} {r : Reference} {ts us : List Token}
    (h : SpellsExpr (.expr k (.variable r)) ts us) :
    r.name.kind = .identifier ∧ ts = r.name :: us := by
  generalize hp : ExprPhrase.expr k (.variable r) = p at h
  induction h generalizing k with
  | looser _ _ ih =>
    cases hp
    exact ih rfl
  | join => exact absurd (ExprPhrase.expr.inj hp).2.symm ((joined_ne ..).1 r)
  | occurrence hname =>
    cases hp
    exact ⟨hname, rfl⟩
  | _ => cases hp

theorem of_get {k : Nat} {object : Expr} {name : Token} {ts us : List Token}
    (h : SpellsExpr (.expr k (.get object name)) ts us) :
    ∃ dot : Token, dot.kind = .dot ∧ name.kind = .identifier ∧
      SpellsExpr (.expr 8 object) ts (dot :: name :: us) := by
  generalize hp : ExprPhrase.expr k (.get object name) = p at h
  induction h generalizing k with
  | looser _ _ ih =>
    cases hp
    exact ih rfl
  | join => exact absurd (ExprPhrase.expr.inj hp).2.symm ((joined_ne ..).2 object name)
  | get hobject hdot hname =>
    cases hp
    exact ⟨_, hdot, hname, hobject⟩
  | _ => cases hp

theorem of_listed {ts us : List Token} {es : List Expr}
    (h : Listed (fun ts e us => SpellsExpr (.expr 0 e) ts us) ts es us) :
    SpellsExpr (.items es) ts us := by
  induction h with
  | one h => exact .one h
  | more _ hk h ih => exact .more ih hk h

end SpellsExpr

end Lox.Grammar
