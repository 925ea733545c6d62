import Lox.Proofs.Grammar.Recognition
import Lox.Scope.Analysis

/-! Writing programs out, and reading them back.

A program can be written out if each operand binds at least as tightly as its place demands, no
branch or loop body is a declaration, no `else` would go to another `if` than its own, the lists are
short enough and the tokens in the tree are of the kinds that their places call for. These are
exactly the programs that reading yields, and reading undoes the writing. -/

namespace Lox

open Grammar

/-- The text of a mark or a reserved word. -/
def TokenKind.text : TokenKind → String
  | .leftParen => "(" | .rightParen => ")" | .leftBrace => "\x7b" | .rightBrace => "\x7d"
  | .comma => "," | .dot => "." | .minus => "-" | .plus => "+" | .semicolon => ";"
  | .slash => "/" | .star => "*" | .bang => "!" | .bangEqual => "!=" | .equal => "="
  | .equalEqual => "==" | .greater => ">" | .greaterEqual => ">=" | .less => "<"
  | .lessEqual => "<="
  | .kwAnd => "and" | .kwBreak => "break" | .kwClass => "class" | .kwContinue => "continue"
  | .kwElse => "else" | .kwFalse => "false" | .kwFun => "fun" | .kwFor => "for" | .kwIf => "if"
  | .kwNil => "nil" | .kwOr => "or" | .kwPrint => "print" | .kwReturn => "return"
  | .kwSuper => "super" | .kwThis => "this" | .kwTrue => "true" | .kwVar => "var"
  | .kwWhile => "while"
  | .identifier | .string | .number | .eof => ""

/-- A token that the tree does not hold. -/
def Token.ofKind (kind : TokenKind) : Token := ⟨kind, kind.text, none, 1⟩

@[simp] theorem Token.ofKind_kind (kind : TokenKind) : (Token.ofKind kind).kind = kind := rfl

def Constant.write : Constant → Token
  | .nil => .ofKind .kwNil
  | .bool true => .ofKind .kwTrue
  | .bool false => .ofKind .kwFalse
  | .number value => ⟨.number, value.literalText, some (.number value), 1⟩
  | .string contents => ⟨.string, "\"" ++ contents ++ "\"", some (.string contents), 1⟩

mutual

def Expr.write : Expr → List Token
  | .constant value => [value.write]
  | .group inner => .ofKind .leftParen :: (inner.write ++ [.ofKind .rightParen])
  | .unary operator operand => operator :: operand.write
  | .binary left operator right | .logical left operator right =>
    left.write ++ operator :: right.write
  | .variable target => [target.name]
  | .assign target value => target.name :: .ofKind .equal :: value.write
  | .call callee paren arguments =>
    callee.write ++ .ofKind .leftParen :: (Expr.writeList arguments ++ [paren])
  | .get object name => object.write ++ [.ofKind .dot, name]
  | .set object name value => object.write ++ .ofKind .dot :: name :: .ofKind .equal :: value.write
  | .receiver keyword => [keyword.name]
  | .inherited keyword method => [keyword.name, .ofKind .dot, method]

/-- With commas between. -/
def Expr.writeList : List Expr → List Token
  | [] => []
  | e :: rest => e.write ++ Expr.writeMore rest

def Expr.writeMore : List Expr → List Token
  | [] => []
  | e :: rest => .ofKind .comma :: (e.write ++ Expr.writeMore rest)

end

def Expr.write? : Option Expr → List Token
  | none => []
  | some e => e.write

def Token.writeList : List Token → List Token
  | [] => []
  | t :: rest => t :: rest.flatMap fun u => [.ofKind .comma, u]

mutual

def Stmt.write : Stmt → List Token
  | .expression value => value.write ++ [.ofKind .semicolon]
  | .print value => .ofKind .kwPrint :: (value.write ++ [.ofKind .semicolon])
  | .varDecl name none => [.ofKind .kwVar, name, .ofKind .semicolon]
  | .varDecl name (some value) =>
    .ofKind .kwVar :: name :: .ofKind .equal :: (value.write ++ [.ofKind .semicolon])
  | .block body => .ofKind .leftBrace :: (Stmt.writeAll body ++ [.ofKind .rightBrace])
  | .ifThen condition consequent =>
    .ofKind .kwIf :: .ofKind .leftParen ::
      (condition.write ++ .ofKind .rightParen :: consequent.write)
  | .ifElse condition consequent alternative =>
    .ofKind .kwIf :: .ofKind .leftParen :: (condition.write ++ .ofKind .rightParen ::
      (consequent.write ++ .ofKind .kwElse :: alternative.write))
  | .loop condition body none =>
    .ofKind .kwWhile :: .ofKind .leftParen :: (condition.write ++ .ofKind .rightParen :: body.write)
  | .loop condition body (some increment) =>
    .ofKind .kwFor :: .ofKind .leftParen :: .ofKind .semicolon ::
      (condition.write ++ .ofKind .semicolon ::
        (increment.write ++ .ofKind .rightParen :: body.write))
  | .function decl => .ofKind .kwFun :: decl.write
  | .classDecl name none methods =>
    .ofKind .kwClass :: name :: .ofKind .leftBrace ::
      (FunctionDecl.writeAll methods ++ [.ofKind .rightBrace])
  | .classDecl name (some superclass) methods =>
    .ofKind .kwClass :: name :: .ofKind .less :: superclass.name :: .ofKind .leftBrace ::
      (FunctionDecl.writeAll methods ++ [.ofKind .rightBrace])
  | .returning keyword value => keyword :: (Expr.write? value ++ [.ofKind .semicolon])
  | .breaking keyword | .continuing keyword => [keyword, .ofKind .semicolon]

def Stmt.writeAll : List Stmt → List Token
  | [] => []
  | s :: rest => s.write ++ Stmt.writeAll rest

def FunctionDecl.write : FunctionDecl → List Token
  | .mk name params body =>
    name :: .ofKind .leftParen :: (Token.writeList params ++ .ofKind .rightParen ::
      .ofKind .leftBrace :: (Stmt.writeAll body ++ [.ofKind .rightBrace]))

def FunctionDecl.writeAll : List FunctionDecl → List Token
  | [] => []
  | f :: rest => f.write ++ FunctionDecl.writeAll rest

end

/-- How tightly an expression binds. -/
def Expr.level : Expr → Nat
  | .assign .. | .set .. => 0
  | .binary _ operator _ | .logical _ operator _ => (bindsAt operator.kind).getD 0
  | .unary .. => 7
  | .call .. | .get .. => 8
  | .constant _ | .group _ | .variable _ | .receiver _ | .inherited .. => 9

mutual

def Expr.Canonical : Expr → Prop
  | .constant _ => True
  | .group inner => inner.Canonical
  | .unary operator operand =>
    isUnaryOperator operator.kind = true ∧ operand.Canonical ∧ 7 ≤ operand.level
  | .binary left operator right => ∃ k, 3 ≤ k ∧ joinsAt k operator.kind = true ∧
    (left.Canonical ∧ k ≤ left.level) ∧ right.Canonical ∧ k + 1 ≤ right.level
  | .logical left operator right => ∃ k, k ≤ 2 ∧ joinsAt k operator.kind = true ∧
    (left.Canonical ∧ k ≤ left.level) ∧ right.Canonical ∧ k + 1 ≤ right.level
  | .variable target => target.name.kind = .identifier
  | .assign target value => target.name.kind = .identifier ∧ value.Canonical
  | .call callee paren arguments =>
    (callee.Canonical ∧ 8 ≤ callee.level) ∧ paren.kind = .rightParen ∧
      Expr.AllCanonical arguments ∧ arguments.length ≤ maxListLength
  | .get object name => (object.Canonical ∧ 8 ≤ object.level) ∧ name.kind = .identifier
  | .set object name value =>
    (object.Canonical ∧ 8 ≤ object.level) ∧ name.kind = .identifier ∧ value.Canonical
  | .receiver keyword => keyword.name.kind = .kwThis
  | .inherited keyword method => keyword.name.kind = .kwSuper ∧ method.kind = .identifier

def Expr.AllCanonical : List Expr → Prop
  | [] => True
  | e :: rest => e.Canonical ∧ Expr.AllCanonical rest

end

theorem Expr.allCanonical_iff (es : List Expr) :
    Expr.AllCanonical es ↔ ∀ e ∈ es, e.Canonical := by
  induction es with
  | nil => simp [Expr.AllCanonical]
  | cons e rest ih => simp [Expr.AllCanonical, ih]

/-- Whether an `else` behind the statement would belong to an `if` at its end. -/
def Stmt.endsOpen : Stmt → Bool
  | .ifThen .. => true
  | .ifElse _ _ alternative => alternative.endsOpen
  | .loop _ body _ => body.endsOpen
  | _ => false

mutual

def Stmt.Canonical : Stmt → Prop
  | .expression value | .print value => value.Canonical
  | .varDecl name initializer => name.kind = .identifier ∧ ∀ e ∈ initializer, e.Canonical
  | .block body => Stmt.AllCanonical body
  | .ifThen condition consequent =>
    condition.Canonical ∧ consequent.Canonical ∧ consequent.declared? = none
  | .ifElse condition consequent alternative =>
    condition.Canonical ∧ (consequent.Canonical ∧ consequent.declared? = none) ∧
      consequent.endsOpen = false ∧ alternative.Canonical ∧ alternative.declared? = none
  | .loop condition body increment =>
    condition.Canonical ∧ (body.Canonical ∧ body.declared? = none) ∧
      ∀ e ∈ increment, e.Canonical
  | .function decl => decl.Canonical
  | .classDecl name superclass methods =>
    name.kind = .identifier ∧ (∀ r ∈ superclass, r.name.kind = .identifier) ∧
      FunctionDecl.AllCanonical methods
  | .returning keyword value => keyword.kind = .kwReturn ∧ ∀ e ∈ value, e.Canonical
  | .breaking keyword => keyword.kind = .kwBreak
  | .continuing keyword => keyword.kind = .kwContinue

def Stmt.AllCanonical : List Stmt → Prop
  | [] => True
  | s :: rest => s.Canonical ∧ Stmt.AllCanonical rest

def FunctionDecl.Canonical : FunctionDecl → Prop
  | .mk name params body => name.kind = .identifier ∧ (∀ p ∈ params, p.kind = .identifier) ∧
    params.length ≤ maxListLength ∧ Stmt.AllCanonical body

def FunctionDecl.AllCanonical : List FunctionDecl → Prop
  | [] => True
  | f :: rest => f.Canonical ∧ FunctionDecl.AllCanonical rest

end

theorem Stmt.allCanonical_iff (ss : List Stmt) :
    Stmt.AllCanonical ss ↔ ∀ s ∈ ss, s.Canonical := by
  induction ss with
  | nil => simp [Stmt.AllCanonical]
  | cons s rest ih => simp [Stmt.AllCanonical, ih]

theorem FunctionDecl.allCanonical_iff (fs : List FunctionDecl) :
    FunctionDecl.AllCanonical fs ↔ ∀ f ∈ fs, f.Canonical := by
  induction fs with
  | nil => simp [FunctionDecl.AllCanonical]
  | cons f rest ih => simp [FunctionDecl.AllCanonical, ih]

section Writing

theorem Constant.constantAt?_write (value : Constant) : constantAt? value.write = some value := by
  cases value with
  | bool b => cases b <;> rfl
  | _ => rfl

theorem joined_binary {k : Nat} (hk : 3 ≤ k) : joined k = .binary := if_neg (by omega)

theorem joined_logical {k : Nat} (hk : k ≤ 2) : joined k = .logical := if_pos hk

theorem spells_joined {k l : Nat} {left right : Expr} {operator : Token}
    (hj : joinsAt l operator.kind = true)
    (hleft : ∀ us, SpellsExpr (.expr l left) (left.write ++ us) us)
    (hright : ∀ us, SpellsExpr (.expr (l + 1) right) (right.write ++ us) us) (hk : k ≤ l)
    (us : List Token) :
    SpellsExpr (.expr k (joined l left operator right))
      (left.write ++ operator :: right.write ++ us) us := by
  have hl : l ≤ 6 := (bindsAt_of_joinsAt hj).2.2
  have hspelled := SpellsExpr.join (hleft (operator :: (right.write ++ us))) hj (hright us)
  simpa using hspelled.lower hk (by omega)

mutual

/-- What can be written out is spelled by what is written. -/
theorem Expr.spells_write : ∀ (e : Expr), e.Canonical → ∀ k, k ≤ e.level → ∀ us : List Token,
    SpellsExpr (.expr k e) (e.write ++ us) us
  | .constant value, _, _, hk, _ =>
    (SpellsExpr.constant value.constantAt?_write).lower hk (by decide)
  | .group inner, h, k, hk, us => by
    have hinner := inner.spells_write h 0 (Nat.zero_le _) (.ofKind .rightParen :: us)
    simpa [Expr.write] using
      (SpellsExpr.group (Token.ofKind_kind .leftParen) hinner rfl).lower hk (by decide)
  | .unary operator operand, ⟨ho, h, hlevel⟩, k, hk, us =>
    (SpellsExpr.unary ho (operand.spells_write h 7 hlevel us)).lower hk (by decide)
  | .binary left operator right, h, k, hk, us => by
    obtain ⟨l, hl, hj, ⟨hleft, hll⟩, hright, hrl⟩ := h
    rw [Expr.level, (bindsAt_of_joinsAt hj).1] at hk
    have hspelled := spells_joined hj (left.spells_write hleft l hll)
      (right.spells_write hright (l + 1) hrl) hk us
    rwa [joined_binary hl] at hspelled
  | .logical left operator right, h, k, hk, us => by
    obtain ⟨l, hl, hj, ⟨hleft, hll⟩, hright, hrl⟩ := h
    rw [Expr.level, (bindsAt_of_joinsAt hj).1] at hk
    have hspelled := spells_joined hj (left.spells_write hleft l hll)
      (right.spells_write hright (l + 1) hrl) hk us
    rwa [joined_logical hl] at hspelled
  | .variable _, h, _, hk, _ => (SpellsExpr.occurrence h).lower hk (by decide)
  | .assign _ value, ⟨hn, h⟩, k, hk, us =>
    (SpellsExpr.assign hn rfl (value.spells_write h 0 (Nat.zero_le _) us)).lower hk (by decide)
  | .call callee paren [], ⟨⟨h, hlevel⟩, hp, _, _⟩, k, hk, us => by
    have hcallee := callee.spells_write h 8 hlevel (.ofKind .leftParen :: paren :: us)
    simpa [Expr.write, Expr.writeList] using (SpellsExpr.call hcallee rfl hp).lower hk (by decide)
  | .call callee paren (e :: rest), ⟨⟨h, hlevel⟩, hp, ⟨he, hrest⟩, hlen⟩, k, hk, us => by
    have hcallee := callee.spells_write h 8 hlevel
      (.ofKind .leftParen :: (e.write ++ (Expr.writeMore rest ++ paren :: us)))
    have hfirst := e.spells_write he 0 (Nat.zero_le _) (Expr.writeMore rest ++ paren :: us)
    have hargs := Expr.spells_writeMore rest hrest [e] _ (paren :: us) (.one hfirst)
    simpa [Expr.write, Expr.writeList] using
      (SpellsExpr.callWith hcallee rfl hargs hp hlen).lower hk (by decide)
  | .get object name, ⟨⟨h, hlevel⟩, hn⟩, k, hk, us => by
    have hobject := object.spells_write h 8 hlevel (.ofKind .dot :: name :: us)
    simpa [Expr.write] using (SpellsExpr.get hobject rfl hn).lower hk (by decide)
  | .set object name value, ⟨⟨h, hlevel⟩, hn, hv⟩, k, hk, us => by
    have hobject := object.spells_write h 8 hlevel
      (.ofKind .dot :: name :: .ofKind .equal :: (value.write ++ us))
    have hvalue := value.spells_write hv 0 (Nat.zero_le _) us
    simpa [Expr.write] using (SpellsExpr.set hobject rfl hn rfl hvalue).lower hk (by decide)
  | .receiver _, h, _, hk, _ => (SpellsExpr.receiver h).lower hk (by decide)
  | .inherited _ _, ⟨hkeyword, hm⟩, _, hk, _ =>
    (SpellsExpr.inherited hkeyword (Token.ofKind_kind .dot) hm).lower hk (by decide)

theorem Expr.spells_writeMore : ∀ (es : List Expr), Expr.AllCanonical es →
    ∀ (before : List Expr) (ts us : List Token),
      SpellsExpr (.items before) ts (Expr.writeMore es ++ us) →
      SpellsExpr (.items (before ++ es)) ts us
  | [], _, before, ts, us, hbefore => by simpa [Expr.writeMore] using hbefore
  | e :: rest, ⟨he, hrest⟩, before, ts, us, hbefore => by
    have hfirst := e.spells_write he 0 (Nat.zero_le _) (Expr.writeMore rest ++ us)
    rw [Expr.writeMore, List.cons_append, List.append_assoc] at hbefore
    simpa using Expr.spells_writeMore rest hrest (before ++ [e]) ts us (.more hbefore rfl hfirst)

end

theorem Expr.spells_write? {e : Option Expr} (h : ∀ x ∈ e, x.Canonical) (us : List Token) :
    SpellsOption e (Expr.write? e ++ us) us := by
  cases e with
  | none => rfl
  | some e => exact e.spells_write (h e rfl) 0 (Nat.zero_le _) us

theorem listed_writeMore (ps : List Token) : ∀ (before ts us : List Token),
    (∀ p ∈ ps, p.kind = .identifier) →
    Listed SpellsParameter ts before ((ps.flatMap fun u => [.ofKind .comma, u]) ++ us) →
    Listed SpellsParameter ts (before ++ ps) us := by
  induction ps with
  | nil => exact fun before ts us _ h => by simpa using h
  | cons p rest ih =>
    intro before ts us hps h
    have hmore := h.more (a := p) rfl ⟨hps p (.head _), rfl⟩
    simpa using ih (before ++ [p]) ts us (fun q hq => hps q (.tail _ hq)) hmore

theorem spellsParameters_writeList {params : List Token} (h : ∀ p ∈ params, p.kind = .identifier)
    (hlen : params.length ≤ maxListLength) (us : List Token) :
    SpellsParameters params (Token.writeList params ++ us) us := by
  cases params with
  | nil => exact .inl ⟨rfl, rfl⟩
  | cons p rest =>
    exact .inr ⟨listed_writeMore rest [p] _ us (fun q hq => h q (.tail _ hq))
      (.one ⟨h p (.head _), rfl⟩), hlen⟩

/-- The phrase that a statement or declaration is written as. -/
def Stmt.phrase (s : Stmt) : Phrase :=
  match s.declared? with
  | none => .statement s.endsOpen s
  | some _ => .declaration s

theorem Stmt.phrase_of_statement {s : Stmt} (h : s.declared? = none) :
    s.phrase = .statement s.endsOpen s := by
  rw [Stmt.phrase, h]

theorem Stmt.spells_declaration {s : Stmt} {ts us : List Token} (h : Spells s.phrase ts us) :
    Spells (.declaration s) ts us := by
  unfold Stmt.phrase at h
  split at h
  · exact .statement h
  · exact h

mutual

theorem Stmt.spells_write : ∀ (s : Stmt), s.Canonical → ∀ us : List Token,
    Spells s.phrase (s.write ++ us) us
  | .expression value, h, us => by
    have hvalue := value.spells_write h 0 (Nat.zero_le _) (.ofKind .semicolon :: us)
    simpa [Stmt.write, Stmt.phrase, Stmt.declared?, Stmt.endsOpen] using
      Spells.expression hvalue rfl
  | .print value, h, us => by
    have hvalue := value.spells_write h 0 (Nat.zero_le _) (.ofKind .semicolon :: us)
    simpa [Stmt.write, Stmt.phrase, Stmt.declared?, Stmt.endsOpen] using
      Spells.print (Token.ofKind_kind .kwPrint) hvalue rfl
  | .varDecl name none, h, us => by
    have hs : SpellsVariable (.varDecl name none) (name :: .ofKind .semicolon :: us) us :=
      .bare h.1 rfl
    exact Spells.varDecl (Token.ofKind_kind .kwVar) hs
  | .varDecl name (some value), h, us => by
    have hvalue := value.spells_write (h.2 value rfl) 0 (Nat.zero_le _) (.ofKind .semicolon :: us)
    have hs := SpellsVariable.initialized h.1 (Token.ofKind_kind .equal) hvalue rfl
    simpa [Stmt.write, Stmt.phrase, Stmt.declared?, Stmt.endsOpen] using
      Spells.varDecl (Token.ofKind_kind .kwVar) hs
  | .block body, h, us => by
    have hbody := Stmt.spells_writeAll body h [] _ (.ofKind .rightBrace :: us) .none
    simpa [Stmt.write, Stmt.phrase, Stmt.declared?, Stmt.endsOpen] using
      Spells.block (Token.ofKind_kind .leftBrace) hbody rfl
  | .ifThen condition consequent, ⟨hcondition, h, hstatement⟩, us => by
    have hc := condition.spells_write hcondition 0 (Nat.zero_le _)
      (.ofKind .rightParen :: (consequent.write ++ us))
    have hs := consequent.spells_write h us
    rw [Stmt.phrase_of_statement hstatement] at hs
    simpa [Stmt.write, Stmt.phrase, Stmt.declared?, Stmt.endsOpen] using
      Spells.ifThen (Token.ofKind_kind .kwIf) (Token.ofKind_kind .leftParen) hc rfl hs
  | .ifElse condition consequent alternative,
      ⟨hcondition, ⟨h, hstatement⟩, hclosed, h', hstatement'⟩, us => by
    have hc := condition.spells_write hcondition 0 (Nat.zero_le _)
      (.ofKind .rightParen :: (consequent.write ++ .ofKind .kwElse :: (alternative.write ++ us)))
    have hs := consequent.spells_write h (.ofKind .kwElse :: (alternative.write ++ us))
    have hs' := alternative.spells_write h' us
    rw [Stmt.phrase_of_statement hstatement, hclosed] at hs
    rw [Stmt.phrase_of_statement hstatement'] at hs'
    simpa [Stmt.write, Stmt.phrase, Stmt.declared?, Stmt.endsOpen] using
      Spells.ifElse (Token.ofKind_kind .kwIf) (Token.ofKind_kind .leftParen) hc rfl hs rfl hs'
  | .loop condition body none, ⟨hcondition, ⟨h, hstatement⟩, _⟩, us => by
    have hc := condition.spells_write hcondition 0 (Nat.zero_le _)
      (.ofKind .rightParen :: (body.write ++ us))
    have hs := body.spells_write h us
    rw [Stmt.phrase_of_statement hstatement] at hs
    simpa [Stmt.write, Stmt.phrase, Stmt.declared?, Stmt.endsOpen] using
      Spells.whileLoop (Token.ofKind_kind .kwWhile) (Token.ofKind_kind .leftParen) hc rfl hs
  | .loop condition body (some increment), ⟨hcondition, ⟨h, hstatement⟩, hincrement⟩, us => by
    have hc : SpellsOption (some condition) _ _ := condition.spells_write hcondition 0
      (Nat.zero_le _)
      (.ofKind .semicolon :: (increment.write ++ .ofKind .rightParen :: (body.write ++ us)))
    have hn : SpellsOption (some increment) _ _ := increment.spells_write
      (hincrement increment rfl) 0 (Nat.zero_le _) (.ofKind .rightParen :: (body.write ++ us))
    have hs := body.spells_write h us
    rw [Stmt.phrase_of_statement hstatement] at hs
    simpa [Stmt.write, Stmt.phrase, Stmt.declared?, Stmt.endsOpen, forLoop] using
      Spells.forLoop (Token.ofKind_kind .kwFor)
        (Token.ofKind_kind .leftParen) (.none (Token.ofKind_kind .semicolon)) hc rfl hn rfl hs
  | .function decl, h, us =>
    .function (Token.ofKind_kind .kwFun) (decl.spells_write h us)
  | .classDecl name none methods, ⟨hn, _, h⟩, us => by
    have hm := FunctionDecl.spells_writeAll methods h [] _ (.ofKind .rightBrace :: us) .noMethods
    simpa [Stmt.write, Stmt.phrase, Stmt.declared?, Stmt.endsOpen] using
      Spells.classDecl (Token.ofKind_kind .kwClass) hn (show SpellsSuperclass none _ _ from rfl)
        (Token.ofKind_kind .leftBrace) hm rfl
  | .classDecl name (some superclass) methods, ⟨hn, hsuper, h⟩, us => by
    have hm := FunctionDecl.spells_writeAll methods h [] _ (.ofKind .rightBrace :: us) .noMethods
    simpa [Stmt.write, Stmt.phrase, Stmt.declared?, Stmt.endsOpen] using
      Spells.classDecl (Token.ofKind_kind .kwClass) hn
        (show SpellsSuperclass (some superclass) _ _ from
          ⟨_, Token.ofKind_kind .less, hsuper _ rfl, rfl⟩)
        (Token.ofKind_kind .leftBrace) hm rfl
  | .returning keyword value, ⟨hk, h⟩, us => by
    have hvalue := Expr.spells_write? h (.ofKind .semicolon :: us)
    simpa [Stmt.write, Stmt.phrase, Stmt.declared?, Stmt.endsOpen] using
      Spells.returning hk hvalue rfl
  | .breaking _, h, _ => .breaking h (Token.ofKind_kind .semicolon)
  | .continuing _, h, _ => .continuing h (Token.ofKind_kind .semicolon)

theorem Stmt.spells_writeAll : ∀ (ss : List Stmt), Stmt.AllCanonical ss →
    ∀ (before : List Stmt) (ts us : List Token),
      Spells (.declarations before) ts (Stmt.writeAll ss ++ us) →
      Spells (.declarations (before ++ ss)) ts us
  | [], _, before, ts, us, hbefore => by simpa [Stmt.writeAll] using hbefore
  | s :: rest, ⟨hs, hrest⟩, before, ts, us, hbefore => by
    rw [Stmt.writeAll, List.append_assoc] at hbefore
    have hfirst := Stmt.spells_declaration (s.spells_write hs (Stmt.writeAll rest ++ us))
    have hmore := hbefore.more hfirst
    simpa using Stmt.spells_writeAll rest hrest (before ++ [s]) ts us hmore

theorem FunctionDecl.spells_write : ∀ (f : FunctionDecl), f.Canonical → ∀ us : List Token,
    Spells (.callable f) (f.write ++ us) us
  | .mk name params body, ⟨hn, hparams, hlen, h⟩, us => by
    have hbody := Stmt.spells_writeAll body h [] _ (.ofKind .rightBrace :: us) .none
    have hp := spellsParameters_writeList hparams hlen (.ofKind .rightParen ::
      .ofKind .leftBrace :: (Stmt.writeAll body ++ .ofKind .rightBrace :: us))
    simpa [FunctionDecl.write] using
      Spells.callable hn (Token.ofKind_kind .leftParen) hp rfl rfl hbody rfl

theorem FunctionDecl.spells_writeAll : ∀ (fs : List FunctionDecl), FunctionDecl.AllCanonical fs →
    ∀ (before : List FunctionDecl) (ts us : List Token),
      Spells (.methods before) ts (FunctionDecl.writeAll fs ++ us) →
      Spells (.methods (before ++ fs)) ts us
  | [], _, before, ts, us, hbefore => by simpa [FunctionDecl.writeAll] using hbefore
  | f :: rest, ⟨hf, hrest⟩, before, ts, us, hbefore => by
    rw [FunctionDecl.writeAll, List.append_assoc] at hbefore
    have hmore := hbefore.moreMethods (f.spells_write hf (FunctionDecl.writeAll rest ++ us))
    simpa using FunctionDecl.spells_writeAll rest hrest (before ++ [f]) ts us hmore

end

end Writing

section Reading

variable {ts us : List Token}

theorem Expr.AllCanonical.snoc {es : List Expr} {e : Expr} (h : Expr.AllCanonical es)
    (he : e.Canonical) : Expr.AllCanonical (es ++ [e]) := by
  rw [Expr.allCanonical_iff] at h ⊢
  simpa [or_imp, forall_and] using ⟨h, he⟩

theorem canonical_join {k : Nat} {left right : Expr} {operator : Token}
    (hleft : left.Canonical ∧ k ≤ left.level) (hj : joinsAt k operator.kind = true)
    (hright : right.Canonical ∧ k + 1 ≤ right.level) :
    (joined k left operator right).Canonical ∧ k ≤ (joined k left operator right).level := by
  obtain ⟨hbinds, -, -⟩ := bindsAt_of_joinsAt hj
  by_cases hk : k ≤ 2
  · rw [joined_logical hk]
    exact ⟨⟨k, hk, hj, hleft, hright⟩, by simp [Expr.level, hbinds]⟩
  · rw [joined_binary (by omega)]
    exact ⟨⟨k, by omega, hj, hleft, hright⟩, by simp [Expr.level, hbinds]⟩

/-- What is spelled can be written out, at the level that it is spelled at. -/
theorem canonical_of_spellsExpr {p : ExprPhrase} (h : SpellsExpr p ts us) :
    match p with
    | .expr k e => e.Canonical ∧ k ≤ e.level
    | .items es => Expr.AllCanonical es := by
  induction h with
  | looser _ _ ih => exact ⟨ih.1, Nat.le_of_succ_le ih.2⟩
  | assign hn _ _ ih => exact ⟨⟨hn, ih.1⟩, Nat.zero_le _⟩
  | set _ _ hn _ _ ih ih' => exact ⟨⟨ih, hn, ih'.1⟩, Nat.zero_le _⟩
  | join _ hj _ ih ih' => exact canonical_join ih hj ih'
  | unary ho _ ih => exact ⟨⟨ho, ih⟩, Nat.le_refl 7⟩
  | call _ _ hp ih => exact ⟨⟨ih, hp, trivial, Nat.zero_le _⟩, Nat.le_refl 8⟩
  | callWith _ _ _ hp hlen ih ih' => exact ⟨⟨ih, hp, ih', hlen⟩, Nat.le_refl 8⟩
  | get _ _ hn ih => exact ⟨⟨ih, hn⟩, Nat.le_refl 8⟩
  | constant _ => exact ⟨trivial, Nat.le_refl 9⟩
  | inherited hk _ hm => exact ⟨⟨hk, hm⟩, Nat.le_refl 9⟩
  | receiver hk => exact ⟨hk, Nat.le_refl 9⟩
  | occurrence hn => exact ⟨hn, Nat.le_refl 9⟩
  | group _ _ _ ih => exact ⟨ih.1, Nat.le_refl 9⟩
  | one _ ih => exact ⟨ih.1, trivial⟩
  | more _ _ _ ih ih' => exact ih.snoc ih'.1

theorem canonical_of_option {e : Option Expr} (h : SpellsOption e ts us) :
    ∀ x ∈ e, x.Canonical := by
  rintro x ⟨⟩
  exact (canonical_of_spellsExpr h).1

theorem canonical_of_variable {s : Stmt} (h : SpellsVariable s ts us) : s.Canonical := by
  cases h with
  | bare hn _ => exact ⟨hn, nofun⟩
  | initialized hn _ he _ =>
    refine ⟨hn, ?_⟩
    rintro _ ⟨⟩
    exact (canonical_of_spellsExpr he).1

theorem canonical_of_initializer {s : Option Stmt} (h : SpellsInitializer s ts us) :
    ∀ x ∈ s, x.Canonical := by
  rintro x ⟨⟩
  cases h with
  | varDecl _ hs => exact canonical_of_variable hs
  | expression he _ => exact (canonical_of_spellsExpr he).1

theorem canonical_of_parameters {params : List Token} (h : SpellsParameters params ts us) :
    (∀ p ∈ params, p.kind = .identifier) ∧ params.length ≤ maxListLength := by
  rcases h with ⟨rfl, -⟩ | ⟨h, hlen⟩
  · exact ⟨by simp, Nat.zero_le _⟩
  · refine ⟨?_, hlen⟩
    clear hlen
    induction h with
    | one h => simpa using h.1
    | more _ _ h ih => simpa [or_imp, forall_and] using ⟨ih, h.1⟩

theorem canonical_forLoop {initializer : Option Stmt} {condition increment : Option Expr}
    {body : Stmt} (hi : ∀ s ∈ initializer, s.Canonical) (hc : ∀ e ∈ condition, e.Canonical)
    (hn : ∀ e ∈ increment, e.Canonical) (h : body.Canonical ∧ body.declared? = none) :
    (forLoop initializer condition increment body).Canonical := by
  have hcondition : (condition.getD (.constant (.bool true))).Canonical := by
    cases condition with
    | none => trivial
    | some e => exact hc e rfl
  cases initializer with
  | none => exact ⟨hcondition, h, hn⟩
  | some first => exact ⟨hi first rfl, ⟨hcondition, h, hn⟩, trivial⟩

theorem Stmt.AllCanonical.snoc {ss : List Stmt} {s : Stmt} (h : Stmt.AllCanonical ss)
    (hs : s.Canonical) : Stmt.AllCanonical (ss ++ [s]) := by
  rw [Stmt.allCanonical_iff] at h ⊢
  simpa [or_imp, forall_and] using ⟨h, hs⟩

theorem FunctionDecl.AllCanonical.snoc {fs : List FunctionDecl} {f : FunctionDecl}
    (h : FunctionDecl.AllCanonical fs) (hf : f.Canonical) :
    FunctionDecl.AllCanonical (fs ++ [f]) := by
  rw [FunctionDecl.allCanonical_iff] at h ⊢
  simpa [or_imp, forall_and] using ⟨h, hf⟩

theorem canonical_of_spells {p : Phrase} (h : Spells p ts us) :
    match p with
    | .statement b s =>
      (s.Canonical ∧ s.declared? = none) ∧ (b = false → s.endsOpen = false)
    | .declaration s => s.Canonical
    | .declarations ss => Stmt.AllCanonical ss
    | .callable f => f.Canonical
    | .methods fs => FunctionDecl.AllCanonical fs := by
  induction h with
  | expression he _ | print _ he _ => exact ⟨⟨(canonical_of_spellsExpr he).1, rfl⟩, fun _ => rfl⟩
  | returning hk he _ => exact ⟨⟨⟨hk, canonical_of_option he⟩, rfl⟩, fun _ => rfl⟩
  | breaking hk _ | continuing hk _ => exact ⟨⟨hk, rfl⟩, fun _ => rfl⟩
  | block _ _ _ ih => exact ⟨⟨ih, rfl⟩, fun _ => rfl⟩
  | ifThen _ _ he _ _ ih => exact ⟨⟨⟨(canonical_of_spellsExpr he).1, ih.1⟩, rfl⟩, nofun⟩
  | ifElse _ _ he _ _ _ _ ih ih' =>
    exact ⟨⟨⟨(canonical_of_spellsExpr he).1, ih.1, ih.2 rfl, ih'.1⟩, rfl⟩, ih'.2⟩
  | whileLoop _ _ he _ _ ih =>
    exact ⟨⟨⟨(canonical_of_spellsExpr he).1, ih.1, nofun⟩, rfl⟩, ih.2⟩
  | @forLoop _ _ _ _ initializer _ _ _ _ _ _ _ _ _ _ _ hi he _ hn _ _ ih =>
    refine ⟨⟨canonical_forLoop (canonical_of_initializer hi) (canonical_of_option he)
      (canonical_of_option hn) ih.1, ?_⟩, ?_⟩
    · cases initializer <;> rfl
    · cases initializer with
      | none => exact ih.2
      | some first => exact fun _ => rfl
  | varDecl _ hs => exact canonical_of_variable hs
  | function _ _ ih => exact ih
  | @classDecl _ _ _ _ superclass _ _ _ _ _ hn hs _ _ _ ih =>
    refine ⟨hn, ?_, ih⟩
    rintro r ⟨⟩
    obtain ⟨_, -, hname, -⟩ := hs
    exact hname
  | statement _ ih => exact ih.1.1
  | none | noMethods => trivial
  | more _ _ ih ih' => exact ih.snoc ih'
  | callable hn _ hp _ _ _ _ ih =>
    obtain ⟨hparams, hlen⟩ := canonical_of_parameters hp
    exact ⟨hn, hparams, hlen, ih⟩
  | moreMethods _ _ ih ih' => exact ih.snoc ih'

end Reading

theorem Relabelling.blank_after (f : Relabelling) : Relabelling.blank.after f = .blank := rfl

theorem Stmt.map_blank_relabel (f : Relabelling) (ss : List Stmt) :
    (ss.map (Stmt.relabel f)).map (Stmt.relabel .blank) = ss.map (Stmt.relabel .blank) := by
  rw [List.map_map]
  exact List.map_congr_left fun s _ => by
    rw [Function.comp_apply, s.relabel_relabel, Relabelling.blank_after]

/-- The same tokens on other lines are read as the same program. -/
theorem parse_blank {tokens tokens' : List Token} {next : Nat}
    (h : tokens'.map (Token.relabel .blank) = tokens.map (Token.relabel .blank))
    (hend : ∃ t ∈ tokens, t.kind = .eof) (hquiet : (parse tokens next).errors = []) :
    (parse tokens' next).errors = [] ∧
      (parse tokens' next).statements.map (Stmt.relabel .blank) =
        (parse tokens next).statements.map (Stmt.relabel .blank) := by
  let f : Relabelling := ⟨id, fun _ => 0⟩
  have hsame : tokens'.map (Token.relabel f) = tokens.map (Token.relabel f) := h
  have hend' : ∃ t ∈ tokens', t.kind = .eof := by
    obtain ⟨t, ht, hk⟩ := hend
    have hmem : t.relabel .blank ∈ tokens'.map (Token.relabel .blank) :=
      h ▸ List.mem_map_of_mem ht
    obtain ⟨u, hu, hut⟩ := List.mem_map.mp hmem
    exact ⟨u, hu, (congrArg Token.kind hut).trans hk⟩
  have hnodes : ∀ i, f.node ⟨next + i⟩ = ⟨next + i⟩ := fun _ => rfl
  obtain ⟨used, -, hparse⟩ := parse_relabel hnodes hend
  obtain ⟨used', -, hparse'⟩ := parse_relabel hnodes hend'
  -- On line 0 everywhere the two lists are one, so the two parses agree.
  rw [hsame, hparse] at hparse'
  obtain ⟨hstatements, herrors, -⟩ := Parsed.mk.inj hparse'
  constructor
  · rw [hquiet] at herrors
    exact List.map_eq_nil_iff.mp herrors.symm
  · have := congrArg (List.map (Stmt.relabel .blank)) hstatements
    rw [Stmt.map_blank_relabel, Stmt.map_blank_relabel] at this
    exact this.symm

theorem Stmt.spells_program {ss : List Stmt} (h : ∀ s ∈ ss, s.Canonical) :
    Spells (.declarations ss) (Stmt.writeAll ss) [] := by
  have hspelled := Stmt.spells_writeAll ss ((Stmt.allCanonical_iff ss).mpr h) [] _ [] .none
  simpa using hspelled

/-- What is written out derives from the grammar and is read back without an error as the same
program, on whatever lines it stands, and what is read without an error can be written out. -/
theorem reading_undoes_writing :
    (∀ ss : List Stmt, (∀ s ∈ ss, s.Canonical) →
      Ebnf.Derives (.rule .program) (Stmt.writeAll ss ++ [Token.endOfInput 1]) ∧
      ∀ (tokens : List Token) (next : Nat), tokens.map (Token.relabel .blank) =
          (Stmt.writeAll ss ++ [Token.endOfInput 1]).map (Token.relabel .blank) →
        (parse tokens next).errors = [] ∧
          (parse tokens next).statements.map (Stmt.relabel .blank) =
            ss.map (Stmt.relabel .blank)) ∧
    ∀ (tokens : List Token) (next : Nat), (parse tokens next).errors = [] →
      ∀ s ∈ (parse tokens next).statements, s.Canonical := by
  constructor
  · intro ss hss
    have hspelled := Stmt.spells_program hss
    have hderives := derives_of_spells hspelled
    refine ⟨.rule (.seq hderives (.token rfl)), fun tokens next htokens => ?_⟩
    have hown : (Stmt.writeAll ss ++ [Token.endOfInput 1]).takeWhile (·.kind != .eof) =
        Stmt.writeAll ss := by
      rw [List.takeWhile_append_of_pos fun t ht => by simpa using hderives.not_eof rfl t ht]
      simp [Token.endOfInput]
    obtain ⟨hquiet, hsame⟩ := parse_of_spells (hown.symm ▸ hspelled) next
    have hread := congrArg (List.map (Stmt.relabel .blank)) hsame
    rw [Stmt.map_blank_relabel, Stmt.map_blank_relabel] at hread
    obtain ⟨hquiet', hread'⟩ := parse_blank htokens ⟨Token.endOfInput 1, by simp, rfl⟩ hquiet
    exact ⟨hquiet', hread'.trans hread⟩
  · intro tokens next h
    exact (Stmt.allCanonical_iff _).mp (canonical_of_spells (spells_of_parse h))

/-- A loop with an increment stands between an `if` and its `else`. -/
theorem reading_undoes_writing_of_a_loop : ∃ (s : Stmt) (tokens : List Token),
    s = .ifElse (.constant .nil)
      (.loop (.constant (.bool true)) (.breaking ⟨.kwBreak, "break", none, 1⟩)
        (some (.unary ⟨.minus, "-", none, 1⟩ (.group (.constant .nil)))))
      (.print (.constant .nil)) ∧
    tokens = Stmt.writeAll [s] ++ [Token.endOfInput 1] ∧
    (parse tokens 0).errors = [] ∧
    (parse tokens 0).statements.map (Stmt.relabel .blank) = [s].map (Stmt.relabel .blank) ∧
    ∀ t ∈ (parse tokens 0).statements, t.Canonical := by
  obtain ⟨s, hs⟩ : ∃ s : Stmt, s = .ifElse (.constant .nil)
    (.loop (.constant (.bool true)) (.breaking ⟨.kwBreak, "break", none, 1⟩)
      (some (.unary ⟨.minus, "-", none, 1⟩ (.group (.constant .nil)))))
    (.print (.constant .nil)) := ⟨_, rfl⟩
  have hcanonical : ∀ t ∈ [s], t.Canonical := by
    simp [hs, Stmt.Canonical, Expr.Canonical, Stmt.declared?, Stmt.endsOpen, isUnaryOperator,
      Expr.level]
  have hread := (reading_undoes_writing.1 [s] hcanonical).2 _ 0 rfl
  exact ⟨s, _, hs, rfl, hread.1, hread.2, reading_undoes_writing.2 _ 0 hread.1⟩

end Lox
