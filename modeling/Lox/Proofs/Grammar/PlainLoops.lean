import Lox.Proofs.Grammar.Exchange
import Lox.Proofs.Grammar.Recognition

/-! Loops written out in a text.

A statement is determined by the tokens from its first one on, so the loop that begins at some word
`for` of a program is the one that is spelled there. With the same tokens for its parts it can be
written as a block instead, and the program is read as one that wraps the program it was. -/

namespace Lox.Grammar

/-- The tokens from some point on spell one statement at most. -/
theorem Spells.unique {b b' : Bool} {s s' : Stmt} {ts us us' : List Token}
    (h : Spells (.statement b s) ts us) (hopen : b = true → NotElse us)
    (h' : Spells (.statement b' s') ts us') (hopen' : b' = true → NotElse us') :
    s.Like s' ∧ us = us' := by
  let c : Cursor := ⟨ts, Token.endOfInput 0, 0, #[]⟩
  obtain ⟨t, d, ht, -, hlike, hd⟩ := read_of_spells h _ (Nat.le_refl _) hopen c rfl
  obtain ⟨t', d', ht', -, hlike', hd'⟩ := read_of_spells h' _ (Nat.le_refl _) hopen' c rfl
  rw [ht] at ht'
  cases ht'
  exact ⟨hlike.symm.trans hlike', hd.symm.trans hd'⟩

theorem SpellsExpr.of_primary {e : Expr} {ts us : List Token} (h : SpellsExpr (.expr 9 e) ts us) :
    SpellsExpr (.expr 0 e) ts us := h.lower (Nat.zero_le 9) (Nat.le_refl 9)

/-- A loop as it is written: `for (initializer condition; increment) body`. An initializer has a
semicolon of its own, also if it is left out. -/
structure WrittenLoop where
  keyword : Token
  opening : Token
  separator : Token
  closing : Token
  initializerTokens : List Token
  conditionTokens : List Token
  incrementTokens : List Token
  bodyTokens : List Token
  initializer : Option Stmt
  condition : Option Expr
  increment : Option Expr
  body : Stmt
  isOpen : Bool
  keyword_kind : keyword.kind = .kwFor
  opening_kind : opening.kind = .leftParen
  separator_kind : separator.kind = .semicolon
  closing_kind : closing.kind = .rightParen
  spells_initializer : SpellsInitializer initializer initializerTokens []
  spells_condition : SpellsOption condition conditionTokens []
  spells_increment : SpellsOption increment incrementTokens []
  spells_body : Spells (.statement isOpen body) bodyTokens []

/-- What a loop that is written out has besides the parts of it:
`{ initializer while (condition) { body increment; } }`. What repeats without a condition repeats
while `true`. -/
structure PlainFrame where
  opening : Token
  keyword : Token
  start : Token
  always : Token
  stop : Token
  bodyOpening : Token
  separator : Token
  bodyClosing : Token
  closing : Token
  opening_kind : opening.kind = .leftBrace
  keyword_kind : keyword.kind = .kwWhile
  start_kind : start.kind = .leftParen
  always_kind : always.kind = .kwTrue
  stop_kind : stop.kind = .rightParen
  bodyOpening_kind : bodyOpening.kind = .leftBrace
  separator_kind : separator.kind = .semicolon
  bodyClosing_kind : bodyClosing.kind = .rightBrace
  closing_kind : closing.kind = .rightBrace

def PlainFrame.tokens (f : PlainFrame) : List Token :=
  [f.opening, f.keyword, f.start, f.always, f.stop, f.bodyOpening, f.separator, f.bodyClosing,
    f.closing]

namespace WrittenLoop

variable (l : WrittenLoop) (f : PlainFrame)

def tokens : List Token :=
  l.keyword :: l.opening :: (l.initializerTokens ++ (l.conditionTokens ++
    l.separator :: (l.incrementTokens ++ l.closing :: l.bodyTokens)))

def plainInitializer : List Token := if l.initializer.isSome then l.initializerTokens else []

def plainCondition : List Token := if l.condition.isSome then l.conditionTokens else [f.always]

def plainIncrement : List Token :=
  if l.increment.isSome then l.incrementTokens ++ [f.separator] else []

/-- The same loop written out. -/
def plainTokens : List Token :=
  f.opening :: (l.plainInitializer ++ f.keyword :: f.start :: (l.plainCondition f ++
    f.stop :: f.bodyOpening :: (l.bodyTokens ++ (l.plainIncrement f ++
      [f.bodyClosing, f.closing]))))

/-- Nothing else is in a loop that is written out. -/
theorem mem_plainTokens {t : Token} (h : t ∈ l.plainTokens f) : t ∈ l.tokens ∨ t ∈ f.tokens := by
  have hinitializer : t ∈ l.plainInitializer → t ∈ l.initializerTokens := by
    unfold plainInitializer
    split <;> simp
  have hcondition : t ∈ l.plainCondition f → t ∈ l.conditionTokens ∨ t = f.always := by
    unfold plainCondition
    split <;> simp +contextual
  have hincrement : t ∈ l.plainIncrement f → t ∈ l.incrementTokens ∨ t = f.separator := by
    unfold plainIncrement
    split <;> simp
  simp only [plainTokens, tokens, PlainFrame.tokens, List.mem_cons, List.mem_append,
    List.not_mem_nil, or_false] at h ⊢
  grind

def statement : Stmt := forLoop l.initializer l.condition l.increment l.body

def plainStatement : Stmt := plainLoop l.initializer l.condition l.increment l.body

variable {l f}

theorem spells (l : WrittenLoop) (after : List Token) :
    Spells (.statement l.isOpen l.statement) (l.tokens ++ after) after := by
  obtain ⟨initializer, hi, -, hinitializer⟩ := l.spells_initializer.stretches
  obtain ⟨condition, hc, -, hcondition⟩ := l.spells_condition.stretches
  obtain ⟨increment, hn, -, hincrement⟩ := l.spells_increment.stretches
  obtain ⟨body, hb, hbody⟩ := l.spells_body.stretches
  rw [List.append_nil] at hi hc hn hb
  have hloop := Spells.forLoop l.keyword_kind l.opening_kind (hinitializer _)
    (hcondition (l.separator :: (increment ++ l.closing :: (body ++ after)))) l.separator_kind
    (hincrement (l.closing :: (body ++ after))) l.closing_kind (hbody after)
  simpa [tokens, statement, hi, hc, hn, hb] using hloop

/-- What stands before a loop is a declaration of its own. -/
theorem declaration_of_initializer {s : Stmt} {ts us : List Token}
    (h : SpellsInitializer (some s) ts us) : Spells (.declaration s) ts us := by
  cases h with
  | varDecl hk hs => exact .varDecl hk hs
  | expression he hc => exact .statement (.expression he hc)

theorem spells_plainInitializer (l : WrittenLoop) (rest : List Token) :
    Spells (.declarations l.initializer.toList) (l.plainInitializer ++ rest) rest := by
  have hspelled := l.spells_initializer
  unfold plainInitializer
  cases hi : l.initializer with
  | none => exact .none
  | some first =>
    rw [hi] at hspelled
    obtain ⟨own, hown, -, hmoved⟩ := hspelled.stretches
    rw [List.append_nil] at hown
    rw [hown]
    exact Spells.none.more (declaration_of_initializer (hmoved rest))

theorem spells_plainCondition (l : WrittenLoop) (f : PlainFrame) (rest : List Token) :
    SpellsExpr (.expr 0 (l.condition.getD (.constant (.bool true)))) (l.plainCondition f ++ rest)
      rest := by
  have hspelled := l.spells_condition
  unfold plainCondition
  cases hc : l.condition with
  | none =>
    have halways : constantAt? f.always = some (.bool true) := by
      rw [constantAt?, f.always_kind]
    exact .of_primary (.constant halways)
  | some condition =>
    rw [hc] at hspelled
    obtain ⟨own, hown, -, hmoved⟩ := SpellsExpr.stretches hspelled
    rw [List.append_nil] at hown
    rw [hown]
    exact hmoved rest

/-- The increment is the last statement of the body. -/
theorem spells_plainBody (l : WrittenLoop) (f : PlainFrame) (rest : List Token) :
    Spells (.declarations (l.body :: l.increment.toList.map .expression))
      (l.bodyTokens ++ (l.plainIncrement f ++ rest)) rest := by
  obtain ⟨body, hb, hbody⟩ := l.spells_body.stretches
  rw [List.append_nil] at hb
  rw [hb]
  have hfirst (rest : List Token) : Spells (.declarations ([] ++ [l.body])) (body ++ rest) rest :=
    .more .none (.statement (hbody rest))
  have hspelled := l.spells_increment
  unfold plainIncrement
  cases hn : l.increment with
  | none => exact hfirst rest
  | some increment =>
    rw [hn] at hspelled
    obtain ⟨own, hown, -, hmoved⟩ := SpellsExpr.stretches hspelled
    rw [List.append_nil] at hown
    have hlast : Spells (.declaration (.expression increment)) (own ++ f.separator :: rest) rest :=
      .statement (.expression (hmoved (f.separator :: rest)) f.separator_kind)
    simpa [hown] using (hfirst (own ++ f.separator :: rest)).more hlast

theorem spells_plain (l : WrittenLoop) (f : PlainFrame) (after : List Token) :
    Spells (.statement false l.plainStatement) (l.plainTokens f ++ after) after := by
  have hbody : Spells (.statement false _) _ (f.closing :: after) :=
    .block f.bodyOpening_kind
      (l.spells_plainBody f (f.bodyClosing :: f.closing :: after)) f.bodyClosing_kind
  have hloop := Spells.whileLoop f.keyword_kind f.start_kind
    (l.spells_plainCondition f (f.stop :: _)) f.stop_kind hbody
  have hblock := Spells.block f.opening_kind
    ((l.spells_plainInitializer _).more (.statement hloop)) f.closing_kind
  simpa [plainTokens, plainStatement, plainLoop] using hblock

end WrittenLoop

section Reading

variable {l : WrittenLoop} {f : PlainFrame} {tokens tokens' before after : List Token}

/-- A program with a loop written out is read, as one that wraps the program as it was. -/
theorem parse_plain (hopen : l.isOpen = true → NotElse after) (hl : l.body.continues = false)
    (htokens : tokens.takeWhile (·.kind != .eof) = before ++ (l.tokens ++ after))
    (htokens' : tokens'.takeWhile (·.kind != .eof) = before ++ (l.plainTokens f ++ after))
    {next : Nat} (hquiet : (parse tokens next).errors = [])
    (hw : Stmt.AllWellFormed (parse tokens next).statements) (next' : Nat) :
    (parse tokens' next').errors = [] ∧ Wraps .spelled true []
      (.body (parse tokens next).statements) (.body (parse tokens' next').statements) := by
  have hspelled := spells_of_parse hquiet
  rw [htokens] at hspelled
  have hbegins : BeginsLoop (l.tokens ++ after) := ⟨l.keyword, _, rfl, l.keyword_kind⟩
  obtain ⟨b, s, rest, hs, hws, hends, hexchange⟩ := hspelled.exchangeable hbegins
    (List.suffix_append _ _) (by simp [WrittenLoop.tokens]) hw nofun
  -- What stands there is the loop.
  obtain ⟨hlike, rfl⟩ := hs.unique hends (l.spells after) hopen
  have hwl : l.statement.WellFormed := by
    rw [← Stmt.wellFormed_relabel, ← hlike, Stmt.wellFormed_relabel]
    exact hws
  have hplain := (Stmt.Unfolds.plainLoop hwl hl).of_like hlike
  obtain ⟨x', before', hbefore, hx', hunfolds⟩ := hexchange l.plainStatement
    (l.plainTokens f ++ rest) (l.spells_plain f rest) hplain
  obtain rfl := List.append_cancel_right hbefore
  obtain ⟨ss', rfl, hss⟩ := hunfolds.of_declarations
  obtain ⟨hquiet', hread⟩ := parse_of_spells (htokens'.symm ▸ hx') next'
  exact ⟨hquiet', hss [] _ _ Layout.open_nil rfl hread⟩

end Reading

end Lox.Grammar
