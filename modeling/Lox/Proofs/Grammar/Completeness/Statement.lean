import Lox.Proofs.Grammar.Completeness.Expression

/-! Programs that are spelled are read.

A statement that is open takes an `else` that stands behind it, so it is read as spelled only where
none does. The levels of nesting suffice: a statement costs a token and at most two levels. -/

namespace Lox

def Stmt.Like (s s' : Stmt) : Prop := s.relabel .anonymous = s'.relabel .anonymous

namespace Grammar

open Lox.Parser

def opensStatement : TokenKind → Bool
  | .kwFor | .kwIf | .kwPrint | .kwReturn | .kwWhile | .kwBreak | .kwContinue | .leftBrace => true
  | k => beginsExpression k

def opensDeclaration : TokenKind → Bool
  | .kwClass | .kwFun | .kwVar => true
  | k => opensStatement k

theorem opensStatement_of_begins {k : TokenKind} (h : beginsExpression k = true) :
    opensStatement k = true := by
  cases k <;> first | rfl | cases h

theorem opensDeclaration_of_statement {k : TokenKind} (h : opensStatement k = true) :
    opensDeclaration k = true := by
  cases k <;> first | rfl | cases h

section Lengths

variable {ts us : List Token}

theorem SpellsOption.length_le {e : Option Expr} (h : SpellsOption e ts us) :
    us.length ≤ ts.length := by
  cases e with
  | none => exact Nat.le_of_eq (congrArg List.length h.symm)
  | some e => exact Nat.le_of_lt h.length_lt

theorem SpellsSuperclass.length_le {r : Option Reference} (h : SpellsSuperclass r ts us) :
    us.length ≤ ts.length := by
  cases r with
  | none => exact Nat.le_of_eq (congrArg List.length h.symm)
  | some r =>
    obtain ⟨_, -, -, rfl⟩ := h
    simp only [List.length_cons]
    omega

theorem SpellsVariable.length_lt {s : Stmt} (h : SpellsVariable s ts us) :
    us.length < ts.length := by
  cases h with
  | bare => simp only [List.length_cons]; omega
  | initialized _ _ he _ =>
    have := he.length_lt
    simp only [List.length_cons] at this ⊢
    omega

theorem SpellsInitializer.length_lt {s : Option Stmt} (h : SpellsInitializer s ts us) :
    us.length < ts.length := by
  cases h with
  | none => simp
  | varDecl _ hs => exact Nat.lt_succ_of_lt hs.length_lt
  | expression he _ =>
    have := he.length_lt
    simp only [List.length_cons] at this
    omega

theorem Listed.length_le {params : List Token} (h : Listed SpellsParameter ts params us) :
    us.length ≤ ts.length := by
  induction h with
  | one h => simp [h.2]
  | more _ _ h ih =>
    rw [h.2] at ih
    simp only [List.length_cons] at ih
    omega

theorem Listed.first {params : List Token} (h : Listed SpellsParameter ts params us) :
    ∃ t rest, ts = t :: rest ∧ t.kind = .identifier := by
  induction h with
  | one h => exact ⟨_, _, h.2, h.1⟩
  | more _ _ _ ih => exact ih

theorem SpellsParameters.length_le {params : List Token} (h : SpellsParameters params ts us) :
    us.length ≤ ts.length := by
  rcases h with ⟨-, rfl⟩ | ⟨h, -⟩
  · exact Nat.le_refl _
  · exact h.length_le

/-- What is not a repetition costs a token. -/
theorem Spells.length_lt {p : Phrase} (h : Spells p ts us) :
    match p with
    | .statement .. | .declaration _ | .callable _ => us.length < ts.length
    | .declarations _ | .methods _ => us.length ≤ ts.length := by
  induction h with
  | expression he _ =>
    have := he.length_lt
    simp only [List.length_cons] at this ⊢
    omega
  | print _ he _ =>
    have := he.length_lt
    simp only [List.length_cons] at this ⊢
    omega
  | returning _ he _ =>
    have := he.length_le
    simp only [List.length_cons] at this ⊢
    omega
  | breaking | continuing =>
    simp only [List.length_cons]
    omega
  | block _ _ _ ih =>
    simp only [List.length_cons] at ih ⊢
    omega
  | ifThen _ _ he _ _ ih =>
    have := he.length_lt
    simp only [List.length_cons] at this ih ⊢
    omega
  | ifElse _ _ he _ _ _ _ ih ih' =>
    have := he.length_lt
    simp only [List.length_cons] at this ih ih' ⊢
    omega
  | whileLoop _ _ he _ _ ih =>
    have := he.length_lt
    simp only [List.length_cons] at this ih ⊢
    omega
  | forLoop _ _ hi hc _ hn _ _ ih =>
    have := hi.length_lt
    have := hc.length_le
    have := hn.length_le
    simp only [List.length_cons] at *
    omega
  | varDecl _ hs => exact Nat.lt_succ_of_lt hs.length_lt
  | function _ _ ih => exact Nat.lt_succ_of_lt ih
  | classDecl _ _ hs _ _ _ ih =>
    have := hs.length_le
    simp only [List.length_cons] at this ih ⊢
    omega
  | statement _ ih => exact ih
  | none | noMethods => exact Nat.le_refl _
  | more _ _ ih ih' | moreMethods _ _ ih ih' => exact Nat.le_of_lt (Nat.lt_of_lt_of_le ih' ih)
  | callable _ _ hp _ _ _ _ ih =>
    have := hp.length_le
    simp only [List.length_cons] at this ih ⊢
    omega

theorem Spells.first {b : Bool} {s : Stmt} (h : Spells (.statement b s) ts us) :
    ∃ t rest, ts = t :: rest ∧ opensStatement t.kind = true := by
  cases h with
  | expression he _ =>
    obtain ⟨t, rest, rfl, ht⟩ := he.first
    exact ⟨t, rest, rfl, opensStatement_of_begins ht⟩
  | print hk | returning hk | breaking hk | continuing hk | block hk | ifThen hk | ifElse hk
  | whileLoop hk | forLoop hk => exact ⟨_, _, rfl, by rw [hk]; rfl⟩

theorem Spells.first_declaration {s : Stmt} (h : Spells (.declaration s) ts us) :
    ∃ t rest, ts = t :: rest ∧ opensDeclaration t.kind = true := by
  cases h with
  | varDecl hk | function hk | classDecl hk => exact ⟨_, _, rfl, by rw [hk]; rfl⟩
  | statement h =>
    obtain ⟨t, rest, rfl, ht⟩ := h.first
    exact ⟨t, rest, rfl, opensDeclaration_of_statement ht⟩

end Lengths

section Parts

variable {ts us : List Token}

/-- An optional expression is absent just where the token behind it comes first. -/
theorem takes_expressionUnless {kind : TokenKind} (hfirst : beginsExpression kind = false)
    (hbinds : bindsAt kind = none) {e : Option Expr} {t : Token} (hk : t.kind = kind)
    (h : SpellsOption e ts (t :: us)) : Takes (expressionUnless kind) ts fun e' vs =>
      e'.map (Expr.relabel .anonymous) = e.map (Expr.relabel .anonymous) ∧ vs = t :: us := by
  cases e with
  | none =>
    obtain rfl : ts = t :: us := h
    exact .check hk (.pure ⟨rfl, rfl⟩)
  | some e =>
    obtain ⟨u, rest, rfl, hu⟩ := SpellsExpr.first h
    refine .check_else ?_ (Takes.map ((takes_expression h (.of_none (by rw [hk, hbinds]))).mono
      fun e' vs ⟨he, hv⟩ => ⟨congrArg some he, hv⟩))
    rintro _ ⟨⟩ rfl
    rw [hu] at hfirst
    cases hfirst

theorem takes_varDeclaration {s : Stmt} (h : SpellsVariable s ts us) :
    Takes varDeclaration ts fun s' vs => s'.Like s ∧ vs = us := by
  cases h with
  | bare hn hc =>
    exact .expect hn (.accept_else (by simp [hc]) (.bind (.pure (.expect hc (.pure ⟨rfl, rfl⟩)))))
  | initialized hn heq he hc =>
    refine .expect hn (.accept heq (.bind (Takes.map ((takes_expression he
      (.of_none (by rw [hc]; rfl))).mono fun e' vs ⟨he', hv⟩ => ?_))))
    subst hv
    exact .expect hc (.pure ⟨by simpa [Stmt.Like, Stmt.relabel, Expr.Like] using he', rfl⟩)

theorem takes_forInitializer {s : Option Stmt} (h : SpellsInitializer s ts us) :
    Takes forInitializer ts fun s' vs =>
      s'.map (Stmt.relabel .anonymous) = s.map (Stmt.relabel .anonymous) ∧ vs = us := by
  cases h with
  | none hc => exact .accept hc (.pure ⟨rfl, rfl⟩)
  | varDecl hk hs =>
    exact .accept_else (by simp [hk]) (.accept hk (Takes.map ((takes_varDeclaration hs).mono
      fun s' vs ⟨hs', hv⟩ => ⟨congrArg some hs', hv⟩)))
  | expression he hc =>
    have hne {kind : TokenKind} (hk : beginsExpression kind = false) :
        ∀ t ∈ ts.head?, t.kind ≠ kind := by
      obtain ⟨t, rest, rfl, ht⟩ := he.first
      rintro _ ⟨⟩ rfl
      rw [ht] at hk
      cases hk
    refine .accept_else (hne rfl) (.accept_else (hne rfl) (Takes.map (.bind ((takes_expression he
      (.of_none (by rw [hc]; rfl))).mono fun e' vs ⟨he', hv⟩ => ?_))))
    subst hv
    exact .expect hc (.pure ⟨by simpa [Stmt.relabel, Expr.Like] using he', rfl⟩)

theorem takes_parameters {params : List Token} {closing : Token}
    (h : SpellsParameters params ts (closing :: us)) (hc : closing.kind = .rightParen) :
    Takes parameters ts fun params' vs => params' = params ∧ vs = closing :: us := by
  rcases h with ⟨rfl, rfl⟩ | ⟨hlisted, hlen⟩
  · exact .check hc (.pure ⟨rfl, rfl⟩)
  · have hitems : Listed (TakesItem id (Parser.expect .parameterName)) ts params
        (closing :: us) := hlisted.mono fun _ _ _ ⟨hk, hts⟩ => by
      subst hts
      exact ⟨by simp, .expected hk ⟨rfl, rfl⟩⟩
    refine .check_else ?_ ((takes_commaSeparated hitems hlen (by simp [hc])).mono
      fun params' vs ⟨hp, hv⟩ => ⟨by simpa using hp, hv⟩)
    obtain ⟨t, rest, rfl, ht⟩ := hlisted.first
    simp [ht]

theorem takes_superclass? {r : Option Reference} {opening : Token}
    (h : SpellsSuperclass r ts (opening :: us)) (ho : opening.kind = .leftBrace) :
    Takes superclass? ts fun r' vs =>
      r'.map (Reference.relabel .anonymous) = r.map (Reference.relabel .anonymous) ∧
        vs = opening :: us := by
  cases r with
  | none =>
    obtain rfl : ts = opening :: us := h
    exact .accept_else (by simp [ho]) (.pure ⟨rfl, rfl⟩)
  | some r =>
    obtain ⟨less, hless, hname, rfl⟩ := h
    exact .accept hless (.expect hname (.freshNode fun n => .pure ⟨rfl, rfl⟩))

end Parts

def NotElse (us : List Token) : Prop := ∀ t ∈ us.head?, t.kind ≠ .kwElse

theorem NotElse.cons {t : Token} {us : List Token} (h : t.kind ≠ .kwElse) : NotElse (t :: us) := by
  rintro _ ⟨⟩
  exact h

theorem opensDeclaration_ne {k : TokenKind} (h : opensDeclaration k = true) :
    k ≠ .kwElse ∧ k ≠ .rightBrace := by
  cases k <;> first | exact ⟨by decide, by decide⟩ | cases h

section Bodies

variable {α : Type} {p q : Parser α} {t : Token} {ts : List Token} {Q : α → List Token → Prop}

theorem takes_goesOn (hk : t.kind ≠ .rightBrace) (h : Takes p (t :: ts) Q) :
    Takes (do if ← bodyGoesOn then p else q) (t :: ts) Q := by
  refine .bind fun c hc => ⟨true, c, ?_, rfl, hc ▸ by simpa using h⟩
  simp [bodyGoesOn, Parser.check, Cursor.check, atEnd, Cursor.atEnd, hc, hk]

theorem takes_goesOn_else (hk : t.kind = .rightBrace) (h : Takes q (t :: ts) Q) :
    Takes (do if ← bodyGoesOn then p else q) (t :: ts) Q := by
  refine .bind fun c hc => ⟨false, c, ?_, rfl, hc ▸ by simpa using h⟩
  simp [bodyGoesOn, Parser.check, Cursor.check, atEnd, Cursor.atEnd, hc, hk]

end Bodies

/-- One turn of the loop over the declarations of a block. -/
def blockNext (declared : Parser (Option Stmt)) (body : Array Stmt) :
    Parser (Option (Array Stmt)) := do
  if ← bodyGoesOn then
    match ← declared with
    | some s => return some (body.push s)
    | none => return some body
  else return none

theorem block_eq (declared : Parser (Option Stmt)) : block declared = (do
    let body ← iterate (blockNext declared) #[]
    let _ ← expect .blockEnd
    return body.toList) := rfl

/-- One turn of the loop over the methods of a class. -/
def methodNext (block : Parser (List Stmt)) (methods : Array FunctionDecl) :
    Parser (Option (Array FunctionDecl)) := do
  if ← bodyGoesOn then return some (methods.push (← function .method block))
  else return none

theorem classDeclaration_eq (block : Parser (List Stmt)) : classDeclaration block = (do
    let name ← expect .className
    let superclass ← superclass?
    let _ ← expect .classBodyStart
    let methods ← iterate (methodNext block) #[]
    let _ ← expect .classBodyEnd
    return .classDecl name superclass methods.toList) := rfl

/-- A loop that adds a declaration wherever one begins. -/
def Adds (declared : Parser (Option Stmt))
    (next : Array Stmt → Parser (Option (Array Stmt))) : Prop :=
  ∀ (body : Array Stmt) (t : Token) (ts : List Token)
    (Q : Option (Array Stmt) → List Token → Prop), t.kind ≠ .rightBrace →
    (Takes declared (t :: ts) fun s? us => ∃ s, s? = some s ∧ Q (some (body.push s)) us) →
    Takes (next body) (t :: ts) Q

theorem adds_blockNext (declared : Parser (Option Stmt)) : Adds declared (blockNext declared) :=
  fun _ _ _ _ hk h => takes_goesOn hk (.bind (h.mono fun s? us ⟨s, hs, hq⟩ => by
    subst hs
    exact .pure hq))

theorem adds_declareNext (depth : Nat) : Adds (declarationUpTo depth) (declareNext depth) := by
  intro body t ts Q hk h c hc
  have hne : c.pending ≠ [] := by simp [hc]
  obtain ⟨s?, d, hs?, herrors, s, rfl, hq⟩ := h c hc
  exact ⟨_, d, by rw [declareNext_cons hne, hs?], herrors, hq⟩

/-- What the parser of each phrase is to do with a spelling of it. -/
def Read : Phrase → List Token → List Token → Prop
  | .statement b s, ts, us => ∀ depth, 2 * ts.length ≤ depth → (b = true → NotElse us) →
    Takes (statementUpTo depth) ts fun s' vs => s'.Like s ∧ vs = us
  | .declaration s, ts, us => ∀ depth, 2 * ts.length + 1 ≤ depth → NotElse us →
    Takes (declarationUpTo depth) ts fun s? vs => ∃ s', s? = some s' ∧ s'.Like s ∧ vs = us
  | .declarations ss, ts, us => ∀ depth, 2 * ts.length + 1 ≤ depth → NotElse us →
    ∀ next, Adds (declarationUpTo depth) next → ∀ Q : Array Stmt → List Token → Prop,
      (∀ body : Array Stmt,
        body.toList.map (Stmt.relabel .anonymous) = ss.map (Stmt.relabel .anonymous) →
        Loops next body us Q) → Loops next #[] ts Q
  | .callable f, ts, us => ∀ c depth, 2 * ts.length + 1 ≤ depth →
    Takes (function c (block (declarationUpTo depth))) ts fun f' vs =>
      f'.relabel .anonymous = f.relabel .anonymous ∧ vs = us
  | .methods fs, ts, us => ∀ depth, 2 * ts.length + 1 ≤ depth →
    ∀ Q : Array FunctionDecl → List Token → Prop,
      (∀ methods : Array FunctionDecl,
        methods.toList.map (FunctionDecl.relabel .anonymous) =
          fs.map (FunctionDecl.relabel .anonymous) →
        Loops (methodNext (block (declarationUpTo depth))) methods us Q) →
      Loops (methodNext (block (declarationUpTo depth))) #[] ts Q

section Productions

variable {ts us : List Token}

theorem Read.of_statement {b : Bool} {s : Stmt} (hts : ts ≠ [])
    (h : ∀ depth, 2 * ts.length ≤ depth + 1 → (b = true → NotElse us) →
      Takes (statement (statementUpTo depth) (declarationUpTo depth)) ts
        fun s' vs => s'.Like s ∧ vs = us) : Read (.statement b s) ts us := by
  intro depth hdepth hopen
  cases depth with
  | zero => exact absurd (List.eq_nil_of_length_eq_zero (by omega)) hts
  | succ depth => exact h depth hdepth hopen

theorem Read.of_declaration {s : Stmt}
    (h : ∀ depth, 2 * ts.length ≤ depth → NotElse us →
      Takes (declaration (statementUpTo depth) (declarationUpTo depth)) ts
        fun s? vs => ∃ s', s? = some s' ∧ s'.Like s ∧ vs = us) : Read (.declaration s) ts us := by
  intro depth hdepth hne
  cases depth with
  | zero => omega
  | succ depth => exact h depth (by omega) hne

theorem Read.takes_block {body : List Stmt} {closing : Token}
    (h : Read (.declarations body) ts (closing :: us)) (hc : closing.kind = .rightBrace)
    {depth : Nat} (hdepth : 2 * ts.length + 1 ≤ depth) :
    Takes (block (declarationUpTo depth)) ts fun body' vs =>
      body'.map (Stmt.relabel .anonymous) = body.map (Stmt.relabel .anonymous) ∧ vs = us := by
  rw [block_eq]
  refine .bind (h depth hdepth (.cons (by simp [hc])) _ (adds_blockNext _) _
    fun body' hb => .stop (takes_goesOn_else hc (.pure ⟨rfl, rfl⟩)) ?_).first
  exact .expect hc (.pure ⟨hb, rfl⟩)

theorem read_callable {name opening closing opening' closing' : Token} {params : List Token}
    {body : List Stmt} {vs : List Token} (hn : name.kind = .identifier)
    (ho : opening.kind = .leftParen) (hp : SpellsParameters params ts (closing :: opening' :: us))
    (hc : closing.kind = .rightParen) (ho' : opening'.kind = .leftBrace)
    (h : Read (.declarations body) us (closing' :: vs)) (hc' : closing'.kind = .rightBrace) :
    Read (.callable (.mk name params body)) (name :: opening :: ts) vs := by
  intro c depth hdepth
  have hlen := hp.length_le
  simp only [List.length_cons] at hdepth hlen
  refine .expect hn (.expect ho (.bind ((takes_parameters hp hc).mono
    fun params' ws ⟨hps, hw⟩ => ?_)))
  subst hps hw
  refine .expect hc (.expect ho' (.bind ((h.takes_block hc' (by omega)).mono
    fun body' ws ⟨hb, hw⟩ => .pure ⟨?_, hw⟩)))
  simp [FunctionDecl.relabel, hb]

theorem takes_expressionStatement {e : Expr} {closing : Token}
    (h : SpellsExpr (.expr 0 e) ts (closing :: us)) (hc : closing.kind = .semicolon) :
    Takes expressionStatement ts fun s vs => s.Like (.expression e) ∧ vs = us := by
  refine .bind ((takes_expression h (.of_none (by rw [hc]; rfl))).mono fun e' vs ⟨he, hv⟩ => ?_)
  subst hv
  exact .expect hc (.pure ⟨by simpa [Stmt.Like, Stmt.relabel, Expr.Like] using he, rfl⟩)

/-- No keyword of a statement begins an expression. -/
theorem takes_statement_else {nested : Parser Stmt} {declared : Parser (Option Stmt)} {t : Token}
    {Q : Stmt → List Token → Prop} (ht : beginsExpression t.kind = true)
    (h : Takes expressionStatement (t :: ts) Q) :
    Takes (statement nested declared) (t :: ts) Q := by
  refine .peek ?_
  split
  case h_9 => exact h
  all_goals
    rename_i hk
    rw [hk] at ht
    cases ht

theorem takes_declaration_else {nested : Parser Stmt} {declared : Parser (Option Stmt)} {t : Token}
    {Q : Stmt → List Token → Prop} (ht : opensStatement t.kind = true)
    (h : Takes nested (t :: ts) Q) :
    Takes (declaration nested declared) (t :: ts) fun s? vs => ∃ s, s? = some s ∧ Q s vs := by
  refine .recovering (.peek ?_)
  split
  case h_4 => exact h
  all_goals
    rename_i hk
    rw [hk] at ht
    cases ht

theorem read_expression {e : Expr} {closing : Token}
    (h : SpellsExpr (.expr 0 e) ts (closing :: us)) (hc : closing.kind = .semicolon) :
    Read (.statement false (.expression e)) ts us := by
  obtain ⟨t, rest, rfl, ht⟩ := h.first
  exact .of_statement (List.cons_ne_nil _ _) fun depth _ _ =>
    takes_statement_else ht (takes_expressionStatement h hc)

theorem read_print {keyword closing : Token} {e : Expr} (hk : keyword.kind = .kwPrint)
    (h : SpellsExpr (.expr 0 e) ts (closing :: us)) (hc : closing.kind = .semicolon) :
    Read (.statement false (.print e)) (keyword :: ts) us := by
  refine .of_statement (List.cons_ne_nil _ _) fun depth _ _ => .peek ?_
  rw [hk]
  refine .advance (.bind ((takes_expression h (.of_none (by rw [hc]; rfl))).mono
    fun e' vs ⟨he, hv⟩ => ?_))
  subst hv
  exact .expect hc (.pure ⟨by simpa [Stmt.Like, Stmt.relabel, Expr.Like] using he, rfl⟩)

theorem read_returning {keyword closing : Token} {e : Option Expr} (hk : keyword.kind = .kwReturn)
    (h : SpellsOption e ts (closing :: us)) (hc : closing.kind = .semicolon) :
    Read (.statement false (.returning keyword e)) (keyword :: ts) us := by
  refine .of_statement (List.cons_ne_nil _ _) fun depth _ _ => .peek ?_
  rw [hk]
  refine .advance (.bind ((takes_expressionUnless rfl rfl hc h).mono fun e' vs ⟨he, hv⟩ => ?_))
  subst hv
  exact .expect hc (.pure ⟨by simp [Stmt.Like, Stmt.relabel, he], rfl⟩)

theorem read_breaking {keyword closing : Token} (hk : keyword.kind = .kwBreak)
    (hc : closing.kind = .semicolon) :
    Read (.statement false (.breaking keyword)) (keyword :: closing :: us) us := by
  refine .of_statement (List.cons_ne_nil _ _) fun depth _ _ => .peek ?_
  rw [hk]
  exact .advance (.expect hc (.pure ⟨rfl, rfl⟩))

theorem read_continuing {keyword closing : Token} (hk : keyword.kind = .kwContinue)
    (hc : closing.kind = .semicolon) :
    Read (.statement false (.continuing keyword)) (keyword :: closing :: us) us := by
  refine .of_statement (List.cons_ne_nil _ _) fun depth _ _ => .peek ?_
  rw [hk]
  exact .advance (.expect hc (.pure ⟨rfl, rfl⟩))

theorem read_block {opening closing : Token} {body : List Stmt} (ho : opening.kind = .leftBrace)
    (h : Read (.declarations body) ts (closing :: us)) (hc : closing.kind = .rightBrace) :
    Read (.statement false (.block body)) (opening :: ts) us := by
  refine .of_statement (List.cons_ne_nil _ _) fun depth hdepth _ => .peek ?_
  simp only [List.length_cons] at hdepth
  rw [ho]
  refine .advance (.bind ((h.takes_block hc (by omega)).mono
    fun body' vs ⟨hb, hv⟩ => .pure ⟨?_, hv⟩))
  simp [Stmt.Like, Stmt.relabel, hb]

/-- A condition in parentheses. -/
theorem takes_condition {condition : Expr} {opening closing : Token} {start end' : Expectation}
    {α : Type} {g : Expr → Parser α} {Q : α → List Token → Prop} (ho : opening.kind = start.kind)
    (h : SpellsExpr (.expr 0 condition) ts (closing :: us)) (hc : closing.kind = end'.kind)
    (hend : end'.kind = .rightParen)
    (hg : ∀ condition' : Expr, condition'.Like condition → Takes (g condition') us Q) :
    Takes (do
      let _ ← expect start
      let condition' ← expression
      let _ ← expect end'
      g condition') (opening :: ts) Q := by
  refine .expect ho (.bind ((takes_expression h (.of_none (by rw [hc, hend]; rfl))).mono
    fun e' vs ⟨he, hv⟩ => ?_))
  subst hv
  exact .expect hc (hg e' he)

theorem read_ifThen {keyword opening closing : Token} {condition : Expr} {consequent : Stmt}
    {b : Bool} {vs : List Token} (hk : keyword.kind = .kwIf) (ho : opening.kind = .leftParen)
    (hcondition : SpellsExpr (.expr 0 condition) ts (closing :: us))
    (hc : closing.kind = .rightParen) (h : Read (.statement b consequent) us vs) :
    Read (.statement true (.ifThen condition consequent)) (keyword :: opening :: ts) vs := by
  refine .of_statement (List.cons_ne_nil _ _) fun depth hdepth hopen => .peek ?_
  have hlt := hcondition.length_lt
  simp only [List.length_cons] at hdepth hlt
  rw [hk]
  refine .advance (takes_condition ho hcondition hc rfl fun condition' he => ?_)
  refine .bind ((h depth (by omega) fun _ => hopen rfl).mono fun s' ws ⟨hs, hw⟩ => ?_)
  subst hw
  refine .accept_else (hopen rfl) (.pure ⟨?_, rfl⟩)
  simp only [Stmt.Like, Stmt.relabel, Expr.Like] at hs he ⊢
  rw [hs, he]

theorem read_ifElse {keyword opening closing other : Token} {condition : Expr}
    {consequent alternative : Stmt} {b : Bool} {vs ws : List Token} (hk : keyword.kind = .kwIf)
    (ho : opening.kind = .leftParen)
    (hcondition : SpellsExpr (.expr 0 condition) ts (closing :: us))
    (hc : closing.kind = .rightParen)
    (hspelled : Spells (.statement false consequent) us (other :: vs))
    (h : Read (.statement false consequent) us (other :: vs)) (hother : other.kind = .kwElse)
    (h' : Read (.statement b alternative) vs ws) :
    Read (.statement b (.ifElse condition consequent alternative))
      (keyword :: opening :: ts) ws := by
  refine .of_statement (List.cons_ne_nil _ _) fun depth hdepth hopen => .peek ?_
  have hlt := hcondition.length_lt
  have hlt' := hspelled.length_lt
  simp only [List.length_cons] at hdepth hlt hlt'
  rw [hk]
  refine .advance (takes_condition ho hcondition hc rfl fun condition' he => ?_)
  -- The consequent is not open, so it leaves the `else` to this statement.
  refine .bind ((h depth (by omega) nofun).mono fun s xs ⟨hs, hx⟩ => ?_)
  subst hx
  refine .accept hother (.bind ((h' depth (by omega) hopen).mono fun s' xs ⟨hs', hx⟩ =>
    .pure ⟨?_, hx⟩))
  simp only [Stmt.Like, Stmt.relabel, Expr.Like] at hs hs' he ⊢
  rw [hs, hs', he]

theorem read_whileLoop {keyword opening closing : Token} {condition : Expr} {body : Stmt}
    {b : Bool} {vs : List Token} (hk : keyword.kind = .kwWhile) (ho : opening.kind = .leftParen)
    (hcondition : SpellsExpr (.expr 0 condition) ts (closing :: us))
    (hc : closing.kind = .rightParen) (h : Read (.statement b body) us vs) :
    Read (.statement b (.loop condition body none)) (keyword :: opening :: ts) vs := by
  refine .of_statement (List.cons_ne_nil _ _) fun depth hdepth hopen => .peek ?_
  have hlt := hcondition.length_lt
  simp only [List.length_cons] at hdepth hlt
  rw [hk]
  refine .advance (takes_condition ho hcondition hc rfl fun condition' he => ?_)
  refine .bind ((h depth (by omega) hopen).mono fun s' ws ⟨hs, hw⟩ => .pure ⟨?_, hw⟩)
  simp only [Stmt.Like, Stmt.relabel, Expr.Like] at hs he ⊢
  rw [hs, he]

theorem forLoop_like {initializer initializer' : Option Stmt}
    {condition condition' increment increment' : Option Expr} {body body' : Stmt}
    (hi : initializer'.map (Stmt.relabel .anonymous) = initializer.map (Stmt.relabel .anonymous))
    (hc : condition'.map (Expr.relabel .anonymous) = condition.map (Expr.relabel .anonymous))
    (hn : increment'.map (Expr.relabel .anonymous) = increment.map (Expr.relabel .anonymous))
    (hb : body'.Like body) :
    (forLoop initializer' condition' increment' body').Like
      (forLoop initializer condition increment body) := by
  have hcondition : (condition'.getD (.constant (.bool true))).relabel .anonymous =
      (condition.getD (.constant (.bool true))).relabel .anonymous := by
    cases condition <;> cases condition' <;> simp_all [Expr.relabel]
  unfold Stmt.Like at hb ⊢
  cases initializer <;> cases initializer' <;> simp_all [forLoop, Stmt.relabel]

theorem read_forLoop {keyword opening closing closing' : Token} {initializer : Option Stmt}
    {condition increment : Option Expr} {body : Stmt} {b : Bool} {vs ws xs : List Token}
    (hk : keyword.kind = .kwFor) (ho : opening.kind = .leftParen)
    (hi : SpellsInitializer initializer ts us)
    (hcondition : SpellsOption condition us (closing :: vs))
    (hc : closing.kind = .semicolon) (hn : SpellsOption increment vs (closing' :: ws))
    (hc' : closing'.kind = .rightParen) (h : Read (.statement b body) ws xs) :
    Read (.statement b (forLoop initializer condition increment body))
      (keyword :: opening :: ts) xs := by
  refine .of_statement (List.cons_ne_nil _ _) fun depth hdepth hopen => .peek ?_
  have hlt := hi.length_lt
  have hle := hcondition.length_le
  have hle' := hn.length_le
  simp only [List.length_cons] at hdepth hle hle'
  rw [hk]
  refine .advance (.expect ho (.bind ((takes_forInitializer hi).mono fun i' ys ⟨hi', hy⟩ => ?_)))
  subst hy
  refine .bind ((takes_expressionUnless rfl rfl hc hcondition).mono fun e' ys ⟨he, hy⟩ => ?_)
  subst hy
  refine .expect hc (.bind ((takes_expressionUnless rfl rfl hc' hn).mono fun n' ys ⟨hn', hy⟩ => ?_))
  subst hy
  exact .expect hc' (.bind ((h depth (by omega) hopen).mono fun s' ys ⟨hs, hy⟩ =>
    .pure ⟨forLoop_like hi' he hn' hs, hy⟩))

theorem read_varDecl {keyword : Token} {s : Stmt} (hk : keyword.kind = .kwVar)
    (h : SpellsVariable s ts us) : Read (.declaration s) (keyword :: ts) us := by
  refine .of_declaration fun depth _ _ => .recovering (.peek ?_)
  rw [hk]
  exact .advance (takes_varDeclaration h)

theorem read_function {keyword : Token} {f : FunctionDecl} (hk : keyword.kind = .kwFun)
    (h : Read (.callable f) ts us) : Read (.declaration (.function f)) (keyword :: ts) us := by
  refine .of_declaration fun depth hdepth _ => .recovering (.peek ?_)
  simp only [List.length_cons] at hdepth
  rw [hk]
  refine .advance (.bind ((h .function depth (by omega)).mono fun f' vs ⟨hf, hv⟩ => .pure ⟨?_, hv⟩))
  simp [Stmt.Like, Stmt.relabel, hf]

theorem read_classDecl {keyword name opening closing : Token} {superclass : Option Reference}
    {methods : List FunctionDecl} {vs : List Token} (hk : keyword.kind = .kwClass)
    (hn : name.kind = .identifier) (hs : SpellsSuperclass superclass ts (opening :: us))
    (ho : opening.kind = .leftBrace) (h : Read (.methods methods) us (closing :: vs))
    (hc : closing.kind = .rightBrace) :
    Read (.declaration (.classDecl name superclass methods)) (keyword :: name :: ts) vs := by
  refine .of_declaration fun depth hdepth _ => .recovering (.peek ?_)
  have hle := hs.length_le
  simp only [List.length_cons] at hdepth hle
  rw [hk]
  refine .advance ?_
  rw [classDeclaration_eq]
  refine .expect hn (.bind ((takes_superclass? hs ho).mono fun r' ws ⟨hr, hw⟩ => ?_))
  subst hw
  refine .expect ho (.bind (h depth (by omega) _ fun methods' hm => .stop
    (takes_goesOn_else hc (.pure ⟨rfl, rfl⟩)) ?_).first)
  refine .expect hc (.pure ⟨?_, rfl⟩)
  simp [Stmt.Like, Stmt.relabel, hr, hm]

theorem read_statement {s : Stmt} {b : Bool} (hspelled : Spells (.statement b s) ts us)
    (h : Read (.statement b s) ts us) : Read (.declaration s) ts us := by
  obtain ⟨t, rest, rfl, ht⟩ := hspelled.first
  exact .of_declaration fun depth hdepth hne =>
    takes_declaration_else ht (h depth hdepth fun _ => hne)

theorem read_more {ss : List Stmt} {s : Stmt} {vs : List Token}
    (hspelled : Spells (.declarations ss) ts us) (h : Read (.declarations ss) ts us)
    (hspelled' : Spells (.declaration s) us vs) (h' : Read (.declaration s) us vs) :
    Read (.declarations (ss ++ [s])) ts vs := by
  intro depth hdepth hne next hadds Q hq
  have hle := hspelled.length_lt
  have hlt := hspelled'.length_lt
  obtain ⟨t, rest, rfl, ht⟩ := hspelled'.first_declaration
  simp only at hle hlt
  refine h depth hdepth (.cons (opensDeclaration_ne ht).1) next hadds Q fun body hb => .turn
    (hadds body t rest _ (opensDeclaration_ne ht).2 ((h' depth (by omega) hne).mono
      fun s? ws ⟨s', hs, hlike, hw⟩ => ?_))
  subst hw
  exact ⟨s', hs, _, rfl, hlt, hq _ (by simpa [hb, Stmt.Like] using hlike)⟩

theorem read_moreMethods {fs : List FunctionDecl} {f : FunctionDecl} {vs : List Token}
    (hspelled : Spells (.methods fs) ts us) (h : Read (.methods fs) ts us)
    (hspelled' : Spells (.callable f) us vs) (h' : Read (.callable f) us vs) :
    Read (.methods (fs ++ [f])) ts vs := by
  intro depth hdepth Q hq
  have hle := hspelled.length_lt
  have hlt := hspelled'.length_lt
  obtain ⟨t, rest, rfl, ht⟩ : ∃ t rest, us = t :: rest ∧ t.kind = .identifier := by
    cases hspelled' with
    | callable hn => exact ⟨_, _, rfl, hn⟩
  simp only at hle hlt
  refine h depth hdepth Q fun methods hm => .turn (takes_goesOn (by simp [ht])
    (.bind ((h' .method depth (by omega)).mono fun f' ws ⟨hf, hw⟩ => ?_)))
  subst hw
  exact .pure ⟨_, rfl, hlt, hq _ (by simp [hm, hf])⟩

theorem read_of_spells {p : Phrase} (h : Spells p ts us) : Read p ts us := by
  induction h with
  | expression he hc => exact read_expression he hc
  | print hk he hc => exact read_print hk he hc
  | returning hk he hc => exact read_returning hk he hc
  | breaking hk hc => exact read_breaking hk hc
  | continuing hk hc => exact read_continuing hk hc
  | block ho _ hc ih => exact read_block ho ih hc
  | ifThen hk ho he hc _ ih => exact read_ifThen hk ho he hc ih
  | ifElse hk ho he hc h hother _ ih ih' => exact read_ifElse hk ho he hc h ih hother ih'
  | whileLoop hk ho he hc _ ih => exact read_whileLoop hk ho he hc ih
  | forLoop hk ho hi he hc hn hc' _ ih => exact read_forLoop hk ho hi he hc hn hc' ih
  | varDecl hk hs => exact read_varDecl hk hs
  | function hk _ ih => exact read_function hk ih
  | classDecl hk hn hs ho _ hc ih => exact read_classDecl hk hn hs ho ih hc
  | statement h ih => exact read_statement h ih
  | none => exact fun _ _ _ _ _ _ hq => hq #[] rfl
  | more h h' ih ih' => exact read_more h ih h' ih'
  | callable hn ho hp hc ho' _ hc' ih => exact read_callable hn ho hp hc ho' ih hc'
  | noMethods => exact fun _ _ _ hq => hq #[] rfl
  | moreMethods h h' ih ih' => exact read_moreMethods h ih h' ih'

theorem takes_program {ss : List Stmt} (h : Spells (.declarations ss) ts []) {depth : Nat}
    (hdepth : 2 * ts.length + 1 ≤ depth) : Takes (program depth) ts fun ss' us =>
      ss'.map (Stmt.relabel .anonymous) = ss.map (Stmt.relabel .anonymous) ∧ us = [] := by
  rw [program_eq]
  refine .bind (read_of_spells h depth hdepth (by simp [NotElse]) _ (adds_declareNext depth) _
    fun body hb => .stop ?_ (.pure ⟨hb, rfl⟩)).first
  exact fun c hc => ⟨none, c, declareNext_nil hc, rfl, rfl, hc⟩

end Productions

end Grammar

/-- What is spelled is read without an error, as the program that was spelled. -/
theorem parse_of_spells {tokens : List Token} {ss : List Stmt}
    (h : Grammar.Spells (.declarations ss) (tokens.takeWhile (·.kind != .eof)) []) (next : Nat) :
    (parse tokens next).errors = [] ∧
      (parse tokens next).statements.map (Stmt.relabel .anonymous) =
        ss.map (Stmt.relabel .anonymous) := by
  obtain ⟨ss', d, hd, herrors, hss, -⟩ := Grammar.takes_program h
    (Nat.le_succ (2 * (Cursor.ofTokens tokens next).pending.length + 1))
    (Cursor.ofTokens tokens next) rfl
  have hparse : parse tokens next = ⟨ss', d.errors.toList, d.nextNode⟩ := by
    simp only [parse, hd, Option.getD_some]
  rw [hparse]
  exact ⟨by rw [herrors]; rfl, hss⟩

end Lox
