import Lox.Proofs.Grammar.Prediction.Expression

/-! Statements and declarations are predicted.

The first token of a statement tells its rule. Only an `else` does not tell where it belongs: the
parser gives it to the innermost `if`, so a continuation that begins with one is admitted if it goes
on like an alternative. -/

namespace Lox.Grammar

open Lox.Parser Ebnf
open scoped Computability

abbrev statementWords : Language Token := lang (.rule .statement)

abbrev declarationWords : Language Token := lang (.rule .declaration)

/-- Where an `else` comes behind, an alternative and then the rest could be read instead. -/
def ElseClosed (K : Language Token) : Prop :=
  ∀ (t : Token) (us : List Token), t.kind = .kwElse → t :: us ∈ K → us ∈ statementWords * K

theorem ElseClosed.of_heads {K : Language Token} (h : Heads (· ≠ .kwElse) K) : ElseClosed K :=
  fun _ _ hk hmem => absurd hmem (h.not_mem rfl (not_not_intro hk))

/-- No declaration begins with an `else`. -/
theorem ElseClosed.declarations {K : Language Token} (h : Heads (· ≠ .kwElse) K) :
    ElseClosed (declarationWords∗ * K) :=
  .of_heads (.kstar (heads_ne rfl) h)

section Words

theorem mem_statementWords {us : List Token} :
    us ∈ statementWords ↔ ∃ n ∈ statementRules, us ∈ lang (.rule n) := by
  rw [statementWords, lang_rule]
  simp only [relaxed, unlimited, rules, lang_or, Language.mem_add, statementRules, List.mem_cons,
    List.not_mem_nil, or_false, exists_eq_or_imp, exists_eq_left, or_assoc]

/-- The rules of the single declarations. -/
def declarationRules : List Nonterminal := [.classDecl, .funDecl, .varDecl, .statement]

theorem mem_declarationWords {us : List Token} :
    us ∈ declarationWords ↔ ∃ n ∈ declarationRules, us ∈ lang (.rule n) := by
  rw [declarationWords, lang_rule]
  simp only [relaxed, unlimited, rules, lang_or, Language.mem_add, declarationRules, List.mem_cons,
    List.not_mem_nil, or_false, exists_eq_or_imp, exists_eq_left, or_assoc]

/-- What is behind the keyword of a variable declaration. -/
abbrev variableWords : Language Token := single (· = .identifier) *
  (single (· = .equal) * (expressionWords * single (· = .semicolon)) + single (· = .semicolon))

theorem lang_varDecl : lang (.rule .varDecl) = single (· = .kwVar) * variableWords := by
  rw [lang_rule, variableWords, add_comm (single (· = .equal) * _)]
  simp only [relaxed, unlimited, rules, lang_append, lang_token, lang_optional, mul_assoc, add_mul,
    one_mul]

theorem lang_exprStmt : lang (.rule .exprStmt) = expressionWords * single (· = .semicolon) := by
  rw [lang_rule]
  simp only [relaxed, unlimited, rules, lang_append, lang_token]

/-- What is behind the brace that opens a block. -/
abbrev bodyWords : Language Token := declarationWords∗ * single (· = .rightBrace)

theorem lang_block : lang (.rule .block) = single (· = .leftBrace) * bodyWords := by
  rw [lang_rule]
  simp only [relaxed, unlimited, rules, lang_append, lang_token, lang_many, mul_assoc]

theorem lang_parameters : lang (.rule .parameters) =
    single (· = .identifier) * (single (· = .comma) * single (· = .identifier))∗ := by
  rw [lang_rule]
  simp only [relaxed, unlimited, lang_append, lang_token, lang_many]

theorem lang_function : lang (.rule .function) = single (· = .identifier) *
    (single (· = .leftParen) * ((1 + lang (.rule .parameters)) * (single (· = .rightParen) *
      (single (· = .leftBrace) * bodyWords)))) := by
  rw [lang_rule, ← lang_block]
  simp only [relaxed, unlimited, rules, lang_append, lang_token, lang_optional, mul_assoc]

theorem lang_funDecl :
    lang (.rule .funDecl) = single (· = .kwFun) * lang (.rule .function) := by
  rw [lang_rule]
  simp only [relaxed, unlimited, rules, lang_append, lang_token]

/-- What is behind the keyword of a class. -/
abbrev classWords : Language Token := single (· = .identifier) *
  ((1 + single (· = .less) * single (· = .identifier)) * (single (· = .leftBrace) *
    ((lang (.rule .function))∗ * single (· = .rightBrace))))

theorem lang_classDecl : lang (.rule .classDecl) = single (· = .kwClass) * classWords := by
  rw [lang_rule]
  simp only [relaxed, unlimited, rules, lang_append, lang_token, lang_many, lang_optional,
    mul_assoc]

abbrev initializerWords : Language Token := single (· = .semicolon) * 1 +
  (single (· = .kwVar) * variableWords + expressionWords * single (· = .semicolon))

/-- What is behind the keyword of a `for`. -/
abbrev forWords : Language Token := single (· = .leftParen) * (initializerWords *
  ((1 + expressionWords) * (single (· = .semicolon) * ((1 + expressionWords) *
    (single (· = .rightParen) * statementWords)))))

theorem lang_forStmt : lang (.rule .forStmt) = single (· = .kwFor) * forWords := by
  rw [forWords, initializerWords, ← lang_varDecl, ← lang_exprStmt, mul_one,
    add_comm (single (· = .semicolon)), lang_rule]
  simp only [relaxed, unlimited, rules, lang_or, lang_append, lang_token, lang_optional, mul_assoc]

/-- What is behind the condition of an `if`. -/
abbrev branchWords : Language Token :=
  statementWords * (single (· = .kwElse) * statementWords + 1)

abbrev ifWords : Language Token := single (· = .leftParen) *
  (expressionWords * (single (· = .rightParen) * branchWords))

theorem lang_ifStmt : lang (.rule .ifStmt) = single (· = .kwIf) * ifWords := by
  rw [lang_rule, ifWords, branchWords, add_comm (single (· = .kwElse) * _)]
  simp only [relaxed, unlimited, rules, lang_append, lang_token, lang_optional, mul_assoc]

abbrev whileWords : Language Token := single (· = .leftParen) *
  (expressionWords * (single (· = .rightParen) * statementWords))

theorem lang_whileStmt : lang (.rule .whileStmt) = single (· = .kwWhile) * whileWords := by
  rw [lang_rule]
  simp only [relaxed, unlimited, rules, lang_append, lang_token, mul_assoc]

theorem lang_printStmt : lang (.rule .printStmt) =
    single (· = .kwPrint) * (expressionWords * single (· = .semicolon)) := by
  rw [lang_rule]
  simp only [relaxed, unlimited, rules, lang_append, lang_token, mul_assoc]

theorem lang_returnStmt : lang (.rule .returnStmt) =
    single (· = .kwReturn) * ((1 + expressionWords) * single (· = .semicolon)) := by
  rw [lang_rule]
  simp only [relaxed, unlimited, rules, lang_append, lang_token, lang_optional, mul_assoc]

theorem lang_breakStmt :
    lang (.rule .breakStmt) = single (· = .kwBreak) * single (· = .semicolon) := by
  rw [lang_rule]
  simp only [relaxed, unlimited, rules, lang_append, lang_token]

theorem lang_continueStmt :
    lang (.rule .continueStmt) = single (· = .kwContinue) * single (· = .semicolon) := by
  rw [lang_rule]
  simp only [relaxed, unlimited, rules, lang_append, lang_token]

end Words

namespace Predicted

variable {α β : Type} {s : Prop} {A : Language Token → Prop} {X Y : Language Token}
  {c d : Cursor} {r : Option α × Cursor}

/-- The next token tells the rule. -/
theorem alternative {ns : List Nonterminal} {n : Nonterminal}
    (h : Predicted s A (lang (.rule n)) c r)
    (hX : ∀ us, us ∈ X ↔ ∃ m ∈ ns, us ∈ lang (.rule m)) (hn : n ∈ ns)
    (hothers : ∀ m ∈ ns, m ≠ n → heads m c.peek.kind = false) : Predicted s A X c r := by
  refine h.among (fun us hus => (hX us).mpr ⟨n, hn, hus⟩) fun K _ w hw hmem => ?_
  obtain ⟨us, hus, vs, hvs, rfl⟩ := Language.mem_mul.mp hmem
  obtain ⟨m, hm, hus⟩ := (hX us).mp hus
  have hword : us ++ vs ∈ lang (.rule m) * K := Language.mem_mul.mpr ⟨us, hus, vs, hvs, rfl⟩
  by_cases heq : m = n
  · exact heq ▸ hword
  · exact absurd hword (((heads_rule m).mul K).not_mem hw (by simp [hothers m hm heq]))

/-- The keyword that was looked at tells the rule. -/
theorem keyword {ns : List Nonterminal} {n : Nonterminal} {k : TokenKind} {g : Unit → Parser α}
    {m : Nat} (hX : ∀ {us}, us ∈ X ↔ ∃ m ∈ ns, us ∈ lang (.rule m)) (hf : c.finish.kind = .eof)
    (hk : c.peek.kind = k) (hword : lang (.rule n) = single (· = k) * Y)
    (htold : k ≠ .eof ∧ n ∈ ns ∧ ∀ m ∈ ns, m ≠ n → heads m k = false)
    (h : Predicts s m A Y (g ())) (hm : c.pending.length < m + 1) :
    Predicted s A X c ((Parser.advance >>= g) c) := by
  obtain ⟨hend, hn, hothers⟩ := htold
  refine .alternative (n := n) ?_ (fun us => hX) hn (hk ▸ hothers)
  rw [hword]
  refine .advance hf hk (hk ▸ hend) fun rest hc => h _ hf ?_
  rw [hc, List.length_cons] at hm
  exact Nat.lt_of_succ_lt_succ hm

/-- A declaration that is given up has left its error. -/
theorem recovering {p : Parser α} (h : Predicted s A X c (p c)) :
    Predicted False A X c (Parser.recovering p c) := by
  unfold Parser.recovering
  generalize p c = r at h
  cases h with
  | quiet us hc hf hg hus hK => exact .quiet us hc hf hg hus hK
  | @faulty a d us rest e more hc ht hg hus hK _ =>
    cases a with
    | none => exact .faulty us rest e more hc ht hg hus hK False.elim
    | some a => exact .faulty us rest e more hc ht hg hus hK False.elim

theorem expect_alone {e : Expectation} {k : TokenKind} (he : e.kind = k)
    (hf : c.finish.kind = .eof) :
    Predicted s A (single (· = k)) c (Parser.expect e c) := by
  have hpure : (Parser.expect e >>= Pure.pure) c = Parser.expect e c := by
    rw [bind_apply]
    rcases Parser.expect e c with ⟨_ | t, d⟩ <;> rfl
  rw [← hpure]
  exact .expected he hf .pure

end Predicted

section Parts

variable {n : Nat}

theorem predicts_expressionUnless {kind : TokenKind} (hfirst : beginsExpression kind = false)
    (hbinds : bindsAt kind = none) (hend : kind ≠ .eof) :
    Predicts True n (Heads (· = kind)) (1 + expressionWords) (expressionUnless kind) := by
  have hsome : Predicts True n (Heads (· = kind)) expressionWords (some <$> expression) :=
    ((predicts_expression n).silently fun _ => .pure _).fewer
      fun K hK => hK.mono fun k h => by simp [h, hbinds]
  exact .or_nothing hend (heads_ne (n := .expression) hfirst) hsome none

/-- An expression and the token that is expected behind it. -/
theorem predicts_closed {α : Type} {e : Expectation} {k : TokenKind} {g : Expr → Token → Parser α}
    (he : e.kind = k) (hk : bindsAt k = none) (hg : ∀ v t, Silent (g v t)) :
    Predicts True n Any (expressionWords * single (· = k))
      (expression >>= fun v => expect e >>= g v) :=
  (predicts_expression n).before (fun K _ => behind_single hk K) fun v => .expected he (hg v)

theorem predicts_expressionStatement :
    Predicts True n Any (expressionWords * single (· = .semicolon)) expressionStatement :=
  predicts_closed rfl rfl fun _ _ => .pure _

theorem predicts_varDeclaration : Predicts True n Any variableWords varDeclaration := by
  have hgiven : Predicts True n (Behind 0) expressionWords (some <$> expression) :=
    (predicts_expression n).silently fun _ => .pure _
  refine .expect rfl fun name => .accept (by decide) (fun K _ => ?_) ?_ ?_
  · exact heads_token (by decide) K
  · exact hgiven.before (fun K _ => behind_single rfl K) fun _ => .expected rfl fun _ => .pure _
  · exact .expected rfl fun _ => .pure _

theorem predicts_forInitializer : Predicts True n Any initializerWords forInitializer := by
  have hother {k : TokenKind} (hk : beginsExpression k = false) :
      Heads (· ≠ k) (expressionWords * single (· = .semicolon)) :=
    (heads_ne (n := .expression) hk).mul _
  refine .accept (by decide) (fun K _ => ?_) (.pure _)
    (.accept (by decide) (fun K _ => (hother rfl).mul K) ?_ ?_)
  · exact .mul (.add (heads_token (by decide) _) (hother rfl)) K
  · exact predicts_varDeclaration.silently fun _ => .pure _
  · exact predicts_expressionStatement.silently fun _ => .pure _

theorem predicts_parameters :
    Predicts True n (Heads (· = .rightParen)) (1 + lang (.rule .parameters)) parameters := by
  have hname : Predicts True n Any (single (· = .identifier)) (expect .parameterName) :=
    fun c hf _ => .expect_alone rfl hf
  have hlist := predicts_commaSeparated (.expect .parameterName) hname (fun _ _ => trivial)
    .tooManyParameters rfl
  exact .or_nothing (by decide) (heads_ne rfl) (lang_parameters ▸ hlist) []

theorem predicts_superclass? : Predicts True n (Heads (· = .leftBrace))
    (single (· = .less) * single (· = .identifier) + 1) superclass? := by
  refine .accept (by decide) (fun K hK => ?_) (.expected rfl fun _ => ?_) (.pure _)
  · rw [one_mul]
    exact hK.mono fun k hk => by simp [hk]
  · exact Silent.freshNode.bind fun _ => .pure _

end Parts

section Bodies

variable {n : Nat} {declared : Parser (Option Stmt)}

theorem Gathers.reads {stops : Cursor → Bool} {next : Array Stmt → Parser (Option (Array Stmt))}
    (hg : Gathers stops declared next) (h : Reads declared) (body : Array Stmt) :
    Reads (next body) where
  reads c := by
    rw [hg.turn]
    split
    · exact .refl c
    · exact h.reads c
  faults c hn := by
    rw [hg.turn] at hn ⊢
    split at hn
    · cases hn
    · rename_i hs
      rw [if_neg hs]
      exact h.faults c (Option.map_eq_none_iff.mp hn)

theorem reads_block (h : Reads declared) : Reads (block declared) := by
  have hnext := (gathers_blockNext declared).reads h
  rw [block_eq]
  refine Reads.bind ((hnext _).bind fun body? => ?_) fun _ => (Reads.expect _).bind fun _ => .pure _
  cases body? with
  | none => exact .pure _
  | some body => exact ⟨fun c => (Reads.iterateUpTo hnext _ body).reads c,
      fun c => (Reads.iterateUpTo hnext _ body).faults c⟩

/-- A turn that does not stop is a declaration. -/
theorem Gathers.goes_on {stops : Cursor → Bool}
    {next : Array Stmt → Parser (Option (Array Stmt))} (hg : Gathers stops declared next)
    {sharp : Prop} {Admits : Language Token → Prop} {X : Language Token} {c : Cursor}
    (body : Array Stmt) (hc : ¬stops c = true) (h : Predicted sharp Admits X c (declared c)) :
    Predicted sharp Admits X c (next body c) ∧ (next body c).1 ≠ some none := by
  have hturn : next body c =
      (declared >>= fun s? => pure (some (s?.elim body body.push))) c := by
    rw [hg.turn, if_neg hc, bind_apply]
    rcases declared c with ⟨_ | s?, d⟩ <;> rfl
  rw [hturn]
  exact ⟨h.silently fun _ => .pure _, GoesOn.bind (fun _ => .pure _) _⟩

theorem closes_of_peek {c : Cursor} (hc : c.closes = true) (hf : c.finish.kind = .eof) :
    c.peek.kind = .rightBrace ∨ c.peek.kind = .eof := by
  cases hp : c.pending with
  | nil => exact .inr (by rw [Cursor.peek, hp, List.headD_nil, hf])
  | cons t rest =>
    refine .inl ?_
    rw [Predicted.peek_of_pending hp]
    simpa [Cursor.closes, Cursor.check, Cursor.atEnd, hp] using hc

theorem closes_of_rightBrace {c : Cursor} (hf : c.finish.kind = .eof)
    (hk : c.peek.kind = .rightBrace) : c.closes = true := by
  obtain ⟨rest, hc⟩ := Predicted.pending_of_peek hf (by simp [hk])
  simp [Cursor.closes, Cursor.check, hc, hk]

/-- A loop over what stands between braces. -/
theorem predicts_body {α : Type} (next : α → Parser (Option α)) {Z : Language Token}
    {wanted : TokenKind → Prop} {B : Language Token → Prop} (hloop : Exhausts next)
    (hreads : ∀ a, Reads (next a)) (hZ : Heads wanted Z) (hbrace : ¬wanted .rightBrace)
    (hend : ¬wanted .eof) (hB : ∀ K, Heads (· = .rightBrace) K → B (Z∗ * K))
    (hstop : ∀ (a : α) (c : Cursor), c.closes = true → next a c = (some none, c))
    (hgo : ∀ (a : α) (c : Cursor), c.finish.kind = .eof → c.pending.length < n →
      ¬c.closes = true → Predicted False B Z c (next a c) ∧ (next a c).1 ≠ some none) (a : α) :
    Predicts False n (Heads (· = .rightBrace)) Z∗ (iterate next a) := by
  intro c hf hn
  rw [hloop.iterate_eq hf (Nat.le_refl _)]
  refine Predicted.repeated (P := fun c => c.finish.kind = .eof) (S := fun c => c.closes = true)
    (fun c d us hf _ hfinish => hfinish ▸ hf) (fun c _ hc => ?_) (hZ.mono fun _ _ => trivial)
    (fun c hf hc => hZ.mono fun k hk he => ?_)
    (fun c hf hc K hK => hK.mono fun _ hk he => hc (closes_of_rightBrace hf (he.symm.trans hk)))
    hB (.inr hreads) (fun a c _ => hstop a c) hgo _ a c hf (Nat.le_refl _) hn
  · simp [Cursor.closes, Cursor.atEnd, hc]
  · rcases closes_of_peek hc hf with hp | hp <;> rw [he, hp] at hk
    · exact hbrace hk
    · exact hend hk

/-- The declarations of a block and the brace that closes it. -/
theorem predicts_block (hforward : Forward 0 declared declared) (hreads : Reads declared)
    (h : Predicts False n ElseClosed declarationWords declared) :
    Predicts False n Any bodyWords (block declared) := by
  have hgathers := gathers_blockNext declared
  have hloop := hforward.exhausts hgathers fun c hc => by simp [Cursor.closes, Cursor.atEnd, hc]
  rw [block_eq]
  refine Predicts.followed ?_ (fun _ => (Reads.expect _).bind fun _ => .pure _)
    (fun K _ => (heads_single _).mul K) fun body => .expected rfl fun _ => .pure _
  refine predicts_body _ (B := ElseClosed) hloop (hgathers.reads hreads)
    (heads_rule .declaration) (by decide) (by decide) (fun K hK => ?_) (fun body c hc => ?_)
    (fun body c hf hn hc => hgathers.goes_on body hc (h c hf hn)) _
  · exact .declarations (hK.mono fun k hk => by simp [hk])
  · rw [hgathers.turn, if_pos hc]

variable {block : Parser (List Stmt)}

theorem predicts_function (callable : Callable) (h : Predicts False n Any bodyWords block) :
    Predicts False n Any (lang (.rule .function)) (function callable block) := by
  rw [lang_function]
  refine .expect rfl fun name => .expect rfl fun _ => ?_
  refine predicts_parameters.before (fun K _ => (heads_single _).mul _ |>.mul K) fun params => ?_
  exact .expect rfl fun _ => .expect rfl fun _ => h.silently fun _ => .pure _

theorem reads_function (callable : Callable) (h : Reads block) :
    Reads (function callable block) := by
  refine (Reads.expect _).bind fun _ => (Reads.expect _).bind fun _ => ?_
  refine (follows_parameters (k := .same)).toReads.bind fun _ => ?_
  exact (Reads.expect _).bind fun _ => (Reads.expect _).bind fun _ => h.bind fun _ => .pure _

theorem predicts_classDeclaration (hsteady : Steady 0 0 block block) (hreads : Reads block)
    (h : Predicts False n Any bodyWords block) :
    Predicts False n Any classWords (classDeclaration block) := by
  have hmethod (methods : Array FunctionDecl) (c : Cursor) : methodNext block methods c =
      if c.closes then (some none, c) else
        (function .method block >>= fun f => pure (some (methods.push f))) c := by
    rw [methodNext, bind_apply, bodyGoesOn_eq]
    cases c.closes <;> rfl
  have hheads : Heads (· = .identifier) (lang (.rule .function)) :=
    (heads_rule .function).mono fun k hk => by simpa [heads] using hk
  have hnext (methods : Array FunctionDecl) : Reads (methodNext block methods) :=
    (follows_bodyGoesOn (k := .same)).toReads.bind fun _ =>
      .ite _ ((reads_function _ hreads).bind fun _ => .pure _) (.pure _)
  rw [classDeclaration_eq]
  refine .expect rfl fun name => ?_
  rw [add_comm 1]
  refine predicts_superclass?.before (fun K _ => (heads_single _).mul _ |>.mul K)
    fun superclass => .expect rfl fun _ => ?_
  refine Predicts.followed ?_ (fun _ => (Reads.expect _).bind fun _ => .pure _)
    (fun K _ => (heads_single _).mul K) fun body => .expected rfl fun _ => .pure _
  refine predicts_body (methodNext block) (B := Any) (exhausts_methodNext hsteady) hnext
    hheads (by decide) (by decide) (fun _ _ => trivial) (fun methods c hc => ?_)
    (fun methods c hf hn hc => ?_) _
  · rw [hmethod, if_pos hc]
  · rw [hmethod, if_neg hc]
    exact ⟨((predicts_function .method h) c hf hn).silently fun _ => .pure _,
      GoesOn.bind (fun _ => .pure _) _⟩

end Bodies

section Statements

variable {n : Nat} {nested : Parser Stmt} {declared : Parser (Option Stmt)}

theorem predicts_forStatement (h : Predicts False n ElseClosed statementWords nested) :
    Predicts False n ElseClosed forWords (forStatement nested) := by
  refine .expect rfl fun _ => predicts_forInitializer.before (fun _ _ => trivial) fun _ => ?_
  refine (predicts_expressionUnless rfl rfl (by decide)).before
    (fun K _ => (heads_single _).mul _ |>.mul K) fun _ => .expect rfl fun _ => ?_
  refine (predicts_expressionUnless rfl rfl (by decide)).before
    (fun K _ => (heads_single _).mul _ |>.mul K) fun _ => .expect rfl fun _ => ?_
  exact h.silently fun _ => .pure _

theorem predicts_whileStatement (h : Predicts False n ElseClosed statementWords nested) :
    Predicts False n ElseClosed whileWords (whileStatement nested) := by
  refine .expect rfl fun _ => (predicts_expression n).before
    (fun K _ => by rw [mul_assoc]; exact behind_single rfl _) fun _ => .expect rfl fun _ => ?_
  exact h.silently fun _ => .pure _

/-- Behind an alternative the innermost `if` is over, so one that is there belongs to it. -/
theorem ElseClosed.branch {K : Language Token} (hK : ElseClosed K) :
    ElseClosed ((single (· = .kwElse) * statementWords + 1) * K) := by
  have hsub : statementWords * K ≤
      statementWords * ((single (· = .kwElse) * statementWords + 1) * K) := by
    rw [add_mul, one_mul]
    exact mul_le_mul_right (le_add_left (le_refl K)) _
  intro t us hk hmem
  rw [add_mul, one_mul, mul_assoc] at hmem
  rcases hmem with ⟨ts, ⟨t', -, rfl⟩, vs, hvs, heq⟩ | hmem
  · obtain ⟨-, rfl⟩ := List.cons.inj heq
    exact hsub hvs
  · exact hsub (hK t us hk hmem)

theorem predicts_ifStatement (hreads : Reads nested)
    (h : Predicts False n ElseClosed statementWords nested) :
    Predicts False n ElseClosed ifWords (ifStatement nested) := by
  refine .expect rfl fun _ => (predicts_expression n).before
    (fun K _ => by rw [mul_assoc]; exact behind_single rfl _) fun _ => .expect rfl fun _ => ?_
  refine h.followed (fun _ => ?_) (fun K hK => hK.branch) fun _ c hf hn => ?_
  · exact (Reads.accept _).bind fun _ => .ite _ (hreads.bind fun _ => .pure _) (.pure _)
  · by_cases hk : c.peek.kind = .kwElse
    · obtain ⟨rest, hc⟩ := Predicted.pending_of_peek hf (by simp [hk])
      rw [Predicted.accept_read hc hk]
      refine (Predicted.token hc hk ((h { c with pending := rest } hf ?_).silently fun _ =>
        .pure _)).among (fun us hus => .inl hus) fun K hK w hw hmem => ?_
      · rw [hc, List.length_cons] at hn
        exact Nat.lt_of_succ_lt hn
      · -- An `else` that could also come behind this statement is an alternative of its own.
        rw [add_mul, one_mul] at hmem
        refine hmem.elim id fun hmem => ?_
        obtain ⟨us, rfl⟩ := List.head?_eq_some_iff.mp hw
        rw [mul_assoc]
        exact Language.mem_mul.mpr ⟨[c.peek], ⟨_, hk, rfl⟩, us, hK _ us hk hmem, rfl⟩
    · rw [Predicted.accept_skip hk]
      refine (Predicted.pure _).right ?_
      exact heads_token (fun he => hk he.symm) _

theorem predicts_printStatement :
    Predicts True n Any (expressionWords * single (· = .semicolon)) printStatement :=
  predicts_closed rfl rfl fun _ _ => .pure _

theorem predicts_returnStatement (keyword : Token) :
    Predicts True n Any ((1 + expressionWords) * single (· = .semicolon))
      (returnStatement keyword) :=
  (predicts_expressionUnless rfl rfl (by decide)).before (fun K _ => (heads_single _).mul K)
    fun _ => .expected rfl fun _ => .pure _

/-- The kinds that statements begin with in which there are others. -/
def isNesting : TokenKind → Bool
  | .kwFor | .kwIf | .kwWhile | .leftBrace => true
  | _ => false

/-- A statement without others in it gives up at its first fault. -/
theorem predicts_simple {c : Cursor} (hf : c.finish.kind = .eof)
    (hk : isNesting c.peek.kind = false) :
    Predicted True Any statementWords c (statement nested declared c) := by
  have hn := Nat.lt_succ_self c.pending.length
  refine .peek ?_
  split
  case h_3 hk =>
    exact .keyword mem_statementWords hf hk lang_printStmt (by decide) predicts_printStatement hn
  case h_4 hk =>
    exact .keyword mem_statementWords hf hk lang_returnStmt (by decide)
      (predicts_returnStatement _) hn
  case h_6 hk =>
    exact .keyword mem_statementWords hf hk lang_breakStmt (by decide)
      (.expected rfl fun _ => .pure _) hn
  case h_7 hk =>
    exact .keyword mem_statementWords hf hk lang_continueStmt (by decide)
      (.expected rfl fun _ => .pure _) hn
  case h_9 =>
    refine .alternative (n := .exprStmt) ?_ (fun us => mem_statementWords) (by decide) ?_
    · rw [lang_exprStmt]
      exact predicts_expressionStatement c hf hn
    · cases hk : c.peek.kind <;> first | decide | contradiction
  all_goals
    rename_i hk'
    rw [hk'] at hk
    cases hk

theorem predicts_statement (hreads : Reads nested)
    (h : Predicts False n ElseClosed statementWords nested) (hforward : Forward 0 declared declared)
    (hreads' : Reads declared) (h' : Predicts False n ElseClosed declarationWords declared) :
    Predicts False (n + 1) ElseClosed statementWords (statement nested declared) := by
  intro c hf hn
  by_cases hk : isNesting c.peek.kind = false
  · exact (predicts_simple hf hk).loose.fewer fun _ _ => trivial
  · refine .peek ?_
    split
    case h_1 hk =>
      exact .keyword mem_statementWords hf hk lang_forStmt (by decide) (predicts_forStatement h) hn
    case h_2 hk =>
      exact .keyword mem_statementWords hf hk lang_ifStmt (by decide)
        (predicts_ifStatement hreads h) hn
    case h_5 hk =>
      exact .keyword mem_statementWords hf hk lang_whileStmt (by decide)
        (predicts_whileStatement h) hn
    case h_8 hk =>
      refine .keyword mem_statementWords hf hk lang_block (by decide) ?_ hn
      exact ((predicts_block hforward hreads' h').silently fun _ => .pure _).fewer
        fun _ _ => trivial
    all_goals exact absurd (by simp_all [isNesting]) hk

/-- A declaration before what is done about its errors. -/
def plainDeclaration (nested : Parser Stmt) (declared : Parser (Option Stmt)) : Parser Stmt := do
  match (← peek).kind with
  | .kwClass => do advance; classDeclaration (block declared)
  | .kwFun => do advance; return .function (← function .function (block declared))
  | .kwVar => do advance; varDeclaration
  | _ => nested

theorem declarationUpTo_succ (depth : Nat) : declarationUpTo (depth + 1) =
    recovering (plainDeclaration (statementUpTo depth) (declarationUpTo depth)) := rfl

/-- Any declaration but one of a class, a function or a variable is a statement. -/
theorem predicted_declaration {sharp : Prop} {Admits : Language Token → Prop} {c : Cursor}
    (hclass : c.peek.kind = .kwClass → Predicted sharp Admits declarationWords c
      ((advance >>= fun _ => classDeclaration (block declared)) c))
    (hfun : c.peek.kind = .kwFun → Predicted sharp Admits declarationWords c
      ((advance >>= fun _ => do return Stmt.function (← function .function (block declared))) c))
    (hf : c.finish.kind = .eof) (h : Predicted sharp Admits statementWords c (nested c)) :
    Predicted sharp Admits declarationWords c (plainDeclaration nested declared c) := by
  have hvar : Predicts sharp c.pending.length Admits variableWords varDeclaration :=
    predicts_varDeclaration.loose.fewer fun _ _ => trivial
  refine .peek ?_
  split
  case h_1 hk => exact hclass hk
  case h_2 hk => exact hfun hk
  case h_3 hk =>
    exact .keyword mem_declarationWords hf hk lang_varDecl (by decide) hvar (Nat.lt_succ_self _)
  case h_4 =>
    refine .alternative h (fun us => mem_declarationWords) (by decide) ?_
    cases hk : c.peek.kind <;> first | decide | contradiction

theorem predicts_plainDeclaration (hforward : Forward 0 declared declared)
    (hreads : Reads declared) (h : Predicts False (n + 1) ElseClosed statementWords nested)
    (h' : Predicts False n ElseClosed declarationWords declared) :
    Predicts False (n + 1) ElseClosed declarationWords (plainDeclaration nested declared) := by
  have hblock := predicts_block hforward hreads h'
  intro c hf hn
  refine predicted_declaration (fun hk => ?_) (fun hk => ?_) hf (h c hf hn)
  · refine .keyword mem_declarationWords hf hk lang_classDecl (by decide) ?_ hn
    exact (predicts_classDeclaration hforward.steady_block (reads_block hreads) hblock).fewer
      fun _ _ => trivial
  · refine .keyword mem_declarationWords hf hk lang_funDecl (by decide) ?_ hn
    exact ((predicts_function _ hblock).silently fun _ => .pure _).fewer fun _ _ => trivial

end Statements

section Levels

theorem predicts_levels (depth : Nat) : ∀ n : Nat,
    (2 * n ≤ depth + 1 → Predicts False n ElseClosed statementWords (statementUpTo depth)) ∧
    (2 * n ≤ depth → Predicts False n ElseClosed declarationWords (declarationUpTo depth)) := by
  induction depth with
  | zero =>
    intro n
    have hnone {α : Type} {X : Language Token} {p : Parser α} (hn : 2 * n ≤ 1) :
        Predicts False n ElseClosed X p := fun c _ hlt => absurd hlt (by omega)
    exact ⟨hnone, fun hn => hnone (Nat.le_succ_of_le hn)⟩
  | succ depth ih =>
    have hforward := forward_declarationUpTo depth
    have hreads := reads_declarationUpTo depth
    have hlevels := levelsFollow (k := .same) depth depth (Nat.le_refl _) fun _ => rfl
    intro n
    cases n with
    | zero =>
      exact ⟨fun _ c _ hlt => absurd hlt (by omega), fun _ c _ hlt => absurd hlt (by omega)⟩
    | succ n =>
      constructor
      · intro hn
        exact predicts_statement hlevels.statement.toReads ((ih n).1 (by omega)) hforward hreads
          ((ih n).2 (by omega))
      · intro hn c hf hlt
        rw [declarationUpTo_succ]
        exact .recovering (predicts_plainDeclaration hforward hreads ((ih (n + 1)).1 (by omega))
          ((ih n).2 (by omega)) c hf hlt)

theorem predicts_plainUpTo (depth : Nat) {n : Nat} (hn : 2 * n ≤ depth + 1) :
    Predicts False n ElseClosed declarationWords
      (plainDeclaration (statementUpTo depth) (declarationUpTo depth)) := by
  cases n with
  | zero => exact fun c _ hlt => absurd hlt (Nat.not_lt_zero _)
  | succ n =>
    exact predicts_plainDeclaration (forward_declarationUpTo depth) (reads_declarationUpTo depth)
      ((predicts_levels depth (n + 1)).1 hn) ((predicts_levels depth n).2 (by omega))

end Levels

end Lox.Grammar
