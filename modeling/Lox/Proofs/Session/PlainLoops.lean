import Lox.Proofs.Grammar.PlainLoops
import Lox.Proofs.Session.Observations
import Lox.Proofs.Session.Outcomes

/-! A loop with a header of three parts is the plain loop that it is short for.

A program in which such a loop is written out, with the increment at the end of the body, is
accepted with the program, and nobody who looks at a session can tell which of the two was run in
it. That no `continue` belongs to the loop is needed: it would skip an increment that stands in the
body.

The increment keeps its tokens when it goes behind the body, and their lines too, so the program
that is written out is a list of tokens of which no text need have the lines. An accepted text is
run as its tokens are (`Session.run?_eq_of_clean`). -/

namespace Lox

open Grammar

theorem Grammar.Spells.not_eof {b : Bool} {s : Stmt} {ts : List Token}
    (h : Spells (.statement b s) ts []) : ∀ t ∈ ts, t.kind ≠ .eof :=
  (derives_of_spells (Spells.none.more (.statement h))).not_eof rfl

/-- A statement in a program is read whole. -/
theorem takeWhile_statement {before own after : List Token} {b : Bool} {s : Stmt}
    (hbefore : ∀ t ∈ before, t.kind ≠ .eof) (hown : Spells (.statement b s) own []) :
    (before ++ (own ++ after)).takeWhile (·.kind != .eof) =
      before ++ (own ++ after.takeWhile (·.kind != .eof)) := by
  rw [List.takeWhile_append_of_pos fun t ht => by simpa using hbefore t ht,
    List.takeWhile_append_of_pos fun t ht => by simpa using hown.not_eof t ht]

theorem Grammar.NotElse.takeWhile {after : List Token} (h : NotElse after) (p : Token → Bool) :
    NotElse (after.takeWhile p) := by
  intro t ht
  cases after with
  | nil => cases ht
  | cons first rest =>
    rw [List.takeWhile_cons] at ht
    split at ht
    · exact h t ht
    · cases ht

namespace Grammar

theorem PlainFrame.sound (f : PlainFrame) : ∀ t ∈ f.tokens, t.Sound := by
  simp only [PlainFrame.tokens, List.forall_mem_cons]
  refine ⟨.of_kind ?_, .of_kind ?_, .of_kind ?_, .of_kind ?_, .of_kind ?_, .of_kind ?_, .of_kind ?_,
    .of_kind ?_, .of_kind ?_, List.forall_mem_nil _⟩ <;>
  simp [f.opening_kind, f.keyword_kind, f.start_kind, f.always_kind, f.stop_kind,
    f.bodyOpening_kind, f.separator_kind, f.bodyClosing_kind, f.closing_kind]

end Grammar

section Programs

variable {before after : List Token} {l : WrittenLoop} {f : PlainFrame}

theorem sound_plain (h : ∀ t ∈ before ++ (l.tokens ++ after), t.Sound) :
    ∀ t ∈ before ++ (l.plainTokens f ++ after), t.Sound := by
  simp only [List.forall_mem_append] at h ⊢
  obtain ⟨hbefore, hloop, hafter⟩ := h
  refine ⟨hbefore, fun t ht => ?_, hafter⟩
  rcases l.mem_plainTokens f ht with ht | ht
  · exact hloop t ht
  · exact f.sound t ht

theorem tokensWrap_plain (h : CleanTokens (before ++ (l.tokens ++ after)))
    (hopen : l.isOpen = true → NotElse after) (hcontinue : l.body.continues = false) :
    TokensWrap (before ++ (l.tokens ++ after)) (before ++ (l.plainTokens f ++ after)) := by
  have hsound := sound_plain (f := f) h.sound
  have hown : Spells (.statement l.isOpen l.statement) l.tokens [] := by simpa using l.spells []
  have hown' : Spells (.statement false l.plainStatement) (l.plainTokens f) [] := by
    simpa using l.spells_plain f []
  rcases split_at_end before with ⟨first, t, rest, rfl, -, ht⟩ | hbefore
  · -- The loop stands behind the end of the program and is not read.
    have hsame (next : Nat) := parse_beyond_end first (rest ++ (l.tokens ++ after))
      (rest ++ (l.plainTokens f ++ after)) next ht
    simp only [List.append_assoc, List.cons_append] at h hsound ⊢
    refine ⟨h, ⟨hsound, ?_, ?_⟩, fun next next' => ?_⟩
    · rw [hsame]
      exact h.parsed
    · rw [hsame]
      exact h.resolved
    · rw [hsame]
      exact (parse_wraps_self h.sound next next').2.2
  · have hread (next next' : Nat) := parse_plain (f := f)
      (fun hb => (hopen hb).takeWhile (·.kind != .eof)) hcontinue
      (takeWhile_statement hbefore hown) (takeWhile_statement hbefore hown') (h.parse next).1
      (parse_proper h.sound next).wellFormed next'
    exact ⟨h, ⟨hsound, (hread 0 0).1, (hread 0 0).2.accepted (.refl .topLevel) h.resolved⟩,
      fun next next' => (hread next next').2⟩

/-- Where a loop stands in an accepted program, with no `continue` of its own in its body, the same
loop can be written out, whatever lines its parts are on. The program is accepted as before. From
whatever session it is run in, it comes to an end or not as before and prints the same until then;
when it has come to an end it has reported the same, and all that is run later shows the same. -/
theorem written_out_loop_runs_alike (h : CleanTokens (before ++ (l.tokens ++ after)))
    (hopen : l.isOpen = true → NotElse after) (hcontinue : l.body.continues = false) :
    CleanTokens (before ++ (l.plainTokens f ++ after)) ∧
      ∀ s : Session, s.Reachable →
        s.RunsAlike (before ++ (l.tokens ++ after)) (before ++ (l.plainTokens f ++ after)) := by
  have hprograms := tokensWrap_plain (f := f) h hopen hcontinue
  exact ⟨hprograms.clean', fun s hs => hs.wraps_self.runsAlike hprograms⟩

end Programs

/-- A loop over two lines that is run once. Written out it has the second line before the increment
of the first, and prints once all the same. -/
theorem written_out_loop_runs_alike_once :
    ∃ (l : WrittenLoop) (f : PlainFrame) (after : List Token),
      tokensOf "for (var a = true; a; a = nil)\n  print a;" = [] ++ (l.tokens ++ after) ∧
      (l.plainTokens f).map (fun t => (t.lexeme, t.line)) =
        [("\x7b", 1), ("var", 1), ("a", 1), ("=", 1), ("true", 1), (";", 1), ("while", 1), ("(", 1),
          ("a", 1), (")", 1), ("\x7b", 1), ("print", 2), ("a", 2), (";", 2), ("a", 1), ("=", 1),
          ("nil", 1), (";", 1), ("\x7d", 2), ("\x7d", 2)] ∧
      CleanTokens ([] ++ (l.plainTokens f ++ after)) ∧
      (Session.start (⟨0⟩ : Number)).PrintsTokens ([] ++ (l.plainTokens f ++ after)) ["true"] := by
  let source := "for (var a = true; a; a = nil)\n  print a;"
  let a (line : Nat) : Token := ⟨.identifier, "a", none, line⟩
  let equals : Token := ⟨.equal, "=", none, 1⟩
  let semicolon (line : Nat) : Token := ⟨.semicolon, ";", none, line⟩
  let always : Token := ⟨.kwTrue, "true", none, 1⟩
  let absent : Token := ⟨.kwNil, "nil", none, 1⟩
  let opening : Token := ⟨.leftParen, "(", none, 1⟩
  let closing : Token := ⟨.rightParen, ")", none, 1⟩
  let l : WrittenLoop :=
    { keyword := ⟨.kwFor, "for", none, 1⟩, opening, separator := semicolon 1, closing,
      initializerTokens := [⟨.kwVar, "var", none, 1⟩, a 1, equals, always, semicolon 1],
      conditionTokens := [a 1], incrementTokens := [a 1, equals, absent],
      bodyTokens := [⟨.kwPrint, "print", none, 2⟩, a 2, semicolon 2],
      initializer := some (.varDecl (a 1) (some (.constant (.bool true)))),
      condition := some (.variable ⟨⟨0⟩, a 1⟩),
      increment := some (.assign ⟨⟨0⟩, a 1⟩ (.constant .nil)),
      body := .print (.variable ⟨⟨0⟩, a 2⟩), isOpen := false,
      keyword_kind := rfl, opening_kind := rfl, separator_kind := rfl, closing_kind := rfl,
      spells_initializer := .varDecl rfl (.initialized rfl rfl (.of_primary (.constant rfl)) rfl),
      spells_condition := SpellsExpr.of_primary (.occurrence rfl),
      spells_increment := SpellsExpr.assign rfl rfl (.of_primary (.constant rfl)),
      spells_body := .print rfl (.of_primary (.occurrence rfl)) rfl }
  let f : PlainFrame :=
    { opening := ⟨.leftBrace, "\x7b", none, 1⟩, keyword := ⟨.kwWhile, "while", none, 1⟩,
      start := opening, always, stop := closing, bodyOpening := ⟨.leftBrace, "\x7b", none, 1⟩,
      separator := semicolon 1, bodyClosing := ⟨.rightBrace, "\x7d", none, 2⟩,
      closing := ⟨.rightBrace, "\x7d", none, 2⟩,
      opening_kind := rfl, keyword_kind := rfl, start_kind := rfl, always_kind := rfl,
      stop_kind := rfl, bodyOpening_kind := rfl, separator_kind := rfl, bodyClosing_kind := rfl,
      closing_kind := rfl }
  have hsource : tokensOf source = [] ++ (l.tokens ++ [Token.endOfInput 2]) := by decide +kernel
  have hparsed : (parse (tokensOf source) 0).errors = [] := by decide +kernel
  have hresolved : (analyse (parse (tokensOf source) 0).statements).filterMap
      ScopeNote.error? = [] := by decide +kernel
  have hclean : CleanTokens (tokensOf source) :=
    ⟨fun _ ht => scan_sound ht, hparsed, (accepted_iff _).mpr hresolved⟩
  have hprinted : ((Session.start (⟨0⟩ : Number)).printedAfterTokens 60 (tokensOf source)).toList =
      ["true"] := by decide +kernel
  rw [hsource] at hclean hprinted
  obtain ⟨hclean', hruns⟩ := written_out_loop_runs_alike (f := f) hclean nofun rfl
  refine ⟨l, f, _, hsource, by decide +kernel, hclean', ?_⟩
  apply ((hruns (Session.start (⟨0⟩ : Number)) ⟨_, _, .start (⟨0⟩ : Number)⟩).prints ["true"]).mpr
  exact ⟨60, hprinted ▸ List.prefix_refl _⟩

end Lox
