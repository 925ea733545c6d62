import Lox.Proofs.Grammar.Soundness
import Lox.Proofs.Session.Batches

/-! The three ways in which a run ends.

A text with an error in it is refused before anything is executed. One without errors is executed
whole: its statements spell all its tokens, and they run to the end or to the first failure. The
flags tell which of the three it was. -/

namespace Lox

theorem Report.eq_empty {r : Report} (hd : r.diagnostics = #[]) (hs : r.syntaxError = false)
    (hr : r.runtimeError = false) : r = Report.empty := by
  obtain ⟨diagnostics, syntaxError, runtimeError⟩ := r
  cases hd
  cases hs
  cases hr
  rfl

theorem Report.addAll_append (r : Report) (xs ys : List Diagnostic) :
    r.addAll (xs ++ ys) = (r.addAll xs).addAll ys := List.foldl_append

theorem Report.addAll_eq (ds : List Diagnostic) (hd : ∀ d ∈ ds, d.isRuntime = false) :
    ∀ r : Report, r.addAll ds =
      ⟨r.diagnostics ++ ds.toArray, r.syntaxError || !ds.isEmpty, r.runtimeError⟩ := by
  induction ds with
  | nil => intro r; simp [addAll]
  | cons d rest ih =>
    intro r
    obtain ⟨hfirst, hrest⟩ := List.forall_mem_cons.mp hd
    rw [addAll, List.foldl_cons, ← addAll, ih hrest]
    simp [add, hfirst]

theorem LexicalError.isRuntime_diagnostics (es : List LexicalError) :
    ∀ d ∈ es.map LexicalError.diagnostic, d.isRuntime = false :=
  List.forall_mem_map.mpr fun _ _ => rfl

theorem ParseError.isRuntime_diagnostics (es : List ParseError) :
    ∀ d ∈ es.map ParseError.diagnostic, d.isRuntime = false :=
  List.forall_mem_map.mpr fun _ _ => rfl

theorem ScopeError.isRuntime_diagnostics (es : List ScopeError) :
    ∀ d ∈ es.map ScopeError.diagnostic, d.isRuntime = false :=
  List.forall_mem_map.mpr fun _ _ => rfl

/-- The errors of a text, by the stage that found them. -/
structure TextErrors where
  lexical : List LexicalError
  parse : List ParseError
  scope : List ScopeError

/-- The diagnostics of the stages, in the order of the stages. -/
def TextErrors.diagnostics (errors : TextErrors) : List Diagnostic :=
  errors.lexical.map LexicalError.diagnostic ++ errors.parse.map ParseError.diagnostic ++
    errors.scope.map ScopeError.diagnostic

theorem TextErrors.diagnostics_read (lexical : List LexicalError) (parse : List ParseError) :
    TextErrors.diagnostics ⟨lexical, parse, []⟩ =
      lexical.map LexicalError.diagnostic ++ parse.map ParseError.diagnostic :=
  List.append_nil _

theorem TextErrors.diagnostics_scope (scope : List ScopeError) :
    TextErrors.diagnostics ⟨[], [], scope⟩ = scope.map ScopeError.diagnostic := rfl

/-- There is an error, and scoping is looked at only where there is no other. -/
structure TextErrors.Staged (errors : TextErrors) : Prop where
  some : errors.diagnostics ≠ []
  scope : errors.scope ≠ [] → errors.lexical = [] ∧ errors.parse = []

theorem TextErrors.isRuntime_diagnostics (errors : TextErrors) :
    ∀ d ∈ errors.diagnostics, d.isRuntime = false :=
  List.forall_mem_append.mpr ⟨List.forall_mem_append.mpr
    ⟨LexicalError.isRuntime_diagnostics _, ParseError.isRuntime_diagnostics _⟩,
    ScopeError.isRuntime_diagnostics _⟩

namespace Session

variable {s t : Session} {steps : Nat} {source : String}

/-- What a run with an error in its text comes to: diagnostics and entries in the table. -/
theorem run?_faulty (steps : Nat) (hquiet : s.report.syntaxError = false) (h : ¬Clean source) :
    ∃ d errors, s.run? steps source = some ⟨{ s.machine with depths := d },
        s.report.addAll errors.diagnostics, (parse (tokensOf source) s.nextNode).nextNode⟩ ∧
      TextErrors.Staged errors ∧
      (d = s.machine.depths ∨ d = s.machine.depths.recordAll
        (analyse (parse (tokensOf source) s.nextNode).statements)) := by
  have hread := read_eq s source
  have hclean := @Clean.of_parse source s.nextNode
  rw [run?_eq]
  generalize parse (tokensOf source) s.nextNode = p at hread hclean ⊢
  generalize lexicalErrors source = lexical at hread hclean
  have hlex := LexicalError.isRuntime_diagnostics lexical
  have hparse := ParseError.isRuntime_diagnostics p.errors
  rw [hread]
  by_cases hflag : ((s.report.addAll (lexical.map LexicalError.diagnostic)).addAll
      (p.errors.map ParseError.diagnostic)).syntaxError = true
  · refine ⟨s.machine.depths, ⟨lexical, p.errors, []⟩, ?_, ⟨?_, fun h => absurd rfl h⟩, .inl rfl⟩
    · rw [if_pos hflag, TextErrors.diagnostics_read, Report.addAll_append]
    · intro hnil
      rw [TextErrors.diagnostics_read] at hnil
      obtain ⟨hl, hp⟩ := List.append_eq_nil_iff.mp hnil
      rw [hl, hp] at hflag
      exact Bool.false_ne_true (hquiet.symm.trans hflag)
  · obtain ⟨hscanned, hp⟩ := Report.addAll_quiet (Bool.eq_false_iff.mpr hflag) hparse
    obtain rfl := List.map_eq_nil_iff.mp (Report.addAll_quiet hscanned hlex).2
    have hp := List.map_eq_nil_iff.mp hp
    have hfaulty : (analyse p.statements).filterMap ScopeNote.error? ≠ [] := fun hnil =>
      h (hclean rfl hp ((accepted_iff _).mpr hnil))
    refine ⟨s.machine.depths.recordAll (analyse p.statements),
      ⟨[], [], (analyse p.statements).filterMap ScopeNote.error?⟩, ?_,
      ⟨?_, fun _ => ⟨rfl, rfl⟩⟩, .inr rfl⟩
    · rw [if_neg hflag, if_pos, hp, TextErrors.diagnostics_scope]
      · rfl
      · by_contra hquiet'
        exact hfaulty ((accepted_iff _).mp (resolve_quiet (Bool.eq_false_iff.mpr hquiet')).2)
    · rw [TextErrors.diagnostics_scope]
      simpa using hfaulty

/-- The text was refused: its errors were reported, and nothing was executed. -/
structure Refused (s t : Session) : Prop where
  reported : ∃ errors : TextErrors, errors.Staged ∧
    t.report.diagnostics = s.report.diagnostics ++ errors.diagnostics.toArray
  unexecuted : ∃ depths, t.machine = { s.machine with depths := depths }
  printed : t.machine.printed = s.machine.printed
  syntaxError : t.report.syntaxError = true
  runtimeError : t.report.runtimeError = false

/-- The run ended with the one failure that it reported. -/
structure Failed (s t : Session) : Prop where
  reported : ∃ e : RuntimeError, t.report.diagnostics = s.report.diagnostics.push e.diagnostic
  syntaxError : t.report.syntaxError = false
  runtimeError : t.report.runtimeError = true

/-- The run had nothing to report. -/
structure Completed (s t : Session) : Prop where
  reported : t.report.diagnostics = s.report.diagnostics
  syntaxError : t.report.syntaxError = false
  runtimeError : t.report.runtimeError = false

/-- The text is a list of tokens, all of which the statements that were read from it spell, and the
run is the execution of these statements. -/
structure Executed (steps : Nat) (source : String) (s t : Session) : Prop where
  tokens : ∃ own line, (∀ u ∈ own, u.kind ≠ .eof) ∧
    scan source = own.map .token ++ [.token (Token.endOfInput line)] ∧
    Grammar.Spells (.declarations (s.read source).1) own []
  execution : ((s.read source).2.resolve (s.read source).1).execute? steps (s.read source).1 =
    some t

theorem Refused.of_faulty (hquiet : s.report.syntaxError = false)
    (hcalm : s.report.runtimeError = false) (h : ¬Clean source)
    (hrun : s.run? steps source = some t) : s.Refused t := by
  obtain ⟨depths, errors, hfaulty, hstaged, -⟩ := run?_faulty steps hquiet h
  obtain rfl := Option.some.inj (hfaulty.symm.trans hrun)
  have hreport := Report.addAll_eq errors.diagnostics errors.isRuntime_diagnostics s.report
  rw [hreport]
  exact ⟨⟨errors, hstaged, rfl⟩, ⟨depths, rfl⟩, rfl, by simp [hstaged.some], hcalm⟩

theorem Executed.of_clean (hquiet : s.report.syntaxError = false) (h : Clean source)
    (hrun : s.run? steps source = some t) : Executed steps source s t := by
  obtain ⟨own, line, hown, hscan⟩ := scan_quiet h.scanned
  have htokens : tokensOf source = own ++ [Token.endOfInput line] := by
    rw [tokensOf, hscan]
    simp [List.filterMap_append, List.filterMap_map, Function.comp_def, ScanItem.token?]
  have hspells := spells_of_parse (h.parse s.nextNode).1
  have hown' : (tokensOf source).takeWhile (·.kind != .eof) = own := by
    rw [htokens, List.takeWhile_append_of_pos (by simpa using hown)]
    simp [Token.endOfInput]
  rw [hown'] at hspells
  have hstatements : (s.read source).1 = (parse (tokensOf source) s.nextNode).statements := by
    rw [read_clean h]
  refine ⟨⟨own, line, hown, hscan, by rw [hstatements]; exact hspells⟩, ?_⟩
  rw [resolve_read_clean h, hstatements, ← run?_clean hquiet h, hrun]

theorem Executed.ends (h : Executed steps source s t) (hquiet : s.report.syntaxError = false)
    (hcalm : s.report.runtimeError = false) (hclean : Clean source) :
    s.Failed t ∨ s.Completed t := by
  have hexecution := h.execution
  rw [resolve_read_clean hclean] at hexecution
  have hreport := s.noting_report (parse (tokensOf source) s.nextNode)
  rcases execute?_ends _ hexecution with hsame | ⟨e, hadd⟩
  · rw [hreport] at hsame
    exact .inr ⟨by rw [hsame], by rw [hsame, hquiet], by rw [hsame, hcalm]⟩
  · rw [hreport] at hadd
    refine .inl ⟨⟨e, by rw [hadd]; rfl⟩, ?_, ?_⟩
    · simp [hadd, Report.add, hquiet, RuntimeError.diagnostic, Diagnostic.isRuntime]
    · simp [hadd, Report.add, RuntimeError.diagnostic, Diagnostic.isRuntime]

end Session

/-- Every run that ends has one outcome of three: it is refused, or it is executed and then fails or
completes. With the flag for faults of the text up, nothing is executed. -/
theorem runs_have_one_outcome (s : Session) (steps : Nat) (source : String) :
    (s.report.syntaxError = false → s.report.runtimeError = false →
      ∀ t, s.run? steps source = some t →
        (s.Refused t ∧ ¬s.Failed t ∧ ¬s.Completed t) ∨
        (¬s.Refused t ∧ s.Failed t ∧ ¬s.Completed t ∧ s.Executed steps source t) ∨
        (¬s.Refused t ∧ ¬s.Failed t ∧ s.Completed t ∧ s.Executed steps source t)) ∧
      (s.report.syntaxError = true →
        ∃ t, s.run? steps source = some t ∧ t.machine = s.machine) := by
  constructor
  · intro hquiet hcalm t hrun
    have hdistinct : (s.Refused t → ¬s.Failed t ∧ ¬s.Completed t) ∧
        (s.Failed t → ¬s.Completed t) := by
      refine ⟨fun h => ⟨fun h' => ?_, fun h' => ?_⟩, fun h h' => ?_⟩
      · exact Bool.false_ne_true (h'.syntaxError.symm.trans h.syntaxError)
      · exact Bool.false_ne_true (h'.syntaxError.symm.trans h.syntaxError)
      · exact Bool.false_ne_true (h'.runtimeError.symm.trans h.runtimeError)
    by_cases hclean : Clean source
    · have hexecuted := Session.Executed.of_clean hquiet hclean hrun
      rcases hexecuted.ends hquiet hcalm hclean with hfailed | hcompleted
      · exact .inr (.inl ⟨fun h => (hdistinct.1 h).1 hfailed, hfailed, hdistinct.2 hfailed,
          hexecuted⟩)
      · exact .inr (.inr ⟨fun h => (hdistinct.1 h).2 hcompleted,
          fun h => hdistinct.2 h hcompleted, hcompleted, hexecuted⟩)
    · have hrefused := Session.Refused.of_faulty hquiet hcalm hclean hrun
      exact .inl ⟨hrefused, hdistinct.1 hrefused⟩
  · intro hraised
    refine ⟨(s.read source).2, ?_, by rw [Session.read_eq]⟩
    have hread : (s.read source).2.report.syntaxError = true := by
      rw [Session.read_eq, Report.syntaxError_addAll, Report.syntaxError_addAll, hraised]
      simp
    rw [Session.run?_eq, if_pos hread]

/-- A text with two faults, one with an undefined variable, and one with neither. -/
theorem runs_have_one_outcome_each : ∃ refused failed completed,
    (Session.start (⟨0⟩ : Number)).run? 20 "var a print a; #" = some refused ∧
      (Session.start (⟨0⟩ : Number)).Refused refused ∧
      (Session.start (⟨0⟩ : Number)).run? 20 "print true; print a;" = some failed ∧
      (Session.start (⟨0⟩ : Number)).Failed failed ∧
      (Session.start (⟨0⟩ : Number)).run? 20 "var a = true; print a;" = some completed ∧
      (Session.start (⟨0⟩ : Number)).Completed completed := by
  have hflags : (["var a print a; #", "print true; print a;", "var a = true; print a;"].map
      fun source => ((Session.start (⟨0⟩ : Number)).run? 20 source).map fun t =>
        (t.report.syntaxError, t.report.runtimeError)) =
      [some (true, false), some (false, true), some (false, false)] := by decide +kernel
  simp only [List.map_cons, List.map_nil, List.cons.injEq, Option.map_eq_some_iff, Prod.mk.injEq,
    and_true] at hflags
  obtain ⟨⟨refused, hr, hr₁, -⟩, ⟨failed, hf, hf₁, hf₂⟩, ⟨completed, hc, hc₁, hc₂⟩⟩ := hflags
  refine ⟨refused, failed, completed, hr, ?_, hf, ?_, hc, ?_⟩
  · rcases (runs_have_one_outcome _ 20 _).1 rfl rfl _ hr with ⟨h, -⟩ | ⟨-, h, -⟩ | ⟨-, -, h, -⟩
    · exact h
    · exact absurd (hr₁.symm.trans h.syntaxError) (by decide)
    · exact absurd (hr₁.symm.trans h.syntaxError) (by decide)
  · rcases (runs_have_one_outcome _ 20 _).1 rfl rfl _ hf with ⟨h, -⟩ | ⟨-, h, -⟩ | ⟨-, -, h, -⟩
    · exact absurd (hf₁.symm.trans h.syntaxError) (by decide)
    · exact h
    · exact absurd (hf₂.symm.trans h.runtimeError) (by decide)
  · rcases (runs_have_one_outcome _ 20 _).1 rfl rfl _ hc with ⟨h, -⟩ | ⟨-, h, -⟩ | ⟨-, -, h, -⟩
    · exact absurd (hc₁.symm.trans h.syntaxError) (by decide)
    · exact absurd (hc₂.symm.trans h.runtimeError) (by decide)
    · exact h

end Lox
