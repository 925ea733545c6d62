import Lox.Proofs.Grammar.Bounds
import Lox.Proofs.Session.Freshness

/-! One text after another, or both as one.

The declarations of two texts are the same whether these are read one by one or with a line end
between them, but then both are in the table of depths before the first is executed. Nothing that
the first executes has an identity of the second, so that makes no difference to it. -/

namespace Lox

/-- The statements of a program are the same whatever identities they are given. -/
theorem parse_renumbered (tokens : List Token) (next next' : Nat) : ∃ (f : NodeId → NodeId)
    (last : Nat), parse tokens next' =
      ⟨(parse tokens next).statements.map (Stmt.relabel (.ofNodes f)),
        (parse tokens next).errors, last⟩ := by
  let move (n : NodeId) : NodeId := ⟨next' + (n.index - next)⟩
  have hmove (i : Nat) : (Relabelling.ofNodes move).node ⟨next + i⟩ = ⟨next' + i⟩ := by
    simp [move]
  obtain ⟨used, -, hp⟩ := parse_relabel hmove (closed_eof tokens)
  rw [Token.map_relabel_ofNodes, ParseError.map_relabel_ofNodes, parse_closed, parse_closed] at hp
  exact ⟨move, next' + used, hp⟩

/-- A program that is accepted with identities from one count on is accepted with those from any. -/
theorem accepts_renumbered {tokens : List Token} {next : Nat}
    (hparsed : (parse tokens next).errors = [])
    (hresolved : Accepted (analyse (parse tokens next).statements)) (next' : Nat) :
    (parse tokens next').errors = [] ∧ Accepted (analyse (parse tokens next').statements) := by
  obtain ⟨f, last, hp⟩ := parse_renumbered tokens next next'
  rw [hp]
  refine ⟨hparsed, ?_⟩
  rw [analyse_relabel]
  exact accepted_relabel hresolved

/-- Tokens as a scanner gives them, of a program that is accepted. -/
structure CleanTokens (tokens : List Token) : Prop where
  sound : ∀ t ∈ tokens, t.Sound
  parsed : (parse tokens 0).errors = []
  resolved : Accepted (analyse (parse tokens 0).statements)

theorem CleanTokens.parse {tokens : List Token} (h : CleanTokens tokens) (next : Nat) :
    (Lox.parse tokens next).errors = [] ∧
      Accepted (analyse (Lox.parse tokens next).statements) :=
  accepts_renumbered h.parsed h.resolved next

/-- A text that is scanned, read and analysed without an error. Reading starts from the identity
zero here; that it may start from any is `Clean.parse`. -/
structure Clean (source : String) : Prop where
  scanned : lexicalErrors source = []
  parsed : (parse (tokensOf source) 0).errors = []
  resolved : Accepted (analyse (parse (tokensOf source) 0).statements)

namespace Clean

variable {source : String}

theorem tokens (h : Clean source) : CleanTokens (tokensOf source) :=
  ⟨fun _ ht => scan_sound ht, h.parsed, h.resolved⟩

theorem parse (h : Clean source) (next : Nat) :
    (Lox.parse (tokensOf source) next).errors = [] ∧
      Accepted (analyse (Lox.parse (tokensOf source) next).statements) :=
  h.tokens.parse next

/-- If a text is clean from one counter on, it is so from any. -/
theorem of_parse {next : Nat} (hscan : lexicalErrors source = [])
    (hparse : (Lox.parse (tokensOf source) next).errors = [])
    (hresolve : Accepted (analyse (Lox.parse (tokensOf source) next).statements)) :
    Clean source := by
  obtain ⟨hparsed, hresolved⟩ := accepts_renumbered hparse hresolve 0
  exact ⟨hscan, hparsed, hresolved⟩

/-- On other lines a text is as clean as it was. -/
theorem lowered (h : Clean source) (count : Nat) : Clean (Lox.lowered count source) := by
  have hsame : ∀ i, (Relabelling.down count).node ⟨0 + i⟩ = ⟨0 + i⟩ := fun _ => rfl
  obtain ⟨used, -, hp⟩ := parse_relabel hsame (tokensOf_eof source)
  refine ⟨lexicalErrors_lowered h.scanned, ?_, ?_⟩
  · rw [tokensOf_lowered, hp]
    simp [h.parsed]
  · rw [tokensOf_lowered, hp, analyse_relabel]
    exact accepted_relabel h.resolved

/-- What two clean texts become when they are read as one. -/
theorem parse_append {first second : String} (h : Clean first) (h' : Clean second) (next : Nat) :
    Lox.parse (tokensOf (first ++ "\n" ++ second)) next =
      let own := Lox.parse (tokensOf first) next
      let rest := Lox.parse (tokensOf (Lox.lowered (linesAbove first) second)) own.nextNode
      ⟨own.statements ++ rest.statements, [], rest.nextNode⟩ := by
  obtain ⟨own, line, hown, hfirst, hboth, -⟩ := tokensOf_append h.scanned second
  rw [hboth, hfirst]
  exact Lox.parse_append hown (hfirst ▸ (h.parse next).1) ((h'.lowered _).parse _).1

theorem append {first second : String} (h : Clean first) (h' : Clean second) :
    Clean (first ++ "\n" ++ second) := by
  obtain ⟨own, line, -, -, -, herrors⟩ := tokensOf_append h.scanned second
  have hparse := h.parse_append h' 0
  refine ⟨herrors.trans (h'.lowered _).scanned, by rw [hparse], ?_⟩
  rw [hparse, analyse_append, accepted_append]
  exact ⟨h.resolved, ((h'.lowered _).parse _).2⟩

end Clean

namespace Session

variable {s t : Session} {steps : Nat} {source : String}

theorem readTokens_clean {tokens : List Token} (h : CleanTokens tokens) : s.readTokens tokens =
    ((parse tokens s.nextNode).statements,
      { s with nextNode := (parse tokens s.nextNode).nextNode }) := by
  rw [readTokens, (h.parse _).1]
  rfl

theorem resolve_readTokens_clean {tokens : List Token} (h : CleanTokens tokens) :
    (s.readTokens tokens).2.resolve (s.readTokens tokens).1 =
      s.noting (parse tokens s.nextNode) := by
  rw [readTokens_clean h, resolve, (accepted_iff _).mp (h.parse _).2]
  rfl

theorem scanned_clean (h : Clean source) : s.scanned source = s := by
  have herrors : (scan source).filterMap ScanItem.error? = [] := h.scanned
  rw [scanned, herrors]
  rfl

/-- A clean text is run as its tokens are. -/
theorem run?_eq_of_clean (h : Clean source) (steps : Nat) (s : Session) :
    s.run? steps source = s.runTokens? steps (tokensOf source) := by
  rw [run?_eq_runTokens?, scanned_clean h]

/-- A clean text leaves no trace in the report. -/
theorem read_clean (h : Clean source) : s.read source =
    ((parse (tokensOf source) s.nextNode).statements,
      { s with nextNode := (parse (tokensOf source) s.nextNode).nextNode }) := by
  have hread : s.read source = (s.scanned source).readTokens (tokensOf source) := rfl
  rw [hread, scanned_clean h, readTokens_clean h.tokens]

theorem resolve_read_clean (h : Clean source) :
    (s.read source).2.resolve (s.read source).1 =
      s.noting (parse (tokensOf source) s.nextNode) := by
  have hread : s.read source = (s.scanned source).readTokens (tokensOf source) := rfl
  rw [hread, scanned_clean h, resolve_readTokens_clean h.tokens]

theorem runTokens?_clean {tokens : List Token} (hs : s.report.syntaxError = false)
    (h : CleanTokens tokens) : s.runTokens? steps tokens =
      (s.noting (parse tokens s.nextNode)).execute? steps (parse tokens s.nextNode).statements := by
  have hreport : (s.noting (parse tokens s.nextNode)).report.syntaxError = false := hs
  rw [runTokens?_eq, resolve_readTokens_clean h, readTokens_clean h]
  simp only [hs, hreport, Bool.false_eq_true, if_false]

theorem run?_clean (hs : s.report.syntaxError = false) (h : Clean source) :
    s.run? steps source = (s.noting (parse (tokensOf source) s.nextNode)).execute? steps
      (parse (tokensOf source) s.nextNode).statements := by
  rw [run?_eq_of_clean h, runTokens?_clean hs h.tokens]

theorem noting_append (p q : Parsed) (errors : List ParseError) :
    s.noting ⟨p.statements ++ q.statements, errors, q.nextNode⟩ = (s.noting p).noting q := by
  rw [noting, analyse_append, Depths.recordAll_append]
  rfl

/-- Both texts are read before either is executed. -/
theorem run?_append (hs : s.report.syntaxError = false) {first second : String}
    (h : Clean first) (h' : Clean second) {p q : Parsed}
    (hp : parse (tokensOf first) s.nextNode = p)
    (hq : parse (tokensOf (lowered (linesAbove first) second)) p.nextNode = q) :
    s.run? steps (first ++ "\n" ++ second) =
      ((s.noting p).noting q).execute? steps (p.statements ++ q.statements) := by
  rw [run?_clean hs (h.append h'), h.parse_append h' s.nextNode]
  simp only [hp, hq, noting_append]

/-- Statements behind others are executed if no failure ended the run before. -/
theorem execute?_append (steps : Nat) (first second : List Stmt) : ∀ {s : Session},
    s.report.runtimeError = false →
    s.execute? steps (first ++ second) =
      (s.execute? steps first).bind fun t =>
        if t.report.runtimeError then some t else t.execute? steps second := by
  induction first with
  | nil =>
    intro s hs
    simp [execute?, hs]
  | cons x rest ih =>
    rintro ⟨m, report, nextNode⟩ hs
    rw [List.cons_append, execute?, execute?]
    rcases m.exec? steps x with _ | ⟨c, m'⟩
    · rfl
    · cases c with
      | failed e => simp [Report.add, RuntimeError.diagnostic, Diagnostic.isRuntime]
      | _ => exact ih hs

/-- Execution reports nothing, or the one error that ends it. -/
theorem execute?_ends (ss : List Stmt) : ∀ {s t : Session}, s.execute? steps ss = some t →
    t.report = s.report ∨ ∃ e : RuntimeError, t.report = s.report.add e.diagnostic := by
  induction ss with
  | nil =>
    intro s t h
    cases h
    exact .inl rfl
  | cons x rest ih =>
    rintro ⟨m, report, nextNode⟩ t h
    rw [execute?] at h
    split at h
    · cases h
    · rename_i e m' _
      cases h
      exact .inr ⟨e, rfl⟩
    · rename_i m' _ _
      exact ih (s := ⟨m', report, nextNode⟩) h

/-- Only a failure changes the report, and it raises the flag. -/
theorem execute?_report (ss : List Stmt) {s t : Session} (h : s.execute? steps ss = some t) :
    t.report = s.report ∨ t.report.runtimeError = true := by
  rcases execute?_ends ss h with hsame | ⟨e, hadd⟩
  · exact .inl hsame
  · exact .inr (by simp [hadd, Report.add, RuntimeError.diagnostic, Diagnostic.isRuntime])

end Session

/-- The statements of a clean text are executed next. -/
theorem Activity.Reachable.clean {s : Session} {source : String} {o : Origins}
    {programs : List (List Stmt)} (hr : Activity.Reachable o programs (.waiting s))
    (hs : s.report.syntaxError = false) (h : Clean source) :
    Activity.Reachable o ((parse (tokensOf source) s.nextNode).statements :: programs)
      (.between (s.noting (parse (tokensOf source) s.nextNode))
        (parse (tokensOf source) s.nextNode).statements) := by
  have hread := Session.read_clean (s := s) h
  have hresolve := Session.resolve_read_clean (s := s) h
  have hgo := hr.accepted source (by rw [hread]; exact hs) (by rw [hresolve]; exact hs)
  rwa [hresolve, hread] at hgo

/-- Statements of a text that was read later follow those that do not know of it. -/
theorem Activity.Reachable.execute?_both {o : Origins} {programs : List (List Stmt)} {s : Session}
    {ss : List Stmt} (h : Activity.Reachable o programs (.between s ss)) {p : Parsed}
    (hp : p.Proper s.nextNode) (hcalm : s.report.runtimeError = false) (steps : Nat) :
    (s.noting p).execute? steps (ss ++ p.statements) =
      (s.execute? steps ss).bind fun t =>
        if t.report.runtimeError then some (t.noting p)
        else (t.noting p).execute? steps p.statements := by
  have happend := Session.execute?_append steps ss p.statements (s := s.noting p) hcalm
  rw [happend, h.execute?_noting hp]
  cases s.execute? steps ss <;> rfl

/-- What running two clean texts in one run comes to, from what running the first came to. -/
def Session.AgreesWith (steps : Nat) (rest : String) (t : Session) (both : Option Session) : Prop :=
  if t.report.runtimeError then
    ∃ t', both = some t' ∧ t'.machine.printed = t.machine.printed ∧ t'.report = t.report ∧
      t.BehavesAs t'
  else both = t.run? steps rest

theorem Session.AgreesWith.of_calm {steps : Nat} {rest : String} {t : Session}
    {both : Option Session} (h : t.AgreesWith steps rest both)
    (ht : t.report.runtimeError = false) : both = t.run? steps rest := by
  rwa [AgreesWith, ht, if_neg Bool.false_ne_true] at h

/-- Two clean texts in one run do what they do in two runs. If the first does not end, neither do
both; if it fails, then both do what the first does alone; else the run of both is the second run,
of the second text on the lines that it has below the first. -/
theorem batch_agrees {s : Session} (hs : s.Reachable) (hquiet : s.report.syntaxError = false)
    (hcalm : s.report.runtimeError = false) {first second : String} (hfirst : Clean first)
    (hsecond : Clean second) (steps : Nat) :
    (s.run? steps first = none → s.run? steps (first ++ "\n" ++ second) = none) ∧
      ∀ t, s.run? steps first = some t →
        t.AgreesWith steps (lowered (linesAbove first) second)
          (s.run? steps (first ++ "\n" ++ second)) := by
  obtain ⟨o, programs, hwaiting⟩ := hs
  have hbetween := hwaiting.clean hquiet hfirst
  rw [Session.run?_append hquiet hfirst hsecond rfl rfl, Session.run?_clean hquiet hfirst]
  generalize parse (tokensOf first) s.nextNode = p at hbetween ⊢
  have hproper := (s.noting p).read_proper (lowered (linesAbove first) second)
  rw [show (s.noting p).nextNode = p.nextNode from rfl] at hproper
  generalize hq : parse (tokensOf (lowered (linesAbove first) second)) p.nextNode = q at hproper ⊢
  rw [hbetween.execute?_both hproper hcalm steps]
  refine ⟨fun hnone => by rw [hnone, Option.bind_none], fun t ht => ?_⟩
  obtain ⟨o', hdone⟩ := hbetween.execute? ht
  have hnext : t.nextNode = p.nextNode := (Session.execute?_table _ ht).2
  rw [← hnext] at hproper hq
  rw [ht, Option.bind_some, Session.AgreesWith]
  by_cases hfailed : t.report.runtimeError = true
  · -- The second text has left depths for its own identities, which no later text is given.
    rw [if_pos hfailed, if_pos hfailed]
    obtain ⟨count, -, hrenames⟩ := hproper.renames hdone.invariant.1
    exact ⟨_, rfl, t.noting_printed q, t.noting_report q,
      hrenames.behavesAs (shift_injective _ _)⟩
  · rw [if_neg hfailed, if_neg hfailed]
    have hreport : t.report = s.report := (Session.execute?_report _ ht).resolve_right hfailed
    rw [Session.run?_clean (hreport ▸ hquiet) (hsecond.lowered (linesAbove first)), hq]

/-- A function of the first text is called in the second one. -/
theorem batch_agrees_on_a_call :
    ∃ t t', (Session.start (⟨0⟩ : Number)).run? 20 "fun f() { return true; }" = some t ∧
      t.report.runtimeError = false ∧
      t.run? 20 (lowered (linesAbove "fun f() { return true; }") "print f();") = some t' ∧
      (Session.start (⟨0⟩ : Number)).run? 20 ("fun f() { return true; }" ++ "\n" ++ "print f();") = some t' ∧
      t'.machine.printed = #["true"] := by
  have hclean : ∀ source ∈ ["fun f() { return true; }", "print f();"],
      lexicalErrors source = [] ∧ (parse (tokensOf source) 0).errors = [] ∧
        (analyse (parse (tokensOf source) 0).statements).filterMap ScopeNote.error? = [] := by
    decide +kernel
  have hfirst := hclean _ (.head _)
  have hsecond := hclean _ (.tail _ (.head _))
  have hcalm : ((Session.start (⟨0⟩ : Number)).run? 20 "fun f() { return true; }").map
      (·.report.runtimeError) = some false := by decide +kernel
  have hprinted : ((Session.start (⟨0⟩ : Number)).run? 20
      ("fun f() { return true; }" ++ "\n" ++ "print f();")).map (·.machine.printed) =
        some #["true"] := by decide +kernel
  obtain ⟨t, ht, hcalm⟩ := Option.map_eq_some_iff.mp hcalm
  obtain ⟨t', ht', hprinted⟩ := Option.map_eq_some_iff.mp hprinted
  have hagrees := (batch_agrees ⟨_, _, .start (⟨0⟩ : Number)⟩ rfl rfl
    ⟨hfirst.1, hfirst.2.1, (accepted_iff _).mpr hfirst.2.2⟩
    ⟨hsecond.1, hsecond.2.1, (accepted_iff _).mpr hsecond.2.2⟩ 20).2 t ht
  exact ⟨t, t', ht, hcalm, (hagrees.of_calm hcalm).symm.trans ht', ht', hprinted⟩

end Lox
