import Lox.Proofs.Grammar.Bounds
import Lox.Proofs.Session.Traces
import Lox.Proofs.Session.Wrapping

/-! What can be seen of sessions in which programs have blocks around the bodies of loops.

Whatever is done with two sessions of which one stands for the other, they show the same: each move
comes to an end in both or in neither, and what comes up by then is the same. Only the number of
steps is another one, so what is seen is what is seen after enough of them. -/

namespace Lox

/-- The second program is the first one with blocks around the bodies of loops. -/
structure TokensWrap (tokens tokens' : List Token) : Prop where
  clean : CleanTokens tokens
  clean' : CleanTokens tokens'
  wraps : ∀ next next', Lox.Wraps .spelled true [] (.body (parse tokens next).statements)
    (.body (parse tokens' next').statements)

/-- Tokens have the same statements whatever identities these are given. -/
theorem parse_wraps_self {tokens : List Token} (h : ∀ t ∈ tokens, t.Sound) (next next' : Nat) :
    (parse tokens next').errors = (parse tokens next).errors ∧
      (analyse (parse tokens next').statements).filterMap ScopeNote.error? =
        (analyse (parse tokens next).statements).filterMap ScopeNote.error? ∧
      Lox.Wraps .spelled true [] (.body (parse tokens next).statements)
        (.body (parse tokens next').statements) := by
  obtain ⟨f, last, hp⟩ := parse_renumbered tokens next next'
  have hproper : (parse tokens next).Proper next := parse_proper h next
  rw [hp]
  generalize parse tokens next = p at hproper
  refine ⟨rfl, ?_, ?_⟩
  · rw [analyse_relabel, errors_relabel_ofNodes]
  · refine Stmt.wraps_selves _ _ hproper.wellFormed Layout.open_nil (.inl rfl) ?_
    rw [← Stmt.relabelAll_eq_map, Stmt.relabelAll_relabelAll]
    rfl

namespace Session

/-- What the moves show, if they come to an end. -/
def Shows (s : Session) (moves : List Move) (shown : List Shown) : Prop :=
  ∃ steps, s.shown? steps moves = some shown

/-- After the moves, a text prints these lines to begin with, whether or not it comes to an end. -/
def Prints (s : Session) (moves : List Move) (source : String) (lines : List String) : Prop :=
  ∃ steps shown t, s.trace? steps moves = some (shown, t) ∧
    lines <+: (t.printedAfter steps source).toList

/-- A program prints these lines to begin with, whether or not it comes to an end. -/
def PrintsTokens (s : Session) (tokens : List Token) (lines : List String) : Prop :=
  ∃ steps, lines <+: (s.printedAfterTokens steps tokens).toList

/-- No caller can tell the sessions apart, by a look or by whatever moves. -/
structure SeenAlike (s s' : Session) : Prop where
  look : s'.look.1 = s.look.1
  shows : ∀ (moves : List Move) (shown : List Shown), s'.Shows moves shown ↔ s.Shows moves shown
  prints : ∀ (moves : List Move) (source : String) (lines : List String),
    s'.Prints moves source lines ↔ s.Prints moves source lines

/-- The programs come to an end both or neither, print the same on their way, also if they do not
come to an end, and lead to sessions that no caller can tell apart. -/
structure RunsAlike (s : Session) (tokens tokens' : List Token) : Prop where
  ends : (∃ steps t', s.runTokens? steps tokens' = some t') ↔
    ∃ steps t, s.runTokens? steps tokens = some t
  prints : ∀ lines, s.PrintsTokens tokens' lines ↔ s.PrintsTokens tokens lines
  leaves : ∀ steps steps' t t', s.runTokens? steps tokens = some t →
    s.runTokens? steps' tokens' = some t' → t.SeenAlike t'

variable {w : Tables} {s s' t t' : Session} {tokens tokens' : List Token} {source : String}
  {steps more : Nat} {move : Move} {shown : List Shown}

theorem Wraps.readsAlike_self (h : s.Wraps w s') (hsound : ∀ t ∈ tokens, t.Sound) :
    s.ReadsAlike s' tokens tokens := by
  obtain ⟨herrors, hnotes, hwraps⟩ := parse_wraps_self hsound s.nextNode s'.nextNode
  refine ⟨hsound, hsound, ?_, ?_, hwraps⟩
  · simp only [readTokens, herrors, h.report]
  · simp only [resolve_eq, readTokens, herrors, hnotes, h.report]

theorem Wraps.readsAlike (h : s.Wraps w s') (ht : TokensWrap tokens tokens') :
    s.ReadsAlike s' tokens tokens' := by
  refine ⟨ht.clean.sound, ht.clean'.sound, ?_, ?_, ht.wraps _ _⟩
  · rw [readTokens_clean ht.clean, readTokens_clean ht.clean', h.report]
  · rw [resolve_readTokens_clean ht.clean, resolve_readTokens_clean ht.clean', noting_report,
      noting_report, h.report]

/-- Both sessions report the lexical errors of a text. -/
theorem Wraps.scanned (h : s.Wraps w s') (source : String) :
    (s.scanned source).Wraps w (s'.scanned source) := by
  obtain ⟨hm, hreport, hnext, hnext', hbelow, hbelow'⟩ := h
  refine ⟨hm, ?_, hnext, hnext', hbelow, hbelow'⟩
  rw [Session.scanned, Session.scanned, hreport]

theorem Wraps.readsAlike_text (h : s.Wraps w s') (source : String) :
    (s.scanned source).ReadsAlike (s'.scanned source) (tokensOf source) (tokensOf source) :=
  (h.scanned source).readsAlike_self fun _ ht => scan_sound ht

theorem Wraps.run? (h : s.Wraps w s') (hrun : s.run? steps source = some t) :
    ∃ more t' x, s'.run? more source = some t' ∧ t.Wraps x t' := by
  rw [run?_eq_runTokens?] at hrun
  obtain ⟨more, t', x, hrun', ht⟩ := (h.scanned source).runTokens? (h.readsAlike_text source) hrun
  exact ⟨more, t', x, (run?_eq_runTokens? ..).trans hrun', ht⟩

theorem Wraps.run?_of (h : s.Wraps w s') (hrun : s'.run? steps source = some t') :
    ∃ t x, s.run? steps source = some t ∧ t.Wraps x t' := by
  rw [run?_eq_runTokens?] at hrun
  obtain ⟨t, x, hrun', ht⟩ := (h.scanned source).runTokens?_of (h.readsAlike_text source) hrun
  exact ⟨t, x, (run?_eq_runTokens? ..).trans hrun', ht⟩

theorem printedAfter_eq (steps : Nat) (s : Session) (source : String) :
    s.printedAfter steps source =
      (s.scanned source).printedAfterTokens steps (tokensOf source) := by
  have hread : s.read source = (s.scanned source).readTokens (tokensOf source) := rfl
  have hmachine : (s.scanned source).machine = s.machine := rfl
  rw [printedAfter, printedAfterTokens, course, hread, hmachine]

theorem Wraps.printedAfter (h : s.Wraps w s') (source : String) (steps : Nat) :
    (∃ more, (s.printedAfter steps source).toList <+: (s'.printedAfter more source).toList) ∧
      (s'.printedAfter steps source).toList <+: (s.printedAfter steps source).toList := by
  simp only [printedAfter_eq]
  exact (h.scanned source).printedAfterTokens (h.readsAlike_text source) steps

/-- A caller has taken something out of both sessions or set something in both. -/
theorem Wraps.adjusted (h : s.Wraps w s') (report : Report) {m m' : Machine}
    (hm : ∀ R : Matching, s.machine.Wraps w R [] s'.machine → m.Wraps w R [] m') :
    Wraps w ⟨m, report, s.nextNode⟩ ⟨m', report, s'.nextNode⟩ := by
  obtain ⟨R, hr⟩ := h.machine
  exact ⟨⟨R, hm R hr⟩, rfl, h.next, h.next', h.below, h.below'⟩

theorem Wraps.look (h : s.Wraps w s') : s'.look.1 = s.look.1 ∧ s.look.2.Wraps w s'.look.2 := by
  have hprinted := h.printed
  have hreport := h.report
  constructor
  · simp only [Session.look, takePrinted, takeMessages, hprinted, hreport]
  · have hlook : s'.look.2 =
        ⟨{ s'.machine with printed := #[] }, s.report.take.2, s'.nextNode⟩ := by
      rw [← hreport]
      rfl
    rw [hlook]
    exact h.adjusted s.report.take.2 fun R hm =>
      ⟨hm.heap, hm.environment, hm.depths, hm.depths', rfl, hm.callDepth, hm.maxCallDepth, hm.now⟩

/-- What a move comes to in the one session, it comes to in the other. -/
theorem Wraps.after? (h : s.Wraps w s') (hstep : s.after? steps move = some t) :
    ∃ more t' x, s'.after? more move = some t' ∧ t.Wraps x t' := by
  cases move with
  | run source => exact h.run? hstep
  | resetReport =>
    cases hstep
    refine ⟨0, _, w, rfl, ?_⟩
    rw [resetReport, resetReport, h.report]
    exact h.adjusted _ fun R hm => hm
  | setMaxCallDepth depth =>
    cases hstep
    refine ⟨0, _, w, rfl, ?_⟩
    rw [setMaxCallDepth, setMaxCallDepth, h.report]
    exact h.adjusted _ fun R hm =>
      ⟨hm.heap, hm.environment, hm.depths, hm.depths', hm.printed, hm.callDepth, rfl, hm.now⟩
  | setClock now =>
    cases hstep
    refine ⟨0, _, w, rfl, ?_⟩
    rw [h.report]
    exact h.adjusted _ fun R hm => ⟨hm.heap, hm.environment, hm.depths, hm.depths', hm.printed,
      hm.callDepth, hm.maxCallDepth, rfl⟩

theorem Wraps.after?_of (h : s.Wraps w s') (hstep : s'.after? steps move = some t') :
    ∃ t x, s.after? steps move = some t ∧ t.Wraps x t' := by
  -- What is not a run comes to an end in any number of steps.
  have hother {move : Move} (hends : ∃ t, s.after? steps move = some t)
      (hsame : ∀ more, s'.after? more move = s'.after? steps move)
      (hstep : s'.after? steps move = some t') :
      ∃ t x, s.after? steps move = some t ∧ t.Wraps x t' := by
    obtain ⟨t, ht⟩ := hends
    obtain ⟨more, u, x, hu, hwraps⟩ := h.after? ht
    rw [hsame, hstep] at hu
    cases hu
    exact ⟨t, x, ht, hwraps⟩
  cases move with
  | run source => exact h.run?_of hstep
  | _ => exact hother ⟨_, rfl⟩ (fun _ => rfl) hstep

theorem runTokens?_of_le (hle : steps ≤ more) (h : s.runTokens? steps tokens = some t) :
    s.runTokens? more tokens = some t := by
  rw [runTokens?_eq] at h ⊢
  split at h
  · rename_i hread
    rw [if_pos hread]
    exact h
  · rename_i hread
    rw [if_neg hread]
    split at h
    · rename_i hflag
      rw [if_pos hflag]
      exact h
    · rename_i hflag
      rw [if_neg hflag]
      exact Machine.execute?_of_le hle _ h

theorem after?_of_le (hle : steps ≤ more) (h : s.after? steps move = some t) :
    s.after? more move = some t := by
  cases move with
  | run source =>
    have hrun : s.run? steps source = some t := h
    have hmore : s.run? more source = some t := runTokens?_of_le hle hrun
    exact hmore
  | _ => exact h

/-- More steps change nothing where fewer are enough. -/
theorem trace?_of_le (hle : steps ≤ more) (moves : List Move) : ∀ {s : Session}
    {ended : List Shown × Session}, s.trace? steps moves = some ended →
      s.trace? more moves = some ended := by
  induction moves with
  | nil => exact fun h => h
  | cons move moves ih =>
    intro s ended h
    rw [trace?] at h ⊢
    cases hmove : s.after? steps move with
    | none =>
      rw [hmove] at h
      cases h
    | some t =>
      rw [hmove] at h
      obtain ⟨rest, hrest, rfl⟩ := Option.map_eq_some_iff.mp h
      rw [after?_of_le hle hmove]
      simp only [ih hrest, Option.map_some]

/-- Moves show the same in both sessions, and lead to sessions of which one stands for the other. -/
theorem Wraps.trace? (moves : List Move) : ∀ {w : Tables} {s s' t : Session} {shown : List Shown},
    s.Wraps w s' → s.trace? steps moves = some (shown, t) →
      ∃ more t' x, s'.trace? more moves = some (shown, t') ∧ t.Wraps x t' := by
  induction moves with
  | nil =>
    intro w s s' t shown h htrace
    cases htrace
    exact ⟨0, s', w, rfl, h⟩
  | cons move moves ih =>
    intro w s s' t shown h htrace
    rw [Session.trace?] at htrace
    cases hstep : s.after? steps move with
    | none =>
      rw [hstep] at htrace
      cases htrace
    | some u =>
      rw [hstep] at htrace
      obtain ⟨rest, hrest, heq⟩ := Option.map_eq_some_iff.mp htrace
      obtain ⟨first, u', x, hstep', hu⟩ := h.after? hstep
      obtain ⟨hshown, hleft⟩ := hu.look
      obtain ⟨last, t', y, hrest', ht⟩ := ih hleft hrest
      cases heq
      refine ⟨max first last, t', y, ?_, ht⟩
      rw [Session.trace?, after?_of_le (Nat.le_max_left first last) hstep']
      simp only [trace?_of_le (Nat.le_max_right first last) _ hrest', Option.map_some, hshown]

theorem Wraps.trace?_of (moves : List Move) : ∀ {w : Tables} {s s' t' : Session}
    {shown : List Shown}, s.Wraps w s' → s'.trace? steps moves = some (shown, t') →
      ∃ t x, s.trace? steps moves = some (shown, t) ∧ t.Wraps x t' := by
  induction moves with
  | nil =>
    intro w s s' t' shown h htrace
    cases htrace
    exact ⟨s, w, rfl, h⟩
  | cons move moves ih =>
    intro w s s' t' shown h htrace
    rw [Session.trace?] at htrace ⊢
    cases hstep : s'.after? steps move with
    | none =>
      rw [hstep] at htrace
      cases htrace
    | some u' =>
      rw [hstep] at htrace
      obtain ⟨rest, hrest, heq⟩ := Option.map_eq_some_iff.mp htrace
      obtain ⟨u, x, hstep', hu⟩ := h.after?_of hstep
      obtain ⟨hshown, hleft⟩ := hu.look
      obtain ⟨t, y, hrest', ht⟩ := ih hleft hrest
      cases heq
      rw [hstep']
      exact ⟨t, y, by simp only [hrest', Option.map_some, hshown], ht⟩

theorem printedAfter_mono (hle : steps ≤ more) (s : Session) (source : String) :
    (s.printedAfter steps source).toList <+: (s.printedAfter more source).toList := by
  unfold printedAfter course
  split
  · exact List.prefix_refl _
  · exact Machine.printed_course_of_le hle _ _

/-- Whatever the moves show in the one session, they show in the other. -/
theorem Wraps.shows (h : s.Wraps w s') (moves : List Move) :
    s'.Shows moves shown ↔ s.Shows moves shown := by
  constructor
  · rintro ⟨steps, hshown⟩
    obtain ⟨⟨_, t'⟩, htrace, rfl⟩ := Option.map_eq_some_iff.mp hshown
    obtain ⟨t, x, htrace', -⟩ := Wraps.trace?_of moves h htrace
    exact ⟨steps, by rw [shown?, htrace']; rfl⟩
  · rintro ⟨steps, hshown⟩
    obtain ⟨⟨_, t⟩, htrace, rfl⟩ := Option.map_eq_some_iff.mp hshown
    obtain ⟨more, t', x, htrace', -⟩ := Wraps.trace? moves h htrace
    exact ⟨more, by rw [shown?, htrace']; rfl⟩

/-- Whatever a text prints after some moves in the one session, it prints in the other. -/
theorem Wraps.prints (h : s.Wraps w s') (moves : List Move) {lines : List String} :
    s'.Prints moves source lines ↔ s.Prints moves source lines := by
  constructor
  · rintro ⟨steps, shown, t', htrace, hlines⟩
    obtain ⟨t, x, htrace', ht⟩ := Wraps.trace?_of moves h htrace
    exact ⟨steps, shown, t, htrace', hlines.trans (ht.printedAfter source steps).2⟩
  · rintro ⟨steps, shown, t, htrace, hlines⟩
    obtain ⟨first, t', x, htrace', ht⟩ := Wraps.trace? moves h htrace
    obtain ⟨⟨last, hlast⟩, -⟩ := ht.printedAfter source steps
    refine ⟨max first last, shown, t', trace?_of_le (Nat.le_max_left _ _) _ htrace', ?_⟩
    exact (hlines.trans hlast).trans (printedAfter_mono (Nat.le_max_right _ _) t' source)

/-- Sessions of which one stands for the other cannot be told apart. -/
theorem Wraps.seenAlike (h : s.Wraps w s') : s.SeenAlike s' :=
  ⟨h.look.1, fun moves _ => h.shows moves, fun moves _ _ => h.prints moves⟩

/-- A program and the same with blocks around the bodies of loops run alike. -/
theorem Wraps.runsAlike (h : s.Wraps w s) (ht : TokensWrap tokens tokens') :
    s.RunsAlike tokens tokens' := by
  have hread := h.readsAlike ht
  refine ⟨⟨?_, ?_⟩, fun lines => ⟨?_, ?_⟩, fun steps steps' t t' hrun hrun' => ?_⟩
  · rintro ⟨steps, t', hrun'⟩
    obtain ⟨t, -, hrun, -⟩ := h.runTokens?_of hread hrun'
    exact ⟨steps, t, hrun⟩
  · rintro ⟨steps, t, hrun⟩
    obtain ⟨more, t', -, hrun', -⟩ := h.runTokens? hread hrun
    exact ⟨more, t', hrun'⟩
  · rintro ⟨steps, hlines⟩
    exact ⟨steps, hlines.trans (h.printedAfterTokens hread steps).2⟩
  · rintro ⟨steps, hlines⟩
    obtain ⟨⟨more, hmore⟩, -⟩ := h.printedAfterTokens hread steps
    exact ⟨more, hlines.trans hmore⟩
  · obtain ⟨u, x, hother, hu⟩ := h.runTokens?_of hread hrun'
    have hsame := (runTokens?_of_le (Nat.le_max_left steps steps') hrun).symm.trans
      (runTokens?_of_le (Nat.le_max_right steps steps') hother)
    obtain rfl := Option.some.inj hsame
    exact hu.seenAlike

end Session

end Lox
