import Lox.Proofs.Scope.Table
import Lox.Proofs.Token.Concatenation
import Lox.Session

/-! What reading and resolving a text do to a session.

Neither runs anything. Both report their errors, which raise the flag that keeps a program from
running. -/

namespace Lox

namespace Report

theorem syntaxError_addAll (ds : List Diagnostic) : ∀ r : Report,
    (r.addAll ds).syntaxError = (r.syntaxError || ds.any (!·.isRuntime)) := by
  induction ds with
  | nil => intro r; simp [addAll]
  | cons d rest ih =>
    intro r
    rw [addAll, List.foldl_cons, ← addAll, ih]
    simp [add, Bool.or_assoc]

/-- No flag goes up only if there is nothing to report. -/
theorem addAll_quiet {r : Report} {ds : List Diagnostic} (h : (r.addAll ds).syntaxError = false)
    (hd : ∀ d ∈ ds, d.isRuntime = false) : r.syntaxError = false ∧ ds = [] := by
  rw [syntaxError_addAll, Bool.or_eq_false_iff] at h
  refine ⟨h.1, List.eq_nil_iff_forall_not_mem.mpr fun d hm => ?_⟩
  have hany := List.any_eq_false.mp h.2 d hm
  simp [hd d hm] at hany

end Report

theorem accepted_iff (notes : List ScopeNote) :
    Accepted notes ↔ notes.filterMap ScopeNote.error? = [] := by
  rw [List.filterMap_eq_nil_iff]
  refine ⟨fun h note hn => ?_, fun h e he => ?_⟩
  · cases note with
    | error e => exact absurd hn (h e)
    | bound r depth => rfl
  · cases h _ he

namespace Session

theorem read_eq (s : Session) (source : String) :
    s.read source = ((parse (tokensOf source) s.nextNode).statements,
      { s with
        report := (s.report.addAll
          ((lexicalErrors source).map LexicalError.diagnostic)).addAll
            ((parse (tokensOf source) s.nextNode).errors.map ParseError.diagnostic)
        nextNode := (parse (tokensOf source) s.nextNode).nextNode }) := rfl

theorem machine_read (s : Session) (source : String) :
    (s.read source).2.machine = s.machine := by rw [read_eq]

theorem resolve_eq (s : Session) (statements : List Stmt) :
    s.resolve statements =
      { s with
        machine := { s.machine with depths := s.machine.depths.recordAll (analyse statements) }
        report := s.report.addAll
          (((analyse statements).filterMap ScopeNote.error?).map ScopeError.diagnostic) } := rfl

theorem heap_read (s : Session) (source : String) :
    (s.read source).2.machine.heap = s.machine.heap := by rw [machine_read]

theorem heap_resolve_read (s : Session) (source : String) :
    ((s.read source).2.resolve (s.read source).1).machine.heap = s.machine.heap := by
  rw [resolve_eq, machine_read]

theorem report_setMaxCallDepth (s : Session) (limit : Nat) :
    (s.setMaxCallDepth limit).report = s.report := rfl

/-- The limit of calls plays no part in reading and resolving. -/
theorem read_setMaxCallDepth (s : Session) (limit : Nat) (source : String) :
    (s.setMaxCallDepth limit).read source =
      ((s.read source).1, (s.read source).2.setMaxCallDepth limit) := by
  rw [read_eq, read_eq]
  rfl

theorem resolve_setMaxCallDepth (s : Session) (limit : Nat) (statements : List Stmt) :
    (s.setMaxCallDepth limit).resolve statements =
      (s.resolve statements).setMaxCallDepth limit := rfl

theorem run?_eq (steps : Nat) (s : Session) (source : String) : s.run? steps source =
    if (s.read source).2.report.syntaxError then some (s.read source).2
    else if ((s.read source).2.resolve (s.read source).1).report.syntaxError then
      some ((s.read source).2.resolve (s.read source).1)
    else
      ((s.read source).2.resolve (s.read source).1).execute? steps (s.read source).1 := rfl

theorem runTokens?_eq (steps : Nat) (s : Session) (tokens : List Token) :
    s.runTokens? steps tokens =
    if (s.readTokens tokens).2.report.syntaxError then some (s.readTokens tokens).2
    else if ((s.readTokens tokens).2.resolve (s.readTokens tokens).1).report.syntaxError then
      some ((s.readTokens tokens).2.resolve (s.readTokens tokens).1)
    else
      ((s.readTokens tokens).2.resolve (s.readTokens tokens).1).execute? steps
        (s.readTokens tokens).1 := rfl

/-- A text is run as its tokens are, once its lexical errors are reported. -/
theorem run?_eq_runTokens? (steps : Nat) (s : Session) (source : String) :
    s.run? steps source = (s.scanned source).runTokens? steps (tokensOf source) := rfl

theorem read_proper (s : Session) (source : String) :
    (parse (tokensOf source) s.nextNode).Proper s.nextNode :=
  parse_proper (fun _ ht => scan_sound ht) s.nextNode

/-- A program is resolved quietly only if analysis accepts it. -/
theorem resolve_quiet {s : Session} {statements : List Stmt}
    (h : (s.resolve statements).report.syntaxError = false) :
    s.report.syntaxError = false ∧ Accepted (analyse statements) := by
  have hd : ∀ d ∈ ((analyse statements).filterMap ScopeNote.error?).map ScopeError.diagnostic,
      d.isRuntime = false := by
    intro d hm
    obtain ⟨e, -, rfl⟩ := List.mem_map.mp hm
    rfl
  obtain ⟨hr, hn⟩ := Report.addAll_quiet h hd
  exact ⟨hr, (accepted_iff _).mpr (List.map_eq_nil_iff.mp hn)⟩

end Session

end Lox
