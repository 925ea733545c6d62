import Lox.Proofs.Machine.Limits
import Lox.Proofs.Session.Renaming

/-! The limit of calls only cuts runs short.

Two sessions that differ in the limit read and analyse a text alike and execute its statements
alike, up to a call that the smaller limit refuses. A run that is not cut short there has the same
outcome under any larger limit; one that is has printed what the other has printed by then. -/

namespace Lox

theorem Course.ended_of_failure {steps : Nat} {e : RuntimeError} (rest : List Stmt) :
    ∀ {m : Machine}, (m.course steps rest).failure = some e → (m.course steps rest).ended = true := by
  induction rest with
  | nil => exact fun _ => rfl
  | cons s rest ih =>
    intro m h
    rw [Machine.course] at h ⊢
    split at h
    · cases h
    · rfl
    · exact ih h

namespace Machine

variable {m : Machine} {s : Stmt} {rest : List Stmt} {steps more limit : Nat}

theorem exec?_eq (m : Machine) (steps : Nat) (s : Stmt) :
    m.exec? steps s = (Config.step^[steps] ⟨m, .exec s, []⟩).ended? := Config.runUpTo_eq _ _

theorem iterate_of_exec? {ended : Completion × Machine} (h : m.exec? steps s = some ended) :
    Config.step^[steps] ⟨m, .exec s, []⟩ = ⟨ended.2, .done ended.1, []⟩ :=
  Config.eq_of_ended? ((m.exec?_eq steps s).symm.trans h)

theorem exec?_of_iterate {m' : Machine} {c : Completion}
    (h : Config.step^[steps] ⟨m, .exec s, []⟩ = ⟨m', .done c, []⟩) :
    m.exec? steps s = some (c, m') := by
  rw [exec?_eq, h]
  rfl

/-- More steps change nothing where fewer are enough. -/
theorem exec?_of_le {ended : Completion × Machine} (h : m.exec? steps s = some ended)
    (hle : steps ≤ more) : m.exec? more s = some ended :=
  exec?_of_iterate (Config.iterate_of_le (iterate_of_exec? h) hle)

theorem course_of_le (hle : steps ≤ more) (rest : List Stmt) : ∀ {m : Machine},
    (m.course steps rest).ended = true → m.course more rest = m.course steps rest := by
  induction rest with
  | nil => exact fun _ => rfl
  | cons s rest ih =>
    intro m h
    rw [course] at h
    rw [course, course]
    cases hrun : m.exec? steps s with
    | none =>
      rw [hrun] at h
      cases h
    | some ended =>
      rw [exec?_of_le hrun hle]
      obtain ⟨completion, m'⟩ := ended
      rw [hrun] at h
      cases completion with
      | failed e => rfl
      | _ => exact ih h

/-- An execution prints behind what was printed before it. -/
theorem printed_course (steps : Nat) (rest : List Stmt) : ∀ m : Machine,
    m.printed.toList <+: (m.course steps rest).printed.toList := by
  induction rest with
  | nil => exact fun m => List.prefix_refl _
  | cons s rest ih =>
    intro m
    have hcut := Config.printed_iterate (c := ⟨m, .exec s, []⟩) (Nat.zero_le steps)
    rw [course]
    cases hrun : m.exec? steps s with
    | none => exact hcut
    | some ended =>
      obtain ⟨completion, m'⟩ := ended
      rw [iterate_of_exec? hrun] at hcut
      cases completion with
      | failed e => exact hcut
      | _ => exact hcut.trans (ih m')

/-- What the first steps of a statement have printed comes first. -/
theorem printed_iterate_course {count : Nat} (hle : count ≤ more) :
    (Config.step^[count] ⟨m, .exec s, []⟩).machine.printed.toList <+:
      (m.course more (s :: rest)).printed.toList := by
  have hcut := Config.printed_iterate (c := ⟨m, .exec s, []⟩) hle
  rw [course]
  cases hrun : m.exec? more s with
  | none => exact hcut
  | some ended =>
    obtain ⟨completion, m'⟩ := ended
    rw [iterate_of_exec? hrun] at hcut
    cases completion with
    | failed e => exact hcut
    | _ => exact hcut.trans (printed_course more rest m')

/-- A statement that does not overflow is executed alike under a larger limit. -/
theorem exec?_withLimit (hle : m.maxCallDepth ≤ limit)
    (hok : ∀ j, (Config.step^[j] ⟨m, .exec s, []⟩).Admitted) (steps : Nat) :
    (m.withLimit limit).exec? steps s =
        (m.exec? steps s).map (fun ended => (ended.1, ended.2.withLimit limit)) ∧
      (Config.step^[steps] ⟨m.withLimit limit, .exec s, []⟩).machine.printed =
        (Config.step^[steps] ⟨m, .exec s, []⟩).machine.printed ∧
      (Config.step^[steps] ⟨m, .exec s, []⟩).machine.maxCallDepth = m.maxCallDepth := by
  obtain ⟨hsame, hmax⟩ := Config.iterate_withLimit (c := ⟨m, .exec s, []⟩) hle steps
    fun j _ => hok j
  have hstart : (⟨m.withLimit limit, .exec s, []⟩ : Config) =
      Config.withLimit ⟨m, .exec s, []⟩ limit := rfl
  rw [exec?_eq, exec?_eq, hstart, hsame]
  exact ⟨Config.ended?_withLimit, rfl, hmax⟩

/-- Some call of an execution is one too many. -/
def Overflows (m : Machine) (rest : List Stmt) : Prop :=
  ∃ steps t, (m.course steps rest).failure = some ⟨t, .stackOverflow⟩

theorem Overflows.of_step {j : Nat} (h : ¬(Config.step^[j] ⟨m, .exec s, []⟩).Admitted) :
    m.Overflows (s :: rest) := by
  obtain ⟨t, hdeep⟩ := Config.not_admitted.mp h
  obtain ⟨count, m', hends, -⟩ := Config.ends_of_tooDeep hdeep
  refine ⟨count, t, ?_⟩
  rw [course, exec?_of_iterate hends]

theorem Overflows.later {m' : Machine} {c : Completion} (hc : ∀ e, c ≠ .failed e)
    (hrun : m.exec? steps s = some (c, m')) (h : m'.Overflows rest) : m.Overflows (s :: rest) := by
  obtain ⟨steps', t, hfailure⟩ := h
  have hended := Course.ended_of_failure rest hfailure
  refine ⟨max steps steps', t, ?_⟩
  rw [course, exec?_of_le hrun (Nat.le_max_left _ _)]
  cases c with
  | failed e => exact absurd rfl (hc e)
  | _ =>
    simp only
    rw [course_of_le (Nat.le_max_right _ _) rest hended, hfailure]

/-- An execution that does not overflow is the same under a larger limit. -/
theorem course_withLimit (report : Report) (nextNode : Nat) (rest : List Stmt) : ∀ {m : Machine},
    m.maxCallDepth ≤ limit → ¬m.Overflows rest → ∀ steps,
      (m.withLimit limit).course steps rest = m.course steps rest ∧
        Session.execute? steps ⟨m.withLimit limit, report, nextNode⟩ rest =
          (Session.execute? steps ⟨m, report, nextNode⟩ rest).map (·.setMaxCallDepth limit) := by
  induction rest with
  | nil => exact fun _ _ _ => ⟨rfl, rfl⟩
  | cons s rest ih =>
    intro m hle hno steps
    have hok (j : Nat) : (Config.step^[j] ⟨m, .exec s, []⟩).Admitted := by
      by_contra hj
      exact hno (.of_step hj)
    obtain ⟨hexec, hcut, hmax⟩ := exec?_withLimit hle hok steps
    rw [course, course, Session.execute?, Session.execute?, hexec, hcut]
    cases hrun : m.exec? steps s with
    | none => exact ⟨rfl, rfl⟩
    | some ended =>
      obtain ⟨completion, m'⟩ := ended
      rw [iterate_of_exec? hrun] at hmax
      have hle' : m'.maxCallDepth ≤ limit := by
        rw [show m'.maxCallDepth = m.maxCallDepth from hmax]
        exact hle
      cases completion with
      | failed e => exact ⟨rfl, rfl⟩
      | _ => exact ih hle' (fun h => hno (h.later (by simp) hrun)) steps

/-- An execution that overflows has printed nothing that a larger limit would not have let it
print by then. -/
theorem printed_of_overflow {t : Token} (hmore : steps ≤ more) (rest : List Stmt) :
    ∀ {m : Machine}, m.maxCallDepth ≤ limit →
      (m.course steps rest).failure = some ⟨t, .stackOverflow⟩ →
      (m.course steps rest).printed.toList <+:
        ((m.withLimit limit).course more rest).printed.toList := by
  induction rest with
  | nil =>
    intro m _ h
    cases h
  | cons s rest ih =>
    intro m hle h
    rw [course] at h
    rw [course]
    cases hrun : m.exec? steps s with
    | none =>
      rw [hrun] at h
      cases h
    | some ended =>
      obtain ⟨completion, m'⟩ := ended
      rw [hrun] at h
      have hends := iterate_of_exec? hrun
      by_cases hfailed : ∃ e, completion = .failed e
      · obtain ⟨e, rfl⟩ := hfailed
        obtain rfl : e = ⟨t, .stackOverflow⟩ := Option.some.inj h
        obtain ⟨first, hfirst, hprinted⟩ :=
          Config.printed_of_overflow (c := ⟨m, .exec s, []⟩) hle (by simp) hends
        simp only at hprinted ⊢
        rw [← hprinted]
        exact printed_iterate_course (hfirst.trans hmore)
      · have hno (t : Token) : completion ≠ .failed ⟨t, .stackOverflow⟩ :=
          fun h => hfailed ⟨_, h⟩
        have hok := Config.fits_of_ended hends hno
        have hmore' := (exec?_withLimit hle hok more).1
        rw [exec?_of_le hrun hmore] at hmore'
        have hmax := (exec?_withLimit hle hok steps).2.2
        rw [hends] at hmax
        have hle' : m'.maxCallDepth ≤ limit := by
          rw [show m'.maxCallDepth = m.maxCallDepth from hmax]
          exact hle
        rw [course, hmore']
        cases completion with
        | failed e => exact absurd ⟨e, rfl⟩ hfailed
        | _ => exact ih hle' h

end Machine

namespace Session

variable {s t : Session} {source : String} {steps more limit : Nat}

/-- What a run has printed after so many steps for each statement, also if it has not ended. -/
def printedAfter (steps : Nat) (s : Session) (source : String) : Array String :=
  if ((s.read source).2.resolve (s.read source).1).report.syntaxError then s.machine.printed
  else (s.course steps source).printed

/-- What a run has reported last is that a call was one too many. -/
def EndsInOverflow (s t : Session) : Prop :=
  ∃ token, t.report.diagnostics = s.report.diagnostics.push (.runtime token "Stack overflow.")

/-- The run of a text ends in an overflow. -/
def Overflows (s : Session) (source : String) : Prop :=
  ∃ steps t, s.run? steps source = some t ∧ s.EndsInOverflow t

theorem not_endsInOverflow {ds : List Diagnostic} (hd : ∀ d ∈ ds, d.isRuntime = false)
    (h : t.report = s.report.addAll ds) : ¬s.EndsInOverflow t := by
  rintro ⟨token, heq⟩
  rw [h, Report.addAll_eq ds hd, Array.push_eq_append, Array.append_right_inj] at heq
  obtain rfl : ds = [.runtime token "Stack overflow."] := by simpa using heq
  exact absurd (hd _ (List.mem_singleton_self _)) (by simp [Diagnostic.isRuntime])

theorem report_read (s : Session) (source : String) :
    (s.read source).2.report = s.report.addAll (TextErrors.diagnostics
      ⟨lexicalErrors source, (parse (tokensOf source) s.nextNode).errors, []⟩) := by
  rw [read_eq, TextErrors.diagnostics_read, Report.addAll_append]

theorem report_resolve_read (s : Session) (source : String) :
    ((s.read source).2.resolve (s.read source).1).report = s.report.addAll (TextErrors.diagnostics
      ⟨lexicalErrors source, (parse (tokensOf source) s.nextNode).errors,
        (analyse (s.read source).1).filterMap ScopeNote.error?⟩) := by
  rw [TextErrors.diagnostics, Report.addAll_append, ← TextErrors.diagnostics_read, ← report_read,
    resolve_eq]

theorem maxCallDepth_resolve_read (s : Session) (source : String) :
    ((s.read source).2.resolve (s.read source).1).machine.maxCallDepth = s.machine.maxCallDepth := by
  rw [resolve_eq, machine_read]

/-- A text at which the flag of faults is up is not executed. -/
theorem run?_of_flagged
    (h : ((s.read source).2.resolve (s.read source).1).report.syntaxError = true) :
    ∃ t, (∀ steps, s.run? steps source = some t) ∧ t.machine.printed = s.machine.printed ∧
      ¬s.EndsInOverflow t := by
  by_cases hread : (s.read source).2.report.syntaxError = true
  · exact ⟨(s.read source).2, fun steps => by rw [run?_eq, if_pos hread],
      by rw [machine_read], not_endsInOverflow (TextErrors.isRuntime_diagnostics _) (s.report_read source)⟩
  · exact ⟨(s.read source).2.resolve (s.read source).1,
      fun steps => by rw [run?_eq, if_neg hread, if_pos h], by rw [resolve_eq, machine_read],
      not_endsInOverflow (TextErrors.isRuntime_diagnostics _) (s.report_resolve_read source)⟩

/-- A text at which no flag of faults is up is executed. -/
theorem run?_of_quiet
    (h : ((s.read source).2.resolve (s.read source).1).report.syntaxError = false) (steps : Nat) :
    s.run? steps source =
        ((s.read source).2.resolve (s.read source).1).execute? steps (s.read source).1 ∧
      ((s.read source).2.resolve (s.read source).1).report = s.report := by
  obtain ⟨hread, -⟩ := resolve_quiet h
  refine ⟨by rw [run?_eq, hread, h, if_neg Bool.false_ne_true, if_neg Bool.false_ne_true], ?_⟩
  rw [report_resolve_read] at h ⊢
  rw [(Report.addAll_quiet h (TextErrors.isRuntime_diagnostics _)).2]
  rfl

/-- A run of a text that is executed ends where its course does. -/
theorem run?_of_course
    (hq : ((s.read source).2.resolve (s.read source).1).report.syntaxError = false) (steps : Nat) :
    ((s.course steps source).ended = false → s.run? steps source = none) ∧
      ((s.course steps source).ended = true → ∃ t, s.run? steps source = some t ∧
        t.machine.printed = (s.course steps source).printed ∧
        t.report = (s.course steps source).report s.report) := by
  obtain ⟨hrun, hreport⟩ := run?_of_quiet hq steps
  rw [hrun, ← hreport, course]
  generalize (s.read source).2.resolve (s.read source).1 = resolved
  exact execute?_course steps resolved.report resolved.nextNode (s.read source).1 resolved.machine

theorem course_of_run?
    (hq : ((s.read source).2.resolve (s.read source).1).report.syntaxError = false)
    (h : s.run? steps source = some t) : (s.course steps source).ended = true ∧
      t.machine.printed = (s.course steps source).printed ∧
      t.report = (s.course steps source).report s.report := by
  obtain ⟨hnone, hsome⟩ := run?_of_course hq steps
  cases hended : (s.course steps source).ended with
  | false => exact nomatch (hnone hended).symm.trans h
  | true =>
    obtain ⟨t', hrun', hprinted, hreport⟩ := hsome hended
    obtain rfl : t = t' := Option.some.inj (h.symm.trans hrun')
    exact ⟨rfl, hprinted, hreport⟩

/-- A run ends in an overflow where a call of its execution is one too many. -/
theorem endsInOverflow_iff {c : Course} (h : t.report = c.report s.report) :
    s.EndsInOverflow t ↔ ∃ token, c.failure = some ⟨token, .stackOverflow⟩ := by
  unfold EndsInOverflow
  rw [h, Course.report]
  cases c.failure with
  | none =>
    refine iff_of_false ?_ (by simp)
    rintro ⟨token, heq⟩
    have hsize := congrArg Array.size heq
    rw [Array.size_push] at hsize
    exact absurd hsize (Nat.ne_of_lt (Nat.lt_succ_self _))
  | some e =>
    obtain ⟨at_, fault⟩ := e
    have hpush (token : Token) : s.report.diagnostics.push (.runtime at_ fault.message) =
        s.report.diagnostics.push (.runtime token "Stack overflow.") ↔
        at_ = token ∧ fault = .stackOverflow := by
      rw [Array.push_inj_right, Diagnostic.runtime.injEq, RuntimeFault.message_eq_overflow]
    simp [Report.add, RuntimeError.diagnostic, hpush]

/-- What a run that has ended has printed. -/
theorem printed_of_run? (h : s.run? steps source = some t) :
    t.machine.printed = s.printedAfter steps source := by
  unfold printedAfter
  split
  · rename_i hflag
    obtain ⟨t', hrun, hprinted, -⟩ := run?_of_flagged hflag
    obtain rfl : t = t' := Option.some.inj (h.symm.trans (hrun steps))
    exact hprinted
  · rename_i hflag
    exact (course_of_run? (Bool.eq_false_iff.mpr hflag) h).2.1

/-- A run that has ended prints no more. -/
theorem printedAfter_of_le (h : s.run? steps source = some t) (hle : steps ≤ more) :
    s.printedAfter more source = s.printedAfter steps source := by
  unfold printedAfter
  split
  · rfl
  · rename_i hflag
    obtain ⟨hended, -⟩ := course_of_run? (Bool.eq_false_iff.mpr hflag) h
    exact congrArg Course.printed (Machine.course_of_le hle _ hended)

/-- Where the execution of a text overflows, its run ends in an overflow. -/
theorem Overflows.of_machine
    (hq : ((s.read source).2.resolve (s.read source).1).report.syntaxError = false)
    (h : ((s.read source).2.resolve (s.read source).1).machine.Overflows (s.read source).1) :
    s.Overflows source := by
  obtain ⟨steps, token, hfailure⟩ := h
  have hended : (s.course steps source).ended = true := Course.ended_of_failure _ hfailure
  obtain ⟨t, hrun, -, hreport⟩ := (run?_of_course hq steps).2 hended
  exact ⟨steps, t, hrun, (endsInOverflow_iff hreport).mpr ⟨token, hfailure⟩⟩

/-- A run that does not end in an overflow is the same under a larger limit: the limit plays no part
before a text is executed, and then none either. -/
theorem run?_of_not_overflows (hle : s.machine.maxCallDepth ≤ limit) (hno : ¬s.Overflows source)
    (steps : Nat) :
    (s.setMaxCallDepth limit).printedAfter steps source = s.printedAfter steps source ∧
      (s.setMaxCallDepth limit).run? steps source =
        (s.run? steps source).map (·.setMaxCallDepth limit) := by
  have hmax := s.maxCallDepth_resolve_read source
  have hover (hq : ((s.read source).2.resolve (s.read source).1).report.syntaxError = false) :
      ¬((s.read source).2.resolve (s.read source).1).machine.Overflows (s.read source).1 :=
    fun h => hno (.of_machine hq h)
  unfold printedAfter course
  rw [run?_eq, run?_eq, read_setMaxCallDepth, resolve_setMaxCallDepth, report_setMaxCallDepth,
    report_setMaxCallDepth]
  generalize (s.read source).2.resolve (s.read source).1 = resolved at hmax hover
  generalize (s.read source).1 = rest at hover
  split
  · exact ⟨rfl, by split <;> rfl⟩
  · rename_i hquiet
    obtain ⟨hcourse, hexecute⟩ := Machine.course_withLimit resolved.report resolved.nextNode rest
      (hmax ▸ hle) (hover (Bool.eq_false_iff.mpr hquiet)) steps
    refine ⟨congrArg Course.printed hcourse, ?_⟩
    split
    · rfl
    · exact hexecute

/-- A run that ends in an overflow has printed what comes first under a larger limit. -/
theorem printed_of_endsInOverflow (hle : s.machine.maxCallDepth ≤ limit)
    (h : s.run? steps source = some t) (hover : s.EndsInOverflow t) (hmore : steps ≤ more) :
    t.machine.printed.toList <+: ((s.setMaxCallDepth limit).printedAfter more source).toList := by
  cases hflag : ((s.read source).2.resolve (s.read source).1).report.syntaxError with
  | true =>
    obtain ⟨t', hrun, -, hno⟩ := run?_of_flagged hflag
    obtain rfl : t = t' := Option.some.inj (h.symm.trans (hrun steps))
    exact absurd hover hno
  | false =>
    obtain ⟨hended, hprinted, hreport⟩ := course_of_run? hflag h
    obtain ⟨token, hfailure⟩ := (endsInOverflow_iff hreport).mp hover
    have hquiet : (((s.setMaxCallDepth limit).read source).2.resolve
      ((s.setMaxCallDepth limit).read source).1).report.syntaxError = false := by
      rw [read_setMaxCallDepth, resolve_setMaxCallDepth, report_setMaxCallDepth, hflag]
    have hmax := s.maxCallDepth_resolve_read source
    rw [hprinted, printedAfter, hquiet, if_neg Bool.false_ne_true, course, course,
      read_setMaxCallDepth, resolve_setMaxCallDepth]
    rw [course] at hfailure
    generalize (s.read source).2.resolve (s.read source).1 = resolved at hmax hfailure ⊢
    generalize (s.read source).1 = rest at hfailure ⊢
    exact Machine.printed_of_overflow hmore rest (hmax ▸ hle) hfailure

/-- The limit of calls only cuts runs short. A run that does not end in an overflow goes the same
way under a larger limit, also if it never ends; one that does has printed what comes first. -/
theorem limit_only_cuts_short (s : Session) (source : String) {n m : Nat} (h : n ≤ m) :
    (¬(s.setMaxCallDepth n).Overflows source → ∀ steps,
      (s.setMaxCallDepth m).printedAfter steps source =
          (s.setMaxCallDepth n).printedAfter steps source ∧
        (s.setMaxCallDepth m).run? steps source =
          ((s.setMaxCallDepth n).run? steps source).map (·.setMaxCallDepth m)) ∧
    ∀ steps t, (s.setMaxCallDepth n).run? steps source = some t →
      (s.setMaxCallDepth n).EndsInOverflow t →
      (∀ more ≥ steps,
        t.machine.printed.toList <+: ((s.setMaxCallDepth m).printedAfter more source).toList) ∧
      ∀ more t', (s.setMaxCallDepth m).run? more source = some t' →
        t.machine.printed.toList <+: t'.machine.printed.toList := by
  refine ⟨fun hno => run?_of_not_overflows (s := s.setMaxCallDepth n) h hno, ?_⟩
  intro steps t hrun hover
  have hcut (more : Nat) (hmore : steps ≤ more) :
      t.machine.printed.toList <+: ((s.setMaxCallDepth m).printedAfter more source).toList :=
    printed_of_endsInOverflow (s := s.setMaxCallDepth n) h hrun hover hmore
  refine ⟨hcut, fun more t' hrun' => ?_⟩
  rw [printed_of_run? hrun', ← printedAfter_of_le hrun' (Nat.le_max_right steps more)]
  exact hcut _ (Nat.le_max_left steps more)

/-- With room for one call a function is cut short where it calls another one, after it has printed
what it prints with room for two. -/
theorem limit_only_cuts_short_in_a_call : 1 ≤ 2 ∧ ∃ (s t t' : Session) (source : String),
    (s.setMaxCallDepth 1).run? 20 source = some t ∧ (s.setMaxCallDepth 1).EndsInOverflow t ∧
      t.machine.printed = #["true"] ∧ (s.setMaxCallDepth 2).run? 20 source = some t' ∧
      t'.machine.printed = #["true", "nil"] ∧ t.machine.printed.toList <+: t'.machine.printed.toList := by
  let source := "fun f() {} fun g() { print true; f(); } g(); print nil;"
  have hshort : (((Session.start (⟨0⟩ : Number)).setMaxCallDepth 1).run? 20 source).map
      (fun t => (t.report.diagnostics, t.machine.printed)) =
      some (#[.runtime ⟨.rightParen, ")", none, 1⟩ "Stack overflow."], #["true"]) := by
    decide +kernel
  have hlong : (((Session.start (⟨0⟩ : Number)).setMaxCallDepth 2).run? 20 source).map
      (fun t => t.machine.printed) = some #["true", "nil"] := by
    decide +kernel
  obtain ⟨t, hrun, hends⟩ := Option.map_eq_some_iff.mp hshort
  obtain ⟨t', hrun', hends'⟩ := Option.map_eq_some_iff.mp hlong
  simp only [Prod.mk.injEq] at hends
  have hover : ((Session.start (⟨0⟩ : Number)).setMaxCallDepth 1).EndsInOverflow t := ⟨_, hends.1⟩
  have hprefix := ((limit_only_cuts_short (Session.start (⟨0⟩ : Number)) source
    (show 1 ≤ 2 by decide)).2 20 t hrun hover).2 20 t' hrun'
  exact ⟨by decide, Session.start (⟨0⟩ : Number), t, t', source, hrun, hover, hends.2, hrun', hends', hprefix⟩

end Session

end Lox
