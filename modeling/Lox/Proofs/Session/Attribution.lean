import Lox.Proofs.Grammar.Provenance
import Lox.Proofs.Machine.Blame
import Lox.Proofs.Session.History
import Lox.Proofs.Session.Limits
import Lox.Proofs.Token.Positions

/-! What the diagnostics of a run go back to.

Errors of a text are at tokens of that text. A failure is at a token of the code that was being run,
which is code of a text that was accepted earlier if a function or method of it is under way, and
code of the text itself if nothing is called. -/

namespace Lox

/-- A node stands somewhere in a program. -/
def Node.Of (program : List Stmt) (n : Node) : Prop := ∃ Γ, Meets program Γ n

theorem Node.Of.part {program : List Stmt} {n m : Node} (h : n.Of program)
    (hp : ∀ Γ, ∃ Δ, Node.Part Γ n Δ m) : m.Of program :=
  let ⟨Γ, hn⟩ := h
  let ⟨Δ, hpart⟩ := hp Γ
  ⟨Δ, hn.part hpart⟩

theorem Node.Of.tokens {program : List Stmt} {n : Node} (h : n.Of program) :
    n.tokens ⊆ Stmt.tokensOfAll program :=
  let ⟨_, hn⟩ := h
  hn.tokens

theorem Node.Of.beside {program : List Stmt} {n m : Node} (h : n.Of program) (hp : n.Beside m) :
    m.Of program :=
  h.part fun Γ => let ⟨Δ, hpart, _⟩ := hp Γ; ⟨Δ, hpart⟩

section Stacks

variable {program : List Stmt} {programs : List (List Stmt)} {base : List Frame} {c : Config}

/-- Code of some of the programs. -/
def Node.OfAny (programs : List (List Stmt)) (n : Node) : Prop := ∃ p ∈ programs, n.Of p

theorem Known.ofAny {Γ : Place} {n : Node} (h : Known programs Γ n) :
    n.OfAny programs :=
  let ⟨p, hp, hn⟩ := h
  ⟨p, hp, Γ, hn⟩

theorem Node.of_passesOn (program : List Stmt) : PassesOn fun _ n => n.Of program :=
  ⟨fun h hp => h.beside hp⟩

theorem Node.ofAny_passesOn (programs : List (List Stmt)) : PassesOn fun _ n => n.OfAny programs :=
  ⟨fun ⟨p, hp, hn⟩ hpart => ⟨p, hp, hn.beside hpart⟩⟩

/-- What does not depend on the environment can be said in any. -/
theorem Attached.anywhere {P : Node → Prop} {fs : List Frame} {e : EnvironmentId}
    (h : Attached (fun _ => P) base e fs) : ∀ e', Attached (fun _ => P) base e' fs := by
  induction h with
  | base => exact fun _ => .base
  | frame hf hn _ ih => exact fun _ => .frame hf hn (ih _)
  | call _ ih => exact fun e' => .call (ih e')

/-- Outside of all calls, the code is of one program. -/
def Config.OutsideOf (program : List Stmt) (c : Config) : Prop :=
  c.Attached (fun _ n => n.Of program) [] ∨
    ∃ (result : CallResult) (outer : List Frame) (base : ControlState),
      c.LeadsTo (.call result :: outer) base ∧
        ∀ e, Lox.Attached (fun _ n => n.Of program) [] e outer

theorem Machine.enter_leads_call (m : Machine) (fs : List Frame) (f : Closure)
    (arguments : List Value) (result : CallResult) :
    ∃ base, (m.enter fs f arguments result).LeadsTo (.call result :: fs) base :=
  ⟨_, runBlock_leads _ _ _ _⟩

theorem Config.Attached.callers {P : Node → Prop} {callee : Value} {paren : Token}
    {arguments : List Value} (h : c.Attached (fun _ => P) [])
    (ha : c.attempt? = some (callee, paren, arguments)) :
    ∀ e, Lox.Attached (fun _ => P) [] e c.frames.tail := by
  obtain ⟨m, control, fs⟩ := c
  obtain ⟨-, hfs⟩ := h
  cases hfs with
  | base =>
    cases control with
    | done c => cases c <;> cases ha
    | _ => cases ha
  | frame _ _ hfs => exact hfs.anywhere
  | call hfs => exact hfs.anywhere

theorem Config.OutsideOf.step (h : c.OutsideOf program) : c.step.OutsideOf program := by
  rcases h with h | ⟨result, outer, base, hleads, houter⟩
  · by_cases hopens : ∀ e body, c.Opens e body → Node.Of program (.body body)
    · exact .inl (h.step_toEnd (Node.of_passesOn program) hopens)
    · push Not at hopens
      obtain ⟨e, body, hopens, hnot⟩ := hopens
      cases hopens with
      | block =>
        have hblock : Node.Of program (.stmt (.block body)) := h.control
        exact absurd (hblock.part fun Γ => ⟨_, .block⟩) hnot
      | function ha _ hstep =>
        obtain ⟨base, hleads⟩ := Machine.enter_leads_call _ c.frames.tail _ _ _
        exact .inr ⟨_, c.frames.tail, base, hstep ▸ hleads, h.callers ha⟩
      | initializer ha _ hstep =>
        obtain ⟨base, hleads⟩ := Machine.enter_leads_call _ c.frames.tail _ _ _
        exact .inr ⟨_, c.frames.tail, base, hstep ▸ hleads, h.callers ha⟩
  · by_cases hback : ∃ completion, c.control = .done completion ∧ c.frames = .call result :: outer
    · obtain ⟨completion, hdone, hframes⟩ := hback
      obtain ⟨m, control, fs⟩ := c
      obtain rfl : control = .done completion := hdone
      obtain rfl : fs = .call result :: outer := hframes
      cases completion <;> exact .inl ⟨trivial, houter _⟩
    · exact .inr ⟨result, outer, base, hleads.step fun completion hdone hframes =>
        hback ⟨completion, hdone, hframes⟩, houter⟩

/-- While nothing is called, the code is of that program. -/
theorem Config.OutsideOf.attached (h : c.OutsideOf program) (hcalls : Frame.calls c.frames = 0) :
    c.Attached (fun _ n => n.Of program) [] := by
  refine h.resolve_right ?_
  rintro ⟨result, outer, base, ⟨above, hframes, -⟩, -⟩
  rw [hframes, Frame.calls_append] at hcalls
  simp [Frame.calls, Frame.isCall] at hcalls

end Stacks

namespace Activity

variable {o : Origins} {programs : List (List Stmt)} {a : Activity}

/-- Whatever is run is code of an accepted program, and of the last one outside of all calls. -/
def OfPrograms (programs : List (List Stmt)) : Activity → Prop
  | .waiting _ => True
  | .between _ rest => ∃ p ∈ programs.head?, Node.Of p (.body rest)
  | .running c rest _ _ => c.Attached (fun _ n => n.OfAny programs) [] ∧
    ∃ p ∈ programs.head?, c.OutsideOf p ∧ Node.Of p (.body rest)

/-- The bodies of functions and methods are code of accepted programs. -/
theorem Reachable.ofAny_opens {c : Config} {rest : List Stmt} {report : Report} {nextNode : Nat}
    (h : Reachable o programs (.running c rest report nextNode)) {e : EnvironmentId}
    {body : List Stmt} (ho : c.Opens e body) : Node.OfAny programs (.body body) := by
  obtain ⟨hready, hstands, -⟩ := h.invariant
  cases ho with
  | block =>
    obtain ⟨Γ, -, hn, -⟩ := hstands
    exact (hn.part .block).ofAny
  | function _ hf _ =>
    obtain ⟨Γ, kind, hn, -⟩ := hready.kept.remembers.functions _ _ hf
    exact (hn.part .inside).ofAny
  | initializer _ hk _ =>
    obtain ⟨Γ, outer, hn, -⟩ := hready.kept.remembers.method? hk
    exact (hn.part .inside).ofAny

theorem Reachable.ofPrograms (h : Reachable o programs a) : a.OfPrograms programs := by
  induction h with
  | accepted source _ _ _ _ => exact ⟨_, rfl, .top, .top⟩
  | begun _ ih =>
    obtain ⟨p, hp, hbody⟩ := ih
    have hfirst := hbody.part fun Γ => ⟨Γ, .first⟩
    exact ⟨⟨⟨p, List.mem_of_mem_head? hp, hfirst⟩, .base⟩, p, hp, .inl ⟨hfirst, .base⟩,
      hbody.part fun Γ => ⟨_, .rest⟩⟩
  | @step o programs c rest report nextNode h ih =>
    obtain ⟨hany, p, hp, hown, hrest⟩ := ih
    exact ⟨hany.step_toEnd (Node.ofAny_passesOn programs) fun e body ho => h.ofAny_opens ho, p, hp,
      hown.step, hrest⟩
  | completed _ _ ih =>
    obtain ⟨-, p, hp, -, hrest⟩ := ih
    exact ⟨p, hp, hrest⟩
  | _ => exact trivial

theorem goesTo_iterate {c : Config} {rest : List Stmt} {report : Report} {nextNode : Nat}
    (count : Nat) : GoesTo (.running c rest report nextNode)
      (.running (Config.step^[count] c) rest report nextNode) := by
  induction count with
  | zero => exact .refl _
  | succ count ih =>
    rw [Function.iterate_succ_apply']
    exact ih.move .step

/-- A failure of a course is raised on the way. -/
theorem Reachable.raises {steps : Nat} {e : RuntimeError} {report : Report} {nextNode : Nat}
    (rest : List Stmt) : ∀ {o : Origins} {m : Machine},
      Reachable o programs (.between ⟨m, report, nextNode⟩ rest) →
      (m.course steps rest).failure = some e →
      ∃ o' c later, Reachable o' programs (.running c later report nextNode) ∧
        GoesTo (.between ⟨m, report, nextNode⟩ rest) (.running c later report nextNode) ∧
        c.raises? = some e := by
  induction rest with
  | nil => exact fun _ he => nomatch he
  | cons s rest ih =>
    intro o m h he
    have hbegun : GoesTo (.between ⟨m, report, nextNode⟩ (s :: rest))
        (.running ⟨m, .exec s, []⟩ rest report nextNode) := Move.goesTo .begun
    rw [Machine.course] at he
    cases hrun : m.exec? steps s with
    | none =>
      rw [hrun] at he
      cases he
    | some ended =>
      obtain ⟨completion, m'⟩ := ended
      rw [hrun] at he
      have hends := Machine.iterate_of_exec? hrun
      by_cases hfailed : ∃ e', completion = .failed e'
      · obtain ⟨e', rfl⟩ := hfailed
        obtain rfl : e' = e := Option.some.inj he
        obtain ⟨j, -, hraises⟩ := Config.raises?_of_failed (c := ⟨m, .exec s, []⟩) (by simp) steps
          (congrArg Config.control hends)
        obtain ⟨o', h'⟩ := h.begun.steps j
        exact ⟨o', _, _, h', hbegun.trans (goesTo_iterate j), hraises⟩
      · have hcompletion (e' : RuntimeError) : completion ≠ .failed e' :=
          fun heq => hfailed ⟨e', heq⟩
        obtain ⟨o', h'⟩ := h.begun.steps steps
        rw [hends] at h'
        have hnext : GoesTo (.between ⟨m, report, nextNode⟩ (s :: rest))
            (.between ⟨m', report, nextNode⟩ rest) := by
          refine (hbegun.trans (goesTo_iterate steps)).move ?_
          rw [hends]
          exact .completed hcompletion
        have he' : (m'.course steps rest).failure = some e := by
          cases completion with
          | failed e' => exact absurd rfl (hcompletion e')
          | _ => exact he
        obtain ⟨o'', c, later, hreach, hgoes, hraises⟩ := ih (h'.completed hcompletion) he'
        exact ⟨o'', c, later, hreach, hnext.trans hgoes, hraises⟩

end Activity

namespace Session

/-- A text that a session has accepted by the time of a run, the text of the run included, with its
program. -/
inductive Knows (s : Session) (source : String) : String → List Stmt → Prop where
  | own : s.Knows source source (s.read source).1
  | earlier {s' : Session} {text : String} : s'.Reachable →
    Activity.Accepts s' text (.waiting s) → s.Knows source text (s'.read text).1

/-- What a diagnostic of a run goes back to. -/
inductive Accounts (s : Session) (source : String) : Diagnostic → Prop where
  | lexical {line : Nat} {message : String} : 1 ≤ line → line ≤ 1 + source.toList.count '\n' →
    s.Accounts source (.lexical line message)
  | parse {t : Token} {message : String} : t.WrittenIn source →
    s.Accounts source (.parse t message)
  | resolve {t : Token} {message : String} : t.WrittenIn source →
    s.Accounts source (.resolve t message)
  /-- The run has come to the step that raised the error, with the code that the step works at, and
  the text that this code is written in. -/
  | runtime {e : RuntimeError} {c : Config} {rest : List Stmt} {report : Report} {nextNode : Nat}
      {n : Node} {text : String} {program : List Stmt} :
    Activity.GoesTo (.between ((s.read source).2.resolve (s.read source).1) (s.read source).1)
      (.running c rest report nextNode) →
    c.raises? = some e → c.WorksAt n → e.token ∈ n.tokens →
    s.Knows source text program → n.Of program → e.token.WrittenIn text →
    (Frame.calls c.frames = 0 → text = source ∧ program = (s.read source).1) →
    s.Accounts source e.diagnostic

variable {s t : Session} {source : String} {steps : Nat}

/-- The code of a program has tokens of its text. -/
theorem writtenIn_of_node {n : Node} (h : n.Of (s.read source).1) {t : Token}
    (ht : t ∈ n.tokens) : t.WrittenIn source :=
  writtenIn_of_mem (parse_tokens_subset (tokensOf_eof source) s.nextNode (h.tokens ht))

/-- The errors of a text are accounted for. -/
theorem accounts_textErrors (s : Session) (source : String) : ∀ d ∈ TextErrors.diagnostics
      ⟨lexicalErrors source, (parse (tokensOf source) s.nextNode).errors,
        (analyse (s.read source).1).filterMap ScopeNote.error?⟩, s.Accounts source d := by
  refine List.forall_mem_append.mpr ⟨List.forall_mem_append.mpr ⟨?_, ?_⟩, ?_⟩
  · refine List.forall_mem_map.mpr fun e he => ?_
    obtain ⟨hpos, hle⟩ := line_of_lexicalError he
    exact .lexical hpos hle
  · exact List.forall_mem_map.mpr fun e he =>
      .parse (writtenIn_of_mem (parse_error_token_mem (tokensOf_eof source) s.nextNode e he))
  · exact List.forall_mem_map.mpr fun e he => .resolve (writtenIn_of_node (s := s)
      (n := .body (s.read source).1) ⟨.top, .top⟩ (analyse_error_token_mem _ e he))

/-- A failure of a run is accounted for. -/
theorem accounts_failure {o : Origins} {programs : List (List Stmt)}
    (h : Activity.Reachable o programs (.waiting s))
    (hread : (s.read source).2.report.syntaxError = false)
    (hresolve : ((s.read source).2.resolve (s.read source).1).report.syntaxError = false)
    {e : RuntimeError} (he : (s.course steps source).failure = some e) :
    s.Accounts source e.diagnostic := by
  obtain ⟨o', c, later, hreach, hgoes, hraises⟩ := (h.accepted source hread hresolve).raises _ he
  obtain ⟨hany, p, hp, hown, -⟩ := hreach.ofPrograms
  obtain rfl : (s.read source).1 = p := Option.some.inj hp
  by_cases hcalls : Frame.calls c.frames = 0
  · obtain ⟨n, hworks, hn, htoken⟩ :=
      (Config.raises_of_raises? hraises).token (hown.attached hcalls)
    exact .runtime hgoes hraises hworks htoken .own hn (writtenIn_of_node hn htoken)
      fun _ => ⟨rfl, rfl⟩
  · obtain ⟨n, hworks, ⟨p, hp, hn⟩, htoken⟩ := (Config.raises_of_raises? hraises).token hany
    rcases List.mem_cons.mp hp with rfl | hp
    · exact .runtime hgoes hraises hworks htoken .own hn (writtenIn_of_node hn htoken)
        fun hzero => absurd hzero hcalls
    · obtain ⟨s', text, hs', rfl, haccepts⟩ := h.accepts p hp
      exact .runtime hgoes hraises hworks htoken (.earlier hs' haccepts) hn
        (writtenIn_of_node hn htoken) fun hzero => absurd hzero hcalls

/-- Every diagnostic of a run goes back to the text of the run or, if it is of code that was written
earlier, to the text of that code. -/
theorem Reachable.diagnostics_accounted (h : s.Reachable) (hrun : s.run? steps source = some t) :
    ∃ new : List Diagnostic, t.report.diagnostics = s.report.diagnostics ++ new.toArray ∧
      ∀ d ∈ new, s.Accounts source d := by
  obtain ⟨o, programs, h⟩ := h
  have hadded {ds : List Diagnostic} (hd : ∀ d ∈ ds, d.isRuntime = false) :
      (s.report.addAll ds).diagnostics = s.report.diagnostics ++ ds.toArray := by
    rw [Report.addAll_eq ds hd]
  by_cases hread : (s.read source).2.report.syntaxError = true
  · rw [run?_eq, if_pos hread] at hrun
    cases hrun
    refine ⟨_, (congrArg Report.diagnostics (s.report_read source)).trans
      (hadded (TextErrors.isRuntime_diagnostics _)), fun d hd => ?_⟩
    refine accounts_textErrors s source d ?_
    rw [TextErrors.diagnostics_read] at hd
    exact List.mem_append_left _ hd
  by_cases hresolve :
      ((s.read source).2.resolve (s.read source).1).report.syntaxError = true
  · rw [run?_eq, if_neg hread, if_pos hresolve] at hrun
    cases hrun
    exact ⟨_, (congrArg Report.diagnostics (s.report_resolve_read source)).trans
      (hadded (TextErrors.isRuntime_diagnostics _)), accounts_textErrors s source⟩
  · have hread := Bool.eq_false_iff.mpr hread
    have hresolve := Bool.eq_false_iff.mpr hresolve
    obtain ⟨-, -, hreport⟩ := course_of_run? hresolve hrun
    rw [hreport, Course.report]
    cases he : (s.course steps source).failure with
    | none => exact ⟨[], by simp, List.forall_mem_nil _⟩
    | some e =>
      exact ⟨[e.diagnostic], by simp [Report.add],
        List.forall_mem_singleton.mpr (accounts_failure h hread hresolve he)⟩

/-- A function that was declared by an earlier text fails where that text has the variable. -/
theorem diagnostics_accounted_in_a_call : ∃ (s t : Session) (e : RuntimeError), s.Reachable ∧
    s.run? 12 "f();" = some t ∧ t.report.diagnostics = #[e.diagnostic] ∧
    s.Accounts "f();" e.diagnostic ∧ ¬e.token.WrittenIn "f();" := by
  let e : RuntimeError := undefinedVariable ⟨.identifier, "a", none, 2⟩
  have hfirst : ((Session.start (⟨0⟩ : Number)).run? 4 "fun f()\n\x7b a; \x7d").isSome = true := by
    decide +kernel
  have hsecond : (((Session.start (⟨0⟩ : Number)).run? 4 "fun f()\n\x7b a; \x7d").bind
      fun s => (s.run? 12 "f();").map fun t => (s.report.diagnostics, t.report.diagnostics)) =
        some (#[], #[e.diagnostic]) := by decide +kernel
  obtain ⟨s, hs⟩ := Option.isSome_iff_exists.mp hfirst
  rw [hs, Option.bind_some] at hsecond
  obtain ⟨t, ht, hreports⟩ := Option.map_eq_some_iff.mp hsecond
  obtain ⟨hquiet, hreport⟩ := Prod.mk.inj hreports
  have hreachable : s.Reachable := Reachable.run? ⟨_, _, .start (⟨0⟩ : Number)⟩ hs
  obtain ⟨new, hnew, haccounts⟩ := hreachable.diagnostics_accounted ht
  rw [hquiet, hreport] at hnew
  obtain rfl : [e.diagnostic] = new := by simpa using hnew
  refine ⟨s, t, e, hreachable, ht, hreport, haccounts _ (.head _), fun h => ?_⟩
  have hscanned : e.token ∉ tokensOf "f();" := by decide +kernel
  exact hscanned h.scanned

end Session

end Lox
