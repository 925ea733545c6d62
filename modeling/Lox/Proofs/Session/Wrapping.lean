import Lox.Proofs.Machine.Wrapping
import Lox.Proofs.Session.Batches
import Lox.Proofs.Session.Limits

/-! Sessions in which programs have blocks around the bodies of loops.

Every session stands for itself in this way. Two sessions of which one stands for the other read a
text with other identities but no other errors, and execute its statements in steps that follow each
other; so they stand for each other again after a run, and print the same on their way. -/

namespace Lox

/-- Tables of later on. What was drawn before is noted in them as it was. -/
structure Tables.Grows (w x : Tables) : Prop where
  next : w.next ≤ x.next
  next' : w.next' ≤ x.next'
  depths : ∀ n : NodeId, n.index < w.next → x.depths.get? n = w.depths.get? n
  depths' : ∀ n : NodeId, n.index < w.next' → x.depths'.get? n = w.depths'.get? n

/-- The tables when both sessions have analysed their programs. -/
def Tables.noting (w : Tables) (p p' : Parsed) : Tables :=
  ⟨w.depths.recordAll (analyse p.statements), p.nextNode,
    w.depths'.recordAll (analyse p'.statements), p'.nextNode⟩

section Growth

variable {w x : Tables} {R : Matching} {k : Bool} {p inner : Layout}

theorem Tables.Linked.grown {r r' : Reference} (h : w.Linked p r r') (hw : w.Grows x) :
    x.Linked p r r' := by
  refine ⟨h.name, Nat.lt_of_lt_of_le h.below hw.next, Nat.lt_of_lt_of_le h.below' hw.next', ?_⟩
  rw [hw.depths _ h.below, hw.depths' _ h.below', h.depth]

theorem Wraps.grown {y y' : Piece} (h : Wraps w.links k p y y') (hw : w.Grows x) :
    Wraps x.links k p y y' := by
  have hname (p : Layout) (r r' : Reference) (hr : w.Linked p r r') : x.Linked p r r' := hr.grown hw
  refine h.mono hname ?_
  rintro p r r' ⟨hr, depth, hdepth, hlift⟩
  exact ⟨hr.grown hw, depth, by rw [hw.depths _ hr.below, hdepth], hlift⟩

theorem Closure.Wraps.grown {f f' : Closure} (hf : f.Wraps w R inner f') (hw : w.Grows x) :
    f.Wraps x R inner f' := by
  obtain ⟨hinit, p, kind, hp, hr, hdecl⟩ := hf
  exact ⟨hinit, p, kind, hp, hr, hdecl.grown hw⟩

theorem Class.Wraps.grown {c c' : Class} (hc : c.Wraps w R c') (hw : w.Grows x) :
    c.Wraps x R c' :=
  ⟨hc.name, hc.superclass, fun y => rel_mono (fun _ _ hf => hf.grown hw) (hc.methods y)⟩

theorem Heap.Wraps.grown {h h' : Heap} (hh : h.Wraps w R h') (hw : w.Grows x) : h.Wraps x R h' :=
  ⟨hh.environments, hh.functions.imp fun _ _ hf => hf.grown hw,
    hh.classes.imp fun _ _ hc => hc.grown hw, hh.objects⟩

theorem Machine.Wraps.tabled {m m' : Machine} (hm : m.Wraps w R p m') (hw : w.Grows x) :
    { m with depths := x.depths }.Wraps x R p { m' with depths := x.depths' } :=
  ⟨hm.heap.grown hw, hm.environment, rfl, rfl, hm.printed, hm.callDepth, hm.maxCallDepth, hm.now⟩

end Growth

namespace Session

/-- In the second session some programs that were run had blocks around the bodies of loops. -/
structure Wraps (w : Tables) (s s' : Session) : Prop where
  machine : ∃ R : Matching, s.machine.Wraps w R [] s'.machine
  report : s'.report = s.report
  next : s.nextNode = w.next
  next' : s'.nextNode = w.next'
  below : w.depths.Below w.next
  below' : w.depths'.Below w.next'

variable {w x : Tables} {s s' t t' : Session} {source source' : String} {steps : Nat}

namespace Wraps

theorem grown (h : s.Wraps w s') (hx : w.Grows x) (hb : x.depths.Below x.next)
    (hb' : x.depths'.Below x.next') (report : Report) :
    Wraps x ⟨{ s.machine with depths := x.depths }, report, x.next⟩
      ⟨{ s'.machine with depths := x.depths' }, report, x.next'⟩ := by
  obtain ⟨R, hm⟩ := h.machine
  exact ⟨⟨R, hm.tabled hx⟩, rfl, rfl, rfl, hb, hb'⟩

/-- Both sessions have read a text. -/
theorem drawn (h : s.Wraps w s') {next next' : Nat} (hn : w.next ≤ next) (hn' : w.next' ≤ next')
    (report : Report) : Wraps ⟨w.depths, next, w.depths', next'⟩ ⟨s.machine, report, next⟩
      ⟨s'.machine, report, next'⟩ := by
  have hgrows : w.Grows ⟨w.depths, next, w.depths', next'⟩ :=
    ⟨hn, hn', fun _ _ => rfl, fun _ _ => rfl⟩
  have hwraps := h.grown hgrows (fun n hle => h.below n (Nat.le_trans hn hle))
    (fun n hle => h.below' n (Nat.le_trans hn' hle)) report
  obtain ⟨R, hm⟩ := h.machine
  rwa [← hm.depths, ← hm.depths'] at hwraps ⊢

section

variable {p p' : Parsed} (hp : p.Proper w.next) (hp' : p'.Proper w.next')

include hp hp'

theorem noting (h : s.Wraps w s') (report : Report) : Wraps (w.noting p p')
    ⟨(s.noting p).machine, report, p.nextNode⟩ ⟨(s'.noting p').machine, report, p'.nextNode⟩ := by
  obtain ⟨hbelow, hsame, -⟩ := Depths.recordAll_analyse hp.drawn h.below hp.nextNode
  obtain ⟨hbelow', hsame', -⟩ := Depths.recordAll_analyse hp'.drawn h.below' hp'.nextNode
  have hgrows : w.Grows (w.noting p p') := ⟨hp.nextNode, hp'.nextNode, hsame, hsame'⟩
  obtain ⟨R, hm⟩ := h.machine
  rw [Session.noting, Session.noting, hm.depths, hm.depths']
  exact h.grown hgrows hbelow hbelow' report

/-- In programs that are accepted, what is spelled alike is bound alike. -/
theorem linked (h : s.Wraps w s') (ha : Accepted (analyse p.statements))
    (hw : Lox.Wraps .spelled true [] (.body p.statements) (.body p'.statements)) :
    Lox.Wraps (w.noting p p').links true [] (.body p.statements) (.body p'.statements) := by
  have ha' : Accepted (analyse p'.statements) := hw.accepted (.refl .topLevel) ha
  have hplaced {d : Depths} {next : Nat} {p : Parsed} (hb : d.Below next) (hp : p.Proper next)
      (ha : Accepted (analyse p.statements)) : (Node.body p.statements).Placed
        (d.recordAll (analyse p.statements)) p.nextNode .top :=
    ⟨Meets.top.standing hp.wellFormed ((Depths.recordAll_analyse hp.drawn hb hp.nextNode).2.2 ha),
      fun n hn => (hp.drawn.range n hn).2⟩
  have htop : Place.top.Wraps [] .top := ⟨rfl, rfl, fun _ => Layout.open_nil⟩
  exact hw.linked htop (hplaced h.below hp ha) (hplaced h.below' hp' ha')

end

end Wraps

end Session

section Itself

/-- The scopes of a place, all of them there in both programs. -/
def Layout.ofOpens (opens : List OpenScope) : Layout := opens.map fun _ => .shared

theorem Layout.ofOpens_shared (opens : List OpenScope) :
    ∀ layer ∈ ofOpens opens, layer = .shared := by
  simp [ofOpens]

theorem Layout.open_ofOpens (opens : List OpenScope) : (ofOpens opens).Open := by
  cases opens with
  | nil => exact open_nil
  | cons scope opens => exact open_shared _

/-- Every environment stands for itself, at the places that it was made for. -/
def Origins.same (o : Origins) : Matching :=
  fun e e' p => e' = e ∧ ∃ opens, Chain o e opens ∧ p = .ofOpens opens

variable {o : Origins} {h : Heap} {programs : List (List Stmt)} {m : Machine} {nextNode : Nat}

theorem Chain.same {e : EnvironmentId} {opens : List OpenScope} (hc : Chain o e opens) :
    o.same e e (.ofOpens opens) := ⟨rfl, opens, hc, rfl⟩

theorem Origins.Faithful.outer? (hf : o.Faithful h) {e out : EnvironmentId} {scope : OpenScope}
    (he : o.of? e = some ⟨scope, some out⟩) : h.outer? e = some out := by
  obtain ⟨env, henv, hout⟩ := Option.map_eq_some_iff.mp (hf.outer e _ he)
  rw [Heap.outer?, henv]
  exact hout

theorem Origins.Faithful.matches_same (hf : o.Faithful h) (hr : o.Rooted) :
    h.Matches o.same h := by
  obtain ⟨binders, hroot⟩ := id hr
  have houtermost := hf.outer _ _ hroot
  refine ⟨Chain.globals.same, houtermost, houtermost, ?_, ?_, ?_, ?_, ?_⟩
  · rintro e e' ⟨rfl, opens, hc, hp⟩
    obtain rfl : opens = [] := List.map_eq_nil_iff.mp hp.symm
    exact ⟨hc.eq_globals, hc.eq_globals⟩
  · rintro e e' p ⟨rfl, opens, hc, hp⟩
    cases hc with
    | globals => cases hp
    | nested he _ _ hrest =>
      obtain ⟨-, rfl⟩ := List.cons.inj hp
      exact ⟨_, _, hf.outer? he, hf.outer? he, hrest.same⟩
  · rintro e e' p ⟨rfl, opens, -, hp⟩
    cases Layout.ofOpens_shared opens _ (hp ▸ List.mem_cons_self)
  · rintro e e' ⟨p, -, rfl, opens, hc, -⟩
    have hlt := hc.index_lt hr
    rw [hf.size] at hlt
    have hget : h.environment? e' = some h.environments[e'.index] := Array.getElem?_eq_getElem hlt
    exact ⟨_, _, hget, hget, rfl⟩
  · rintro e e' i i' ⟨p, -, rfl, -⟩ ⟨q, -, rfl, -⟩
    exact Iff.rfl

/-- A function of an accepted program is the same in both. -/
theorem Machine.Ready.wraps_callable (hm : m.Ready programs o nextNode) {Γ : Place}
    {kind : FunctionContext} {f : FunctionDecl} (hn : Known programs Γ (.callable kind f)) :
    Lox.Wraps (Tables.links ⟨m.depths, nextNode, m.depths, nextNode⟩) true (.ofOpens Γ.opens)
      (.callable kind f) (.callable kind f) := by
  have hΓ : Γ.Wraps (.ofOpens Γ.opens) Γ :=
    ⟨(Layout.spread_shared (Layout.ofOpens_shared _) _).symm, rfl, fun _ => Layout.open_ofOpens _⟩
  have hplaced : (Node.callable kind f).Placed m.depths nextNode Γ := by
    refine ⟨hm.kept.standing hn, fun n hf => ?_⟩
    obtain ⟨q, hq, hmeets⟩ := hn
    exact hm.drawn q hq n (hmeets.nodes hf)
  have hself : Lox.Wraps .spelled true (.ofOpens Γ.opens) (.callable kind f) (.callable kind f) :=
    f.wraps_self f hplaced.standing.wellFormed rfl
  exact hself.linked hΓ hplaced hplaced

theorem Machine.Ready.wraps_self (hm : m.Ready programs o nextNode)
    (he : m.environment = Heap.globals) :
    m.Wraps ⟨m.depths, nextNode, m.depths, nextNode⟩ o.same [] m := by
  have hheap := hm.faithful.matches_same hm.kept.rooted
  have hglobals : o.same m.environment m.environment [] := by
    rw [he]
    exact Chain.globals.same
  refine ⟨⟨hheap, ?_, ?_, rfl⟩, hglobals, rfl, rfl, rfl, rfl, rfl, rfl⟩
  · refine List.forall₂_same.mpr fun f hf => ?_
    obtain ⟨i, hi⟩ := List.mem_iff_getElem?.mp hf
    have hfunction : m.heap.function? ⟨i⟩ = some f := Array.getElem?_toList.symm.trans hi
    obtain ⟨Γ, kind, hn, hc, -⟩ := hm.kept.remembers.functions ⟨i⟩ f hfunction
    exact ⟨rfl, .ofOpens Γ.opens, kind, Layout.open_ofOpens _, hc.same, hm.wraps_callable hn⟩
  · refine List.forall₂_same.mpr fun c hc => ⟨rfl, rfl, fun x => ?_⟩
    obtain ⟨i, hi⟩ := List.mem_iff_getElem?.mp hc
    have hclass : m.heap.class? ⟨i⟩ = some c := Array.getElem?_toList.symm.trans hi
    cases hf : c.methods.get? x with
    | none => exact .none
    | some f =>
      obtain ⟨Γ, outer, hn, hopens, hscope, -, -⟩ :=
        hm.kept.remembers.methods ⟨i⟩ c x f hclass (Bindings.mem_of_get? hf)
      have hwraps := hm.wraps_callable hn
      rw [hopens] at hwraps
      exact .some ⟨rfl, .ofOpens outer, _, Layout.open_ofOpens _, hscope.same, hwraps⟩

end Itself

namespace Machine

section Execution

variable {w : Tables} {R : Matching} {k : Bool} {m m' n n' : Machine} {s s' : Stmt}
  {ss ss' : List Stmt} {steps more : Nat} {c : Completion} {report : Report} {t t' : Session}

theorem wraps_exec (hm : m.Wraps w R [] m') (h : Lox.Wraps w.links k [] (.stmt s) (.stmt s')) :
    Config.Wraps w ⟨m, .exec s, []⟩ ⟨m', .exec s', []⟩ := by
  obtain ⟨he, he'⟩ := hm.heap.environments.outermost hm.environment
  refine .exec hm h ?_
  rw [he, he']
  exact .nil

/-- What the program does by its end, the wrapped program does as well. -/
theorem exec?_wraps (hm : m.Wraps w R [] m')
    (h : Lox.Wraps w.links k [] (.stmt s) (.stmt s')) (hrun : m.exec? steps s = some (c, n)) :
    ∃ more n', m'.exec? more s' = some (c, n') ∧ ∃ S : Matching, n.Wraps w S [] n' := by
  obtain ⟨more, -, hmore⟩ := (wraps_exec hm h).iterate steps
  rw [iterate_of_exec? hrun] at hmore
  obtain ⟨last, n', hlast, hn⟩ := hmore.ends
  rw [← Function.iterate_add_apply] at hlast
  exact ⟨last + more, n', exec?_of_iterate hlast, hn⟩

/-- What the wrapped program does by its end, the program does as well, and not in more steps. -/
theorem exec?_of_wraps (hm : m.Wraps w R [] m')
    (h : Lox.Wraps w.links k [] (.stmt s) (.stmt s')) (hrun : m'.exec? steps s' = some (c, n')) :
    ∃ n, m.exec? steps s = some (c, n) ∧ ∃ S : Matching, n.Wraps w S [] n' := by
  obtain ⟨more, hle, hmore⟩ := (wraps_exec hm h).iterate steps
  rw [Config.iterate_of_le (iterate_of_exec? hrun) hle] at hmore
  obtain ⟨n, hn, hwraps⟩ := hmore.of_ends
  exact ⟨n, exec?_of_iterate hn, hwraps⟩

/-- What the program has printed so far, the wrapped program has printed at some time, and what the
wrapped program has printed so far, the program has printed by then. -/
theorem printed_wraps (hm : m.Wraps w R [] m')
    (h : Lox.Wraps w.links k [] (.stmt s) (.stmt s')) (steps : Nat) :
    (∃ more, (Config.step^[more] ⟨m', .exec s', []⟩).machine.printed =
        (Config.step^[steps] ⟨m, .exec s, []⟩).machine.printed) ∧
      (Config.step^[steps] ⟨m', .exec s', []⟩).machine.printed.toList <+:
        (Config.step^[steps] ⟨m, .exec s, []⟩).machine.printed.toList := by
  obtain ⟨more, hle, hmore⟩ := (wraps_exec hm h).iterate steps
  refine ⟨⟨more, hmore.printed⟩, ?_⟩
  rw [← hmore.printed]
  exact Config.printed_iterate hle

/-- An execution goes on printing where it was. -/
theorem printed_course_of_le (hle : steps ≤ more) (ss : List Stmt) : ∀ m : Machine,
    (m.course steps ss).printed.toList <+: (m.course more ss).printed.toList := by
  induction ss with
  | nil => exact fun m => List.prefix_refl _
  | cons s rest ih =>
    intro m
    rw [course]
    cases hrun : m.exec? steps s with
    | none => exact printed_iterate_course hle
    | some ended =>
      obtain ⟨completion, n⟩ := ended
      rw [course, exec?_of_le hrun hle]
      cases completion with
      | failed e => exact List.prefix_refl _
      | _ => exact ih n

theorem execute?_of_le (hle : steps ≤ more) (ss : List Stmt) : ∀ {s : Session},
    s.execute? steps ss = some t → s.execute? more ss = some t := by
  induction ss with
  | nil => exact fun h => h
  | cons x rest ih =>
    rintro ⟨m, report, next⟩ h
    rw [Session.execute?] at h ⊢
    cases hrun : m.exec? steps x with
    | none =>
      rw [hrun] at h
      cases h
    | some ended =>
      rw [hrun] at h
      rw [exec?_of_le hrun hle]
      obtain ⟨completion, n⟩ := ended
      cases completion with
      | failed e => exact h
      | _ => exact ih h

/-- The sessions at the end of the executions of two programs. -/
def EndsAlike (w : Tables) (t t' : Session) : Prop :=
  t'.report = t.report ∧ t.nextNode = w.next ∧ t'.nextNode = w.next' ∧
    ∃ S : Matching, t.machine.Wraps w S [] t'.machine

theorem execute?_wraps (hss : Lox.Wraps w.links true [] (.body ss) (.body ss')) :
    ∀ {R : Matching} {m m' : Machine} {t : Session}, m.Wraps w R [] m' →
      Session.execute? steps ⟨m, report, w.next⟩ ss = some t →
      ∃ more t', Session.execute? more ⟨m', report, w.next'⟩ ss' = some t' ∧ EndsAlike w t t' := by
  induction ss generalizing ss' with
  | nil =>
    intro R m m' t hm hrun
    cases hss
    cases hrun
    exact ⟨0, _, rfl, rfl, rfl, rfl, R, hm⟩
  | cons s rest ih =>
    intro R m m' t hm hrun
    obtain ⟨⟩ := hss
    rename_i s' rest' hs hrest
    rw [Session.execute?] at hrun
    cases hfirst : m.exec? steps s with
    | none =>
      rw [hfirst] at hrun
      cases hrun
    | some ended =>
      obtain ⟨completion, n⟩ := ended
      rw [hfirst] at hrun
      obtain ⟨more, n', hfirst', S, hn⟩ := exec?_wraps hm hs hfirst
      by_cases hfailed : ∃ e, completion = .failed e
      · obtain ⟨e, rfl⟩ := hfailed
        cases hrun
        refine ⟨more, ⟨n', report.add e.diagnostic, w.next'⟩, ?_, rfl, rfl, rfl, S, hn⟩
        rw [Session.execute?, hfirst']
      · have hrun' : Session.execute? steps ⟨n, report, w.next⟩ rest = some t := by
          cases completion with
          | failed e => exact absurd ⟨e, rfl⟩ hfailed
          | _ => exact hrun
        obtain ⟨last, t', hlast, hends⟩ := ih hrest hn hrun'
        refine ⟨max more last, t', ?_, hends⟩
        rw [Session.execute?, exec?_of_le hfirst' (Nat.le_max_left _ _)]
        have hlast' := execute?_of_le (Nat.le_max_right more last) rest' hlast
        cases completion with
        | failed e => exact absurd ⟨e, rfl⟩ hfailed
        | _ => exact hlast'

theorem execute?_of_wraps (hss : Lox.Wraps w.links true [] (.body ss) (.body ss')) :
    ∀ {R : Matching} {m m' : Machine} {t' : Session}, m.Wraps w R [] m' →
      Session.execute? steps ⟨m', report, w.next'⟩ ss' = some t' →
      ∃ t, Session.execute? steps ⟨m, report, w.next⟩ ss = some t ∧ EndsAlike w t t' := by
  induction ss generalizing ss' with
  | nil =>
    intro R m m' t' hm hrun
    cases hss
    cases hrun
    exact ⟨_, rfl, rfl, rfl, rfl, R, hm⟩
  | cons s rest ih =>
    intro R m m' t' hm hrun
    obtain ⟨⟩ := hss
    rename_i s' rest' hs hrest
    rw [Session.execute?] at hrun ⊢
    cases hfirst : m'.exec? steps s' with
    | none =>
      rw [hfirst] at hrun
      cases hrun
    | some ended =>
      obtain ⟨completion, n'⟩ := ended
      rw [hfirst] at hrun
      obtain ⟨n, hfirst', S, hn⟩ := exec?_of_wraps hm hs hfirst
      rw [hfirst']
      cases completion with
      | failed e =>
        cases hrun
        exact ⟨_, rfl, rfl, rfl, rfl, S, hn⟩
      | _ => exact ih hrest hn hrun

/-- What is printed in the course of the one execution is printed in that of the other. -/
theorem printed_course_wraps (hss : Lox.Wraps w.links true [] (.body ss) (.body ss')) :
    ∀ {R : Matching} {m m' : Machine}, m.Wraps w R [] m' →
      (∃ more, (m.course steps ss).printed.toList <+: (m'.course more ss').printed.toList) ∧
        (m'.course steps ss').printed.toList <+: (m.course steps ss).printed.toList := by
  induction ss generalizing ss' with
  | nil =>
    intro R m m' hm
    cases hss
    simp only [course, hm.printed]
    exact ⟨⟨0, List.prefix_refl _⟩, List.prefix_refl _⟩
  | cons s rest ih =>
    intro R m m' hm
    obtain ⟨⟩ := hss
    rename_i s' rest' hs hrest
    obtain ⟨⟨more, hmore⟩, hback⟩ := printed_wraps hm hs steps
    constructor
    · rw [course]
      cases hfirst : m.exec? steps s with
      | none =>
        refine ⟨more, ?_⟩
        simp only [← hmore]
        exact printed_iterate_course (Nat.le_refl more)
      | some ended =>
        obtain ⟨completion, n⟩ := ended
        obtain ⟨more, n', hfirst', S, hn⟩ := exec?_wraps hm hs hfirst
        obtain ⟨⟨last, hlast⟩, -⟩ := ih hrest hn
        have hlast' := hlast.trans (printed_course_of_le (Nat.le_max_right more last) rest' n')
        refine ⟨max more last, ?_⟩
        rw [course, exec?_of_le hfirst' (Nat.le_max_left _ _)]
        cases completion with
        | failed e =>
          simp only [hn.printed]
          exact List.prefix_refl _
        | _ => exact hlast'
    · rw [course]
      cases hfirst : m'.exec? steps s' with
      | none => exact hback.trans (printed_iterate_course (Nat.le_refl steps))
      | some ended =>
        obtain ⟨completion, n'⟩ := ended
        obtain ⟨n, hfirst', S, hn⟩ := exec?_of_wraps hm hs hfirst
        rw [course, hfirst']
        cases completion with
        | failed e =>
          simp only [hn.printed]
          exact List.prefix_refl _
        | _ => exact (ih hrest hn).2

end Execution

end Machine

namespace Session

/-- What a run of the tokens has printed after so many steps for each statement, also if it has not
ended. -/
def printedAfterTokens (steps : Nat) (s : Session) (tokens : List Token) : Array String :=
  let (statements, t) := s.readTokens tokens
  if (t.resolve statements).report.syntaxError then s.machine.printed
  else ((t.resolve statements).machine.course steps statements).printed

/-- The second program is the first one with blocks around the bodies of loops, as the two sessions
read them, and has no other errors. -/
structure ReadsAlike (s s' : Session) (tokens tokens' : List Token) : Prop where
  sound : ∀ t ∈ tokens, t.Sound
  sound' : ∀ t ∈ tokens', t.Sound
  read : (s'.readTokens tokens').2.report = (s.readTokens tokens).2.report
  resolved : ((s'.readTokens tokens').2.resolve (s'.readTokens tokens').1).report =
    ((s.readTokens tokens).2.resolve (s.readTokens tokens).1).report
  wraps : Lox.Wraps .spelled true [] (.body (parse tokens s.nextNode).statements)
    (.body (parse tokens' s'.nextNode).statements)

section Runs

variable {w : Tables} {s s' t t' : Session} {tokens tokens' : List Token} {steps more : Nat}

theorem Wraps.proper (h : s.Wraps w s') (hr : s.ReadsAlike s' tokens tokens') :
    (parse tokens s.nextNode).Proper w.next ∧ (parse tokens' s'.nextNode).Proper w.next' := by
  rw [← h.next, ← h.next']
  exact ⟨parse_proper hr.sound _, parse_proper hr.sound' _⟩

theorem Wraps.read (h : s.Wraps w s') (hr : s.ReadsAlike s' tokens tokens') :
    ∃ x, (s.readTokens tokens).2.Wraps x (s'.readTokens tokens').2 := by
  obtain ⟨hp, hp'⟩ := h.proper hr
  have hread := hr.read
  rw [readTokens, readTokens] at hread ⊢
  generalize parse tokens s.nextNode = p at hp hread ⊢
  generalize parse tokens' s'.nextNode = p' at hp' hread ⊢
  simp only at hread ⊢
  rw [hread]
  exact ⟨_, h.drawn hp.nextNode hp'.nextNode _⟩

theorem Wraps.resolve (h : s.Wraps w s') (hr : s.ReadsAlike s' tokens tokens') :
    ∃ x, ((s.readTokens tokens).2.resolve (s.readTokens tokens).1).Wraps x
        ((s'.readTokens tokens').2.resolve (s'.readTokens tokens').1) ∧
      (Accepted (analyse (s.readTokens tokens).1) →
        Lox.Wraps x.links true [] (.body (s.readTokens tokens).1)
          (.body (s'.readTokens tokens').1)) := by
  obtain ⟨hp, hp'⟩ := h.proper hr
  obtain ⟨-, -, -, hresolved, hwraps⟩ := hr
  rw [resolve_eq, resolve_eq, readTokens, readTokens] at hresolved ⊢
  generalize parse tokens s.nextNode = p at hp hresolved hwraps ⊢
  generalize parse tokens' s'.nextNode = p' at hp' hresolved hwraps ⊢
  simp only at hresolved ⊢
  rw [hresolved]
  exact ⟨_, h.noting hp hp' _, fun ha => h.linked hp hp' ha hwraps⟩

/-- Where the one session executes what it has read, both do. -/
theorem Wraps.executes (h : s.Wraps w s') (hr : s.ReadsAlike s' tokens tokens')
    (hq : ((s.readTokens tokens).2.resolve (s.readTokens tokens).1).report.syntaxError = false) :
    ∃ x, ((s.readTokens tokens).2.resolve (s.readTokens tokens).1).Wraps x
        ((s'.readTokens tokens').2.resolve (s'.readTokens tokens').1) ∧
      Lox.Wraps x.links true [] (.body (s.readTokens tokens).1)
        (.body (s'.readTokens tokens').1) := by
  obtain ⟨x, hwraps, hlinked⟩ := h.resolve hr
  exact ⟨x, hwraps, hlinked (resolve_quiet hq).2⟩

theorem Wraps.of_endsAlike (h : s.Wraps w s') (ht : Machine.EndsAlike w t t') : t.Wraps w t' :=
  let ⟨hreport, hnext, hnext', hm⟩ := ht
  ⟨hm, hreport, hnext, hnext', h.below, h.below'⟩

/-- What a run of the program comes to, that of the wrapped program comes to as well. -/
theorem Wraps.runTokens? (h : s.Wraps w s') (hr : s.ReadsAlike s' tokens tokens')
    (hrun : s.runTokens? steps tokens = some t) :
    ∃ more t' x, s'.runTokens? more tokens' = some t' ∧ t.Wraps x t' := by
  rw [runTokens?_eq] at hrun
  split at hrun
  · rename_i hread
    cases hrun
    obtain ⟨x, hwraps⟩ := h.read hr
    refine ⟨0, _, x, ?_, hwraps⟩
    rw [runTokens?_eq, hr.read, if_pos hread]
  · rename_i hread
    split at hrun
    · rename_i hflag
      cases hrun
      obtain ⟨x, hwraps, -⟩ := h.resolve hr
      refine ⟨0, _, x, ?_, hwraps⟩
      rw [runTokens?_eq, hr.read, if_neg hread, hr.resolved, if_pos hflag]
    · rename_i hflag
      obtain ⟨x, hwraps, hlinked⟩ := h.executes hr (Bool.eq_false_iff.mpr hflag)
      obtain ⟨R, hm⟩ := hwraps.machine
      have hstart : (s.readTokens tokens).2.resolve (s.readTokens tokens).1 =
          ⟨((s.readTokens tokens).2.resolve (s.readTokens tokens).1).machine,
            ((s.readTokens tokens).2.resolve (s.readTokens tokens).1).report, x.next⟩ := by
        rw [← hwraps.next]
      rw [hstart] at hrun
      obtain ⟨more, t', hrun', hends⟩ := Machine.execute?_wraps hlinked hm hrun
      refine ⟨more, t', x, ?_, hwraps.of_endsAlike hends⟩
      rw [runTokens?_eq, hr.read, if_neg hread, hr.resolved, if_neg hflag, ← hrun',
        ← hwraps.next', ← hwraps.report]

/-- What a run of the wrapped program comes to, that of the program comes to in as many steps. -/
theorem Wraps.runTokens?_of (h : s.Wraps w s') (hr : s.ReadsAlike s' tokens tokens')
    (hrun : s'.runTokens? steps tokens' = some t') :
    ∃ t x, s.runTokens? steps tokens = some t ∧ t.Wraps x t' := by
  rw [runTokens?_eq, hr.read, hr.resolved] at hrun
  rw [runTokens?_eq]
  split at hrun
  · rename_i hread
    cases hrun
    obtain ⟨x, hwraps⟩ := h.read hr
    exact ⟨_, x, if_pos hread, hwraps⟩
  · rename_i hread
    rw [if_neg hread]
    split at hrun
    · rename_i hflag
      cases hrun
      obtain ⟨x, hwraps, -⟩ := h.resolve hr
      exact ⟨_, x, if_pos hflag, hwraps⟩
    · rename_i hflag
      rw [if_neg hflag]
      obtain ⟨x, hwraps, hlinked⟩ := h.executes hr (Bool.eq_false_iff.mpr hflag)
      obtain ⟨R, hm⟩ := hwraps.machine
      have hstart : (s'.readTokens tokens').2.resolve (s'.readTokens tokens').1 =
          ⟨((s'.readTokens tokens').2.resolve (s'.readTokens tokens').1).machine,
            ((s.readTokens tokens).2.resolve (s.readTokens tokens).1).report, x.next'⟩ := by
        rw [← hwraps.next', ← hwraps.report]
      rw [hstart] at hrun
      obtain ⟨t, hrun', hends⟩ := Machine.execute?_of_wraps hlinked hm hrun
      refine ⟨t, x, ?_, hwraps.of_endsAlike hends⟩
      rw [← hrun', ← hwraps.next]

theorem Wraps.printed (h : s.Wraps w s') : s'.machine.printed = s.machine.printed := by
  obtain ⟨R, hm⟩ := h.machine
  exact hm.printed

/-- What a run prints on its way is the same, whether or not it comes to an end. -/
theorem Wraps.printedAfterTokens (h : s.Wraps w s') (hr : s.ReadsAlike s' tokens tokens')
    (steps : Nat) : (∃ more, (s.printedAfterTokens steps tokens).toList <+:
        (s'.printedAfterTokens more tokens').toList) ∧
      (s'.printedAfterTokens steps tokens').toList <+:
        (s.printedAfterTokens steps tokens).toList := by
  unfold Session.printedAfterTokens
  simp only [hr.resolved]
  split
  · rw [h.printed]
    exact ⟨⟨0, List.prefix_refl _⟩, List.prefix_refl _⟩
  · rename_i hflag
    obtain ⟨x, hwraps, hlinked⟩ := h.executes hr (Bool.eq_false_iff.mpr hflag)
    obtain ⟨R, hm⟩ := hwraps.machine
    exact Machine.printed_course_wraps hlinked hm

end Runs

/-- A session stands for itself. -/
theorem Reachable.wraps_self {s : Session} (h : s.Reachable) :
    s.Wraps ⟨s.machine.depths, s.nextNode, s.machine.depths, s.nextNode⟩ s := by
  obtain ⟨o, programs, hreachable⟩ := h
  obtain ⟨hready, hglobals⟩ := hreachable.invariant
  exact ⟨⟨o.same, hready.wraps_self hglobals⟩, rfl, rfl, rfl, hready.below, hready.below⟩

end Session

end Lox
