import Lox.Proofs.Session.Reachable
import Mathlib.Logic.Relation

/-! What led a session to where it is.

The moves of a session are those by which its states are reached, so every reachable state has a
history: the texts that were accepted on the way, and each step that was taken. -/

namespace Lox

/-- One move of a session: a caller adjusts it or hands it a text, or a statement goes a step. -/
inductive Activity.Move : Activity → Activity → Prop where
  | adjusted {s} (printed : Array String) (maxCallDepth : Nat) (now : Nat → Number) (report : Report) :
    Move (.waiting s) (.waiting
      ⟨{ s.machine with printed := printed, maxCallDepth := maxCallDepth, now := now }, report,
        s.nextNode⟩)
  | unread {s} (source : String) : (s.read source).2.report.syntaxError = true →
    Move (.waiting s) (.waiting (s.read source).2)
  | refused {s} (source : String) : (s.read source).2.report.syntaxError = false →
    ((s.read source).2.resolve (s.read source).1).report.syntaxError = true →
    Move (.waiting s) (.waiting ((s.read source).2.resolve (s.read source).1))
  | accepted {s} (source : String) : (s.read source).2.report.syntaxError = false →
    ((s.read source).2.resolve (s.read source).1).report.syntaxError = false →
    Move (.waiting s) (.between ((s.read source).2.resolve (s.read source).1) (s.read source).1)
  | finished {s} : Move (.between s []) (.waiting s)
  | begun {s statement rest} : Move (.between s (statement :: rest))
      (.running ⟨s.machine, .exec statement, []⟩ rest s.report s.nextNode)
  | step {c rest report nextNode} :
    Move (.running c rest report nextNode) (.running c.step rest report nextNode)
  | completed {m c rest report nextNode} : (∀ e, c ≠ .failed e) →
    Move (.running ⟨m, .done c, []⟩ rest report nextNode) (.between ⟨m, report, nextNode⟩ rest)
  | failed {m e rest report nextNode} :
    Move (.running ⟨m, .done (.failed e), []⟩ rest report nextNode)
      (.waiting ⟨m, report.add e.diagnostic, nextNode⟩)

/-- Any number of moves. -/
def Activity.GoesTo (a b : Activity) : Prop := Relation.ReflTransGen Activity.Move a b

namespace Activity

variable {a b c : Activity} {o : Origins} {programs : List (List Stmt)}

theorem GoesTo.refl (a : Activity) : a.GoesTo a := Relation.ReflTransGen.refl

theorem GoesTo.move (h : a.GoesTo b) (hm : b.Move c) : a.GoesTo c := h.tail hm

theorem GoesTo.trans (h : a.GoesTo b) (hb : b.GoesTo c) : a.GoesTo c :=
  Relation.ReflTransGen.trans h hb

theorem Move.goesTo (h : a.Move b) : a.GoesTo b := .single h

/-- A move leads from one reachable state to another. -/
theorem Reachable.move (h : Reachable o programs a) (hm : a.Move b) :
    ∃ o' programs', Reachable o' programs' b ∧ programs ⊆ programs' := by
  cases hm with
  | adjusted printed maxCallDepth now report =>
    exact ⟨_, _, h.adjusted printed maxCallDepth now report, List.Subset.refl _⟩
  | unread source hread => exact ⟨_, _, h.unread source hread, List.Subset.refl _⟩
  | refused source hread hresolve =>
    exact ⟨_, _, h.refused source hread hresolve, List.Subset.refl _⟩
  | accepted source hread hresolve =>
    exact ⟨_, _, h.accepted source hread hresolve, List.subset_cons_self _ _⟩
  | finished => exact ⟨_, _, h.finished, List.Subset.refl _⟩
  | begun => exact ⟨_, _, h.begun, List.Subset.refl _⟩
  | step => exact ⟨_, _, h.step, List.Subset.refl _⟩
  | completed hc => exact ⟨_, _, h.completed hc, List.Subset.refl _⟩
  | failed => exact ⟨_, _, h.failed, List.Subset.refl _⟩

theorem Reachable.goesTo (h : Reachable o programs a) (hg : a.GoesTo b) :
    ∃ o' programs', Reachable o' programs' b := by
  induction hg with
  | refl => exact ⟨o, programs, h⟩
  | tail _ hm ih =>
    obtain ⟨_, _, h⟩ := ih
    obtain ⟨o', programs', h, -⟩ := h.move hm
    exact ⟨o', programs', h⟩

theorem GoesTo.steps {rest : List Stmt} {report : Report} {nextNode : Nat} (count : Nat) :
    ∀ c : Config, GoesTo (.running c rest report nextNode)
      (.running (Config.step^[count] c) rest report nextNode) := by
  induction count with
  | zero => exact fun c => .refl _
  | succ count ih => exact fun c => Move.step.goesTo.trans (ih c.step)

/-- A text was accepted, and its statements are what the session went on with. -/
def Accepts (s : Session) (source : String) (b : Activity) : Prop :=
  (s.read source).2.report.syntaxError = false ∧
    ((s.read source).2.resolve (s.read source).1).report.syntaxError = false ∧
    GoesTo (.between ((s.read source).2.resolve (s.read source).1) (s.read source).1) b

/-- Every accepted program was read from a text on the way. -/
theorem Reachable.accepts (h : Reachable o programs a) : ∀ p ∈ programs,
    ∃ s source, Session.Reachable s ∧ (s.read source).1 = p ∧ Accepts s source a := by
  have hlater {a b : Activity} (hm : a.Move b) {p : List Stmt}
      (ih : ∃ s source, Session.Reachable s ∧ (s.read source).1 = p ∧ Accepts s source a) :
      ∃ s source, Session.Reachable s ∧ (s.read source).1 = p ∧ Accepts s source b :=
    let ⟨s, source, hs, hp, hread, hresolve, hgoes⟩ := ih
    ⟨s, source, hs, hp, hread, hresolve, hgoes.move hm⟩
  induction h with
  | start now => exact List.forall_mem_nil _
  | adjusted printed maxCallDepth now report _ ih =>
    exact fun p hp => hlater (.adjusted printed maxCallDepth now report) (ih p hp)
  | unread source _ hread ih => exact fun p hp => hlater (.unread source hread) (ih p hp)
  | refused source _ hread hresolve ih =>
    exact fun p hp => hlater (.refused source hread hresolve) (ih p hp)
  | accepted source h hread hresolve ih =>
    refine List.forall_mem_cons.mpr ⟨?_, fun p hp => ?_⟩
    · exact ⟨_, source, ⟨_, _, h⟩, rfl, hread, hresolve, .refl _⟩
    · exact hlater (.accepted source hread hresolve) (ih p hp)
  | finished _ ih => exact fun p hp => hlater .finished (ih p hp)
  | begun _ ih => exact fun p hp => hlater .begun (ih p hp)
  | step _ ih => exact fun p hp => hlater .step (ih p hp)
  | completed hc _ ih => exact fun p hp => hlater (.completed hc) (ih p hp)
  | failed _ ih => exact fun p hp => hlater .failed (ih p hp)

end Activity

end Lox
