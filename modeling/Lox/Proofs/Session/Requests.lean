import Lox.Proofs.Grammar.Concatenation
import Lox.Proofs.Machine.Renaming
import Lox.Proofs.Session.Stages

/-! What can be asked of a session, and when two sessions cannot be told apart.

Two sessions that differ in the identities of nodes only give the same answers: texts read later
are given other identities by each of them, and no answer shows one. -/

namespace Lox

/-- What a caller can do with a session between two texts, or with the next text. -/
inductive Request where
  | run (steps : Nat) (source : String)
  | takePrinted
  | takeMessages
  | lookAtReport
  | resetReport
  | setMaxCallDepth (depth : Nat)
  | setClock (now : Nat → Number)

inductive Answer where
  | done
  | printed (text : String)
  | messages (lines : List String)
  | report (r : Report)
  deriving DecidableEq, Repr

namespace Session

/-- `none` only for a text that takes more steps than it is given. -/
def ask? (s : Session) : Request → Option (Answer × Session)
  | .run steps source => (s.run? steps source).map fun t => (.done, t)
  | .takePrinted => some (.printed s.takePrinted.1, s.takePrinted.2)
  | .takeMessages => some (.messages s.takeMessages.1, s.takeMessages.2)
  | .lookAtReport => some (.report s.report, s)
  | .resetReport => some (.done, s.resetReport)
  | .setMaxCallDepth depth => some (.done, s.setMaxCallDepth depth)
  | .setClock now => some (.done, { s with machine := { s.machine with now := now } })

def answers? : Session → List Request → Option (List Answer)
  | _, [] => some []
  | s, request :: rest =>
    match s.ask? request with
    | none => none
    | some (answer, t) => (t.answers? rest).map (answer :: ·)

/-- Whatever is asked of two sessions, they answer the same. -/
def BehavesAs (s t : Session) : Prop := ∀ requests, s.answers? requests = t.answers? requests

/-- A session with other identities, another table of depths and another next identity. -/
def rename (g : NodeId → NodeId) (d : Depths) (nextNode : Nat) (s : Session) : Session :=
  ⟨s.machine.rename g d, s.report, nextNode⟩

variable {g : NodeId → NodeId} {d : Depths} {s s' t : Session} {steps : Nat}

/-- Execution leaves the table of depths and the next identity as they are. -/
theorem execute?_table (ss : List Stmt) : ∀ {s t : Session}, s.execute? steps ss = some t →
    t.machine.depths = s.machine.depths ∧ t.nextNode = s.nextNode := by
  induction ss with
  | nil =>
    intro s t h
    cases h
    exact ⟨rfl, rfl⟩
  | cons x rest ih =>
    rintro ⟨m, report, nextNode⟩ t h
    rw [execute?] at h
    split at h
    · cases h
    · rename_i e m' he
      cases h
      exact ⟨Machine.depths_exec? he, rfl⟩
    · rename_i c m' hc he
      obtain ⟨hd, hn⟩ := ih h
      exact ⟨hd.trans (Machine.depths_exec? he), hn⟩

theorem execute?_rename (steps next : Nat) (ss : List Stmt) : ∀ {s : Session},
    s.machine.depths.Renames g d →
    (s.rename g d next).execute? steps (ss.map (Stmt.relabel (.ofNodes g))) =
      (s.execute? steps ss).map (rename g d next) := by
  induction ss with
  | nil => exact fun _ => rfl
  | cons x rest ih =>
    rintro ⟨m, report, nextNode⟩ hd
    rw [List.map_cons, rename, execute?, Machine.exec?_rename hd, execute?]
    rcases he : m.exec? steps x with _ | ⟨c, m'⟩
    · rfl
    · have hrest := @ih ⟨m', report, nextNode⟩ ((Machine.depths_exec? he).symm ▸ hd)
      cases c with
      | failed e => rfl
      | _ => exact hrest

/-- The one session is the other with new identities, and goes on drawing identities so. -/
inductive Renames (g : NodeId → NodeId) (s : Session) : Session → Prop where
  | intro (d : Depths) (next : Nat) : s.machine.depths.Renames g d →
    (∀ i, g ⟨s.nextNode + i⟩ = ⟨next + i⟩) → Renames g s (s.rename g d next)

namespace Renames

variable (hg : g.Injective)

theorem report (h : s.Renames g s') : s'.report = s.report := by
  cases h
  rfl

theorem read (h : s.Renames g s') (source : String) :
    (s'.read source).1 = (s.read source).1.map (Stmt.relabel (.ofNodes g)) ∧
      (s.read source).2.Renames g (s'.read source).2 := by
  obtain ⟨d, next, hd, hn⟩ := h
  have hparse := parse_relabel (f := .ofNodes g) hn (tokensOf_eof source)
  rw [Token.map_relabel_ofNodes, ParseError.map_relabel_ofNodes] at hparse
  obtain ⟨used, hused, hp⟩ := hparse
  rw [read_eq, read_eq, show (s.rename g d next).nextNode = next from rfl, hp]
  generalize parse (tokensOf source) s.nextNode = p at hused
  exact ⟨rfl, d, next + used, hd, fun i => by simp only [hused, Nat.add_assoc, hn]⟩

include hg in
theorem resolve (h : s.Renames g s') (ss : List Stmt) :
    (s.resolve ss).Renames g (s'.resolve (ss.map (Stmt.relabel (.ofNodes g)))) := by
  obtain ⟨d, next, hd, hn⟩ := h
  have hrenames := Renames.intro (s := s.resolve ss) _ next (hd.recordAll hg (analyse ss)) hn
  simp only [Session.resolve, analyse_relabel, errors_relabel_ofNodes]
  exact hrenames

theorem execute? (h : s.Renames g s') (ss : List Stmt) :
    Option.Rel (Renames g) (s.execute? steps ss)
      (s'.execute? steps (ss.map (Stmt.relabel (.ofNodes g)))) := by
  obtain ⟨d, next, hd, hn⟩ := h
  rw [execute?_rename _ _ _ hd]
  rcases he : s.execute? steps ss with _ | t
  · exact .none
  · obtain ⟨hdepths, hnext⟩ := execute?_table ss he
    exact .some ⟨d, next, hdepths ▸ hd, hnext ▸ hn⟩

include hg in
theorem run? (h : s.Renames g s') (source : String) :
    Option.Rel (Renames g) (s.run? steps source) (s'.run? steps source) := by
  obtain ⟨hstatements, hread⟩ := h.read source
  have hresolve := hread.resolve hg (s.read source).1
  unfold Session.run? Session.perform?
  simp only
  rw [hstatements, hread.report, hresolve.report]
  split
  · exact .some hread
  split
  · exact .some hresolve
  · exact hresolve.execute? _

include hg in
theorem ask? (h : s.Renames g s') (request : Request) :
    Option.Rel (fun a b => a.1 = b.1 ∧ a.2.Renames g b.2) (s.ask? request) (s'.ask? request) := by
  cases request with
  | run steps source =>
    have hrun : Option.Rel (Renames g) (s.run? steps source) (s'.run? steps source) :=
      h.run? hg source
    simp only [Session.ask?]
    generalize s.run? steps source = r at hrun
    generalize s'.run? steps source = r' at hrun
    cases hrun with
    | none => exact .none
    | some ht => exact .some ⟨rfl, ht⟩
  | _ =>
    obtain ⟨d, next, hd, hn⟩ := h
    exact .some ⟨rfl, d, next, hd, hn⟩

include hg in
/-- Identities cannot be told from any answer. -/
theorem behavesAs (h : s.Renames g s') : s.BehavesAs s' := by
  intro requests
  induction requests generalizing s s' with
  | nil => rfl
  | cons request rest ih =>
    have hask := h.ask? hg request
    rw [answers?, answers?]
    generalize s.ask? request = r at hask
    generalize s'.ask? request = r' at hask
    cases hask with
    | none => rfl
    | @some a b hab =>
      obtain ⟨answer, t⟩ := a
      obtain ⟨answer', t'⟩ := b
      obtain ⟨rfl, ht⟩ := hab
      exact congrArg (Option.map (answer :: ·)) (ih ht)

end Renames

end Session

end Lox
