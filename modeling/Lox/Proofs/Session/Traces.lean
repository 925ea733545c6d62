import Lox.Proofs.Session.Freshness

/-! What shows of a session.

Each move of a caller shows what it printed and reported and the flags that it left. A process may
hold another interpreter, which shares nothing with the first but the counter of identities. -/

namespace Lox

inductive Move where
  | run (source : String)
  | resetReport
  | setMaxCallDepth (depth : Nat)
  | setClock (now : Nat → Number)

structure Shown where
  printed : String
  messages : List String
  syntaxError : Bool
  runtimeError : Bool
  deriving DecidableEq, Repr

/-- Nothing is printed or reported and no flag is up. -/
def Shown.nothing : Shown := ⟨"", [], false, false⟩

namespace Session

/-- Hands out what came up since the last look. -/
def look (s : Session) : Shown × Session :=
  (⟨s.takePrinted.1, s.takeMessages.1, s.report.syntaxError, s.report.runtimeError⟩,
    s.takePrinted.2.takeMessages.2)

def after? (steps : Nat) (s : Session) : Move → Option Session
  | .run source => s.run? steps source
  | .resetReport => some s.resetReport
  | .setMaxCallDepth depth => some (s.setMaxCallDepth depth)
  | .setClock now => some { s with machine := { s.machine with now := now } }

/-- What shows of some moves and where they lead; `none` only if one of them does not end. -/
def trace? (steps : Nat) : Session → List Move → Option (List Shown × Session)
  | s, [] => some ([], s)
  | s, move :: rest =>
    match s.after? steps move with
    | none => none
    | some t => (t.look.2.trace? steps rest).map fun ended => (t.look.1 :: ended.1, ended.2)

def shown? (steps : Nat) (s : Session) (moves : List Move) : Option (List Shown) :=
  (s.trace? steps moves).map Prod.fst

variable {steps : Nat} {s t : Session}

theorem trace?_append (before after : List Move) : ∀ s : Session,
    s.trace? steps (before ++ after) = (s.trace? steps before).bind fun ended =>
      (ended.2.trace? steps after).map fun rest => (ended.1 ++ rest.1, rest.2) := by
  induction before with
  | nil =>
    intro s
    cases h : s.trace? steps after <;> simp [trace?, h]
  | cons move before ih =>
    intro s
    rw [List.cons_append, trace?, trace?]
    cases s.after? steps move with
    | none => rfl
    | some t =>
      simp only [ih]
      cases t.look.2.trace? steps before with
      | none => rfl
      | some ended =>
        cases h : ended.2.trace? steps after <;> simp [h]

theorem shown?_append {before : List Move} {shown : List Shown}
    (h : s.trace? steps before = some (shown, t)) (after : List Move) :
    s.shown? steps (before ++ after) = (t.shown? steps after).map (shown ++ ·) := by
  rw [shown?, trace?_append, h, shown?]
  cases h : t.trace? steps after <;> simp [h]

theorem trace?_length (moves : List Move) : ∀ {s t : Session} {shown : List Shown},
    s.trace? steps moves = some (shown, t) → shown.length = moves.length := by
  induction moves with
  | nil =>
    intro s t shown h
    cases h
    rfl
  | cons move moves ih =>
    intro s t shown h
    rw [trace?] at h
    split at h
    · cases h
    · obtain ⟨ended, hended, heq⟩ := Option.map_eq_some_iff.mp h
      cases heq
      simpa using ih hended

/-- Nothing was printed or reported since the last look. -/
structure Seen (s : Session) : Prop where
  printed : s.machine.printed = #[]
  diagnostics : s.report.diagnostics = #[]

theorem seen_look (s : Session) : s.look.2.Seen := ⟨rfl, rfl⟩

theorem Reachable.adjust (h : s.Reachable) (printed : Array String) (maxCallDepth : Nat)
    (now : Nat → Number) (report : Report) : Reachable
      ⟨{ s.machine with printed := printed, maxCallDepth := maxCallDepth, now := now }, report,
        s.nextNode⟩ :=
  let ⟨o, programs, h⟩ := h
  ⟨o, programs, h.adjusted printed maxCallDepth now report⟩

theorem Reachable.look (h : s.Reachable) : s.look.2.Reachable :=
  h.adjust #[] s.machine.maxCallDepth s.machine.now s.report.take.2

theorem Reachable.after? (h : s.Reachable) {move : Move} (ht : s.after? steps move = some t) :
    t.Reachable := by
  cases move with
  | run source =>
    have hrun : s.run? steps source = some t := ht
    exact h.run? hrun
  | resetReport =>
    cases ht
    exact h.adjust s.machine.printed s.machine.maxCallDepth s.machine.now s.report.reset
  | setMaxCallDepth depth =>
    cases ht
    exact h.adjust s.machine.printed depth s.machine.now s.report
  | setClock now =>
    cases ht
    exact h.adjust s.machine.printed s.machine.maxCallDepth now s.report

theorem Reachable.trace? (moves : List Move) : ∀ {s t : Session} {shown : List Shown},
    s.Reachable → s.Seen → s.trace? steps moves = some (shown, t) → t.Reachable ∧ t.Seen := by
  induction moves with
  | nil =>
    intro s t shown h hs ht
    cases ht
    exact ⟨h, hs⟩
  | cons move moves ih =>
    intro s t shown h hs ht
    rw [Session.trace?] at ht
    split at ht
    · cases ht
    · rename_i u hu
      obtain ⟨ended, hended, heq⟩ := Option.map_eq_some_iff.mp ht
      cases heq
      exact ih (h.after? hu).look u.seen_look hended

/-- The one session becomes the other by renaming its identities, once or again. -/
def Alike : Session → Session → Prop :=
  Relation.ReflTransGen fun s t => ∃ g : NodeId → NodeId, g.Injective ∧ s.Renames g t

theorem Renames.alike {g : NodeId → NodeId} (h : s.Renames g t) (hg : g.Injective) : s.Alike t :=
  .single ⟨g, hg, h⟩

/-- The session with its counter moved on. -/
def later (count : Nat) (s : Session) : Session := ⟨s.machine, s.report, s.nextNode + count⟩

theorem Reachable.later (h : s.Reachable) (count : Nat) : s.Alike (s.later count) := by
  obtain ⟨o, programs, h⟩ := h
  have hm := h.invariant.1
  exact (Renames.of_later hm count (fun n hn => hm.below n (Nat.le_of_add_right_le hn))
    fun _ _ => rfl).alike (shift_injective _ _)

theorem Renames.later {g : NodeId → NodeId} (h : s.Renames g t) (count : Nat) :
    (s.later count).Renames g (t.later count) := by
  obtain ⟨d, next, hd, hn⟩ := h
  refine .intro (s := s.later count) d (next + count) hd fun i => ?_
  rw [show (s.later count).nextNode + i = s.nextNode + (count + i) from Nat.add_assoc _ _ _, hn,
    Nat.add_assoc]

theorem Renames.after? (steps : Nat) {g : NodeId → NodeId} (h : s.Renames g t)
    (hg : g.Injective) (move : Move) :
    Option.Rel (Renames g) (s.after? steps move) (t.after? steps move) := by
  cases move with
  | run source =>
    rw [Session.after?, Session.after?]
    exact h.run? hg source
  | _ =>
    obtain ⟨d, next, hd, hn⟩ := h
    exact .some ⟨d, next, hd, hn⟩

namespace Alike

theorem later (h : s.Alike t) (count : Nat) : (s.later count).Alike (t.later count) := by
  induction h with
  | refl => exact .refl
  | tail _ hr ih =>
    obtain ⟨g, hg, hr⟩ := hr
    exact ih.tail ⟨g, hg, hr.later count⟩

theorem look (h : s.Alike t) : s.look.1 = t.look.1 ∧ s.look.2.Alike t.look.2 := by
  induction h with
  | refl => exact ⟨rfl, .refl⟩
  | tail _ hr ih =>
    obtain ⟨g, hg, d, next, hd, hn⟩ := hr
    exact ⟨ih.1, ih.2.tail ⟨g, hg, d, next, hd, hn⟩⟩

theorem after? (steps : Nat) (h : s.Alike t) (move : Move) :
    Option.Rel Alike (s.after? steps move) (t.after? steps move) := by
  induction h with
  | refl =>
    cases s.after? steps move with
    | none => exact .none
    | some u => exact .some .refl
  | tail _ hr ih =>
    obtain ⟨g, hg, hr⟩ := hr
    have hlast := hr.after? steps hg move
    revert ih hlast
    generalize s.after? steps move = x
    generalize Session.after? steps _ move = y
    generalize Session.after? steps _ move = z
    rintro (hxy | _) hyz
    · cases hyz with
      | some hyz => exact .some (hxy.tail ⟨g, hg, hyz⟩)
    · cases hyz
      exact .none

/-- Sessions that are alike show the same from then on. -/
theorem trace? (steps : Nat) (moves : List Move) : ∀ {s t : Session}, s.Alike t →
    Option.Rel (fun a b => a.1 = b.1 ∧ a.2.Alike b.2) (s.trace? steps moves)
      (t.trace? steps moves) := by
  induction moves with
  | nil => exact fun h => .some ⟨rfl, h⟩
  | cons move moves ih =>
    intro s t h
    have hafter := h.after? steps move
    rw [Session.trace?, Session.trace?]
    revert hafter
    generalize s.after? steps move = x
    generalize t.after? steps move = y
    rintro (huv | _)
    · rename_i u v
      obtain ⟨hshown, hleft⟩ := huv.look
      have hrest := ih hleft
      simp only [hshown]
      revert hrest
      generalize u.look.2.trace? steps moves = x
      generalize v.look.2.trace? steps moves = y
      rintro (⟨heq, hends⟩ | _)
      · exact .some ⟨congrArg (v.look.1 :: ·) heq, hends⟩
      · exact .none
    · exact .none

theorem shown? (h : s.Alike t) (moves : List Move) :
    s.shown? steps moves = t.shown? steps moves := by
  have htrace := h.trace? steps moves
  unfold Session.shown?
  revert htrace
  generalize s.trace? steps moves = x
  generalize t.trace? steps moves = y
  rintro (⟨heq, -⟩ | _)
  · exact congrArg some heq
  · rfl

end Alike

end Session

end Lox
