import Lox.Proofs.Session.Scoping

/-! Assignments to local variables.

Analysis gives an assignment the depth of a variable whose declaration has merely begun, but there
is nothing to write to before the initializer is evaluated. So such an assignment fails, and it is
the only one with a depth that does. -/

namespace Lox

theorem Fits.of_assign {programs : List (List Stmt)} {o : Origins} {hole : Hole}
    {e : EnvironmentId} {r : Reference} {fs : List Frame}
    (h : Fits programs o hole e (.assign r :: fs)) :
    ∃ Γ x, Stands o e Γ.opens ∧ Known programs Γ (.expr (.assign r x)) := by
  cases h with
  | assign hs hn _ => exact ⟨_, _, hs, hn⟩

/-- An assignment with a depth writes to the environment that many hops up, which binds the name
already, unless it is part of the initializer of the variable: then the innermost environment does
not bind the name yet, and the assignment fails. -/
theorem assignment_to_local {o : Origins} {programs : List (List Stmt)} {m : Machine} {v : Value}
    {r : Reference} {fs : List Frame} {rest : List Stmt} {report : Report} {nextNode depth : Nat}
    (h : Activity.Reachable o programs
      (.running ⟨m, .done (.value v), .assign r :: fs⟩ rest report nextNode))
    (hd : m.depths.get? r.node = some depth) :
    ∃ program ∈ programs, ∃ Γ x, Meets program Γ (.expr (.assign r x)) ∧
      (Γ.Initializes r.name.lexeme → depth = 0 ∧
        m.heap.binds m.environment r.name.lexeme = false ∧
        Config.step ⟨m, .done (.value v), .assign r :: fs⟩ =
          ⟨m, .done (.failed (undefinedVariable r.name)), fs⟩) ∧
      (¬Γ.Initializes r.name.lexeme → ∃ e,
        m.heap.ancestor? m.environment depth = some e ∧ m.heap.binds e r.name.lexeme = true ∧
        Config.step ⟨m, .done (.value v), .assign r :: fs⟩ =
          ⟨{ m with heap := m.heap.define e r.name.lexeme v }, .done (.value v), fs⟩) := by
  obtain ⟨hready, ⟨hole, -, hfs⟩, -⟩ := h.invariant
  have hstep : Config.step ⟨m, .done (.value v), .assign r :: fs⟩ = m.finishAssign fs r v := rfl
  obtain ⟨Γ, x, hs, hn⟩ := hfs.of_assign
  obtain ⟨hin, hout⟩ := Machine.holder?_of_assign hready.faithful hready.kept.rooted
    hready.kept.distinct hs (hready.kept.standing hn) hd
  obtain ⟨program, hp, hmeets⟩ := hn
  refine ⟨program, hp, Γ, x, hmeets, fun hi => ?_, fun hi => ?_⟩
  · obtain ⟨hdepth, hbinds, hnone⟩ := hin hi
    exact ⟨hdepth, hbinds, by rw [hstep, Machine.finishAssign, hnone]⟩
  · obtain ⟨e, ha, hb, hsome⟩ := hout hi
    exact ⟨e, ha, hb, by rw [hstep, Machine.finishAssign, hsome]⟩

/-- An assignment whose value is there. -/
structure Assigning where
  machine : Machine
  value : Value
  target : Reference
  frames : List Frame

def Config.assigning? : Config → Option Assigning
  | ⟨m, .done (.value v), .assign r :: fs⟩ => some ⟨m, v, r, fs⟩
  | _ => none

theorem Config.eq_of_assigning? {c : Config} {a : Assigning} (h : c.assigning? = some a) :
    c = ⟨a.machine, .done (.value a.value), .assign a.target :: a.frames⟩ := by
  unfold Config.assigning? at h
  split at h
  · cases h
    rfl
  · cases h

/-- In `{ var a; a = nil; }` the variable is bound in the innermost environment. -/
theorem assignment_to_local_of_a_block : ∃ a : Assigning, ∃ program Γ x e,
    a.machine.depths.get? a.target.node = some 0 ∧
    Meets program Γ (.expr (.assign a.target x)) ∧ ¬Γ.Initializes a.target.name.lexeme ∧
    a.machine.heap.ancestor? a.machine.environment 0 = some e ∧
    a.machine.heap.binds e a.target.name.lexeme = true := by
  let s := Session.start (⟨0⟩ : Number)
  let source := "{ var a; a = nil; }"
  have hsome : ((s.configAfter? source 6).bind fun c => c.assigning?.filter fun a =>
      a.machine.depths.get? a.target.node = some 0 ∧
        a.machine.heap.binds a.machine.environment a.target.name.lexeme = true).isSome = true := by
    decide +kernel
  obtain ⟨a, ha⟩ := Option.isSome_iff_exists.mp hsome
  obtain ⟨c, hc, ha⟩ := Option.bind_eq_some_iff.mp ha
  obtain ⟨ha, hlocal⟩ := Option.filter_eq_some_iff.mp ha
  obtain ⟨hd, hbound⟩ := of_decide_eq_true hlocal
  obtain ⟨o, rest, report, nextNode, h⟩ := (Activity.Reachable.start (⟨0⟩ : Number)).configAfter?
    (s := s) (by decide +kernel) (by decide +kernel) hc
  rw [Config.eq_of_assigning? ha] at h
  obtain ⟨program, -, Γ, x, hmeets, hin, hout⟩ := assignment_to_local h hd
  have hi : ¬Γ.Initializes a.target.name.lexeme := fun hi => by
    cases hbound.symm.trans (hin hi).2.1
  obtain ⟨e, hancestor, hbinds, -⟩ := hout hi
  exact ⟨a, program, Γ, x, e, hd, hmeets, hi, hancestor, hbinds⟩

/-- The text is accepted and the target of the assignment has a depth, yet the assignment fails. -/
theorem assignment_in_own_initializer_fails :
    (((Session.start (⟨0⟩ : Number)).configAfter? "{ var a = (a = nil); }" 5).bind Config.assigning?).any
        (fun a => a.machine.depths.get? a.target.node = some 0) = true ∧
      ((Session.start (⟨0⟩ : Number)).run? 30 "{ var a = (a = nil); }").map
        (fun s => (s.report.syntaxError, s.report.messages)) =
          some (false, ["[line 1] Error at 'a': Undefined variable 'a'."]) := by
  decide +kernel

end Lox
