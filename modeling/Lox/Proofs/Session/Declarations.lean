import Lox.Proofs.Machine.Ageing
import Lox.Proofs.Session.Growth

/-! Where the classes of a session come from.

Every class was made by a declaration that a program of the session has run, and it is still the
class that the declaration made: with the methods that are written there, and with the superclass
that was found there at that time. -/

namespace Lox

namespace Activity

/-- On the way to an activity a declaration was run, in the given configuration, that made the
class. -/
structure Declares (a : Activity) (k : ClassId) (d : Config) (t : Token)
    (superclass : Option Reference) (methods : List FunctionDecl) : Prop where
  control : d.control = .exec (.classDecl t superclass methods)
  before : ∃ o programs rest report nextNode,
    Reachable o programs (.running d rest report nextNode) ∧
      GoesTo (.running d.step rest report nextNode) a
  fresh : d.machine.heap.class? k = none
  made : ∃ s, d.machine.superclass superclass = .ok s ∧
    a.machine.heap.class? k = some (d.machine.declared t s methods)

variable {o : Origins} {programs : List (List Stmt)} {a b : Activity} {k : ClassId} {d : Config}
  {t : Token} {superclass : Option Reference} {methods : List FunctionDecl}

theorem Declares.move (h : a.Declares k d t superclass methods) (hm : a.Move b)
    (hclass : b.machine.heap.class? k = a.machine.heap.class? k) :
    b.Declares k d t superclass methods :=
  let ⟨o, programs, rest, report, nextNode, hreach, hgoes⟩ := h.before
  ⟨h.control, ⟨o, programs, rest, report, nextNode, hreach, hgoes.move hm⟩, h.fresh,
    hclass.symm ▸ h.made⟩

/-- Every class has its declaration. -/
theorem Reachable.declares (h : Reachable o programs a) : ∀ k cls,
    a.machine.heap.class? k = some cls → ∃ d t superclass methods,
      a.Declares k d t superclass methods := by
  have hlater {a b : Activity} (hm : a.Move b) (hheap : b.machine.heap = a.machine.heap)
      (ih : ∀ k cls, a.machine.heap.class? k = some cls → ∃ d t superclass methods,
        a.Declares k d t superclass methods) :
      ∀ k cls, b.machine.heap.class? k = some cls → ∃ d t superclass methods,
        b.Declares k d t superclass methods := by
    intro k cls hcls
    obtain ⟨d, t, superclass, methods, hd⟩ := ih k cls (hheap ▸ hcls)
    exact ⟨d, t, superclass, methods, hd.move hm (by rw [hheap])⟩
  induction h with
  | start now => exact fun k cls hcls => nomatch hcls
  | adjusted printed maxCallDepth now report _ ih =>
    exact hlater (.adjusted printed maxCallDepth now report) rfl ih
  | @unread o programs s source _ hread ih =>
    exact hlater (.unread source hread) (s.heap_read source) ih
  | @refused o programs s source _ hread hresolve ih =>
    exact hlater (.refused source hread hresolve) (s.heap_resolve_read source) ih
  | @accepted o programs s source _ hread hresolve ih =>
    exact hlater (.accepted source hread hresolve) (s.heap_resolve_read source) ih
  | finished _ ih => exact hlater .finished rfl ih
  | begun _ ih => exact hlater .begun rfl ih
  | completed hc _ ih => exact hlater (.completed hc) rfl ih
  | failed _ ih => exact hlater .failed rfl ih
  | @step o programs c rest report nextNode h ih =>
    intro k cls hcls
    have hold (hk : c.step.machine.heap.class? k = c.machine.heap.class? k) :
        ∃ d t superclass methods, Declares (.running c.step rest report nextNode) k d t superclass
          methods := by
      obtain ⟨d, t, superclass, methods, hd⟩ := ih k cls (hk.symm.trans hcls)
      exact ⟨d, t, superclass, methods, hd.move .step hk⟩
    rcases c.writes_step.classes with hsame | ⟨t, r, methods, s, hexec, hr, hheap⟩
    · exact hold (by rw [Heap.class?, hsame, Heap.class?])
    have hpush : c.step.machine.heap.class? k =
        (c.machine.heap.classes.push (c.machine.declared t s methods))[k.index]? := by
      rw [Heap.class?, hheap, Machine.classes_declareClass]
    rw [Array.getElem?_push] at hpush
    split at hpush
    · rename_i hk
      exact ⟨c, t, r, methods, hexec, ⟨_, _, _, _, _, h, .refl _⟩,
        Array.getElem?_eq_none (Nat.le_of_eq hk.symm), s, hr, hpush⟩
    · exact hold hpush

end Activity

end Lox
