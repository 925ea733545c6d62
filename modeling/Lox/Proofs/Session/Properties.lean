import Lox.Proofs.Machine.Binding
import Lox.Proofs.Machine.Evaluation
import Lox.Proofs.Machine.Properties
import Lox.Proofs.Session.Growth

/-! What the properties of objects are.

A session is followed with all assignments to properties that were made on the way. Whatever names
lead to an object, a property of it has the value that it was given last; if it was given none, it
is a method of the object's class. -/

namespace Lox

namespace Activity

/-- The assignment that the next move makes. -/
def assignment? : Activity → Option Assignment
  | .running c _ _ _ => c.assignment?
  | _ => none

/-- A session comes to an activity by these assignments, the most recent first. -/
inductive Assigned : List Assignment → Activity → Prop where
  | start (now : Nat → Number) : Assigned [] (.waiting (Session.start now))
  | move {log a b} : Assigned log a → a.Move b → Assigned (a.assignment?.toList ++ log) b

variable {o : Origins} {programs : List (List Stmt)} {log : List Assignment} {a : Activity}

theorem Assigned.reachable (h : Assigned log a) : ∃ o programs, Reachable o programs a := by
  induction h with
  | start now => exact ⟨_, _, .start now⟩
  | move _ hm ih =>
    obtain ⟨o, programs, h⟩ := ih
    obtain ⟨o', programs', h', -⟩ := h.move hm
    exact ⟨o', programs', h'⟩

/-- Every state has been come to by some assignments. -/
theorem Reachable.assigned (h : Reachable o programs a) : ∃ log, Assigned log a := by
  have hlater {a b : Activity} (hm : a.Move b) (ih : ∃ log, Assigned log a) :
      ∃ log, Assigned log b :=
    let ⟨_, h⟩ := ih
    ⟨_, h.move hm⟩
  induction h with
  | start now => exact ⟨_, .start now⟩
  | adjusted printed maxCallDepth now report _ ih =>
    exact hlater (.adjusted printed maxCallDepth now report) ih
  | unread source _ hread ih => exact hlater (.unread source hread) ih
  | refused source _ hread hresolve ih => exact hlater (.refused source hread hresolve) ih
  | accepted source _ hread hresolve ih => exact hlater (.accepted source hread hresolve) ih
  | finished _ ih => exact hlater .finished ih
  | begun _ ih => exact hlater .begun ih
  | step _ ih => exact hlater .step ih
  | completed hc _ ih => exact hlater (.completed hc) ih
  | failed _ ih => exact hlater .failed ih

/-- The objects hold what was assigned. -/
theorem Assigned.records (h : Assigned log a) : a.machine.heap.Records log := by
  induction h with
  | start now =>
    refine ⟨fun i object hi => ?_, List.forall_mem_nil _⟩
    have hnone : (Session.start now).machine.heap.object? i = none := rfl
    cases hi.symm.trans hnone
  | @move log a b h hm ih =>
    obtain ⟨o, programs, hreach⟩ := h.reachable
    cases hm with
    | step => exact Config.Sound.records hreach.sound ih
    | @unread s source _ => exact ih.same (congrArg Heap.objects (s.heap_read source))
    | @refused s source _ _ => exact ih.same (congrArg Heap.objects (s.heap_resolve_read source))
    | @accepted s source _ _ => exact ih.same (congrArg Heap.objects (s.heap_resolve_read source))
    | @completed m c _ _ _ _ => cases c <;> exact ih
    | _ => exact ih

end Activity

namespace Config

/-- The object of which the next step reads a property, and the name of the property. -/
def reading? : Config → Option (ObjectId × Token)
  | ⟨_, .done (.value (.object i)), .get t :: _⟩ => some (i, t)
  | _ => none

/-- How a property is read of an object of a class, after some assignments. -/
structure ReadsProperty (c : Config) (log : List Assignment) (i : ObjectId) (k : ClassId)
    (t : Token) : Prop where
  assigned : ∀ v, latest? log i t.lexeme = some v →
    c.step = ⟨c.machine, .done (.value v), c.frames.tail⟩
  method : latest? log i t.lexeme = none → ∀ j f, c.machine.heap.Finds t.lexeme k j f →
    ∃ id, c.step.control = .done (.value (.function id)) ∧ c.step.frames = c.frames.tail ∧
      c.step.machine.heap.BoundTo id f i
  missing : c.step = ⟨c.machine, .done (.failed (undefinedProperty t)), c.frames.tail⟩ ↔
    latest? log i t.lexeme = none ∧ c.machine.heap.Lacks t.lexeme k

theorem readsProperty {m : Machine} {i : ObjectId} {object : Object} {t : Token} {fs : List Frame}
    {log : List Assignment} (hs : m.heap.Sound) (hr : m.heap.Records log)
    (hi : m.heap.object? i = some object) :
    ReadsProperty ⟨m, .done (.value (.object i)), .get t :: fs⟩ log i object.ofClass t := by
  have hstep : step ⟨m, .done (.value (.object i)), .get t :: fs⟩ =
    m.finishProperty fs (m.property (.object i) t) := rfl
  rw [Machine.property] at hstep
  cases hlatest : latest? log i t.lexeme with
  | some v =>
    simp only [hr.property?_assigned hi hlatest] at hstep
    refine ⟨fun w hw => ?_, fun hnone => ?_, iff_of_false ?_ ?_⟩
    · rw [hstep, Option.some.inj (hw.symm.trans hlatest)]
      rfl
    · cases hlatest.symm.trans hnone
    · rw [hstep]
      intro hfails
      cases congrArg control hfails
    · rintro ⟨hnone, -⟩
      cases hlatest.symm.trans hnone
  | none =>
    rw [hr.property?_unassigned hi hlatest] at hstep
    refine ⟨fun w hw => ?_, fun _ j f hfinds => ?_, ?_⟩
    · cases hlatest.symm.trans hw
    · rw [hfinds.method? hs] at hstep
      rw [hstep]
      exact ⟨_, rfl, rfl, (m.heap.boundTo_bindMethod f i).2⟩
    · cases hm : m.heap.method? object.ofClass t.lexeme with
      | some f =>
        rw [hm] at hstep
        refine iff_of_false ?_ ?_
        · rw [hstep]
          intro hfails
          cases congrArg control hfails
        · rintro ⟨-, hlacks⟩
          cases hm.symm.trans ((Heap.method?_eq_none hs).mpr hlacks)
      | none =>
        rw [hm] at hstep
        exact iff_of_true hstep ⟨hlatest, (Heap.method?_eq_none hs).mp hm⟩

end Config

namespace Activity

variable {log : List Assignment} {c : Config} {rest : List Stmt} {report : Report} {nextNode : Nat}

/-- A property of an object is the value that was assigned to it last, or else a method of the
object. An assignment is seen nowhere but in its own property of its own object, and is made only
when its value is there. -/
theorem Assigned.properties (h : Assigned log (.running c rest report nextNode)) :
    (∀ i t, c.reading? = some (i, t) →
      ∃ k, (c.machine.heap.object? i).map (·.ofClass) = some k ∧ c.ReadsProperty log i k t) ∧
    (∀ a, c.assignment? = some a → c.machine.FindsAlike c.step.machine a.object a.name) ∧
    ∀ object t value, c.control = .eval (.set object t value) → ∀ completion m,
      c.Returns c.frames completion m ↔ c.machine.Sets c.frames object t value completion m := by
  obtain ⟨o, programs, hreach⟩ := h.reachable
  have hsound : c.Sound := hreach.sound
  refine ⟨fun i t hc => ?_, fun a ha => ?_, fun object t value hc completion m => ?_⟩
  · unfold Config.reading? at hc
    split at hc
    · cases hc
      rename_i m fs
      have hlives : i.index < m.heap.objects.size := hsound.control _ (.head _)
      have hi : m.heap.object? i = some m.heap.objects[i.index] := Array.getElem?_eq_getElem hlives
      exact ⟨_, congrArg (Option.map (·.ofClass)) hi, Config.readsProperty hsound.heap h.records hi⟩
    · cases hc
  · rw [Config.step_of_assignment? ha]
    exact c.machine.findsAlike_setField a.object a.name a.value
  · obtain ⟨m', control, frames⟩ := c
    obtain rfl : control = .eval (.set object t value) := hc
    exact Machine.evaluates_set

/-- The field of an object hides a method, and is read by another name than it was assigned by. -/
theorem properties_of_an_alias : ∃ (log : List Assignment) (c : Config) (i : ObjectId) (t : Token),
    c.reading? = some (i, t) ∧ latest? log i t.lexeme = some (.bool true) ∧
      c.step = ⟨c.machine, .done (.value (.bool true)), c.frames.tail⟩ := by
  let s := Session.start (⟨0⟩ : Number)
  let source := "{ class A {f() {}} var a = A(); var b = a; b.f = true; a.f; }"
  have hsome : ((s.configAfter? source 24).bind fun c => c.reading?.bind fun found =>
      (c.machine.heap.object? found.1).bind (·.fields.get? found.2.lexeme)) =
      some (.bool true) := by
    decide +kernel
  obtain ⟨c, hc, hfield⟩ := Option.bind_eq_some_iff.mp hsome
  obtain ⟨⟨i, t⟩, hreading, hfield⟩ := Option.bind_eq_some_iff.mp hfield
  obtain ⟨object, hi, hget⟩ := Option.bind_eq_some_iff.mp hfield
  obtain ⟨o, rest, report, nextNode, h⟩ := (Reachable.start (⟨0⟩ : Number)).configAfter?
    (s := s) (by decide +kernel) (by decide +kernel) hc
  obtain ⟨log, hlog⟩ := h.assigned
  have hlatest := (hlog.records.fields i object hi t.lexeme).symm.trans hget
  obtain ⟨k, -, hreads⟩ := hlog.properties.1 i t hreading
  exact ⟨log, c, i, t, hreading, hlatest, hreads.assigned _ hlatest⟩

end Activity

end Lox
