import Lox.Proofs.Machine.Inheritance
import Lox.Proofs.Machine.Overflow
import Lox.Proofs.Session.Declarations
import Lox.Proofs.Session.Safety

/-! What `super` finds.

A method is run by whatever class of receiver, and as often as its closures are called; its `super`
is the superclass that the class of the method was declared with, and its `this` the receiver. -/

namespace Lox

namespace Config

/-- The next step gives a method that is bound to an object. -/
def GivesBound (c : Config) (f : Closure) (i : ObjectId) : Prop :=
  ∃ id e, c.step.control = .done (.value (.function id)) ∧ c.step.frames = c.frames ∧
    c.step.machine.heap.function? id = some ⟨f.decl, e, f.isInitializer⟩ ∧
    c.step.machine.heap.environment? e =
      some ⟨Bindings.empty.insert "this" (.object i), some f.scope⟩

/-- A method of an object is looked up from a class. -/
structure Dispatches (c : Config) (s : ClassId) (i : ObjectId) (method : Token) : Prop where
  found : ∀ k f, c.machine.heap.Finds method.lexeme s k f → c.GivesBound f i
  missing : c.step.control = .done (.failed (undefinedProperty method)) ↔
    c.machine.heap.Lacks method.lexeme s

theorem dispatches_of_inherited {m : Machine} {r : Reference} {method : Token} {fs : List Frame}
    {s : ClassId} {i : ObjectId} (hs : m.heap.Sound)
    (h : m.inherited r method =
      match m.heap.method? s method.lexeme with
      | some found => .ok (.object i, .method found)
      | none => .error (undefinedProperty method)) :
    Dispatches ⟨m, .eval (.inherited r method), fs⟩ s i method := by
  cases hm : m.heap.method? s method.lexeme with
  | some f =>
    rw [hm] at h
    have hstep : step ⟨m, .eval (.inherited r method), fs⟩ =
        m.finishProperty fs (.ok (.object i, .method f)) := by rw [step, Machine.evaluate, h]
    refine ⟨fun k g hfinds => ?_, iff_of_false ?_ fun hlacks => ?_⟩
    · obtain rfl : f = g := Option.some.inj (hm.symm.trans (hfinds.method? hs))
      rw [GivesBound, hstep]
      refine ⟨_, ⟨m.heap.environments.size⟩, rfl, rfl, Array.getElem?_push_size, ?_⟩
      exact (Heap.environment?_of_push (m.heap.bindThis_environments f (.object i))).2
    · rw [hstep]
      intro hfails
      cases hfails
    · cases hm.symm.trans ((Heap.method?_eq_none hs).mpr hlacks)
  | none =>
    rw [hm] at h
    have hlacks := (Heap.method?_eq_none hs).mp hm
    refine ⟨fun k g hfinds => ?_, iff_of_true ?_ hlacks⟩
    · cases hm.symm.trans (hfinds.method? hs)
    · rw [step, Machine.evaluate, h]
      rfl

end Config

theorem Machine.read_of_superclass {m : Machine} {superclass : Option Reference} {s : ClassId}
    (h : m.superclass superclass = .ok (some s)) :
    ∃ name, superclass = some name ∧ m.read name = .ok (.classValue s) := by
  unfold Machine.superclass at h
  split at h
  · cases h
  · rename_i name
    refine ⟨name, rfl, ?_⟩
    split at h
    · rename_i hread
      cases h
      exact hread
    · cases h
    · cases h

namespace Activity

variable {o : Origins} {programs : List (List Stmt)} {a : Activity}

/-- All that a session holds and runs is arranged around the receivers. -/
def Arranged : Activity → Prop
  | .waiting s => s.machine.heap.Arranged
  | .between s _ => s.machine.heap.Arranged
  | .running c _ _ _ => c.Arranged

theorem arranged_start (now : Nat → Number) : (Machine.initial now).heap.Arranged := by
  have hempty {α : Type} {i : Nat} {x : α} (h : (#[] : Array α)[i]? = some x) : False := by
    simp at h
  exact ⟨.outermost rfl rfl rfl, ⟨_, rfl, rfl⟩, fun id f hf => (hempty hf).elim,
    fun k cls name f hk => (hempty hk).elim⟩

theorem Reachable.arranged (h : Reachable o programs a) : o.Tidy ∧ a.Arranged := by
  have hsame {h h' : Heap} (heq : h' = h) (ha : h.Arranged) : h'.Arranged := heq ▸ ha
  induction h with
  | start now => exact ⟨.start, arranged_start now⟩
  | @begun o programs s statement rest h ih =>
    obtain ⟨ht, harranged⟩ := ih
    obtain ⟨-, henv, -⟩ := h.invariant
    exact ⟨ht, harranged, .inl (henv ▸ harranged.receiverless), .base⟩
  | @step o programs c rest report nextNode h ih =>
    obtain ⟨ht, harranged⟩ := ih
    obtain ⟨hready, hstands, -⟩ := h.invariant
    have hkept : c.Kept programs o := ⟨hready.kept, hstands⟩
    exact ⟨ht.performAll hkept.tidy, harranged.step hkept hready.faithful ht⟩
  | completed _ _ ih => exact ⟨ih.1, ih.2.heap⟩
  | failed _ ih => exact ⟨ih.1, ih.2.heap⟩
  | @unread _ _ s source _ _ ih => exact ⟨ih.1, hsame (s.heap_read source) ih.2⟩
  | @refused _ _ s source _ _ _ ih => exact ⟨ih.1, hsame (s.heap_resolve_read source) ih.2⟩
  | @accepted _ _ s source _ _ _ ih => exact ⟨ih.1, hsame (s.heap_resolve_read source) ih.2⟩
  | _ => assumption

/-- Wherever `super` is evaluated, a method is run on an object, and then the lookup starts at the
class that was the superclass when the class of the method was declared. -/
theorem Reachable.super_dispatches {c : Config} {rest : List Stmt} {report : Report}
    {nextNode : Nat} (h : Reachable o programs (.running c rest report nextNode)) {r : Reference}
    {method : Token} (hc : c.control = .eval (.inherited r method)) :
    (∃ k f i, c.machine.heap.RunsOn c.machine.environment k f i ∧
      f.decl.Contains (.expr (.inherited r method))) ∧
    ∀ k f i, c.machine.heap.RunsOn c.machine.environment k f i → ∃ d t name methods s,
      Declares (.running c rest report nextNode) k d t (some name) methods ∧ f.decl ∈ methods ∧
      d.machine.read name = .ok (.classValue s) ∧ c.Dispatches s i method := by
  obtain ⟨ht, harranged⟩ := h.arranged
  obtain ⟨hready, hstands, -⟩ := h.invariant
  obtain ⟨m, control, fs⟩ := c
  obtain rfl : control = .eval (.inherited r method) := hc
  obtain ⟨hruns, hall⟩ := harranged.inherited ⟨hready.kept, hstands⟩ hready.faithful ht
  refine ⟨hruns, fun k f i hrunsOn => ?_⟩
  obtain ⟨cls, name, s, hcls, hget, hs, heq⟩ := hall k f i hrunsOn
  obtain ⟨d, t, superclass, methods, hd⟩ := h.declares k cls hcls
  obtain ⟨s', hsuper, hmade⟩ := hd.made
  obtain rfl : cls = d.machine.declared t s' methods := Option.some.inj (hcls.symm.trans hmade)
  obtain rfl : s' = some s := hs
  obtain ⟨r', rfl, hread⟩ := Machine.read_of_superclass hsuper
  exact ⟨d, t, r', methods, s, hd, (Machine.mem_declared hget).1, hread,
    Config.dispatches_of_inherited h.sound.heap heq⟩

/-- A function within a method of `B` asks for `super.m` on an object of `C`, and gets the method of
`A`, bound to that object. -/
theorem super_dispatches_in_a_function : ∃ (c : Config) (k s j : ClassId) (f g : Closure)
    (i : ObjectId), c.machine.heap.RunsOn c.machine.environment k f i ∧
      (c.machine.heap.object? i).map (·.ofClass) = some ⟨2⟩ ∧
      c.machine.heap.Finds "m" s j g ∧ c.GivesBound g i := by
  let s := Session.start (⟨0⟩ : Number)
  let source :=
    "{ class A {m() {}} class B < A {m() {fun f() {super.m;} f();}} class C < B {} C().m(); }"
  have hsome : ((s.configAfter? source 22).bind fun c => c.inherited?.map fun found =>
      (found.2.lexeme, c.machine.heap.objects.map (·.ofClass), c.raises?.isNone)) =
      some ("m", #[⟨2⟩], true) := by decide +kernel
  obtain ⟨c, hc, hfound⟩ := Option.bind_eq_some_iff.mp hsome
  obtain ⟨⟨r, method⟩, hr, hfacts⟩ := Option.map_eq_some_iff.mp hfound
  obtain ⟨hname, hobjects, hnot⟩ : method.lexeme = "m" ∧ c.machine.heap.objects.map (·.ofClass) =
      #[⟨2⟩] ∧ c.raises?.isNone = true := by simpa using hfacts
  obtain ⟨o, rest, report, nextNode, h⟩ := (Reachable.start (⟨0⟩ : Number)).configAfter?
    (s := s) (by decide +kernel) (by decide +kernel) hc
  obtain ⟨⟨k, f, i, hruns, -⟩, hall⟩ := h.super_dispatches (Config.control_of_inherited? hr)
  obtain ⟨d, t, name, methods, superclass, -, -, -, hdispatches⟩ := hall k f i hruns
  obtain ⟨object, hobject, -⟩ := hruns.has.descends
  have hclass : object.ofClass = ⟨2⟩ := by
    have hmem : object.ofClass ∈ c.machine.heap.objects.map (·.ofClass) :=
      Array.mem_map.mpr ⟨object, Array.mem_of_getElem? hobject, rfl⟩
    simpa [hobjects] using hmem
  cases hm : c.machine.heap.method? superclass method.lexeme with
  | none =>
    rw [Config.raises?, Config.control_of_inherited? hr,
      hdispatches.missing.mpr ((Heap.method?_eq_none h.sound.heap).mp hm)] at hnot
    cases hnot
  | some g =>
    obtain ⟨j, hfinds⟩ := Heap.finds_of_method? hm
    exact ⟨c, k, superclass, j, f, g, i, hruns, by rw [hobject, ← hclass]; rfl, hname ▸ hfinds,
      hdispatches.found j g hfinds⟩

end Activity

end Lox
