import Lox.Proofs.Machine.Reading

/-! What is kept while accepted programs run.

It is said of the record of origins, of the heap, and of the control with the frames below it:
every function and method stands where it was declared, every scope made for `super` binds a class,
no environment binds a name twice, and the control fits the frames. -/

namespace Lox

/-- A function that stands in the environments of its place, ready to be called. -/
def Closure.Placed (programs : List (List Stmt)) (o : Origins) (f : Closure) : Prop :=
  ∃ Γ kind, Known programs Γ (.callable kind f.decl) ∧ Chain o f.scope Γ.opens ∧
    (f.isInitializer = true → kind = .initializer)

/-- A method of a class: all but the scope of its receiver is there. -/
def Closure.Unbound (programs : List (List Stmt)) (o : Origins) (name : String) (f : Closure) :
    Prop :=
  ∃ Γ outer, Known programs Γ (.callable f.decl.methodContext f.decl) ∧
    Γ.opens = .receiver :: outer ∧ Chain o f.scope outer ∧
    f.isInitializer = f.decl.isInitializer ∧ f.decl.name.lexeme = name

/-- All functions and methods of a heap stand where they were declared. -/
structure Heap.Remembers (programs : List (List Stmt)) (o : Origins) (h : Heap) : Prop where
  functions : ∀ f closure, h.function? f = some closure → closure.Placed programs o
  methods : ∀ c cls name method, h.class? c = some cls → (name, method) ∈ cls.methods.entries →
    method.Unbound programs o name

/-- What every step keeps, besides that the record is true. -/
structure Machine.Kept (programs : List (List Stmt)) (o : Origins) (m : Machine) : Prop where
  rooted : o.Rooted
  distinct : o.Distinct
  supers : o.Supers m.heap
  remembers : m.heap.Remembers programs o
  accepted : ∀ p ∈ programs, Stmt.AllWellFormed p ∧ ∀ note ∈ analyse p, note.Holds m.depths

theorem Machine.Kept.standing {programs : List (List Stmt)} {o : Origins} {m : Machine}
    (hm : m.Kept programs o) {Γ : Place} {n : Node} (hn : Known programs Γ n) :
    n.Standing m.depths Γ :=
  let ⟨p, hp, h⟩ := hn
  h.standing (hm.accepted p hp).1 (hm.accepted p hp).2

/-- Where the control of a configuration stands. -/
def Control.Stands (programs : List (List Stmt)) (o : Origins) (e : EnvironmentId)
    (frames : List Frame) : Control → Prop
  | .eval x => ∃ Γ, Lox.Stands o e Γ.opens ∧ Known programs Γ (.expr x) ∧
    Fits programs o .value e frames
  | .exec s => ∃ Γ, Lox.Stands o e Γ.opens ∧ Known programs Γ (.stmt s) ∧
    Fits programs o (.statement (Γ.after s)) e frames
  | .done c => ∃ hole : Hole, hole.Takes o e c ∧ Fits programs o hole e frames

structure Config.Kept (programs : List (List Stmt)) (o : Origins) (c : Config) : Prop where
  machine : c.machine.Kept programs o
  control : c.control.Stands programs o c.machine.environment c.frames

section

variable {programs : List (List Stmt)} {o : Origins} {h h' : Heap}

theorem Closure.Placed.perform {f : Closure} (hf : f.Placed programs o) (d : Deed) :
    f.Placed programs (o.perform d) :=
  let ⟨Γ, kind, hn, hc, hi⟩ := hf
  ⟨Γ, kind, hn, hc.perform d, hi⟩

theorem Closure.Unbound.perform {f : Closure} {name : String} (hf : f.Unbound programs o name)
    (d : Deed) : f.Unbound programs (o.perform d) name :=
  let ⟨Γ, outer, hn, ho, hc, hi⟩ := hf
  ⟨Γ, outer, hn, ho, hc.perform d, hi⟩

theorem Closure.Placed.mono {more : List (List Stmt)} {f : Closure} (hf : f.Placed programs o)
    (hs : programs ⊆ more) : f.Placed more o :=
  let ⟨Γ, kind, hn, hc⟩ := hf
  ⟨Γ, kind, hn.mono hs, hc⟩

theorem Closure.Unbound.mono {more : List (List Stmt)} {f : Closure} {name : String}
    (hf : f.Unbound programs o name) (hs : programs ⊆ more) : f.Unbound more o name :=
  let ⟨Γ, outer, hn, ho⟩ := hf
  ⟨Γ, outer, hn.mono hs, ho⟩

/-- A method bound to its receiver stands in a new scope. -/
theorem Closure.Unbound.bind {f : Closure} {name : String} (hf : f.Unbound programs o name) :
    (⟨f.decl, ⟨o.size⟩, f.isInitializer⟩ : Closure).Placed programs
      (o.perform (.opened .receiver f.scope)) := by
  obtain ⟨Γ, outer, hn, ho, hc, hi, -⟩ := hf
  refine ⟨Γ, _, hn, ho ▸ (hc.enter .receiver).chain, fun h => ?_⟩
  have hinit : f.decl.isInitializer = true := hi.symm.trans h
  simp [FunctionDecl.methodContext, hinit]

namespace Heap.Remembers

theorem mono {more : List (List Stmt)} (hr : h.Remembers programs o) (hs : programs ⊆ more) :
    h.Remembers more o :=
  ⟨fun f c hc => (hr.functions f c hc).mono hs,
    fun c cls x f hc hx => (hr.methods c cls x f hc hx).mono hs⟩

theorem perform (hr : h.Remembers programs o) (d : Deed) : h.Remembers programs (o.perform d) :=
  ⟨fun f c hc => (hr.functions f c hc).perform d,
    fun c cls x f hc hx => (hr.methods c cls x f hc hx).perform d⟩

theorem congr (hr : h.Remembers programs o) (hf : h'.functions = h.functions)
    (hc : h'.classes = h.classes) : h'.Remembers programs o := by
  refine ⟨fun f c hfc => hr.functions f c ?_, fun c cls x f hcc => hr.methods c cls x f ?_⟩
  · rwa [Heap.function?, ← hf]
  · rwa [Heap.class?, ← hc]

theorem newFunction (hr : h.Remembers programs o) {f : Closure} (hf : f.Placed programs o) :
    (h.newFunction f).2.Remembers programs o := by
  refine ⟨fun g c hg => ?_, hr.methods⟩
  simp only [Heap.newFunction, Heap.function?, Array.getElem?_push] at hg
  split at hg
  · exact Option.some.inj hg ▸ hf
  · exact hr.functions g c hg

theorem newClass (hr : h.Remembers programs o) {c : Class}
    (hc : ∀ name f, (name, f) ∈ c.methods.entries → f.Unbound programs o name) :
    (h.newClass c).2.Remembers programs o := by
  refine ⟨hr.functions, fun d cls name f hd hf => ?_⟩
  simp only [Heap.newClass, Heap.class?, Array.getElem?_push] at hd
  split at hd
  · exact hc name f (Option.some.inj hd ▸ hf)
  · exact hr.methods d cls name f hd hf

theorem methodUpTo? (hr : h.Remembers programs o) {name : String} {f : Closure} (count : Nat) :
    ∀ c : ClassId, h.methodUpTo? name count c = some f → f.Unbound programs o name := by
  induction count with
  | zero => intro c hc; cases hc
  | succ count ih =>
    intro c hc
    rw [Heap.methodUpTo?] at hc
    split at hc
    · cases hc
    · rename_i cls hcls
      split at hc
      · rename_i method hm
        exact Option.some.inj hc ▸ hr.methods c cls name method hcls (Bindings.mem_of_get? hm)
      · split at hc
        · exact ih _ hc
        · cases hc

theorem method? (hr : h.Remembers programs o) {c : ClassId} {name : String} {f : Closure}
    (hf : h.method? c name = some f) : f.Unbound programs o name := hr.methodUpTo? _ c hf

end Heap.Remembers

namespace Origins.Supers

theorem congr (hs : o.Supers h) (he : h'.environments = h.environments) : o.Supers h' := by
  intro e origin ho hk
  obtain ⟨c, hc⟩ := hs e origin ho hk
  exact ⟨c, by simpa [Heap.local?, Heap.environment?, he] using hc⟩

theorem define (hs : o.Supers h) {x : String} (hx : x ≠ "super") (e : EnvironmentId) (v : Value) :
    o.Supers (h.define e x v) := by
  intro e' origin ho hk
  obtain ⟨c, hc⟩ := hs e' origin ho hk
  exact ⟨c, by rw [Heap.local?_define, if_neg fun h => hx h.2.1, hc]⟩

theorem bound (hs : o.Supers h) (e : EnvironmentId) (t : Token) :
    (o.perform (.bound e t)).Supers h := by
  intro e' origin ho hk
  rw [of?_bound] at ho
  split at ho
  · obtain ⟨origin', ho', rfl⟩ := Option.map_eq_some_iff.mp ho
    exact hs e' origin' ho' hk
  · exact hs e' origin ho hk

/-- A new environment binds `super` to a class if it is made for that. -/
theorem opened (hs : o.Supers h) (hf : o.Faithful h) {scope : OpenScope} {outer : EnvironmentId}
    {bindings : Bindings Value} (he : h'.environments = h.environments.push ⟨bindings, some outer⟩)
    (hk : scope.kind = .superclass → ∃ c, bindings.get? "super" = some (.classValue c)) :
    (o.perform (.opened scope outer)).Supers h' := by
  intro e origin ho hkind
  have hnew : h'.environment? e =
      if e.index = o.size then some ⟨bindings, some outer⟩ else h.environment? e := by
    simp [Heap.environment?, he, Array.getElem?_push, hf.size]
  rw [of?_opened] at ho
  rw [Heap.local?, hnew]
  split at ho
  · rename_i hi
    obtain rfl := Option.some.inj ho
    rw [if_pos hi]
    exact hk hkind
  · rename_i hi
    rw [if_neg hi]
    exact hs e origin ho hkind

end Origins.Supers

namespace Origins.Distinct

theorem opened (hd : o.Distinct) {scope : OpenScope} (hs : (scope.binders.map Binder.name).Nodup)
    (outer : EnvironmentId) : (o.perform (.opened scope outer)).Distinct := by
  intro e origin ho hg
  rw [of?_opened] at ho
  split at ho
  · exact Option.some.inj ho ▸ hs
  · exact hd e origin ho hg

theorem bound (hd : o.Distinct) {e : EnvironmentId} {t : Token}
    (ht : e ≠ Heap.globals → ∀ origin, o.of? e = some origin →
      ∀ b ∈ origin.scope.binders, b.name ≠ t.lexeme) :
    (o.perform (.bound e t)).Distinct := by
  intro e' origin ho hg
  rw [of?_bound] at ho
  split at ho
  · rename_i he
    subst he
    obtain ⟨origin', ho', rfl⟩ := Option.map_eq_some_iff.mp ho
    rw [OpenScope.binders_add, List.map_append, List.nodup_append]
    refine ⟨hd _ origin' ho' hg, by simp, ?_⟩
    rintro x hx y hy rfl
    obtain ⟨b, hb, rfl⟩ := List.mem_map.mp hx
    exact ht hg origin' ho' b hb (by simpa [Binder.name] using hy)
  · exact hd e' origin ho hg

end Origins.Distinct

end

end Lox
