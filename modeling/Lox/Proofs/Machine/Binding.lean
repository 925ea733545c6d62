import Lox.Proofs.Machine.Inheritance
import Lox.Proofs.Machine.Returning

/-! Methods as values.

A method becomes a value when an object is asked for it, or when `super` is. Either way it is bound
in an environment of its own, that of the `this` of the object, and no step ever changes what that
environment binds. So the function that comes of it has its receiver for good. -/

namespace Lox

namespace Heap

/-- A function value is a method that is bound to an object. -/
def BoundTo (h : Heap) (id : FunctionId) (f : Closure) (i : ObjectId) : Prop :=
  ∃ e env, h.function? id = some ⟨f.decl, e, f.isInitializer⟩ ∧ h.environment? e = some env ∧
    env.bindings.get? "this" = some (.object i) ∧ env.enclosing = some f.scope

/-- A later heap has all that was never to change, and the functions are as they were made. -/
structure Retains (h h' : Heap) : Prop where
  ages : h.Ages h'
  functions : ∀ id f, h.function? id = some f → h'.function? id = some f

variable {h h' h'' : Heap}

theorem Ages.refl (h : Heap) : h.Ages h :=
  ⟨fun _ env he => ⟨env, he, rfl, fun _ _ => rfl⟩, fun _ _ hk => hk,
    fun _ object ho => ⟨object, ho, rfl⟩⟩

theorem Ages.trans (ha : h.Ages h') (ha' : h'.Ages h'') : h.Ages h'' where
  environments e env he := by
    obtain ⟨env', he', hout, hsame⟩ := ha.environments e env he
    obtain ⟨env'', he'', hout', hsame'⟩ := ha'.environments e env' he'
    exact ⟨env'', he'', hout'.trans hout, fun x hx => (hsame' x hx).trans (hsame x hx)⟩
  classes k cls hk := ha'.classes k cls (ha.classes k cls hk)
  objects o object ho := by
    obtain ⟨object', ho', hclass⟩ := ha.objects o object ho
    obtain ⟨object'', ho'', hclass'⟩ := ha'.objects o object' ho'
    exact ⟨object'', ho'', hclass'.trans hclass⟩

theorem Retains.refl (h : Heap) : h.Retains h := ⟨.refl h, fun _ _ hf => hf⟩

theorem Retains.trans (hr : h.Retains h') (hr' : h'.Retains h'') : h.Retains h'' :=
  ⟨hr.ages.trans hr'.ages, fun id f hf => hr'.functions id f (hr.functions id f hf)⟩

theorem BoundTo.retains {id : FunctionId} {f : Closure} {i : ObjectId} (hb : h.BoundTo id f i)
    (hr : h.Retains h') : h'.BoundTo id f i := by
  obtain ⟨e, env, hid, he, hthis, hout⟩ := hb
  obtain ⟨env', he', hout', hsame⟩ := hr.ages.environments e env he
  exact ⟨e, env', hr.functions _ _ hid, he', (hsame "this" (.inl rfl)).trans hthis,
    hout'.trans hout⟩

/-- The binding of a method makes a function that is bound to the object. -/
theorem boundTo_bindMethod (h : Heap) (f : Closure) (i : ObjectId) :
    (h.bindMethod f (.object i)).1 = .function ⟨h.functions.size⟩ ∧
      (h.bindMethod f (.object i)).2.BoundTo ⟨h.functions.size⟩ f i := by
  refine ⟨rfl, ⟨h.environments.size⟩, _, Array.getElem?_push_size,
    (environment?_of_push (h.bindThis_environments f (.object i))).2, ?_, rfl⟩
  simp

end Heap

theorem Config.Writes.keeps_functions {c : Config} {h : Heap} (hw : c.Writes h) {id : FunctionId}
    {f : Closure} (hf : c.machine.heap.function? id = some f) : h.function? id = some f := by
  have hpush {g : Closure} (hg : h.functions = c.machine.heap.functions.push g) :
      h.function? id = some f := by
    have hlt : id.index < c.machine.heap.functions.size := (Array.getElem?_eq_some_iff.mp hf).1
    rwa [Heap.function?, hg, Array.getElem?_push, if_neg (Nat.ne_of_lt hlt)]
  rcases hw.functions with hsame | ⟨decl, -, hmade⟩ | ⟨receiver, g, -, rfl⟩
  · rwa [Heap.function?, hsame]
  · exact hpush hmade
  · exact hpush rfl

/-- In the methods of a class the nearest `this` is as far out as analysis has found it. -/
theorem Chain.nearestThis {o : Origins} {h : Heap} {e : EnvironmentId} {opens : List OpenScope}
    (hc : Chain o e opens) (hs : ∀ s ∈ opens, s.Plain ∨ s = .receiver ∨ s = .superclass)
    (hf : o.Faithful h) (hr : o.Rooted) (ht : o.Tidy) : ∀ {depth : Nat} {b : Binder},
    nearest? "this" opens = some (depth, b) →
      ∃ e', h.ancestor? e depth = some e' ∧ h.NearestThis e (some e') := by
  induction hc with
  | globals =>
    intro depth b hn
    cases hn
  | @nested e outer actual s rest ho hk hb hrest ih =>
    intro depth b hn
    obtain ⟨env, henv, hout, hnames⟩ := hf.inside hr ho "this"
    rw [nearest?] at hn
    split at hn
    · rename_i found hfound
      obtain ⟨rfl, rfl⟩ := Prod.mk.inj (Option.some.inj hn)
      have hname : found.name = "this" := by simpa using List.find?_some hfound
      obtain ⟨v, hv⟩ := Option.isSome_iff_exists.mp
        (hnames.mpr ⟨found, hb.subset (List.mem_of_find?_eq_some hfound), hname⟩)
      exact ⟨e, rfl, .here henv hv⟩
    · rename_i hfound
      obtain ⟨⟨i, b'⟩, hnear, heq⟩ := Option.map_eq_some_iff.mp hn
      cases heq
      -- A scope for a receiver would have been the nearest one.
      have hkind : s.kind ≠ .receiver := by
        intro hreceiver
        rcases hs s (.head _) with hp | rfl | rfl
        · exact hp.kind_ne_receiver hreceiver
        · cases hfound
        · cases hreceiver
      have hnone := ht.unbound ho (hk ▸ hkind) hnames
      obtain ⟨e', ha, hthis⟩ := ih (fun s hm => hs s (.tail _ hm)) hnear
      refine ⟨e', ?_, .outer henv hnone hout hthis⟩
      simpa [Heap.ancestor?, henv, hout] using ha

section

variable {programs : List (List Stmt)} {o : Origins} {c : Config}

theorem Config.Kept.retains (h : c.Kept programs o) :
    c.machine.heap.Retains c.step.machine.heap :=
  ⟨h.ages, fun _ _ hf => c.writes_step.keeps_functions hf⟩

/-- A `this` is evaluated in a method that runs on an object, and it is that object. -/
theorem Config.Arranged.receiver {m : Machine} {r : Reference} {fs : List Frame}
    (h : Config.Arranged ⟨m, .eval (.receiver r), fs⟩)
    (hk : Config.Kept programs o ⟨m, .eval (.receiver r), fs⟩) (hf : o.Faithful m.heap)
    (ht : o.Tidy) :
    (∃ k f i, m.heap.RunsOn m.environment k f i ∧ f.decl.Contains (.expr (.receiver r))) ∧
      ∀ k f i, m.heap.RunsOn m.environment k f i → m.read r = .ok (.object i) := by
  obtain ⟨hm, Γ, hs, hn, -⟩ := hk
  have hstanding := hm.standing hn
  have hlexeme : r.name.lexeme = "this" := hstanding.wellFormed.2
  obtain ⟨depth, hnearest, hdepth⟩ := hstanding.depth_of_receiver
  obtain ⟨e', ha, hnear⟩ :=
    hs.chain.nearestThis hstanding.shaped.stacked.mem hf hm.rooted ht hnearest
  constructor
  · rcases h.attached.control with hnone | hruns
    · exact nomatch hnear.unique hnone
    · exact hruns
  · rintro k f i ⟨⟨e'', env, hnear', henv, hthis, -⟩, -⟩
    obtain rfl : e' = e'' := Option.some.inj (hnear.unique hnear')
    have hlocal : m.heap.local? e' r.name.lexeme = some (.object i) := by
      rw [hlexeme, Heap.local?, henv]
      exact hthis
    have hholder := (Heap.getAt?_of_local ha hlocal).1
    simp [Machine.read, Machine.holder?, hdepth, hholder, hlocal]

theorem Machine.inherited_method {m : Machine} {r : Reference} {t : Token} {receiver : Value}
    {f : Closure} (h : m.inherited r t = .ok (receiver, .method f)) :
    ∃ k, m.heap.method? k t.lexeme = some f := by
  unfold inherited at h
  split at h
  · cases h
  · split at h
    · rename_i superclass _
      split at h
      · cases h
      · split at h
        · rename_i found hfound
          cases h
          exact ⟨superclass, hfound⟩
        · cases h
    · cases h

/-- A method that is bound is a method of its class still, so it knows whether it is an
initializer. -/
theorem Config.Kept.unbound (h : c.Kept programs o) {receiver : Value} {f : Closure}
    (hb : c.binding? = some (receiver, f)) : ∃ name, f.Unbound programs o name := by
  unfold Config.binding? at hb
  split at hb
  · rename_i m r t fs
    split at hb
    · rename_i hinherited
      cases hb
      obtain ⟨k, hk⟩ := Machine.inherited_method hinherited
      exact ⟨_, h.machine.remembers.method? hk⟩
    · cases hb
  · rename_i m v t fs
    split at hb
    · rename_i hproperty
      cases hb
      obtain ⟨k, hk⟩ := Machine.property_method hproperty
      exact ⟨_, h.machine.remembers.method? hk⟩
    · cases hb
  · cases hb

end

end Lox
