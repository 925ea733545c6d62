import Lox.Proofs.Machine.Blame
import Lox.Proofs.Machine.Receivers

/-! What `super` leads to, and that it stays so.

Where a method of a subclass runs on an object, `super` looks the method up from the superclass that
the class was made with, and gives it to that object. A step keeps what this rests on: it makes the
environment of a `this` only for a method that the receiver has. -/

namespace Lox

section

variable {programs : List (List Stmt)} {o : Origins}

/-- The superclass is that of the class of the method, the receiver the object it runs on. -/
theorem Config.Arranged.inherited {m : Machine} {r : Reference} {t : Token} {fs : List Frame}
    (h : Config.Arranged ⟨m, .eval (.inherited r t), fs⟩)
    (hk : Config.Kept programs o ⟨m, .eval (.inherited r t), fs⟩) (hf : o.Faithful m.heap)
    (ht : o.Tidy) :
    (∃ k f i, m.heap.RunsOn m.environment k f i ∧ f.decl.Contains (.expr (.inherited r t))) ∧
    ∀ k f i, m.heap.RunsOn m.environment k f i → ∃ cls name s, m.heap.class? k = some cls ∧
      cls.methods.get? name = some f ∧ cls.superclass = some s ∧
      m.inherited r t =
        match m.heap.method? s t.lexeme with
        | some found => .ok (.object i, .method found)
        | none => .error (undefinedProperty t) := by
  obtain ⟨hm, Γ, hs, hn, -⟩ := hk
  have hstanding := hm.standing hn
  have hin := hstanding.inSubclass (hm.derives hn)
  obtain ⟨depth, e', env, v, outer, hnearest, ha, ha', hnear, henv, hthis, hout⟩ :=
    hin.nearestThis hf hm.rooted ht hs.chain
  refine ⟨?_, fun k f i hruns => ?_⟩
  · rcases h.attached.control with hnone | hruns
    · exact nomatch hnear.unique hnone
    · exact hruns
  obtain ⟨⟨e'', env'', hnear', henv', hthis', hout'⟩, ⟨cls, name, hcls, hget⟩, -⟩ := hruns
  obtain rfl : e' = e'' := Option.some.inj (hnear.unique hnear')
  obtain rfl : env = env'' := Option.some.inj (henv.symm.trans henv')
  obtain rfl : outer = f.scope := Option.some.inj (hout.symm.trans hout')
  -- The two ways to say how far out `super` is agree.
  obtain ⟨near, hnearest', -, -, hdepth⟩ := hstanding.depth_of_inherited
  obtain ⟨far, e, s, receiver, hdepth', hae, hsuper, hreceiver, heq⟩ :=
    Machine.inherited_eq hf hm.rooted hm.supers hs.chain hstanding
  obtain rfl : depth = near := by simpa using hnearest.symm.trans hnearest'
  obtain rfl : depth = far := by simpa using hdepth.symm.trans hdepth'
  obtain rfl : f.scope = e := Option.some.inj (ha'.symm.trans hae)
  have hlocal : m.heap.local? e' "this" = some (.object i) := by
    rw [Heap.local?, henv]
    exact hthis'
  obtain rfl : Value.object i = receiver :=
    Option.some.inj ((Heap.getAt?_of_local ha hlocal).2.symm.trans hreceiver)
  obtain ⟨base, hbase, hclass⟩ := h.heap.classes k cls name f hcls hget
  rw [Heap.local?, hbase] at hsuper
  obtain ⟨s', hs', hvalue⟩ := Option.map_eq_some_iff.mp (hclass.symm.trans hsuper)
  obtain rfl : s' = s := Value.classValue.inj hvalue
  exact ⟨cls, name, s', hcls, hget, hs', heq⟩

end

theorem Machine.property_bound {m : Machine} {v receiver : Value} {t : Token} {f : Closure}
    (h : m.property v t = .ok (receiver, .method f)) : ∃ i object, v = .object i ∧
      receiver = .object i ∧ m.heap.object? i = some object ∧
      m.heap.method? object.ofClass t.lexeme = some f := by
  unfold property at h
  split at h
  · rename_i i
    split at h
    · rename_i found hp
      cases h
      unfold Heap.property? at hp
      split at hp
      · cases hp
      · rename_i object hobject
        split at hp
        · cases hp
        · obtain ⟨g, hg, heq⟩ := Option.map_eq_some_iff.mp hp
          cases heq
          exact ⟨i, object, rfl, rfl, hobject, hg⟩
    · cases h
  · cases h

/-- The object that the next step asks for a method: the one of which a property is read, or the one
that the method around a `super` runs on. -/
inductive Config.Asks : Config → ObjectId → Prop where
  | property {m i t fs} : Asks ⟨m, .done (.value (.object i)), .get t :: fs⟩ i
  | inherited {m r t fs k f i} : m.heap.RunsOn m.environment k f i →
    Asks ⟨m, .eval (.inherited r t), fs⟩ i

section

variable {programs : List (List Stmt)} {o : Origins} {c : Config}

/-- A method is bound only to the object that is asked for it, which has it. -/
theorem Config.Arranged.hasMethod (h : c.Arranged) (hk : c.Kept programs o)
    (hf : o.Faithful c.machine.heap) (ht : o.Tidy) {receiver : Value} {f : Closure}
    (hb : c.binding? = some (receiver, f)) :
    ∃ i k, receiver = .object i ∧ c.Asks i ∧ c.machine.heap.HasMethod i k f := by
  unfold Config.binding? at hb
  split at hb
  · split at hb
    · rename_i hinherited
      cases hb
      obtain ⟨⟨k, g, i, hruns, -⟩, hall⟩ := h.inherited hk hf ht
      obtain ⟨cls, name, s, hcls, -, hs, heq⟩ := hall k g i hruns
      rw [heq] at hinherited
      split at hinherited
      · rename_i found hfound
        cases hinherited
        obtain ⟨-, object, hobject, hdescends⟩ := hruns.has
        obtain ⟨j, hj⟩ := Heap.HasMethod.of_method? hobject
          (hdescends.trans (.up hcls hs .refl)) hfound
        exact ⟨i, j, rfl, .inherited hruns, hj⟩
      · cases hinherited
    · cases hb
  · split at hb
    · rename_i hproperty
      cases hb
      obtain ⟨i, object, rfl, rfl, hobject, hm⟩ := Machine.property_bound hproperty
      obtain ⟨k, hk⟩ := Heap.HasMethod.of_method? hobject .refl hm
      exact ⟨i, k, rfl, .property, hk⟩
    · cases hb
  · cases hb

/-- The parameters of a call leave the `this` around it in reach. -/
theorem Heap.environment?_entered (h : Heap) {f : Closure} (hf : f.decl.scope.Plain)
    (arguments : List Value) : ∃ env,
      (h.entered f arguments).environment? ⟨h.environments.size⟩ = some env ∧
        env.bindings.get? "this" = none ∧ env.enclosing = some f.scope := by
  refine ⟨_, (environment?_of_push (h.entered_environments f arguments)).2, ?_, rfl⟩
  rw [← Option.not_isSome_iff_eq_none, isSome_foldl_insert]
  rintro (⟨⟨p, v⟩, hp, hthis⟩ | hsome)
  · obtain ⟨t, ht, hname⟩ := hf.named (.named p) (List.mem_map_of_mem (List.of_mem_zip hp).1)
    cases ht
    exact hname.not_this hthis
  · cases hsome

theorem Config.Arranged.step_functions (h : c.Arranged) (hk : c.Kept programs o)
    (hf : o.Faithful c.machine.heap) (ht : o.Tidy) {id : FunctionId} {f : Closure}
    (hid : c.step.machine.heap.function? id = some f) :
    ∃ kind, c.step.machine.heap.Houses f.scope (.callable kind f.decl) := by
  have hages := hk.ages
  have hold (hid : c.machine.heap.function? id = some f) :
      ∃ kind, c.step.machine.heap.Houses f.scope (.callable kind f.decl) :=
    (h.heap.functions id f hid).imp fun kind hh => hh.ages hages
  rcases c.writes_step.functions with hsame | ⟨decl, hexec, hpush⟩ | ⟨receiver, g, hb, hheap⟩
  · exact hold (by rwa [Heap.function?, hsame] at hid)
  · rw [Heap.function?, hpush, Array.getElem?_push] at hid
    split at hid
    · obtain rfl := Option.some.inj hid
      have hhere := h.attached.control
      rw [hexec] at hhere
      have hdecl : c.machine.heap.Houses c.machine.environment (.callable .function decl) :=
        Heap.Houses.imp hhere fun f hc => hc.part (Γ := .top) .function fun kind g hg => by
          cases hg
          rfl
      exact ⟨.function, hdecl.ages hages⟩
    · exact hold hid
  · obtain ⟨i, k, rfl, -, hm⟩ := h.hasMethod hk hf ht hb
    have hfunctions : c.step.machine.heap.functions = c.machine.heap.functions.push
        ⟨g.decl, ⟨c.machine.heap.environments.size⟩, g.isInitializer⟩ := by
      rw [hheap]
      rfl
    have hnew : c.step.machine.heap.environment? ⟨c.machine.heap.environments.size⟩ =
        some ⟨Bindings.empty.insert "this" (.object i), some g.scope⟩ := by
      rw [hheap]
      exact (Heap.environment?_of_push (c.machine.heap.bindThis_environments g _)).2
    rw [Heap.function?, hfunctions, Array.getElem?_push] at hid
    split at hid
    · obtain rfl := Option.some.inj hid
      exact ⟨.function, (hm.ages hages).houses hnew (by simp) rfl _⟩
    · exact hold hid

/-- The scope of the methods of a new class has `super` if the class has a superclass. -/
theorem Machine.bases_declareClass {m : Machine} {t : Token} (ht : t.lexeme ≠ "super")
    (s : ClassId) (methods : List FunctionDecl) :
    (m.declareClass t (some s) methods).heap.Bases
      ((m.define t.lexeme .nil).methodScope (some s)).1 (some s) := by
  have hchild : ((m.define t.lexeme .nil).heap.child m.environment).2.environments =
    (m.define t.lexeme .nil).heap.environments.push ⟨Bindings.empty, some m.environment⟩ := rfl
  have hnew := (Heap.environment?_of_push (Heap.define_push hchild "super" (.classValue s))).2
  have hlocal : (m.declareClass t (some s) methods).heap.local?
      ((m.define t.lexeme .nil).methodScope (some s)).1 "super" = some (.classValue s) := by
    refine (Heap.local?_define _ _ _ _ _ _).trans ((if_neg fun hc => ht hc.2.1).trans ?_)
    refine (congrArg (Option.bind · _) hnew).trans ?_
    simp
  exact Option.bind_eq_some_iff.mp hlocal

theorem Config.Arranged.step_classes (h : c.Arranged) (hk : c.Kept programs o)
    (hf : o.Faithful c.machine.heap) {k : ClassId} {cls : Class} {name : String} {f : Closure}
    (hcls : c.step.machine.heap.class? k = some cls) (hget : cls.methods.get? name = some f) :
    c.step.machine.heap.Bases f.scope cls.superclass := by
  have hages := hk.ages
  have hold (hcls : c.machine.heap.class? k = some cls) :
      c.step.machine.heap.Bases f.scope cls.superclass :=
    (h.heap.classes k cls name f hcls hget).ages hages
  rcases c.writes_step.classes with hsame | ⟨t, r, methods, superclass, hexec, hr, hheap⟩
  · exact hold (by rwa [Heap.class?, hsame] at hcls)
  rw [Heap.class?, hheap, Machine.classes_declareClass, Array.getElem?_push] at hcls
  split at hcls
  · obtain rfl := Option.some.inj hcls
    obtain ⟨hm, hstands⟩ := hk
    rw [hexec] at hstands
    obtain ⟨Γ, hs, hn, -⟩ := hstands
    rw [(Machine.mem_declared hget).2]
    cases superclass with
    | none =>
      exact (hs.bases (hm.standing hn).flat hf hm.rooted h.heap.baseless).ages hages
    | some s =>
      rw [hheap]
      exact Machine.bases_declareClass (hm.standing hn).wellFormed.1.not_super s methods
  · exact hold hcls

/-- An initializer that a new object is given is run on the object. -/
theorem Config.Kept.runsOn_initializer (hk : c.Kept programs o) {k : ClassId} {method : Closure}
    {arguments : List Value} (hinit : c.machine.heap.initializer? k = some method)
    (hstep : c.step =
      Machine.enter { c.machine with heap := (c.machine.heap.instantiate k method).2 }
        c.frames.tail (c.machine.heap.instantiate k method).1 arguments
        (.object ⟨c.machine.heap.objects.size⟩)) :
    ∃ j, c.machine.heap.Finds "init" k j method ∧
      c.step.machine.heap.RunsOn ⟨(c.machine.heap.instantiate k method).2.environments.size⟩ j
        method ⟨c.machine.heap.objects.size⟩ := by
  have hages := hk.ages
  obtain ⟨Γ, outer, hn, -⟩ := hk.machine.remembers.method? hinit
  have hplain : (c.machine.heap.instantiate k method).1.decl.scope.Plain :=
    hk.machine.scope_plain hn
  obtain ⟨env, hnew, hthis, hout⟩ :=
    (c.machine.heap.instantiate k method).2.environment?_entered hplain arguments
  have hheap : c.step.machine.heap = (c.machine.heap.instantiate k method).2.entered
      (c.machine.heap.instantiate k method).1 arguments := by rw [hstep, Machine.heap_enter]
  rw [← hheap] at hnew
  have hbound : c.step.machine.heap.environment? ⟨c.machine.heap.environments.size⟩ =
      some ⟨Bindings.empty.insert "this" (.object ⟨c.machine.heap.objects.size⟩),
        some method.scope⟩ := by
    have hmid : (c.machine.heap.instantiate k method).2.environments =
      c.machine.heap.environments.push _ := Heap.bindThis_environments _ method _
    rw [hheap, Heap.environment?_push (Heap.entered_environments _ _ _), if_neg (by simp [hmid])]
    exact (Heap.environment?_of_push hmid).2
  have hobject : c.step.machine.heap.object? ⟨c.machine.heap.objects.size⟩ =
      some ⟨k, Bindings.empty⟩ := by
    rw [hheap, Heap.object?, (Heap.entered_other _ _ _).2.2]
    exact Array.getElem?_push_size
  obtain ⟨j, hfinds⟩ := Heap.finds_of_method? hinit
  obtain ⟨cls, hcls, hget⟩ := hfinds.defines
  have hmethod : c.step.machine.heap.HasMethod ⟨c.machine.heap.objects.size⟩ j method :=
    ⟨⟨cls, _, hages.classes j cls hcls, hget⟩, _, hobject, hfinds.descends.ages hages⟩
  have hruns := hmethod.runsOn hbound (by simp) rfl
  exact ⟨j, hfinds, hruns.nested hnew hthis hout⟩

/-- Each body is run in the reach of the `this` that it stands in. -/
theorem Config.Arranged.houses_opens (h : c.Arranged) (hk : c.Kept programs o)
    {e : EnvironmentId} {body : List Stmt} (ho : c.Opens e body) :
    c.step.machine.heap.Houses e (.body body) := by
  have hages := hk.ages
  have hinside {kind : FunctionContext} {g : FunctionDecl} {h : Heap} {e : EnvironmentId}
      (hh : h.Houses e (.callable kind g)) : h.Houses e (.body g.body) :=
    hh.imp fun f hc => hc.part (Γ := .top) .inside fun kind g hg => nomatch hg
  cases ho with
  | @block m body fs =>
    have hheap : (Config.step ⟨m, .exec (.block body), fs⟩).machine.heap =
      (m.heap.child m.environment).2 := Machine.heap_runBlock _ _ _ _
    have hchild : (m.heap.child m.environment).2.environments =
      m.heap.environments.push ⟨Bindings.empty, some m.environment⟩ := rfl
    have hblock : m.heap.Houses m.environment (.body body) :=
      Heap.Houses.imp h.attached.control fun f hc =>
        hc.part (Γ := .top) .block fun kind g hg => nomatch hg
    have hnew := (Heap.environment?_of_push hchild).2
    exact (hblock.ages hages).nested (hheap ▸ hnew) rfl rfl
  | @function _ f paren arguments closure result ha hid hstep =>
    obtain ⟨kind, hh⟩ := h.heap.functions f closure hid
    obtain ⟨Γ, kind', hn, -⟩ := hk.machine.remembers.functions f closure hid
    obtain ⟨env, hnew, hthis, hout⟩ :=
      c.machine.heap.environment?_entered (hk.machine.scope_plain hn) arguments
    rw [← Machine.heap_enter, ← hstep] at hnew
    exact hinside ((hh.ages hages).nested hnew hthis hout)
  | @initializer _ k paren arguments method ha hinit hstep =>
    obtain ⟨j, -, hruns⟩ := hk.runsOn_initializer hinit hstep
    have hh : c.step.machine.heap.Houses _ (.callable .method method.decl) :=
      .inr ⟨j, method, _, hruns, .itself⟩
    exact hinside hh

/-- A step leaves everything arranged. -/
theorem Config.Arranged.step (h : c.Arranged) (hk : c.Kept programs o)
    (hf : o.Faithful c.machine.heap) (ht : o.Tidy) : c.step.Arranged where
  heap :=
    ⟨h.heap.receiverless.ages hk.ages, h.heap.baseless.ages hk.ages,
      fun _ _ hid => h.step_functions hk hf ht hid,
      fun _ _ _ _ hcls hget => h.step_classes hk hf hcls hget⟩
  attached :=
    (h.attached.mono fun _ _ hh => Heap.Houses.ages hh hk.ages).step_toEnd
      (Heap.houses_passesOn _) fun _ _ ho => h.houses_opens hk ho

end

end Lox
