import Lox.Proofs.Machine.Ageing
import Lox.Proofs.Machine.Tidy

/-! Methods and their receivers.

Whatever runs in the reach of a `this` is code of a method, and `this` is bound for that method to
an object of its class or of a subclass. The environment of `this` stands in the scope that the
methods of the class share, and where the class has a superclass, that scope binds `super` to it. -/

namespace Lox

namespace Heap

/-- The nearest environment that binds `this`, from one outwards, if there is one. -/
inductive NearestThis (h : Heap) : EnvironmentId → Option EnvironmentId → Prop where
  | here {e env v} : h.environment? e = some env → env.bindings.get? "this" = some v →
    NearestThis h e (some e)
  | outer {e env outer found} : h.environment? e = some env → env.bindings.get? "this" = none →
    env.enclosing = some outer → NearestThis h outer found → NearestThis h e found
  | outermost {e env} : h.environment? e = some env → env.bindings.get? "this" = none →
    env.enclosing = none → NearestThis h e none

/-- An object is of a class with the given method or derives from one. -/
structure HasMethod (h : Heap) (i : ObjectId) (k : ClassId) (f : Closure) : Prop where
  method : ∃ cls name, h.class? k = some cls ∧ cls.methods.get? name = some f
  descends : ∃ object, h.object? i = some object ∧ h.Descends object.ofClass k

/-- What runs in an environment runs in a method of a class, on an object: the nearest `this` is the
object, and its environment was made for the method. -/
structure RunsOn (h : Heap) (e : EnvironmentId) (k : ClassId) (f : Closure) (i : ObjectId) :
    Prop where
  nearest : ∃ e' env, h.NearestThis e (some e') ∧ h.environment? e' = some env ∧
    env.bindings.get? "this" = some (.object i) ∧ env.enclosing = some f.scope
  has : h.HasMethod i k f

/-- A node can stand in an environment: outside of all methods, or in the method that runs there. -/
def Houses (h : Heap) (e : EnvironmentId) (n : Node) : Prop :=
  h.NearestThis e none ∨ ∃ k f i, h.RunsOn e k f i ∧ f.decl.Contains n

/-- An environment binds `super` to the superclass of a class, or not at all. -/
def Bases (h : Heap) (e : EnvironmentId) (superclass : Option ClassId) : Prop :=
  ∃ env, h.environment? e = some env ∧ env.bindings.get? "super" = superclass.map .classValue

/-- All that the heap holds is arranged around the receivers. -/
structure Arranged (h : Heap) : Prop where
  receiverless : h.NearestThis globals none
  baseless : h.Bases globals none
  functions : ∀ id f, h.function? id = some f → ∃ kind, h.Houses f.scope (.callable kind f.decl)
  classes : ∀ k cls name f, h.class? k = some cls → cls.methods.get? name = some f →
    h.Bases f.scope cls.superclass

end Heap

/-- So is all that is run or waits to be run. -/
structure Config.Arranged (c : Config) : Prop where
  heap : c.machine.heap.Arranged
  attached : c.Attached c.machine.heap.Houses []

theorem FunctionDecl.Contains.beside {f : FunctionDecl} {n m : Node} (h : f.Contains n)
    (hb : Node.Beside n m) : f.Contains m := by
  obtain ⟨Δ, hp, hlength⟩ := hb .top
  refine h.part hp ?_
  rintro kind g rfl
  cases hp with
  | function => rfl
  | @method t r fs => cases r <;> simp [Place.inClass, Place.top] at hlength

namespace Heap

variable {h h' : Heap} {e e' : EnvironmentId} {k : ClassId} {f : Closure} {i : ObjectId} {n : Node}

theorem NearestThis.unique {found found' : Option EnvironmentId} (hn : h.NearestThis e found)
    (hn' : h.NearestThis e found') : found = found' := by
  induction hn with
  | here he hv =>
    cases hn' with
    | here => rfl
    | outer he' hv' => grind
    | outermost he' hv' => grind
  | outer he hv hout _ ih =>
    cases hn' with
    | here he' hv' => grind
    | outer he' _ hout' hrest =>
      obtain rfl := Option.some.inj (he.symm.trans he')
      obtain rfl := Option.some.inj (hout.symm.trans hout')
      exact ih hrest
    | outermost he' _ hout' => grind
  | outermost he hv hout =>
    cases hn' with
    | here he' hv' => grind
    | outer he' _ hout' => grind
    | outermost => rfl

/-! Nothing of this is undone. -/

theorem NearestThis.ages {found : Option EnvironmentId} (hn : h.NearestThis e found)
    (ha : h.Ages h') : h'.NearestThis e found := by
  induction hn with
  | here he hv =>
    obtain ⟨env', he', -, hsame⟩ := ha.environments _ _ he
    exact .here he' ((hsame "this" (.inl rfl)).trans hv)
  | outer he hv hout _ ih =>
    obtain ⟨env', he', hout', hsame⟩ := ha.environments _ _ he
    exact .outer he' ((hsame "this" (.inl rfl)).trans hv) (hout'.trans hout) ih
  | outermost he hv hout =>
    obtain ⟨env', he', hout', hsame⟩ := ha.environments _ _ he
    exact .outermost he' ((hsame "this" (.inl rfl)).trans hv) (hout'.trans hout)

theorem HasMethod.ages (hm : h.HasMethod i k f) (ha : h.Ages h') : h'.HasMethod i k f := by
  obtain ⟨⟨cls, name, hcls, hget⟩, object, hobject, hdescends⟩ := hm
  obtain ⟨object', hobject', hclass⟩ := ha.objects i object hobject
  exact ⟨⟨cls, name, ha.classes k cls hcls, hget⟩, object', hobject', hclass ▸ hdescends.ages ha⟩

theorem RunsOn.ages (hr : h.RunsOn e k f i) (ha : h.Ages h') : h'.RunsOn e k f i := by
  obtain ⟨⟨e', env, hnear, henv, hthis, hout⟩, hm⟩ := hr
  obtain ⟨env', henv', hout', hsame⟩ := ha.environments e' env henv
  exact ⟨⟨e', env', hnear.ages ha, henv', (hsame "this" (.inl rfl)).trans hthis,
    hout'.trans hout⟩, hm.ages ha⟩

theorem Houses.ages (hh : h.Houses e n) (ha : h.Ages h') : h'.Houses e n :=
  hh.imp (·.ages ha) fun ⟨k, f, i, hr, hn⟩ => ⟨k, f, i, hr.ages ha, hn⟩

theorem Bases.ages {superclass : Option ClassId} (hb : h.Bases e superclass) (ha : h.Ages h') :
    h'.Bases e superclass := by
  obtain ⟨env, henv, hsuper⟩ := hb
  obtain ⟨env', henv', -, hsame⟩ := ha.environments e env henv
  exact ⟨env', henv', (hsame "super" (.inr rfl)).trans hsuper⟩

/-! How it passes on. -/

theorem Houses.imp {m : Node} (hh : h.Houses e n)
    (hc : ∀ f : FunctionDecl, f.Contains n → f.Contains m) : h.Houses e m :=
  Or.imp_right (fun ⟨k, f, i, hr, hn⟩ => ⟨k, f, i, hr, hc f.decl hn⟩) hh

theorem houses_passesOn (h : Heap) : PassesOn h.Houses :=
  ⟨fun hh hb => hh.imp fun _ hc => hc.beside hb⟩

/-- The environment of a block or of a call is in the reach of the same `this`. -/
theorem RunsOn.nested {env : Environment} (hr : h.RunsOn e k f i)
    (he' : h.environment? e' = some env) (hthis : env.bindings.get? "this" = none)
    (hout : env.enclosing = some e) : h.RunsOn e' k f i :=
  let ⟨⟨e'', env', hnear, hbound⟩, hm⟩ := hr
  ⟨⟨e'', env', .outer he' hthis hout hnear, hbound⟩, hm⟩

theorem Houses.nested {env : Environment} (hh : h.Houses e n) (he' : h.environment? e' = some env)
    (hthis : env.bindings.get? "this" = none) (hout : env.enclosing = some e) :
    h.Houses e' n := by
  rcases hh with hnone | ⟨k, f, i, hr, hn⟩
  · exact .inl (.outer he' hthis hout hnone)
  · exact .inr ⟨k, f, i, hr.nested he' hthis hout, hn⟩

/-- A new environment with the receiver is that of the method. -/
theorem HasMethod.runsOn {env : Environment} (hm : h.HasMethod i k f)
    (he : h.environment? e = some env) (hthis : env.bindings.get? "this" = some (.object i))
    (hout : env.enclosing = some f.scope) : h.RunsOn e k f i :=
  ⟨⟨e, env, .here he hthis, he, hthis, hout⟩, hm⟩

theorem HasMethod.houses {env : Environment} (hm : h.HasMethod i k f)
    (he : h.environment? e = some env) (hthis : env.bindings.get? "this" = some (.object i))
    (hout : env.enclosing = some f.scope) (kind : FunctionContext) :
    h.Houses e (.callable kind f.decl) :=
  .inr ⟨k, f, i, hm.runsOn he hthis hout, .itself⟩

/-- An object has each method that a lookup in its class finds. -/
theorem HasMethod.of_method? {object : Object} {name : String} (hi : h.object? i = some object)
    {s : ClassId} (hs : h.Descends object.ofClass s) (hm : h.method? s name = some f) :
    ∃ k, h.HasMethod i k f := by
  obtain ⟨k, hfinds⟩ := finds_of_method? hm
  obtain ⟨cls, hcls, hget⟩ := hfinds.defines
  exact ⟨k, ⟨cls, name, hcls, hget⟩, object, hi, hs.trans hfinds.descends⟩

end Heap

section

variable {programs : List (List Stmt)} {o : Origins} {h : Heap}

theorem Machine.Kept.derives {m : Machine} (hm : m.Kept programs o) {Γ : Place} {n : Node}
    (hn : Known programs Γ n) : Γ.Derives :=
  let ⟨p, hp, hmeets⟩ := hn
  hmeets.derives (hm.accepted p hp).1 (hm.accepted p hp).2

/-- An environment inside another one binds what the scope that it was made for introduces. -/
theorem Origins.Faithful.inside (hf : o.Faithful h) (hr : o.Rooted) {e outer : EnvironmentId}
    {scope : OpenScope} (ho : o.of? e = some ⟨scope, some outer⟩) (x : String) :
    ∃ env, h.environment? e = some env ∧ env.enclosing = some outer ∧
      ((env.bindings.get? x).isSome = true ↔ ∃ b ∈ scope.binders, b.name = x) := by
  obtain ⟨env, henv, hout⟩ := Option.map_eq_some_iff.mp (hf.outer e _ ho)
  have hglobals : e ≠ Heap.globals := by
    rintro rfl
    obtain ⟨binders, hg⟩ := hr
    cases hg.symm.trans ho
  have hnames := hf.names e _ ho hglobals x
  rw [Heap.binds, Heap.local?, henv] at hnames
  exact ⟨env, henv, hout, hnames⟩

theorem Origins.Tidy.unbound (ht : o.Tidy) {e outer : EnvironmentId} {scope : OpenScope}
    (ho : o.of? e = some ⟨scope, some outer⟩) (hk : scope.kind ≠ .receiver) {env : Environment}
    (hnames : (env.bindings.get? "this").isSome = true ↔ ∃ b ∈ scope.binders, b.name = "this") :
    env.bindings.get? "this" = none := by
  rw [← Option.not_isSome_iff_eq_none, hnames]
  rintro ⟨b, hb, hthis⟩
  exact hk (ht e _ ho b hb hthis)

/-- In a method of a subclass the nearest `this` is one environment nearer than the `super` that
analysis has found. -/
theorem InSubclass.nearestThis {opens : List OpenScope} (hin : InSubclass opens)
    (hf : o.Faithful h) (hr : o.Rooted) (ht : o.Tidy) : ∀ {e : EnvironmentId}, Chain o e opens →
    ∃ i e' env v outer, nearest? "super" opens = some (i + 1, .superclass) ∧
      h.ancestor? e i = some e' ∧ h.ancestor? e (i + 1) = some outer ∧
      h.NearestThis e (some e') ∧ h.environment? e' = some env ∧
      env.bindings.get? "this" = some v ∧ env.enclosing = some outer := by
  induction hin with
  | method =>
    intro e hc
    cases hc with
    | @nested _ outer actual _ _ ho _ hb _ =>
      obtain ⟨env, henv, hout, hnames⟩ := hf.inside hr ho "this"
      obtain ⟨v, hv⟩ := Option.isSome_iff_exists.mp
        (hnames.mpr ⟨.receiver, hb.subset (.head _), rfl⟩)
      exact ⟨0, e, env, v, outer, rfl, rfl, by simp [Heap.ancestor?, henv, hout], .here henv hv,
        henv, hv, hout⟩
  | nested hs _ ih =>
    intro e hc
    cases hc with
    | @nested _ outer actual _ _ ho hk _ hrest =>
      obtain ⟨env, henv, hout, hnames⟩ := hf.inside hr ho "this"
      have hnone := ht.unbound ho (hk ▸ hs.kind_ne_receiver) hnames
      obtain ⟨i, e', env', v, outer', hnear, ha, ha', hthis, hbound⟩ := ih hrest
      have hup (count : Nat) : h.ancestor? e (count + 1) = h.ancestor? outer count := by
        simp [Heap.ancestor?, henv, hout]
      exact ⟨i + 1, e', env', v, outer', by rw [hs.nearest?_super, hnear]; rfl, (hup i).trans ha,
        (hup (i + 1)).trans ha', .outer henv hnone hout hthis, hbound⟩

/-- A scope in which statements stand does not bind `super`. -/
theorem Stands.bases {e : EnvironmentId} {Γ : Place} (hs : Stands o e Γ.opens) (hflat : Γ.Flat)
    (hf : o.Faithful h) (hr : o.Rooted) (hbase : h.Bases Heap.globals none) : h.Bases e none := by
  cases hopens : Γ.opens with
  | nil =>
    rw [hopens] at hs
    exact hs.chain.eq_globals ▸ hbase
  | cons s rest =>
    have hplain : s.Plain := hflat s (by simp [hopens])
    obtain ⟨outer, ho⟩ := hs.exact s (by simp [hopens])
    obtain ⟨env, henv, -, hnames⟩ := hf.inside hr ho "super"
    refine ⟨env, henv, Option.not_isSome_iff_eq_none.mp fun hsome => ?_⟩
    obtain ⟨b, hb, hname⟩ := hnames.mp hsome
    obtain ⟨t, rfl, ht⟩ := hplain.named b hb
    exact ht.not_super hname

end

end Lox
