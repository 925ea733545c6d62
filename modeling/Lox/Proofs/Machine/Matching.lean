import Lox.Proofs.Machine.Growth
import Lox.Proofs.Machine.Reading
import Lox.Proofs.Machine.Respelling
import Lox.Proofs.Scope.Wrapping

/-! Heaps of programs with blocks around the bodies of loops.

Which environments of the two heaps stand for each other is a relation that only grows. It says
also which of the environments around the second one are there for a wrapper; an environment that
is there for one has no bindings of interest, and stands for the environment around it. Functions
and classes close over environments that stand for each other, and objects are the same. -/

namespace Lox

/-- Which environments stand for each other, with the layout of the scopes from there outwards. -/
abbrev Matching := EnvironmentId → EnvironmentId → Layout → Prop

namespace Matching

def add (R : Matching) (e e' : EnvironmentId) (p : Layout) : Matching :=
  fun i i' q => R i i' q ∨ i = e ∧ i' = e' ∧ q = p

/-- The environments have the same bindings. -/
def Pairs (R : Matching) (e e' : EnvironmentId) : Prop := ∃ p : Layout, p.Open ∧ R e e' p

variable {R S : Matching} {e e' : EnvironmentId} {p : Layout}

theorem le_add : R ≤ R.add e e' p := fun _ _ _ h => .inl h

theorem add_self : R.add e e' p e e' p := .inr ⟨rfl, rfl, rfl⟩

theorem Pairs.mono (h : R.Pairs e e') (hle : R ≤ S) : S.Pairs e e' :=
  let ⟨p, hp, hr⟩ := h
  ⟨p, hp, hle _ _ _ hr⟩

end Matching

/-- The environment around another one. -/
def Heap.outer? (h : Heap) (e : EnvironmentId) : Option EnvironmentId :=
  (h.environment? e).bind (·.enclosing)

/-- The environments of the second heap are those of the first one and the wrappers. -/
structure Heap.Matches (R : Matching) (h h' : Heap) : Prop where
  globals : R Heap.globals Heap.globals []
  root : (h.environment? Heap.globals).map (·.enclosing) = some none
  root' : (h'.environment? Heap.globals).map (·.enclosing) = some none
  outermost : ∀ {e e'}, R e e' [] → e = Heap.globals ∧ e' = Heap.globals
  shared : ∀ {e e' p}, R e e' (.shared :: p) →
    ∃ o o', h.outer? e = some o ∧ h'.outer? e' = some o' ∧ R o o' p
  wrapper : ∀ {e e' p}, R e e' (.wrapper :: p) → ∃ o', h'.outer? e' = some o' ∧ R e o' p
  bindings : ∀ {e e'}, R.Pairs e e' → ∃ env env', h.environment? e = some env ∧
    h'.environment? e' = some env' ∧ env'.bindings = env.bindings
  distinct : ∀ {e e' i i'}, R.Pairs e e' → R.Pairs i i' → (e = i ↔ e' = i')

namespace Heap

variable {R : Matching} {h h' k k' : Heap} {e e' : EnvironmentId} {p : Layout} {x : String}

theorem ancestor?_succ (h : Heap) (e : EnvironmentId) (distance : Nat) :
    h.ancestor? e (distance + 1) = (h.outer? e).bind (h.ancestor? · distance) := by
  rw [ancestor?, ← outer?]
  cases h.outer? e <;> rfl

theorem outer?_of_root (hr : (h.environment? e).map (·.enclosing) = some none) :
    h.outer? e = none := by
  obtain ⟨env, henv, hout⟩ := Option.map_eq_some_iff.mp hr
  rw [outer?, henv]
  exact hout

theorem environment?_of_outer? {o : EnvironmentId} (ho : h.outer? e = some o) :
    (h.environment? e).isSome = true := by
  obtain ⟨env, henv, -⟩ := Option.bind_eq_some_iff.mp ho
  rw [henv]
  rfl

/-- What is there already stays as it is. -/
theorem environment?_old {env : Environment} (hk : k.environments = h.environments.push env)
    (he : (h.environment? e).isSome = true) : k.environment? e = h.environment? e := by
  rw [environment?_push hk, if_neg (Nat.ne_of_lt (index_lt_of_isSome he))]

theorem outer?_old {env : Environment} (hk : k.environments = h.environments.push env)
    {o : EnvironmentId} (ho : h.outer? e = some o) : k.outer? e = some o := by
  rw [outer?, environment?_old hk (environment?_of_outer? ho)]
  exact ho

theorem outer?_new {b : Bindings Value} {o : EnvironmentId}
    (hk : k.environments = h.environments.push ⟨b, some o⟩) :
    k.outer? ⟨h.environments.size⟩ = some o := by
  rw [outer?, (environment?_of_push hk).2]
  rfl

theorem outer?_define (h : Heap) (i : EnvironmentId) (x : String) (v : Value) :
    (h.define i x v).outer? e = h.outer? e := by
  rw [outer?, environment?_define, outer?]
  split
  · cases h.environment? e <;> rfl
  · rfl

theorem new_ne (he : (h.environment? e).isSome = true) : e ≠ ⟨h.environments.size⟩ := by
  rintro rfl
  exact absurd (index_lt_of_isSome he) (Nat.lt_irrefl _)

namespace Matches

theorem congr (hm : h.Matches R h') (hk : k.environments = h.environments)
    (hk' : k'.environments = h'.environments) : k.Matches R k' := by
  have he (e : EnvironmentId) : k.environment? e = h.environment? e := by
    rw [environment?, hk, environment?]
  have he' (e : EnvironmentId) : k'.environment? e = h'.environment? e := by
    rw [environment?, hk', environment?]
  obtain ⟨hglobals, hroot, hroot', houtermost, hshared, hwrapper, hbindings, hdistinct⟩ := hm
  refine ⟨hglobals, by rw [he, hroot], by rw [he', hroot'], houtermost, fun hr => ?_, fun hr => ?_,
    fun hr => ?_, hdistinct⟩
  · obtain ⟨o, o', ho, ho', hr⟩ := hshared hr
    exact ⟨o, o', by rw [outer?, he]; exact ho, by rw [outer?, he']; exact ho', hr⟩
  · obtain ⟨o', ho', hr⟩ := hwrapper hr
    exact ⟨o', by rw [outer?, he']; exact ho', hr⟩
  · rw [he, he']
    exact hbindings hr

section

variable (hm : h.Matches R h')

include hm

theorem pairs_globals : R.Pairs Heap.globals Heap.globals := ⟨[], Layout.open_nil, hm.globals⟩

theorem exists_environment (hr : R e e' p) :
    (h.environment? e).isSome = true ∧ (h'.environment? e').isSome = true := by
  have hpairs {p : Layout} {e e' : EnvironmentId} (hp : p.Open) (hr : R e e' p) :
      (h.environment? e).isSome = true ∧ (h'.environment? e').isSome = true := by
    obtain ⟨env, env', he, he', -⟩ := hm.bindings ⟨p, hp, hr⟩
    rw [he, he']
    exact ⟨rfl, rfl⟩
  induction p generalizing e' with
  | nil => exact hpairs Layout.open_nil hr
  | cons layer outer ih =>
    cases layer with
    | shared => exact hpairs (Layout.open_shared outer) hr
    | wrapper =>
      obtain ⟨o', ho', hr'⟩ := hm.wrapper hr
      exact ⟨(ih hr').1, environment?_of_outer? ho'⟩

theorem local?_eq (hp : R.Pairs e e') : h'.local? e' x = h.local? e x := by
  obtain ⟨env, env', he, he', hb⟩ := hm.bindings hp
  rw [local?, he', local?, he, Option.bind_some, Option.bind_some, hb]

theorem binds_eq (hp : R.Pairs e e') : h'.binds e' x = h.binds e x := by
  rw [binds, hm.local?_eq hp, binds]

/-- A walk outwards passes the wrappers on the way. -/
theorem ancestor? (hr : R e e' p) (depth : Nat) :
    Option.Rel R.Pairs (h.ancestor? e depth) (h'.ancestor? e' (p.lift depth)) := by
  induction p generalizing e e' depth with
  | nil =>
    obtain ⟨rfl, rfl⟩ := hm.outermost hr
    cases depth with
    | zero => exact .some hm.pairs_globals
    | succ depth =>
      rw [Layout.lift, ancestor?_succ, ancestor?_succ, outer?_of_root hm.root,
        outer?_of_root hm.root']
      exact .none
  | cons layer outer ih =>
    cases layer with
    | shared =>
      cases depth with
      | zero => exact .some ⟨_, Layout.open_shared outer, hr⟩
      | succ depth =>
        obtain ⟨o, o', ho, ho', hr'⟩ := hm.shared hr
        rw [Layout.lift, ancestor?_succ, ancestor?_succ, ho, ho']
        exact ih hr' depth
    | wrapper =>
      obtain ⟨o', ho', hr'⟩ := hm.wrapper hr
      rw [Layout.lift, ancestor?_succ, ho']
      exact ih hr' depth

theorem holderAt? (hr : R e e' p) (depth : Nat) (x : String) :
    Option.Rel R.Pairs (h.holderAt? e depth x) (h'.holderAt? e' (p.lift depth) x) := by
  rw [Heap.holderAt?, Heap.holderAt?]
  have ha := hm.ancestor? hr depth
  generalize h.ancestor? e depth = found at ha ⊢
  generalize h'.ancestor? e' (p.lift depth) = found' at ha ⊢
  cases ha with
  | none => exact .none
  | some hp =>
    rw [Option.filter_some, Option.filter_some, hm.binds_eq hp]
    split
    · exact .some hp
    · exact .none

theorem getAt?_eq (hr : R e e' p) (depth : Nat) (x : String) :
    h'.getAt? e' (p.lift depth) x = h.getAt? e depth x := by
  rw [Heap.getAt?_eq, Heap.getAt?_eq]
  have ha := hm.ancestor? hr depth
  generalize h.ancestor? e depth = found at ha ⊢
  generalize h'.ancestor? e' (p.lift depth) = found' at ha ⊢
  cases ha with
  | none => rfl
  | some hp => exact hm.local?_eq hp

theorem holder?_globals (x : String) :
    Option.Rel R.Pairs (h.holder? Heap.globals x) (h'.holder? Heap.globals x) := by
  rw [holder?_of_outermost hm.root, holder?_of_outermost hm.root', hm.binds_eq hm.pairs_globals]
  split
  · exact .some hm.pairs_globals
  · exact .none

/-- The same name gets the same value in both heaps. -/
theorem define (hp : R.Pairs e e') (x : String) (v : Value) :
    (h.define e x v).Matches R (h'.define e' x v) := by
  refine ⟨hm.globals, by rw [enclosing_define, hm.root], by rw [enclosing_define, hm.root'],
    hm.outermost, fun hr => ?_, fun hr => ?_, fun {i i'} hi => ?_, hm.distinct⟩
  · simp only [outer?_define]
    exact hm.shared hr
  · simp only [outer?_define]
    exact hm.wrapper hr
  · obtain ⟨env, env', henv, henv', hb⟩ := hm.bindings hi
    rw [environment?_define, environment?_define, henv, henv']
    by_cases he : e = i
    · rw [if_pos he, if_pos ((hm.distinct hp hi).mp he)]
      exact ⟨_, _, rfl, rfl, congrArg (·.insert x v) hb⟩
    · rw [if_neg he, if_neg fun he' => he ((hm.distinct hp hi).mpr he')]
      exact ⟨env, env', rfl, rfl, hb⟩

/-- Both heaps get an environment with the same bindings. -/
theorem push (hr : R e e' p) {b : Bindings Value}
    (hk : k.environments = h.environments.push ⟨b, some e⟩)
    (hk' : k'.environments = h'.environments.push ⟨b, some e'⟩) :
    k.Matches (R.add ⟨h.environments.size⟩ ⟨h'.environments.size⟩ (.shared :: p)) k' := by
  have hold {i i' : EnvironmentId} (hi : R.Pairs i i') : i ≠ ⟨h.environments.size⟩ ∧
      i' ≠ ⟨h'.environments.size⟩ := by
    obtain ⟨q, -, hq⟩ := hi
    obtain ⟨he, he'⟩ := hm.exists_environment hq
    exact ⟨new_ne he, new_ne he'⟩
  have hcases {i i' : EnvironmentId} (hi : (R.add ⟨h.environments.size⟩ ⟨h'.environments.size⟩
      (.shared :: p)).Pairs i i') :
      R.Pairs i i' ∨ i = ⟨h.environments.size⟩ ∧ i' = ⟨h'.environments.size⟩ := by
    obtain ⟨q, hq, hi | ⟨hi, hi', -⟩⟩ := hi
    · exact .inl ⟨q, hq, hi⟩
    · exact .inr ⟨hi, hi'⟩
  obtain ⟨hglobal, hglobal'⟩ := hm.exists_environment hm.globals
  refine ⟨.inl hm.globals, ?_, ?_, ?_, ?_, ?_, ?_, ?_⟩
  · rw [environment?_old hk hglobal, hm.root]
  · rw [environment?_old hk' hglobal', hm.root']
  · rintro i i' (hi | ⟨-, -, hi⟩)
    · exact hm.outermost hi
    · cases hi
  · rintro i i' q (hi | ⟨rfl, rfl, hi⟩)
    · obtain ⟨o, o', ho, ho', hr'⟩ := hm.shared hi
      exact ⟨o, o', outer?_old hk ho, outer?_old hk' ho', .inl hr'⟩
    · cases hi
      exact ⟨e, e', outer?_new hk, outer?_new hk', .inl hr⟩
  · rintro i i' q (hi | ⟨-, -, hi⟩)
    · obtain ⟨o', ho', hr'⟩ := hm.wrapper hi
      exact ⟨o', outer?_old hk' ho', .inl hr'⟩
    · cases hi
  · intro i i' hi
    rcases hcases hi with hi | ⟨rfl, rfl⟩
    · obtain ⟨env, env', henv, henv', hb⟩ := hm.bindings hi
      refine ⟨env, env', ?_, ?_, hb⟩
      · rw [environment?_old hk (by rw [henv]; rfl), henv]
      · rw [environment?_old hk' (by rw [henv']; rfl), henv']
    · exact ⟨_, _, (environment?_of_push hk).2, (environment?_of_push hk').2, rfl⟩
  · intro i i' j j' hi hj
    rcases hcases hi with hi | ⟨rfl, rfl⟩ <;> rcases hcases hj with hj | ⟨rfl, rfl⟩
    · exact hm.distinct hi hj
    · exact iff_of_false (hold hi).1 (hold hi).2
    · exact iff_of_false (hold hj).1.symm (hold hj).2.symm
    · exact iff_of_true rfl rfl

/-- A wrapper is only in the second heap. -/
theorem wrap (hr : R e e' p) {b : Bindings Value}
    (hk' : k'.environments = h'.environments.push ⟨b, some e'⟩) :
    h.Matches (R.add e ⟨h'.environments.size⟩ (.wrapper :: p)) k' := by
  have hcases {i i' : EnvironmentId}
      (hi : (R.add e ⟨h'.environments.size⟩ (.wrapper :: p)).Pairs i i') : R.Pairs i i' := by
    obtain ⟨q, hq, hi | ⟨-, -, rfl⟩⟩ := hi
    · exact ⟨q, hq, hi⟩
    · exact absurd hq (Layout.not_open_wrapper p)
  obtain ⟨-, hglobal'⟩ := hm.exists_environment hm.globals
  refine ⟨.inl hm.globals, hm.root, ?_, ?_, ?_, ?_, ?_, ?_⟩
  · rw [environment?_old hk' hglobal', hm.root']
  · rintro i i' (hi | ⟨-, -, hi⟩)
    · exact hm.outermost hi
    · cases hi
  · rintro i i' q (hi | ⟨-, -, hi⟩)
    · obtain ⟨o, o', ho, ho', hr'⟩ := hm.shared hi
      exact ⟨o, o', ho, outer?_old hk' ho', .inl hr'⟩
    · cases hi
  · rintro i i' q (hi | ⟨rfl, rfl, hi⟩)
    · obtain ⟨o', ho', hr'⟩ := hm.wrapper hi
      exact ⟨o', outer?_old hk' ho', .inl hr'⟩
    · cases hi
      exact ⟨e', outer?_new hk', .inl hr⟩
  · intro i i' hi
    obtain ⟨env, env', henv, henv', hb⟩ := hm.bindings (hcases hi)
    exact ⟨env, env', henv, by rw [environment?_old hk' (by rw [henv']; rfl), henv'], hb⟩
  · exact fun hi hj => hm.distinct (hcases hi) (hcases hj)

end

end Matches

end Heap

/-- The functions close over environments that stand for each other, with the given scopes still to
come between those and their own. -/
def Closure.Wraps (w : Tables) (R : Matching) (inner : Layout) (f f' : Closure) : Prop :=
  f'.isInitializer = f.isInitializer ∧ ∃ (p : Layout) (kind : FunctionContext), p.Open ∧
    R f.scope f'.scope p ∧
    Lox.Wraps w.links true (inner ++ p) (.callable kind f.decl) (.callable kind f'.decl)

/-- The scope of its receiver comes around a method when it is bound to it. -/
structure Class.Wraps (w : Tables) (R : Matching) (c c' : Class) : Prop where
  name : c'.name = c.name
  superclass : c'.superclass = c.superclass
  methods : ∀ x, Option.Rel (Closure.Wraps w R [.shared]) (c.methods.get? x) (c'.methods.get? x)

inductive Property.Wraps (w : Tables) (R : Matching) : Property → Property → Prop where
  | field (v : Value) : Wraps w R (.field v) (.field v)
  | method {f f' : Closure} : f.Wraps w R [.shared] f' → Wraps w R (.method f) (.method f')

/-- The second heap is that of the wrapped program. -/
structure Heap.Wraps (w : Tables) (R : Matching) (h h' : Heap) : Prop where
  environments : h.Matches R h'
  functions : List.Forall₂ (Closure.Wraps w R []) h.functions.toList h'.functions.toList
  classes : List.Forall₂ (Class.Wraps w R) h.classes.toList h'.classes.toList
  objects : h'.objects = h.objects

section

variable {w : Tables} {R S : Matching} {inner : Layout} {f f' : Closure}

theorem Closure.Wraps.mono (hf : f.Wraps w R inner f') (hle : R ≤ S) : f.Wraps w S inner f' := by
  obtain ⟨hinit, p, kind, hp, hr, hdecl⟩ := hf
  exact ⟨hinit, p, kind, hp, hle _ _ _ hr, hdecl⟩

theorem Closure.Wraps.name_eq (hf : f.Wraps w R inner f') : f'.decl.name = f.decl.name := by
  obtain ⟨-, p, kind, -, -, hdecl⟩ := hf
  exact hdecl.name_eq.1

theorem Closure.Wraps.params_eq (hf : f.Wraps w R inner f') : f'.decl.params = f.decl.params := by
  obtain ⟨-, p, kind, -, -, hdecl⟩ := hf
  exact hdecl.name_eq.2

theorem rel_mono {α β : Type} {r q : α → β → Prop} (hle : ∀ a b, r a b → q a b)
    {a : Option α} {b : Option β} (h : Option.Rel r a b) : Option.Rel q a b := by
  cases h with
  | none => exact .none
  | some h => exact .some (hle _ _ h)

theorem Class.Wraps.mono {c c' : Class} (hc : c.Wraps w R c') (hle : R ≤ S) : c.Wraps w S c' :=
  ⟨hc.name, hc.superclass, fun x => rel_mono (fun _ _ hf => hf.mono hle) (hc.methods x)⟩

theorem forall₂_getElem? {α β : Type} {r : α → β → Prop} {as : List α} {bs : List β}
    (h : List.Forall₂ r as bs) (i : Nat) : Option.Rel r as[i]? bs[i]? := by
  induction h generalizing i with
  | nil => exact .none
  | cons h _ ih =>
    cases i with
    | zero => exact .some h
    | succ i => exact ih i

end

namespace Heap.Wraps

variable {w : Tables} {R S : Matching} {h h' k k' : Heap} {e e' : EnvironmentId} {p : Layout}
  {f f' : Closure} {x : String}

section

variable (hw : h.Wraps w R h')

include hw

theorem grow (hle : R ≤ S) (henv : k.Matches S k') (hk : k.functions = h.functions ∧
    k.classes = h.classes ∧ k.objects = h.objects) (hk' : k'.functions = h'.functions ∧
    k'.classes = h'.classes ∧ k'.objects = h'.objects) : k.Wraps w S k' := by
  refine ⟨henv, ?_, ?_, ?_⟩
  · rw [hk.1, hk'.1]
    exact hw.functions.imp fun _ _ hf => hf.mono hle
  · rw [hk.2.1, hk'.2.1]
    exact hw.classes.imp fun _ _ hc => hc.mono hle
  · rw [hk.2.2, hk'.2.2, hw.objects]

/-- Both heaps get an environment. -/
theorem opened (hr : R e e' p) {b : Bindings Value}
    (he : k.environments = h.environments.push ⟨b, some e⟩)
    (he' : k'.environments = h'.environments.push ⟨b, some e'⟩)
    (hk : k.functions = h.functions ∧ k.classes = h.classes ∧ k.objects = h.objects)
    (hk' : k'.functions = h'.functions ∧ k'.classes = h'.classes ∧ k'.objects = h'.objects) :
    k.Wraps w (R.add ⟨h.environments.size⟩ ⟨h'.environments.size⟩ (.shared :: p)) k' :=
  hw.grow Matching.le_add (hw.environments.push hr he he') hk hk'

theorem child (hr : R e e' p) : (h.child e).2.Wraps w
    (R.add ⟨h.environments.size⟩ ⟨h'.environments.size⟩ (.shared :: p)) (h'.child e').2 :=
  hw.opened hr rfl rfl ⟨rfl, rfl, rfl⟩ ⟨rfl, rfl, rfl⟩

theorem wrapped (hr : R e e' p) :
    h.Wraps w (R.add e ⟨h'.environments.size⟩ (.wrapper :: p)) (h'.child e').2 :=
  hw.grow Matching.le_add (hw.environments.wrap hr rfl) ⟨rfl, rfl, rfl⟩ ⟨rfl, rfl, rfl⟩

theorem define (hp : R.Pairs e e') (x : String) (v : Value) :
    (h.define e x v).Wraps w R (h'.define e' x v) :=
  hw.grow (fun _ _ _ h => h) (hw.environments.define hp x v) ⟨rfl, rfl, rfl⟩ ⟨rfl, rfl, rfl⟩

theorem newFunction (hf : f.Wraps w R [] f') : (h'.newFunction f').1 = (h.newFunction f).1 ∧
    (h.newFunction f).2.Wraps w R (h'.newFunction f').2 := by
  refine ⟨?_, hw.environments.congr rfl rfl, ?_, hw.classes, hw.objects⟩
  · have hsize : h.functions.size = h'.functions.size := by simpa using hw.functions.length_eq
    rw [Heap.newFunction, Heap.newFunction, hsize]
  · rw [Heap.newFunction, Heap.newFunction, Array.toList_push, Array.toList_push]
    exact List.rel_append hw.functions (.cons hf .nil)

theorem newClass {c c' : Class} (hc : c.Wraps w R c') : (h'.newClass c').1 = (h.newClass c).1 ∧
    (h.newClass c).2.Wraps w R (h'.newClass c').2 := by
  refine ⟨?_, hw.environments.congr rfl rfl, hw.functions, ?_, hw.objects⟩
  · have hsize : h.classes.size = h'.classes.size := by simpa using hw.classes.length_eq
    rw [Heap.newClass, Heap.newClass, hsize]
  · rw [Heap.newClass, Heap.newClass, Array.toList_push, Array.toList_push]
    exact List.rel_append hw.classes (.cons hc .nil)

theorem newObject (o : Object) : (h'.newObject o).1 = (h.newObject o).1 ∧
    (h.newObject o).2.Wraps w R (h'.newObject o).2 := by
  refine ⟨by rw [Heap.newObject, Heap.newObject, hw.objects], hw.environments.congr rfl rfl,
    hw.functions, hw.classes, ?_⟩
  rw [Heap.newObject, Heap.newObject, hw.objects]

theorem setField (o : ObjectId) (x : String) (v : Value) :
    (h.setField o x v).Wraps w R (h'.setField o x v) := by
  refine ⟨hw.environments.congr rfl rfl, hw.functions, hw.classes, ?_⟩
  rw [Heap.setField, Heap.setField, hw.objects]

theorem bindThis (hf : f.Wraps w R [.shared] f') (receiver : Value) :
    ∃ S, R ≤ S ∧ (h.bindThis f receiver).1.Wraps w S [] (h'.bindThis f' receiver).1 ∧
      (h.bindThis f receiver).2.Wraps w S (h'.bindThis f' receiver).2 := by
  obtain ⟨hinit, p, kind, hp, hr, hdecl⟩ := hf
  refine ⟨_, Matching.le_add, ⟨hinit, .shared :: p, kind, Layout.open_shared p,
    Matching.add_self, hdecl⟩, hw.opened hr (h.bindThis_environments f receiver)
    (h'.bindThis_environments f' receiver) ⟨rfl, rfl, rfl⟩ ⟨rfl, rfl, rfl⟩⟩

theorem bindMethod (hf : f.Wraps w R [.shared] f') (receiver : Value) :
    ∃ S, R ≤ S ∧ (h'.bindMethod f' receiver).1 = (h.bindMethod f receiver).1 ∧
      (h.bindMethod f receiver).2.Wraps w S (h'.bindMethod f' receiver).2 := by
  obtain ⟨S, hle, hbound, hheap⟩ := hw.bindThis hf receiver
  obtain ⟨hid, hnew⟩ := hheap.newFunction hbound
  exact ⟨S, hle, congrArg Value.function hid, hnew⟩

/-- A call binds its parameters in a new environment, and the bodies stand for each other there. -/
theorem entered (hf : f.Wraps w R [] f') (arguments : List Value) :
    ∃ S p, R ≤ S ∧ S ⟨h.environments.size⟩ ⟨h'.environments.size⟩ p ∧
      Lox.Wraps w.links true p (.body f.decl.body) (.body f'.decl.body) ∧
      (h.entered f arguments).Wraps w S (h'.entered f' arguments) := by
  have hparams := hf.params_eq
  obtain ⟨-, p, kind, hp, hr, hdecl⟩ := hf
  have henv := h'.entered_environments f' arguments
  rw [hparams] at henv
  refine ⟨_, .shared :: p, Matching.le_add, Matching.add_self, ?_, hw.opened hr
    (h.entered_environments f arguments) henv (h.entered_other f arguments)
    (h'.entered_other f' arguments)⟩
  generalize f.decl = decl at hdecl ⊢
  generalize f'.decl = decl' at hdecl ⊢
  cases hdecl with
  | callable hbody => exact hbody

theorem function? (g : FunctionId) :
    Option.Rel (Closure.Wraps w R []) (h.function? g) (h'.function? g) := by
  rw [Heap.function?, Heap.function?, ← Array.getElem?_toList, ← Array.getElem?_toList]
  exact forall₂_getElem? hw.functions g.index

theorem class? (c : ClassId) : Option.Rel (Class.Wraps w R) (h.class? c) (h'.class? c) := by
  rw [Heap.class?, Heap.class?, ← Array.getElem?_toList, ← Array.getElem?_toList]
  exact forall₂_getElem? hw.classes c.index

theorem methodUpTo? (x : String) (count : Nat) : ∀ c : ClassId,
    Option.Rel (Closure.Wraps w R [.shared]) (h.methodUpTo? x count c)
      (h'.methodUpTo? x count c) := by
  induction count with
  | zero => exact fun _ => .none
  | succ count ih =>
    intro c
    rw [Heap.methodUpTo?, Heap.methodUpTo?]
    have hclass := hw.class? c
    generalize h.class? c = cls at hclass ⊢
    generalize h'.class? c = cls' at hclass ⊢
    cases hclass with
    | none => exact .none
    | @some cls cls' hcls =>
      simp only [hcls.superclass]
      have hmethod := hcls.methods x
      generalize cls.methods.get? x = method at hmethod ⊢
      generalize cls'.methods.get? x = method' at hmethod ⊢
      cases hmethod with
      | some hf => exact .some hf
      | none =>
        cases cls.superclass with
        | none => exact .none
        | some superclass => exact ih superclass

theorem method? (c : ClassId) (x : String) :
    Option.Rel (Closure.Wraps w R [.shared]) (h.method? c x) (h'.method? c x) := by
  have hsize : h'.classes.size = h.classes.size := by simpa using hw.classes.length_eq.symm
  rw [Heap.method?, Heap.method?, hsize]
  exact hw.methodUpTo? x _ c

theorem property? (o : ObjectId) (x : String) :
    Option.Rel (Property.Wraps w R) (h.property? o x) (h'.property? o x) := by
  have hobject : h'.object? o = h.object? o := by rw [Heap.object?, hw.objects, Heap.object?]
  rw [Heap.property?, Heap.property?, hobject]
  cases h.object? o with
  | none => exact .none
  | some object =>
    simp only
    cases object.fields.get? x with
    | some v => exact .some (.field v)
    | none =>
      have hmethod := hw.method? object.ofClass x
      generalize h.method? object.ofClass x = method at hmethod ⊢
      generalize h'.method? object.ofClass x = method' at hmethod ⊢
      cases hmethod with
      | none => exact .none
      | some hf => exact .some (.method hf)

theorem arity? (v : Value) : h'.arity? v = h.arity? v := by
  have harity {inner : Layout} {f f' : Option Closure}
      (hf : Option.Rel (Closure.Wraps w R inner) f f') :
      (f'.map (·.decl.arity)).getD 0 = (f.map (·.decl.arity)).getD 0 := by
    cases hf with
    | none => rfl
    | some hf => exact congrArg List.length hf.params_eq
  cases v with
  | function g => exact congrArg some (harity (hw.function? g))
  | classValue c => exact congrArg some (harity (hw.method? c "init"))
  | _ => rfl

theorem className (c : ClassId) : h'.className c = h.className c := by
  rw [Heap.className, Heap.className]
  have hclass := hw.class? c
  generalize h.class? c = cls at hclass ⊢
  generalize h'.class? c = cls' at hclass ⊢
  cases hclass with
  | none => rfl
  | some hcls => exact hcls.name

theorem functionName (g : FunctionId) : h'.functionName g = h.functionName g := by
  rw [Heap.functionName, Heap.functionName]
  have hfunction := hw.function? g
  generalize h.function? g = f at hfunction ⊢
  generalize h'.function? g = f' at hfunction ⊢
  cases hfunction with
  | none => rfl
  | some hf => exact congrArg Token.lexeme hf.name_eq

/-- What is printed of a value is the same. -/
theorem textOf (v : Value) : h'.textOf v = h.textOf v := by
  cases v with
  | bool b => cases b <;> rfl
  | function g => rw [Heap.textOf, hw.functionName, Heap.textOf]
  | classValue c => exact hw.className c
  | object o =>
    rw [Heap.textOf, Heap.object?, hw.objects, Heap.textOf, Heap.object?]
    simp only [hw.className]
  | _ => rfl

end

end Heap.Wraps

end Lox
