import Lox.Proofs.Machine.Kept
import Lox.Proofs.Machine.Renaming
import Lox.Proofs.Scope.Renaming

/-! Heaps of programs in which local variables have other names.

Environments of the respelled program bind the same values, each under the new name of what bound
it. The globals and the two reserved names are the same in both; functions and methods are those of
the respelled program. -/

namespace Lox

/-- The error at another token. Only what it says of an undefined variable changes with it. -/
def RuntimeError.onto (t : Token) (e : RuntimeError) : RuntimeError where
  token := t
  fault :=
    match e.fault with
    | .undefinedVariable _ => .undefinedVariable t.lexeme
    | fault => fault

section

variable (f : Respelling)

def Closure.respell (c : Closure) : Closure := { c with decl := c.decl.respell f }

def Class.respell (c : Class) : Class := { c with methods := c.methods.map (Closure.respell f) }

def Property.respell : Property → Property
  | .field value => .field value
  | .method c => .method (c.respell f)

def RuntimeError.respell (e : RuntimeError) : RuntimeError := e.onto (f.token e.token)

end

/-- The tokens of the functions and methods of a heap. -/
def Heap.tokens (h : Heap) : List Token :=
  h.functions.toList.flatMap (·.decl.tokens) ++
    h.classes.toList.flatMap fun c => c.methods.entries.flatMap (·.2.decl.tokens)

/-- An environment of one heap binds in the other heap what it binds in this one, under the names
that its binders have there, and nothing else. -/
structure Heap.Carries (f : Respelling) (h h' : Heap) (e : EnvironmentId)
    (binders : List Binder) : Prop where
  value : ∀ b ∈ binders, h'.local? e (b.respell f).name = h.local? e b.name
  only : ∀ x, h'.binds e x = true → ∃ b ∈ binders, (b.respell f).name = x
  distinct : (binders.map fun b => (b.respell f).name).Nodup

/-- The environments of two heaps, of which the second is that of the respelled program. -/
structure Heap.BindsAlike (f : Respelling) (o : Origins) (h h' : Heap) : Prop where
  size : h'.environments.size = h.environments.size
  enclosing : ∀ e, (h'.environment? e).map (·.enclosing) = (h.environment? e).map (·.enclosing)
  globals : ∀ x, h'.local? Heap.globals x = h.local? Heap.globals x
  reserved : ∀ e x, x = "this" ∨ x = "super" → h'.local? e x = h.local? e x
  locals : ∀ e origin, o.of? e = some origin → e ≠ Heap.globals →
    h.Carries f h' e origin.scope.binders

structure Heap.Respells (f : Respelling) (o : Origins) (h h' : Heap) : Prop where
  environments : h.BindsAlike f o h'
  functions : h'.functions = h.functions.map (Closure.respell f)
  classes : h'.classes = h.classes.map (Class.respell f)
  objects : h'.objects = h.objects

variable {f : Respelling} {o : Origins} {h h' k k' : Heap}

theorem Closure.respell_eq_self {g : Closure} (hf : f.Fixes g.decl.tokens) : g.respell f = g := by
  rw [Closure.respell, g.decl.respell_eq_self hf]

namespace Heap

theorem getAt?_eq (h : Heap) (e : EnvironmentId) (depth : Nat) (x : String) :
    h.getAt? e depth x = (h.ancestor? e depth).bind (h.local? · x) := by
  unfold getAt? holderAt?
  cases h.ancestor? e depth with
  | none => rfl
  | some e' =>
    cases hl : h.local? e' x with
    | none => simp [binds, hl]
    | some v => simp [binds, hl, Option.filter]

namespace BindsAlike

theorem congr (hb : h.BindsAlike f o h') (he : k.environments = h.environments)
    (he' : k'.environments = h'.environments) : k.BindsAlike f o k' := by
  have hk (e : EnvironmentId) : k.environment? e = h.environment? e := by
    simp [environment?, he]
  have hk' (e : EnvironmentId) : k'.environment? e = h'.environment? e := by
    simp [environment?, he']
  have hl (e : EnvironmentId) (x : String) : k.local? e x = h.local? e x := by
    rw [local?, hk, local?]
  have hl' (e : EnvironmentId) (x : String) : k'.local? e x = h'.local? e x := by
    rw [local?, hk', local?]
  refine ⟨by rw [he, he', hb.size], fun e => by rw [hk, hk', hb.enclosing],
    fun x => by rw [hl, hl', hb.globals], fun e x hx => by rw [hl, hl', hb.reserved e x hx],
    fun e origin ho hg => ?_⟩
  obtain ⟨hvalue, honly, hdistinct⟩ := hb.locals e origin ho hg
  refine ⟨fun b hm => by rw [hl, hl', hvalue b hm], fun x hx => honly x ?_, hdistinct⟩
  rwa [binds, hl'] at hx

theorem isSome (hb : h.BindsAlike f o h') (e : EnvironmentId) :
    (h'.environment? e).isSome = (h.environment? e).isSome := by
  have he := congrArg Option.isSome (hb.enclosing e)
  simpa using he

theorem ancestor? (hb : h.BindsAlike f o h') (e : EnvironmentId) (depth : Nat) :
    h'.ancestor? e depth = h.ancestor? e depth := ancestor?_congr hb.enclosing depth e

theorem getAt?_reserved (hb : h.BindsAlike f o h') (e : EnvironmentId) (depth : Nat) {x : String}
    (hx : x = "this" ∨ x = "super") : h'.getAt? e depth x = h.getAt? e depth x := by
  rw [getAt?_eq, getAt?_eq, hb.ancestor?]
  cases h.ancestor? e depth with
  | none => rfl
  | some e' => exact hb.reserved e' x hx

theorem holder?_globals (hb : h.BindsAlike f o h') (hf : o.Faithful h) (hr : o.Rooted)
    (x : String) : h'.holder? Heap.globals x = h.holder? Heap.globals x := by
  obtain ⟨binders, hg⟩ := hr
  have hout := hf.outer _ _ hg
  rw [holder?_of_outermost hout, holder?_of_outermost ((hb.enclosing Heap.globals).trans hout), binds,
    hb.globals, ← binds]

/-- Both heaps get a new environment. -/
theorem opened (hb : h.BindsAlike f o h') (hf : o.Faithful h) (hr : o.Rooted) {scope : OpenScope}
    {outer : EnvironmentId} {bindings bindings' : Bindings Value}
    (he : k.environments = h.environments.push ⟨bindings, some outer⟩)
    (he' : k'.environments = h'.environments.push ⟨bindings', some outer⟩)
    (hreserved : ∀ x, x = "this" ∨ x = "super" → bindings'.get? x = bindings.get? x)
    (hvalue : ∀ b ∈ scope.binders, bindings'.get? (b.respell f).name = bindings.get? b.name)
    (honly : ∀ x, (bindings'.get? x).isSome = true → ∃ b ∈ scope.binders, (b.respell f).name = x)
    (hdistinct : (scope.binders.map fun b => (b.respell f).name).Nodup) :
    k.BindsAlike f (o.perform (.opened scope outer)) k' := by
  have hlocal' (e : EnvironmentId) (x : String) : k'.local? e x =
      if e.index = h.environments.size then bindings'.get? x else h'.local? e x := by
    rw [local?_push he', hb.size]
  refine ⟨by simp [he, he', hb.size], fun e => ?_, fun x => ?_, fun e x hx => ?_,
    fun e origin ho hg => ?_⟩
  · rw [environment?_push he, environment?_push he', hb.size]
    split
    · rfl
    · exact hb.enclosing e
  · obtain ⟨binders, hg⟩ := hr
    have hlt := Origins.index_lt hg
    rw [hf.size] at hlt
    rw [hlocal', local?_push he, if_neg (Nat.ne_of_lt hlt), if_neg (Nat.ne_of_lt hlt), hb.globals]
  · rw [hlocal', local?_push he]
    split
    · exact hreserved x hx
    · exact hb.reserved e x hx
  · rw [Origins.of?_opened] at ho
    split at ho
    · rename_i hnew
      obtain rfl := Option.some.inj ho
      rw [hf.size] at hnew
      refine ⟨fun b hm => ?_, fun x hx => honly x ?_, hdistinct⟩
      · rw [hlocal', local?_push he, if_pos hnew, if_pos hnew, hvalue b hm]
      · rwa [binds, hlocal', if_pos hnew] at hx
    · rename_i hold
      rw [hf.size] at hold
      obtain ⟨hvalue, honly, hdistinct⟩ := hb.locals e origin ho hg
      refine ⟨fun b hm => ?_, fun x hx => honly x ?_, hdistinct⟩
      · rw [hlocal', local?_push he, if_neg hold, if_neg hold, hvalue b hm]
      · rwa [binds, hlocal', if_neg hold] at hx

/-- Both heaps get an environment for one of the two reserved names. -/
theorem openedReserved (hb : h.BindsAlike f o h') (hf : o.Faithful h) (hr : o.Rooted)
    {scope : OpenScope} {outer : EnvironmentId} {b : Binder} (hs : scope.binders = [b])
    (hkept : (b.respell f).name = b.name) {v : Value}
    (he : k.environments = h.environments.push ⟨Bindings.empty.insert b.name v, some outer⟩)
    (he' : k'.environments = h'.environments.push ⟨Bindings.empty.insert b.name v, some outer⟩) :
    k.BindsAlike f (o.perform (.opened scope outer)) k' := by
  refine hb.opened hf hr he he' (fun x _ => rfl) (fun c hc => ?_) (fun x hx => ?_) ?_
  · rw [hs] at hc
    obtain rfl := List.mem_singleton.mp hc
    rw [hkept]
  · rw [hs]
    refine ⟨b, List.mem_singleton_self b, ?_⟩
    by_contra hne
    rw [Bindings.get?_insert, if_neg fun h => hne (hkept.trans h)] at hx
    cases hx
  · rw [hs]
    exact List.nodup_singleton _

/-- Writes to two variables that are not among the names of the other heap's. -/
theorem define_kept (hb : h.BindsAlike f o h') (e : EnvironmentId) {x x' : String} (v : Value)
    (hglobal : e = Heap.globals → x' = x)
    (hreserved : ∀ y, y = "this" ∨ y = "super" → x ≠ y ∧ x' ≠ y) :
    (h'.define e x' v).environments.size = (h.define e x v).environments.size ∧
      (∀ e', ((h'.define e x' v).environment? e').map (·.enclosing) =
        ((h.define e x v).environment? e').map (·.enclosing)) ∧
      (∀ y, (h'.define e x' v).local? Heap.globals y = (h.define e x v).local? Heap.globals y) ∧
      ∀ e' y, y = "this" ∨ y = "super" →
        (h'.define e x' v).local? e' y = (h.define e x v).local? e' y := by
  refine ⟨by simp [hb.size], fun e' => ?_, fun y => ?_, fun e' y hy => ?_⟩
  · rw [environment?_define, environment?_define]
    split
    · rw [Option.map_map, Option.map_map]
      exact hb.enclosing e'
    · exact hb.enclosing e'
  · rw [local?_define, local?_define, hb.globals, hb.isSome]
    by_cases hg : e = Heap.globals
    · rw [hglobal hg]
    · rw [if_neg fun hc => hg hc.1, if_neg fun hc => hg hc.1]
  · rw [local?_define, local?_define, if_neg fun hc => (hreserved y hy).2 hc.2.1,
      if_neg fun hc => (hreserved y hy).1 hc.2.1]
    exact hb.reserved e' y hy

/-- Another environment carries what it did. -/
theorem carries_define (hb : h.BindsAlike f o h') {e e' : EnvironmentId} (hne : e ≠ e')
    (x x' : String) (v : Value) {origin : Origin} (ho : o.of? e' = some origin)
    (hg : e' ≠ Heap.globals) :
    (h.define e x v).Carries f (h'.define e x' v) e' origin.scope.binders := by
  have hl (k : Heap) (z y : String) : (k.define e z v).local? e' y = k.local? e' y := by
    rw [local?_define, if_neg fun hc => hne hc.1]
  obtain ⟨hvalue, honly, hdistinct⟩ := hb.locals e' origin ho hg
  refine ⟨fun b hm => ?_, fun y hy => honly y ?_, hdistinct⟩
  · rw [hl, hl, hvalue b hm]
  · rwa [binds, hl] at hy

/-- A new name is bound, under its new spelling in the other heap. -/
theorem bind (hb : h.BindsAlike f o h') {e : EnvironmentId} {t : Token} (v : Value)
    (hglobal : e = Heap.globals → (f.token t).lexeme = t.lexeme)
    (hreserved : ∀ x, x = "this" ∨ x = "super" → t.lexeme ≠ x ∧ (f.token t).lexeme ≠ x)
    (hnew : e ≠ Heap.globals → ∀ origin, o.of? e = some origin → ∀ b ∈ origin.scope.binders,
      b.name ≠ t.lexeme ∧ (b.respell f).name ≠ (f.token t).lexeme) :
    (h.define e t.lexeme v).BindsAlike f (o.perform (.bound e t))
      (h'.define e (f.token t).lexeme v) := by
  obtain ⟨hsize, henclosing, hglobals, hkept⟩ := hb.define_kept e v hglobal hreserved
  refine ⟨hsize, henclosing, hglobals, hkept, fun e' origin ho hg => ?_⟩
  rw [Origins.of?_bound] at ho
  split at ho
  · rename_i he
    subst he
    obtain ⟨old, hold, rfl⟩ := Option.map_eq_some_iff.mp ho
    obtain ⟨hvalue, honly, hdistinct⟩ := hb.locals e old hold hg
    have hnew := hnew hg old hold
    have hself (k : Heap) (x : String) : (k.define e x v).local? e x =
        if (k.environment? e).isSome then some v else none := by
      rw [local?_define]
      cases henv : k.environment? e with
      | none => simp [local?, henv]
      | some env => simp
    have hother (k : Heap) {x y : String} (hxy : y ≠ x) :
        (k.define e x v).local? e y = k.local? e y := by
      rw [local?_define, if_neg fun hc => hxy hc.2.1.symm]
    refine ⟨fun b hm => ?_, fun x hx => ?_, ?_⟩
    · rcases List.mem_append.mp hm with hm | hm
      · rw [hother h' (hnew b hm).2, hother h (hnew b hm).1, hvalue b hm]
      · obtain rfl := List.mem_singleton.mp hm
        exact (hself h' _).trans ((congrArg (if · then some v else none) (hb.isSome e)).trans
          (hself h _).symm)
    · by_cases hxt : x = (f.token t).lexeme
      · exact ⟨.named t, List.mem_append_right _ (.head _), hxt.symm⟩
      · rw [binds, hother h' hxt] at hx
        obtain ⟨b, hm, hbx⟩ := honly x hx
        exact ⟨b, List.mem_append_left _ hm, hbx⟩
    · rw [OpenScope.binders_add, List.map_append, List.nodup_append]
      refine ⟨hdistinct, List.nodup_singleton _, ?_⟩
      rintro x hx y hy rfl
      obtain ⟨b, hm, rfl⟩ := List.mem_map.mp hx
      exact (hnew b hm).2 (List.mem_singleton.mp hy)
  · rename_i he
    exact hb.carries_define he _ _ v ho hg

/-- A variable gets a new value, under its new spelling in the other heap. -/
theorem assign (hb : h.BindsAlike f o h') (hd : o.Distinct) {e : EnvironmentId} {x x' : String}
    (v : Value) (hglobal : e = Heap.globals → x' = x)
    (hreserved : ∀ y, y = "this" ∨ y = "super" → x ≠ y ∧ x' ≠ y)
    (hbound : e ≠ Heap.globals → ∀ origin, o.of? e = some origin → ∃ b ∈ origin.scope.binders,
      b.name = x ∧ (b.respell f).name = x') :
    (h.define e x v).BindsAlike f o (h'.define e x' v) := by
  obtain ⟨hsize, henclosing, hglobals, hkept⟩ := hb.define_kept e v hglobal hreserved
  refine ⟨hsize, henclosing, hglobals, hkept, fun e' origin ho hg => ?_⟩
  by_cases he : e = e'
  · subst he
    obtain ⟨hvalue, honly, hdistinct⟩ := hb.locals e origin ho hg
    obtain ⟨c, hc, rfl, rfl⟩ := hbound hg origin ho
    refine ⟨fun b hm => ?_, fun y hy => ?_, hdistinct⟩
    · rw [local?_define, local?_define, hb.isSome, hvalue b hm]
      -- One binder for each name, in either spelling.
      have hsame : c.name = b.name ↔ (c.respell f).name = (b.respell f).name := by
        constructor <;> intro hcb
        · rw [List.inj_on_of_nodup_map (hd e origin ho hg) hc hm hcb]
        · rw [List.inj_on_of_nodup_map hdistinct hc hm hcb]
      simp only [hsame]
    · by_cases hy' : (c.respell f).name = y
      · exact ⟨c, hc, hy'⟩
      · rw [binds, local?_define, if_neg fun hs => hy' hs.2.1] at hy
        exact honly y hy
  · exact hb.carries_define he _ _ v ho hg

end BindsAlike

namespace Respells

theorem function? (hr : h.Respells f o h') (g : FunctionId) :
    h'.function? g = (h.function? g).map (Closure.respell f) := by
  simp [Heap.function?, hr.functions]

theorem class? (hr : h.Respells f o h') (c : ClassId) :
    h'.class? c = (h.class? c).map (Class.respell f) := by
  simp [Heap.class?, hr.classes]

theorem object? (hr : h.Respells f o h') (x : ObjectId) : h'.object? x = h.object? x := by
  rw [Heap.object?, hr.objects, Heap.object?]

theorem method? (hr : h.Respells f o h') (c : ClassId) (x : String) :
    h'.method? c x = (h.method? c x).map (Closure.respell f) := by
  have hsize : h'.classes.size = h.classes.size := by simp [hr.classes]
  rw [Heap.method?, Heap.method?, methodUpTo?_map hr.class?, hsize]

theorem property? (hr : h.Respells f o h') (x : ObjectId) (name : String) :
    h'.property? x name = (h.property? x name).map (Property.respell f) := by
  rw [Heap.property?, Heap.property?, hr.object?]
  cases h.object? x with
  | none => rfl
  | some object =>
    simp only
    cases object.fields.get? name with
    | some value => rfl
    | none =>
      rw [hr.method?]
      cases h.method? object.ofClass name <;> rfl

theorem arity? (hr : h.Respells f o h') (v : Value) : h'.arity? v = h.arity? v := by
  have harity (g : Option Closure) : ((g.map (Closure.respell f)).map (·.decl.arity)).getD 0 =
      (g.map (·.decl.arity)).getD 0 := by
    cases g <;> simp [Closure.respell, FunctionDecl.arity]
  cases v with
  | function g => rw [Heap.arity?, hr.function?, harity, Heap.arity?]
  | classValue c =>
    rw [Heap.arity?, initializer?, hr.method?, harity, Heap.arity?, initializer?]
  | _ => rfl

/-- What `print` writes has the names of functions in it, but those of no variables. -/
theorem textOf (hr : h.Respells f o h')
    (hnames : ∀ g closure, h.function? g = some closure →
      (f.token closure.decl.name).lexeme = closure.decl.name.lexeme) (v : Value) :
    h'.textOf v = h.textOf v := by
  have hclass (c : ClassId) : h'.className c = h.className c := by
    rw [className, hr.class?, className]
    cases h.class? c <;> rfl
  cases v with
  | bool b => cases b <;> rfl
  | function g =>
    rw [Heap.textOf, functionName, hr.function?, Heap.textOf, functionName]
    cases hg : h.function? g with
    | none => rfl
    | some closure => simp [Closure.respell, hnames g closure hg]
  | classValue c => exact hclass c
  | object x =>
    rw [Heap.textOf, hr.object?, Heap.textOf]
    simp only [hclass]
  | _ => rfl

theorem newFunction (hr : h.Respells f o h') (g : Closure) :
    (h'.newFunction (g.respell f)).1 = (h.newFunction g).1 ∧
      (h.newFunction g).2.Respells f o (h'.newFunction (g.respell f)).2 := by
  refine ⟨by simp [Heap.newFunction, hr.functions], hr.environments.congr rfl rfl, ?_, hr.classes,
    hr.objects⟩
  simp [Heap.newFunction, hr.functions]

theorem newClass (hr : h.Respells f o h') (c : Class) :
    (h'.newClass (c.respell f)).1 = (h.newClass c).1 ∧
      (h.newClass c).2.Respells f o (h'.newClass (c.respell f)).2 := by
  refine ⟨by simp [Heap.newClass, hr.classes], hr.environments.congr rfl rfl, hr.functions, ?_,
    hr.objects⟩
  simp [Heap.newClass, hr.classes]

theorem newObject (hr : h.Respells f o h') (x : Object) :
    (h'.newObject x).1 = (h.newObject x).1 ∧
      (h.newObject x).2.Respells f o (h'.newObject x).2 := by
  refine ⟨by simp [Heap.newObject, hr.objects], hr.environments.congr rfl rfl, hr.functions,
    hr.classes, ?_⟩
  simp [Heap.newObject, hr.objects]

theorem setField (hr : h.Respells f o h') (x : ObjectId) (name : String) (v : Value) :
    (h.setField x name v).Respells f o (h'.setField x name v) := by
  refine ⟨hr.environments.congr rfl rfl, hr.functions, hr.classes, ?_⟩
  simp [Heap.setField, hr.objects]

theorem bindThis (hr : h.Respells f o h') (hf : o.Faithful h) (hroot : o.Rooted) (g : Closure)
    (receiver : Value) :
    (h'.bindThis (g.respell f) receiver).1 = (h.bindThis g receiver).1.respell f ∧
      (h.bindThis g receiver).2.Respells f (o.perform (.opened .receiver g.scope))
        (h'.bindThis (g.respell f) receiver).2 := by
  have hscope : (⟨h'.environments.size⟩ : EnvironmentId) = ⟨h.environments.size⟩ := by
    rw [hr.environments.size]
  refine ⟨congrArg (fun e => (⟨g.decl.respell f, e, g.isInitializer⟩ : Closure)) hscope,
    hr.environments.openedReserved hf hroot (b := .receiver) rfl rfl
      (h.bindThis_environments g receiver) (h'.bindThis_environments (g.respell f) receiver),
    hr.functions, hr.classes, hr.objects⟩

theorem bindMethod (hr : h.Respells f o h') (hf : o.Faithful h) (hroot : o.Rooted) (g : Closure)
    (receiver : Value) :
    (h'.bindMethod (g.respell f) receiver).1 = (h.bindMethod g receiver).1 ∧
      (h.bindMethod g receiver).2.Respells f (o.perform (.opened .receiver g.scope))
        (h'.bindMethod (g.respell f) receiver).2 := by
  obtain ⟨hclosure, hheap⟩ := hr.bindThis hf hroot g receiver
  obtain ⟨hid, hnew⟩ := hheap.newFunction (h.bindThis g receiver).1
  rw [← hclosure] at hid hnew
  exact ⟨congrArg Value.function hid, hnew⟩

/-- Nothing has happened yet to tell the heaps apart. -/
theorem refl (hf : o.Faithful h) (hd : o.Distinct) (hfixes : f.Fixes h.tokens)
    (hbinders : ∀ e origin, o.of? e = some origin → ∀ b ∈ origin.scope.binders,
      (b.respell f).name = b.name) : h.Respells f o h := by
  refine ⟨⟨rfl, fun _ => rfl, fun _ => rfl, fun _ _ _ => rfl, fun e origin ho hg => ?_⟩,
    ((Array.map_congr_left fun g hg => ?_).trans (Array.map_id' _)).symm,
    ((Array.map_congr_left fun c hc => ?_).trans (Array.map_id' _)).symm, rfl⟩
  · have hsame := hbinders e origin ho
    refine ⟨fun b hm => by rw [hsame b hm], fun x hx => ?_, ?_⟩
    · obtain ⟨b, hm, hb⟩ := (hf.names e origin ho hg x).mp hx
      exact ⟨b, hm, by rw [hsame b hm, hb]⟩
    · rw [List.map_congr_left hsame]
      exact hd e origin ho hg
  · exact Closure.respell_eq_self ⟨hfixes.node, fun t ht => hfixes.token t
      (List.mem_append_left _ (List.mem_flatMap.mpr ⟨g, hg.val, ht⟩))⟩
  · have hmethods : c.methods.map (Closure.respell f) = c.methods := by
      refine congrArg Bindings.mk ((List.map_congr_left fun entry hentry => ?_).trans (List.map_id _))
      refine Prod.ext rfl (Closure.respell_eq_self ⟨hfixes.node, fun t ht => hfixes.token t ?_⟩)
      exact List.mem_append_right _ (List.mem_flatMap.mpr
        ⟨c, hc.val, List.mem_flatMap.mpr ⟨entry, hentry, ht⟩⟩)
    rw [Class.respell, hmethods]

end Respells

end Heap

end Lox
