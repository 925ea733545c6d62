import Lox.Proofs.Machine.Effects

/-! Every reference leads to something.

A value that is bound, held in a field, waited for by a frame or handed on is the identity of
something in the heap, unless it is plain data. So a function that is called is there, and a class
derives from an older one. -/

namespace Lox

/-- What a value refers to is there. -/
def Value.Lives (h : Heap) : Value → Prop
  | .function f => f.index < h.functions.size
  | .classValue k => k.index < h.classes.size
  | .object o => o.index < h.objects.size
  | _ => True

/-- Nothing was taken away. -/
structure Heap.Keeps (h h' : Heap) : Prop where
  functions : h.functions.size ≤ h'.functions.size
  classes : h.classes.size ≤ h'.classes.size
  objects : h.objects.size ≤ h'.objects.size

theorem Heap.Keeps.of_same {h h' : Heap} (hf : h'.functions = h.functions)
    (hc : h'.classes = h.classes) (ho : h'.objects = h.objects) : h.Keeps h' :=
  ⟨hf ▸ Nat.le_refl _, hc ▸ Nat.le_refl _, ho ▸ Nat.le_refl _⟩

theorem Heap.Keeps.trans {h h' h'' : Heap} (hk : h.Keeps h') (hk' : h'.Keeps h'') : h.Keeps h'' :=
  ⟨Nat.le_trans hk.functions hk'.functions, Nat.le_trans hk.classes hk'.classes,
    Nat.le_trans hk.objects hk'.objects⟩

theorem Value.Lives.mono {h h' : Heap} {v : Value} (hv : v.Lives h) (hk : h.Keeps h') :
    v.Lives h' := by
  cases v with
  | function f => exact Nat.lt_of_lt_of_le hv hk.functions
  | classValue k => exact Nat.lt_of_lt_of_le hv hk.classes
  | object o => exact Nat.lt_of_lt_of_le hv hk.objects
  | _ => exact trivial

/-- All that the heap holds leads to something in it. -/
structure Heap.Sound (h : Heap) : Prop where
  bindings : ∀ e x v, h.local? e x = some v → v.Lives h
  fields : ∀ o object x v, h.object? o = some object → object.fields.get? x = some v → v.Lives h
  instances : ∀ o object, h.object? o = some object → object.ofClass.index < h.classes.size
  superclasses : ∀ k cls s, h.class? k = some cls → cls.superclass = some s → s.index < k.index

namespace Heap

variable {h h' : Heap}

theorem keeps_define (h : Heap) (e : EnvironmentId) (x : String) (v : Value) :
    h.Keeps (h.define e x v) := .of_same rfl rfl rfl

theorem keeps_child (h : Heap) (e : EnvironmentId) : h.Keeps (h.child e).2 := .of_same rfl rfl rfl

theorem keeps_newFunction (h : Heap) (f : Closure) : h.Keeps (h.newFunction f).2 :=
  ⟨by simp [newFunction], Nat.le_refl _, Nat.le_refl _⟩

theorem keeps_newClass (h : Heap) (cls : Class) : h.Keeps (h.newClass cls).2 :=
  ⟨Nat.le_refl _, by simp [newClass], Nat.le_refl _⟩

theorem keeps_newObject (h : Heap) (object : Object) : h.Keeps (h.newObject object).2 :=
  ⟨Nat.le_refl _, Nat.le_refl _, by simp [newObject]⟩

theorem keeps_setField (h : Heap) (o : ObjectId) (x : String) (v : Value) :
    h.Keeps (h.setField o x v) :=
  ⟨Nat.le_refl _, Nat.le_refl _, by simp [setField]⟩

theorem keeps_bindThis (h : Heap) (f : Closure) (receiver : Value) :
    h.Keeps (h.bindThis f receiver).2 :=
  (h.keeps_child f.scope).trans (keeps_define _ _ _ _)

theorem keeps_bindMethod (h : Heap) (f : Closure) (receiver : Value) :
    h.Keeps (h.bindMethod f receiver).2 :=
  (h.keeps_bindThis f receiver).trans (keeps_newFunction _ _)

theorem keeps_entered (h : Heap) (f : Closure) (arguments : List Value) :
    h.Keeps (h.entered f arguments) :=
  let ⟨hf, hc, ho⟩ := h.entered_other f arguments
  .of_same hf hc ho

namespace Sound

theorem define (hs : h.Sound) {v : Value} (hv : v.Lives h) (e : EnvironmentId) (x : String) :
    (h.define e x v).Sound := by
  refine ⟨fun e' y w hw => ?_, hs.fields, hs.instances, hs.superclasses⟩
  rw [local?_define] at hw
  split at hw
  · cases hw
    exact hv
  · exact hs.bindings e' y w hw

theorem child (hs : h.Sound) (e : EnvironmentId) : (h.child e).2.Sound := by
  refine ⟨fun e' x v hv => ?_, hs.fields, hs.instances, hs.superclasses⟩
  rw [local?, environment?_child] at hv
  split at hv
  · cases hv
  · exact hs.bindings e' x v hv

theorem newFunction (hs : h.Sound) (f : Closure) : (h.newFunction f).2.Sound :=
  have hk := h.keeps_newFunction f
  ⟨fun e x v hv => (hs.bindings e x v hv).mono hk,
    fun o object x v ho hv => (hs.fields o object x v ho hv).mono hk, hs.instances, hs.superclasses⟩

theorem newClass (hs : h.Sound) {cls : Class}
    (hc : ∀ s, cls.superclass = some s → s.index < h.classes.size) :
    (h.newClass cls).2.Sound := by
  have hk := h.keeps_newClass cls
  refine ⟨fun e x v hv => (hs.bindings e x v hv).mono hk,
    fun o object x v ho hv => (hs.fields o object x v ho hv).mono hk,
    fun o object ho => Nat.lt_of_lt_of_le (hs.instances o object ho) hk.classes,
    fun k cls' s hcls hsup => ?_⟩
  simp only [Heap.newClass, class?, Array.getElem?_push] at hcls
  split at hcls
  · rename_i hi
    cases hcls
    exact hi ▸ hc s hsup
  · exact hs.superclasses k cls' s hcls hsup

theorem newObject (hs : h.Sound) {k : ClassId} (hk : k.index < h.classes.size) :
    (h.newObject ⟨k, Bindings.empty⟩).2.Sound := by
  have hkeeps := h.keeps_newObject ⟨k, Bindings.empty⟩
  refine ⟨fun e x v hv => (hs.bindings e x v hv).mono hkeeps, fun o object x v ho hv => ?_,
    fun o object ho => ?_, hs.superclasses⟩
  · simp only [Heap.newObject, object?, Array.getElem?_push] at ho
    split at ho
    · cases ho
      cases hv
    · exact (hs.fields o object x v ho hv).mono hkeeps
  · simp only [Heap.newObject, object?, Array.getElem?_push] at ho
    split at ho
    · cases ho
      exact hk
    · exact hs.instances o object ho

theorem setField (hs : h.Sound) {v : Value} (hv : v.Lives h) (o : ObjectId) (x : String) :
    (h.setField o x v).Sound := by
  have hk := h.keeps_setField o x v
  have hobject {o' : ObjectId} {object : Object} (ho : (h.setField o x v).object? o' = some object) :
      ∃ old, h.object? o' = some old ∧ (object = old ∨
        object = { old with fields := old.fields.insert x v }) := by
    simp only [Heap.setField, object?, Array.getElem?_modify] at ho
    split at ho
    · obtain ⟨old, hold, rfl⟩ := Option.map_eq_some_iff.mp ho
      exact ⟨old, hold, .inr rfl⟩
    · exact ⟨object, ho, .inl rfl⟩
  refine ⟨fun e y w hw => (hs.bindings e y w hw).mono hk, fun o' object y w ho hw => ?_,
    fun o' object ho => ?_, hs.superclasses⟩
  · obtain ⟨old, hold, rfl | rfl⟩ := hobject ho
    · exact (hs.fields o' _ y w hold hw).mono hk
    · simp only [Bindings.get?_insert] at hw
      split at hw
      · cases hw
        exact hv.mono hk
      · exact (hs.fields o' old y w hold hw).mono hk
  · obtain ⟨old, hold, rfl | rfl⟩ := hobject ho
    · exact hs.instances o' _ hold
    · exact hs.instances o' old hold

theorem bindThis (hs : h.Sound) (f : Closure) {receiver : Value} (hr : receiver.Lives h) :
    (h.bindThis f receiver).2.Sound :=
  (hs.child f.scope).define (hr.mono (h.keeps_child f.scope)) _ _

theorem bindMethod (hs : h.Sound) (f : Closure) {receiver : Value} (hr : receiver.Lives h) :
    (h.bindMethod f receiver).2.Sound := (hs.bindThis f hr).newFunction _

theorem foldl_define (e : EnvironmentId) (entries : List (Token × Value)) : ∀ {h : Heap},
    h.Sound → (∀ entry ∈ entries, entry.2.Lives h) →
    (entries.foldl (fun heap entry => heap.define e entry.1.lexeme entry.2) h).Sound := by
  induction entries with
  | nil => exact fun hs _ => hs
  | cons entry rest ih =>
    intro h hs hv
    obtain ⟨hfirst, hrest⟩ := List.forall_mem_cons.mp hv
    exact ih (hs.define hfirst e entry.1.lexeme)
      fun other hm => (hrest other hm).mono (h.keeps_define e entry.1.lexeme entry.2)

theorem entered (hs : h.Sound) (f : Closure) {arguments : List Value}
    (ha : ∀ v ∈ arguments, v.Lives h) : (h.entered f arguments).Sound :=
  foldl_define _ _ (hs.child f.scope) fun entry hm =>
    (ha entry.2 (List.of_mem_zip hm).2).mono (h.keeps_child f.scope)

end Sound

end Heap

def Completion.values : Completion → List Value
  | .value v | .returned v => [v]
  | _ => []

def Control.values : Control → List Value
  | .done c => c.values
  | _ => []

def Frame.values : Frame → List Value
  | .binaryRight left _ => [left]
  | .argument called _ done _ => called :: done.toList
  | .setValue o _ => [.object o]
  | .call (.object o) => [.object o]
  | _ => []

/-- Values that frames wait with. -/
def Frame.AllLive (h : Heap) (fs : List Frame) : Prop := ∀ f ∈ fs, ∀ v ∈ f.values, v.Lives h

structure Config.Sound (c : Config) : Prop where
  heap : c.machine.heap.Sound
  control : ∀ v ∈ c.control.values, v.Lives c.machine.heap
  frames : Frame.AllLive c.machine.heap c.frames

theorem Frame.AllLive.mono {h h' : Heap} {fs : List Frame} (hl : Frame.AllLive h fs)
    (hk : h.Keeps h') : Frame.AllLive h' fs := fun f hf v hv => (hl f hf v hv).mono hk

/-- A frame that waits with nothing. -/
theorem Frame.AllLive.push {h : Heap} {fs : List Frame} {f : Frame} (hl : Frame.AllLive h fs)
    (hf : ∀ v ∈ f.values, v.Lives h) : Frame.AllLive h (f :: fs) := List.forall_mem_cons.mpr ⟨hf, hl⟩

namespace Operator

variable {t : Token} {v w r : Value} (h : Heap)

theorem lives_unary (hr : unary t v = .ok r) : r.Lives h := by
  unfold unary at hr
  split at hr <;> cases hr <;> exact trivial

theorem lives_binary (hr : binary t v w = .ok r) : r.Lives h := by
  unfold binary at hr
  split at hr
  · cases hr
    exact trivial
  · cases hr
    exact trivial
  · unfold add at hr
    split at hr <;> cases hr <;> exact trivial
  · unfold onNumbers at hr
    split at hr
    · split at hr
      · rename_i value hvalue
        cases hr
        unfold arithmetic? at hvalue
        split at hvalue <;> cases hvalue <;> exact trivial
      · cases hr
    · cases hr

end Operator

namespace Machine

variable {m : Machine} {fs : List Frame}

theorem lives_read (hs : m.heap.Sound) {r : Reference} {v : Value} (h : m.read r = .ok v) :
    v.Lives m.heap := by
  unfold read at h
  split at h
  · rename_i value hvalue
    cases h
    obtain ⟨e, -, hlocal⟩ := Option.bind_eq_some_iff.mp hvalue
    exact hs.bindings e _ _ hlocal
  · cases h

theorem lives_superclass (hs : m.heap.Sound) {r : Option Reference} {k : ClassId}
    (h : m.superclass r = .ok (some k)) : k.index < m.heap.classes.size := by
  unfold superclass at h
  split at h
  · cases h
  · split at h
    · rename_i c hread
      cases h
      exact lives_read hs hread
    · cases h
    · cases h

theorem lives_getAt? (hs : m.heap.Sound) {e : EnvironmentId} {i : Nat} {x : String} {v : Value}
    (h : m.heap.getAt? e i x = some v) : v.Lives m.heap := by
  obtain ⟨e', -, hlocal⟩ := Option.bind_eq_some_iff.mp h
  exact hs.bindings e' _ _ hlocal

theorem lives_inherited (hs : m.heap.Sound) {r : Reference} {t : Token} {receiver : Value}
    {p : Property} (h : m.inherited r t = .ok (receiver, p)) :
    receiver.Lives m.heap ∧ ∃ f, p = .method f := by
  unfold inherited at h
  split at h
  · cases h
  · rename_i depth _
    split at h
    · split at h
      · cases h
      · rename_i v hv
        split at h
        · cases h
          cases depth with
          | zero => cases hv
          | succ depth => exact ⟨lives_getAt? hs hv, _, rfl⟩
        · cases h
    · cases h

theorem lives_property (hs : m.heap.Sound) {v receiver : Value} {t : Token} {p : Property}
    (hv : v.Lives m.heap) (h : m.property v t = .ok (receiver, p)) :
    receiver.Lives m.heap ∧ ∀ w, p = .field w → w.Lives m.heap := by
  unfold property at h
  split at h
  · rename_i o
    split at h
    · rename_i found hfound
      cases h
      refine ⟨hv, ?_⟩
      rintro w rfl
      unfold Heap.property? at hfound
      split at hfound
      · cases hfound
      · rename_i object ho
        split at hfound
        · rename_i value hvalue
          cases hfound
          exact hs.fields o object _ _ ho hvalue
        · obtain ⟨f, -, hf⟩ := Option.map_eq_some_iff.mp hfound
          cases hf
    · cases h
  · cases h

theorem lives_callValue (hs : m.heap.Sound) {result : CallResult} {c : Completion}
    (hr : ∀ v ∈ (Frame.call result).values, v.Lives m.heap) (hc : ∀ v ∈ c.values, v.Lives m.heap) :
    (m.callValue result c).Lives m.heap := by
  cases result with
  | returned =>
    cases c with
    | returned v => exact hc v (.head _)
    | _ => exact trivial
  | receiver scope =>
    change ((m.heap.getAt? scope 0 "this").getD .nil).Lives m.heap
    cases hthis : m.heap.getAt? scope 0 "this" with
    | none => exact trivial
    | some v => exact lives_getAt? hs hthis
  | object o => exact hr (.object o) (.head _)

theorem sound_finish (hs : m.heap.Sound) (hfs : Frame.AllLive m.heap fs)
    {r : Except RuntimeError Value} (hr : ∀ v, r = .ok v → v.Lives m.heap) :
    (m.finish fs r).Sound := by
  cases r with
  | error e => exact ⟨hs, List.forall_mem_nil _, hfs⟩
  | ok v => exact ⟨hs, List.forall_mem_singleton.mpr (hr v rfl), hfs⟩

theorem sound_finishProperty (hs : m.heap.Sound) (hfs : Frame.AllLive m.heap fs)
    {r : Except RuntimeError (Value × Property)}
    (hr : ∀ receiver p, r = .ok (receiver, p) →
      receiver.Lives m.heap ∧ ∀ w, p = .field w → w.Lives m.heap) :
    (m.finishProperty fs r).Sound := by
  rcases r with e | ⟨receiver, v | f⟩
  · exact ⟨hs, List.forall_mem_nil _, hfs⟩
  · exact ⟨hs, List.forall_mem_singleton.mpr ((hr receiver _ rfl).2 v rfl), hfs⟩
  · have hk := m.heap.keeps_bindMethod f receiver
    have hnew : (Value.function ⟨(m.heap.bindThis f receiver).2.functions.size⟩).Lives
        (m.heap.bindMethod f receiver).2 := by
      simp [Value.Lives, Heap.bindMethod, Heap.newFunction]
    exact ⟨hs.bindMethod f (hr receiver _ rfl).1, List.forall_mem_singleton.mpr hnew, hfs.mono hk⟩

theorem sound_runBlock (hs : m.heap.Sound) (hfs : Frame.AllLive m.heap fs) (outer : EnvironmentId)
    (rest : List Stmt) : (m.runBlock fs outer rest).Sound := by
  cases rest with
  | nil => exact ⟨hs, List.forall_mem_nil _, hfs⟩
  | cons s rest => exact ⟨hs, List.forall_mem_nil _, hfs.push fun _ => nofun⟩

theorem sound_enter (hs : m.heap.Sound) (hfs : Frame.AllLive m.heap fs) {f : Closure}
    {arguments : List Value} (ha : ∀ v ∈ arguments, v.Lives m.heap) {result : CallResult}
    (hr : ∀ v ∈ (Frame.call result).values, v.Lives m.heap) :
    (m.enter fs f arguments result).Sound := by
  have hk := m.heap.keeps_entered f arguments
  let inside : Machine := { m with
    heap := m.heap.entered f arguments
    environment := ⟨m.heap.environments.size⟩
    callDepth := m.callDepth + 1 }
  exact sound_runBlock (m := inside) (hs.entered f ha) ((hfs.push hr).mono hk) m.environment _

end Machine

namespace Config

open Machine

theorem sound_call {c : Config} (h : c.Sound) {callee : Value} {paren : Token}
    {arguments : List Value} (hattempt : c.attempt? = some (callee, paren, arguments))
    (hcallee : callee.Lives c.machine.heap) (ha : ∀ v ∈ arguments, v.Lives c.machine.heap) :
    c.step.Sound := by
  have hfs : Frame.AllLive c.machine.heap c.frames.tail :=
    fun f hf => h.frames f (List.mem_of_mem_tail hf)
  have hcalled := called_call c.machine c.frames.tail callee paren arguments
  rw [← step_of_attempt? hattempt] at hcalled
  generalize c.step = next at hcalled
  cases hcalled with
  | refused e => exact ⟨h.heap, List.forall_mem_nil _, hfs⟩
  | native => exact ⟨h.heap, List.forall_mem_singleton.mpr trivial, hfs⟩
  | missing hf => exact ⟨h.heap, List.forall_mem_singleton.mpr trivial, hfs⟩
  | function hf =>
    refine sound_enter h.heap hfs ha ?_
    split <;> exact fun _ => nofun
  | @object k _ hk =>
    have hkeeps := c.machine.heap.keeps_newObject ⟨k, Bindings.empty⟩
    refine ⟨h.heap.newObject hcallee, List.forall_mem_singleton.mpr ?_, hfs.mono hkeeps⟩
    simp [Value.Lives, Heap.newObject]
  | @initializer k method _ hk =>
    have hkeeps := c.machine.heap.keeps_newObject ⟨k, Bindings.empty⟩
    have hnew : (Value.object ⟨c.machine.heap.objects.size⟩).Lives
        (c.machine.heap.newObject ⟨k, Bindings.empty⟩).2 := by
      simp [Value.Lives, Heap.newObject]
    have hbound := (c.machine.heap.newObject ⟨k, Bindings.empty⟩).2.keeps_bindThis method
      (.object ⟨c.machine.heap.objects.size⟩)
    have hall := hkeeps.trans hbound
    refine sound_enter ((h.heap.newObject hcallee).bindThis method hnew) (hfs.mono hall)
      (fun v hv => (ha v hv).mono hall) ?_
    exact List.forall_mem_singleton.mpr (hnew.mono hbound)

theorem sound_evaluate {m : Machine} {fs : List Frame} (hs : m.heap.Sound)
    (hfs : Frame.AllLive m.heap fs) (e : Expr) : (m.evaluate fs e).Sound := by
  have hpush (e : Expr) {f : Frame} (hf : f.values = []) : Sound ⟨m, .eval e, f :: fs⟩ :=
    ⟨hs, List.forall_mem_nil _, hfs.push (hf ▸ List.forall_mem_nil _)⟩
  cases e with
  | constant value =>
    exact ⟨hs, List.forall_mem_singleton.mpr (by cases value <;> exact trivial), hfs⟩
  | group inner => exact ⟨hs, List.forall_mem_nil _, hfs⟩
  | «variable» r => exact sound_finish hs hfs fun v => lives_read hs
  | receiver r => exact sound_finish hs hfs fun v => lives_read hs
  | inherited r t =>
    refine sound_finishProperty hs hfs fun receiver p hr => ?_
    obtain ⟨hlives, f, rfl⟩ := lives_inherited hs hr
    exact ⟨hlives, fun _ => nofun⟩
  | _ => exact hpush _ rfl

/-- The new class derives from one that was there before. -/
theorem sound_declareClass {m : Machine} (hs : m.heap.Sound) (t : Token) {k : Option ClassId}
    (hk : ∀ s, k = some s → s.index < m.heap.classes.size) (methods : List FunctionDecl) :
    (m.declareClass t k methods).heap.Sound ∧ m.heap.Keeps (m.declareClass t k methods).heap := by
  have hnil : (m.define t.lexeme .nil).heap.Sound := hs.define (v := .nil) trivial _ _
  -- Whatever scope the methods have, the class is made in a sound heap with the same classes.
  have hclass {h : Heap} (hh : h.Sound) (hkeeps : m.heap.Keeps h)
      (hsize : h.classes.size = m.heap.classes.size) (scope : EnvironmentId) :
      let h' := (h.newClass ⟨t.lexeme, k, methodTable scope methods⟩).2.define m.environment
        t.lexeme (.classValue ⟨h.classes.size⟩)
      h'.Sound ∧ m.heap.Keeps h' := by
    refine ⟨(hh.newClass fun s hsup => hsize ▸ hk s hsup).define ?_ _ _, ?_⟩
    · simp [Value.Lives, Heap.newClass]
    · exact (hkeeps.trans (h.keeps_newClass _)).trans (Heap.keeps_define _ _ _ _)
  cases k with
  | none => exact hclass hnil (Heap.keeps_define _ _ _ _) rfl m.environment
  | some s =>
    have hsuper := (hnil.child m.environment).define (v := .classValue s) (hk s rfl)
      ⟨(m.define t.lexeme .nil).heap.environments.size⟩ "super"
    exact hclass hsuper (.of_same rfl rfl rfl) rfl _

theorem sound_execute {m : Machine} {fs : List Frame} (hs : m.heap.Sound)
    (hfs : Frame.AllLive m.heap fs) (s : Stmt) : (m.execute fs s).Sound := by
  have hpush (e : Expr) {f : Frame} (hf : f.values = []) : Sound ⟨m, .eval e, f :: fs⟩ :=
    ⟨hs, List.forall_mem_nil _, hfs.push (hf ▸ List.forall_mem_nil _)⟩
  cases s with
  | varDecl t e =>
    cases e with
    | none =>
      exact ⟨hs.define (v := .nil) trivial _ _, List.forall_mem_nil _, hfs.mono (Heap.keeps_define _ _ _ _)⟩
    | some e => exact hpush _ rfl
  | block body =>
    let inside : Machine := { m with
      heap := (m.heap.child m.environment).2
      environment := ⟨m.heap.environments.size⟩ }
    exact sound_runBlock (m := inside) (hs.child _) (hfs.mono (Heap.keeps_child _ _)) m.environment body
  | function decl =>
    have hk := m.heap.keeps_newFunction ⟨decl, m.environment, false⟩
    refine ⟨(hs.newFunction _).define ?_ _ _, List.forall_mem_nil _,
      hfs.mono (hk.trans (Heap.keeps_define _ _ _ _))⟩
    simp [Value.Lives, Heap.newFunction]
  | classDecl t r methods =>
    simp only [execute]
    cases hr : m.superclass r with
    | error e => exact ⟨hs, List.forall_mem_nil _, hfs⟩
    | ok k =>
      obtain ⟨hsound, hkeeps⟩ := sound_declareClass hs t
        (fun s hk => lives_superclass hs (hr.trans (congrArg _ hk))) methods
      exact ⟨hsound, List.forall_mem_nil _, hfs.mono hkeeps⟩
  | returning t e =>
    cases e with
    | none => exact ⟨hs, List.forall_mem_singleton.mpr trivial, hfs⟩
    | some e => exact hpush _ rfl
  | breaking t => exact ⟨hs, List.forall_mem_nil _, hfs⟩
  | continuing t => exact ⟨hs, List.forall_mem_nil _, hfs⟩
  | _ => exact hpush _ rfl

theorem sound_afterBody {m : Machine} {fs : List Frame} (hs : m.heap.Sound)
    (hfs : Frame.AllLive m.heap fs) (loop : Loop) : (m.afterBody fs loop).Sound := by
  obtain ⟨condition, body, increment⟩ := loop
  cases increment <;> exact ⟨hs, List.forall_mem_nil _, hfs.push fun _ => nofun⟩

theorem sound_resumeValue {m : Machine} {fs : List Frame} {v : Value} {frame : Frame}
    (h : Sound ⟨m, .done (.value v), frame :: fs⟩) : (m.resumeValue fs v frame).Sound := by
  have hs := h.heap
  have hv : v.Lives m.heap := h.control v (.head _)
  obtain ⟨hframe, hrest⟩ := List.forall_mem_cons.mp h.frames
  have hfs : Frame.AllLive m.heap fs := hrest
  have hvalue : Sound ⟨m, .done (.value v), fs⟩ := ⟨hs, h.control, hfs⟩
  have hnone (control : Control) (hc : control.values = []) : Sound ⟨m, control, fs⟩ :=
    ⟨hs, hc ▸ List.forall_mem_nil _, hfs⟩
  cases frame with
  | unary t => exact sound_finish hs hfs fun w => Operator.lives_unary m.heap
  | binaryLeft t right =>
    exact ⟨hs, List.forall_mem_nil _, hfs.push (List.forall_mem_singleton.mpr hv)⟩
  | binaryRight left t => exact sound_finish hs hfs fun w => Operator.lives_binary m.heap
  | logical t right =>
    simp only [resumeValue]
    split
    · exact hvalue
    · exact hnone _ rfl
  | assign r =>
    simp only [resumeValue, finishAssign]
    cases m.holder? r with
    | none => exact hnone _ rfl
    | some e =>
      have hk := m.heap.keeps_define e r.name.lexeme v
      exact ⟨hs.define hv _ _, List.forall_mem_singleton.mpr (hv.mono hk), hfs.mono hk⟩
  | callee paren arguments =>
    cases arguments with
    | nil => exact sound_call h rfl hv (List.forall_mem_nil _)
    | cons e rest =>
      exact ⟨hs, List.forall_mem_nil _, hfs.push (List.forall_mem_singleton.mpr hv)⟩
  | argument callee paren done rest =>
    obtain ⟨hcallee, hdone⟩ := List.forall_mem_cons.mp hframe
    have hpush : ∀ w ∈ (done.push v).toList, w.Lives m.heap := by
      rw [Array.toList_push]
      exact List.forall_mem_append.mpr ⟨hdone, List.forall_mem_singleton.mpr hv⟩
    cases rest with
    | nil => exact sound_call h rfl hcallee hpush
    | cons e rest =>
      exact ⟨hs, List.forall_mem_nil _, hfs.push (List.forall_mem_cons.mpr ⟨hcallee, hpush⟩)⟩
  | get t => exact sound_finishProperty hs hfs fun receiver p => lives_property hs hv
  | setObject t e =>
    cases v with
    | object o => exact ⟨hs, List.forall_mem_nil _, hfs.push (List.forall_mem_singleton.mpr hv)⟩
    | _ => exact hnone _ rfl
  | setValue o t =>
    have hk := m.heap.keeps_setField o t.lexeme v
    exact ⟨hs.setField hv _ _, List.forall_mem_singleton.mpr (hv.mono hk), hfs.mono hk⟩
  | varDecl t =>
    have hk := m.heap.keeps_define m.environment t.lexeme v
    exact ⟨hs.define hv _ _, List.forall_mem_nil _, hfs.mono hk⟩
  | print => exact ⟨hs, List.forall_mem_nil _, hfs⟩
  | branch s alternative =>
    simp only [resumeValue]
    split
    · exact hnone _ rfl
    · cases alternative <;> exact hnone _ rfl
  | returning => exact ⟨hs, List.forall_mem_singleton.mpr hv, hfs⟩
  | loopTest loop =>
    simp only [resumeValue]
    split
    · exact ⟨hs, List.forall_mem_nil _, hfs.push (List.forall_mem_nil _)⟩
    · exact hnone _ rfl
  | loopStep loop => exact ⟨hs, List.forall_mem_nil _, hfs.push (List.forall_mem_nil _)⟩
  | discard => exact hnone _ rfl
  | _ => exact hvalue

/-- What is sound stays sound. -/
theorem Sound.step {c : Config} (h : c.Sound) : c.step.Sound := by
  obtain ⟨m, control, fs⟩ := c
  cases control with
  | eval e => exact sound_evaluate h.heap h.frames e
  | exec s => exact sound_execute h.heap h.frames s
  | done c =>
    cases fs with
    | nil => exact h
    | cons frame fs =>
      obtain ⟨hframe, hfs⟩ := List.forall_mem_cons.mp h.frames
      have hpass : Sound ⟨m, .done c, fs⟩ := ⟨h.heap, h.control, hfs⟩
      cases frame with
      | block rest outer =>
        cases c with
        | normal => exact sound_runBlock h.heap hfs outer rest
        | _ => exact ⟨h.heap, h.control, hfs⟩
      | call result =>
        have hcontrol : ∀ v ∈ c.values, v.Lives m.heap := h.control
        have hlives := lives_callValue h.heap hframe hcontrol
        cases c with
        | failed e => exact ⟨h.heap, List.forall_mem_nil _, hfs⟩
        | _ =>
          exact ⟨h.heap, List.forall_mem_singleton.mpr hlives, hfs⟩
      | loopBody loop =>
        cases c with
        | normal => exact sound_afterBody h.heap hfs loop
        | continued => exact sound_afterBody h.heap hfs loop
        | broken => exact ⟨h.heap, List.forall_mem_nil _, hfs⟩
        | _ => exact hpass
      | _ =>
        cases c with
        | value v => exact sound_resumeValue h
        | _ => exact hpass

end Config

end Lox
