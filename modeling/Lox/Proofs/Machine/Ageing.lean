import Lox.Proofs.Machine.Growth
import Lox.Proofs.Machine.Kept
import Lox.Proofs.Machine.Lineage

/-! What no step undoes.

Classes stay as they were made and objects stay in their class. Environments keep their place, and
the two reserved names keep their values, for no program declares them or assigns to them. -/

namespace Lox

/-- The names that are bound by the binding of a method and by the declaration of a subclass. -/
def Reserved (x : String) : Prop := x = "this" ∨ x = "super"

theorem Token.IsName.not_reserved {t : Token} (h : t.IsName) : ¬Reserved t.lexeme :=
  fun hx => hx.elim h.not_this h.not_super

/-- A later heap has all that was never to change. -/
structure Heap.Ages (h h' : Heap) : Prop where
  environments : ∀ e env, h.environment? e = some env → ∃ env', h'.environment? e = some env' ∧
    env'.enclosing = env.enclosing ∧ ∀ x, Reserved x → env'.bindings.get? x = env.bindings.get? x
  classes : ∀ k cls, h.class? k = some cls → h'.class? k = some cls
  objects : ∀ o object, h.object? o = some object →
    ∃ object', h'.object? o = some object' ∧ object'.ofClass = object.ofClass

namespace Heap

variable {h h' h'' : Heap}

theorem Changes.reserved {declared : EnvironmentId → String → Prop} {assigned : String → Prop}
    (hc : Changes declared assigned h h') (hd : ∀ e x, declared e x → ¬Reserved x)
    (ha : ∀ x, assigned x → ¬Reserved x) : ∀ e env, h.environment? e = some env →
      ∃ env', h'.environment? e = some env' ∧ env'.enclosing = env.enclosing ∧
        ∀ x, Reserved x → env'.bindings.get? x = env.bindings.get? x := by
  have hdefine {h : Heap} {e e' : EnvironmentId} {y : String} {v : Value} {env : Environment}
      (hy : ¬Reserved y) (he' : h.environment? e' = some env) :
      ∃ env', (h.define e y v).environment? e' = some env' ∧ env'.enclosing = env.enclosing ∧
        ∀ x, Reserved x → env'.bindings.get? x = env.bindings.get? x := by
    rw [environment?_define]
    split
    · rw [he']
      refine ⟨_, rfl, rfl, fun x hx => ?_⟩
      have hne : y ≠ x := by
        rintro rfl
        exact hy hx
      rw [Bindings.get?_insert, if_neg hne]
    · exact ⟨env, he', rfl, fun _ _ => rfl⟩
  induction hc with
  | same he => exact fun e env henv => ⟨env, by rwa [environment?, he], rfl, fun _ _ => rfl⟩
  | push he =>
    intro e env henv
    have hlt : e.index < _ := index_lt_of_isSome (by rw [henv]; rfl)
    exact ⟨env, by rw [environment?_push he, if_neg (Nat.ne_of_lt hlt), henv], rfl,
      fun _ _ => rfl⟩
  | assign _ hx => exact fun e env henv => hdefine (ha _ hx) henv
  | declare hx => exact fun e env henv => hdefine (hd _ _ hx) henv
  | trans _ _ ih ih' =>
    intro e env henv
    obtain ⟨env', henv', hout', hget'⟩ := ih e env henv
    obtain ⟨env'', henv'', hout'', hget''⟩ := ih' e env' henv'
    exact ⟨env'', henv'', hout''.trans hout', fun x hx => (hget'' x hx).trans (hget' x hx)⟩

theorem Descends.ages {k j : ClassId} (hd : h.Descends k j) (ha : h.Ages h') :
    h'.Descends k j := by
  induction hd with
  | refl => exact .refl
  | up hcls hs _ ih => exact .up (ha.classes _ _ hcls) hs ih

end Heap

namespace Machine

variable {m : Machine}

/-- The class that a declaration makes. -/
def declared (m : Machine) (t : Token) (superclass : Option ClassId)
    (methods : List FunctionDecl) : Class :=
  ⟨t.lexeme, superclass, methodTable ((m.define t.lexeme .nil).methodScope superclass).1 methods⟩

/-- The methods of a class are those of its declaration, all in one scope. -/
theorem mem_declared {t : Token} {superclass : Option ClassId} {methods : List FunctionDecl}
    {name : String} {f : Closure}
    (h : (m.declared t superclass methods).methods.get? name = some f) :
    f.decl ∈ methods ∧ f.scope = ((m.define t.lexeme .nil).methodScope superclass).1 := by
  obtain ⟨decl, hdecl, heq⟩ :=
    List.mem_map.mp (Bindings.mem_of_mem_ofList (Bindings.mem_of_get? h))
  cases heq
  exact ⟨hdecl, rfl⟩

theorem classes_declareClass (t : Token) (superclass : Option ClassId)
    (methods : List FunctionDecl) : (m.declareClass t superclass methods).heap.classes =
      m.heap.classes.push (m.declared t superclass methods) := by
  cases superclass <;> rfl

theorem functions_declareClass (t : Token) (superclass : Option ClassId)
    (methods : List FunctionDecl) :
    (m.declareClass t superclass methods).heap.functions = m.heap.functions := by
  cases superclass <;> rfl

theorem objects_declareClass (t : Token) (superclass : Option ClassId)
    (methods : List FunctionDecl) :
    (m.declareClass t superclass methods).heap.objects = m.heap.objects := by
  cases superclass <;> rfl

end Machine

namespace Config

variable {c : Config} {h : Heap}

/-- Classes are only made by declarations. -/
theorem Writes.classes (hw : c.Writes h) : h.classes = c.machine.heap.classes ∨
    ∃ t r methods k, c.control = .exec (.classDecl t r methods) ∧
      c.machine.superclass r = .ok k ∧ h = (c.machine.declareClass t k methods).heap := by
  cases hw with
  | classDecl hr => exact .inr ⟨_, _, _, _, rfl, hr, rfl⟩
  | called => exact .inl (Heap.entered_other _ _ _).2.1
  | initialized => exact .inl (Heap.entered_other _ _ _).2.1
  | _ => exact .inl rfl

/-- Functions are only made by declarations and by the binding of methods. -/
theorem Writes.functions (hw : c.Writes h) : h.functions = c.machine.heap.functions ∨
    (∃ decl, c.control = .exec (.function decl) ∧
      h.functions = c.machine.heap.functions.push ⟨decl, c.machine.environment, false⟩) ∨
    ∃ receiver f, c.binding? = some (receiver, f) ∧
      h = (c.machine.heap.bindMethod f receiver).2 := by
  cases hw with
  | function => exact .inr (.inl ⟨_, rfl, rfl⟩)
  | property hp => exact .inr (.inr ⟨_, _, by simp only [binding?, hp], rfl⟩)
  | inherited hi => exact .inr (.inr ⟨_, _, by simp only [binding?, hi], rfl⟩)
  | classDecl => exact .inl (Machine.functions_declareClass _ _ _)
  | called => exact .inl (Heap.entered_other _ _ _).1
  | initialized => exact .inl (Heap.entered_other _ _ _).1
  | _ => exact .inl rfl

/-- An object that is made is the only new one, and a field changes no class. -/
theorem Writes.objects (hw : c.Writes h) {o : ObjectId} {object : Object}
    (ho : c.machine.heap.object? o = some object) :
    ∃ object', h.object? o = some object' ∧ object'.ofClass = object.ofClass := by
  have hsame (hobjects : h.objects = c.machine.heap.objects) :
      ∃ object', h.object? o = some object' ∧ object'.ofClass = object.ofClass :=
    ⟨object, by rwa [Heap.object?, hobjects], rfl⟩
  have hnew {new : Object} (hobjects : h.objects = c.machine.heap.objects.push new) :
      ∃ object', h.object? o = some object' ∧ object'.ofClass = object.ofClass := by
    have hlt : o.index < c.machine.heap.objects.size := (Array.getElem?_eq_some_iff.mp ho).1
    refine ⟨object, ?_, rfl⟩
    rwa [Heap.object?, hobjects, Array.getElem?_push, if_neg (Nat.ne_of_lt hlt)]
  cases hw with
  | classDecl => exact hsame (Machine.objects_declareClass _ _ _)
  | called => exact hsame (Heap.entered_other _ _ _).2.2
  | object => exact hnew rfl
  | initialized => exact hnew (Heap.entered_other _ _ _).2.2
  | @field m v o' t fs =>
    have ho : m.heap.objects[o.index]? = some object := ho
    simp only [Heap.setField, Heap.object?, Array.getElem?_modify, ho]
    split
    · exact ⟨_, rfl, rfl⟩
    · exact ⟨object, rfl, rfl⟩
  | _ => exact hsame rfl

theorem Writes.ages (hw : c.Writes h) (hd : ∀ e x, c.Declares e x → ¬Reserved x)
    (ha : ∀ x, c.Assigns x → ¬Reserved x) : c.machine.heap.Ages h where
  environments := hw.changes.reserved hd ha
  objects _ _ ho := hw.objects ho
  classes k cls hk := by
    rcases hw.classes with hclasses | ⟨t, r, methods, superclass, -, -, rfl⟩
    · rwa [Heap.class?, hclasses]
    · have hlt := Heap.index_lt_of_class? hk
      rwa [Heap.class?, Machine.classes_declareClass, Array.getElem?_push,
        if_neg (Nat.ne_of_lt hlt)]

end Config

section

variable {programs : List (List Stmt)} {o : Origins} {c : Config}

/-- An accepted program declares no reserved name. -/
theorem Config.Kept.declares (h : c.Kept programs o) (e : EnvironmentId) (x : String)
    (hd : c.Declares e x) : ¬Reserved x := by
  obtain ⟨-, t, ht, rfl⟩ := hd
  obtain ⟨m, control, fs⟩ := c
  obtain ⟨hm, hcontrol⟩ := h
  unfold declares? at ht
  split at ht
  · rename_i heq
    cases heq
    obtain ⟨Γ, -, hn, -⟩ := hcontrol
    exact ((hm.standing hn).wellFormed.declared ht).not_reserved
  · rename_i heq
    cases heq
    cases ht
    obtain ⟨hole, -, hfits⟩ := hcontrol
    simp only at hfits
    generalize m.environment = e at hfits
    cases hfits with
    | varDecl _ hn _ => exact (hm.standing hn).wellFormed.1.not_reserved
  · cases ht

/-- An accepted program assigns to no reserved name. -/
theorem Config.Kept.assigns (h : c.Kept programs o) (x : String) (ha : c.Assigns x) :
    ¬Reserved x := by
  obtain ⟨t, ht, rfl⟩ := ha
  obtain ⟨m, control, fs⟩ := c
  obtain ⟨hm, hcontrol⟩ := h
  unfold assigns? at ht
  split at ht
  · rename_i heq
    cases heq
    cases ht
    obtain ⟨hole, -, hfits⟩ := hcontrol
    simp only at hfits
    generalize m.environment = e at hfits
    cases hfits with
    | assign _ hn _ => exact (hm.standing hn).wellFormed.1.not_reserved
  · cases ht

/-- A step undoes none of this. -/
theorem Config.Kept.ages (h : c.Kept programs o) :
    c.machine.heap.Ages c.step.machine.heap :=
  c.writes_step.ages h.declares h.assigns

end

end Lox
