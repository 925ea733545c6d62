import Lox.Proofs.Machine.Attached
import Lox.Proofs.Machine.References

/-! Environments only grow.

No environment is unlinked and no name is unbound. A new name comes into an environment that was
there before only by a declaration that is run in it, and while a statement runs that declares
nothing itself, every declaration is run in an environment made since. -/

namespace Lox

/-- How environments change: by new ones, by new values for names that are bound, and by names that
are declared. -/
inductive Heap.Changes (declared : EnvironmentId → String → Prop) (assigned : String → Prop) :
    Heap → Heap → Prop where
  | same {h h'} : h'.environments = h.environments → Changes declared assigned h h'
  | push {h h' env} : h'.environments = h.environments.push env → Changes declared assigned h h'
  | assign {h e x v} : h.binds e x = true → assigned x → Changes declared assigned h (h.define e x v)
  | declare {h e x v} : declared e x → Changes declared assigned h (h.define e x v)
  | trans {h h' h''} : Changes declared assigned h h' → Changes declared assigned h' h'' →
    Changes declared assigned h h''

/-- The name that a statement at work declares. -/
def Config.declares? : Config → Option Token
  | ⟨_, .exec s, _⟩ => s.declared?
  | ⟨_, .done (.value _), .varDecl t :: _⟩ => some t
  | _ => none

/-- The name that the next step assigns to. -/
def Config.assigns? : Config → Option Token
  | ⟨_, .done (.value _), .assign r :: _⟩ => some r.name
  | _ => none

def Config.Declares (c : Config) (e : EnvironmentId) (x : String) : Prop :=
  e = c.machine.environment ∧ ∃ t, c.declares? = some t ∧ t.lexeme = x

def Config.Assigns (c : Config) (x : String) : Prop := ∃ t, c.assigns? = some t ∧ t.lexeme = x

section

variable {declared : EnvironmentId → String → Prop} {assigned : String → Prop}

theorem Heap.changes_bindMethod (h : Heap) (f : Closure) (receiver : Value) :
    Changes declared assigned h (h.bindMethod f receiver).2 :=
  .trans (.push (h.bindThis_environments f receiver)) (.same rfl)

theorem Heap.changes_entered (h : Heap) (f : Closure) (arguments : List Value) :
    Changes declared assigned h (h.entered f arguments) :=
  .push (h.entered_environments f arguments)

theorem Heap.changes_instantiate (h : Heap) (k : ClassId) (f : Closure) :
    Changes declared assigned h (h.instantiate k f).2 :=
  .trans (.same rfl) (.push (bindThis_environments _ f _))

theorem Machine.changes_declareClass {m : Machine} {t : Token}
    (hd : declared m.environment t.lexeme) (k : Option ClassId) (methods : List FunctionDecl) :
    Heap.Changes declared assigned m.heap (m.declareClass t k methods).heap := by
  have hnil : Heap.Changes declared assigned m.heap (m.define t.lexeme .nil).heap := .declare hd
  have hclass (h : Heap) (cls : Class) (v : Value) : Heap.Changes declared assigned h
      ((h.newClass cls).2.define m.environment t.lexeme v) := by
    have hnew : Heap.Changes declared assigned h (h.newClass cls).2 := .same rfl
    exact hnew.trans (.declare hd)
  cases k with
  | none => exact hnil.trans (hclass _ _ _)
  | some s =>
    have hchild : ((m.define t.lexeme .nil).heap.child m.environment).2.environments =
      (m.define t.lexeme .nil).heap.environments.push ⟨Bindings.empty, some m.environment⟩ := rfl
    have hsuper := Heap.define_push hchild "super" (.classValue s)
    exact hnil.trans (.trans (.push hsuper) (hclass _ _ _))

end

/-- Every change of a step is one of these. -/
theorem Config.Writes.changes {c : Config} {h : Heap} (hw : c.Writes h) :
    Heap.Changes c.Declares c.Assigns c.machine.heap h := by
  cases hw with
  | nothing => exact .same rfl
  | undefined => exact .declare ⟨rfl, _, rfl, rfl⟩
  | «variable» => exact .declare ⟨rfl, _, rfl, rfl⟩
  | block => exact .push rfl
  | @function m decl fs =>
    have hnew : Heap.Changes (Config.Declares ⟨m, .exec (.function decl), fs⟩)
      (Config.Assigns ⟨m, .exec (.function decl), fs⟩) m.heap
      (m.heap.newFunction ⟨decl, m.environment, false⟩).2 := .same rfl
    exact hnew.trans (.declare ⟨rfl, _, rfl, rfl⟩)
  | classDecl => exact Machine.changes_declareClass ⟨rfl, _, rfl, rfl⟩ _ _
  | assigned he => exact .assign (Machine.binds_of_holder? he) ⟨_, rfl, rfl⟩
  | field => exact .same rfl
  | property => exact Heap.changes_bindMethod _ _ _
  | inherited => exact Heap.changes_bindMethod _ _ _
  | called => exact Heap.changes_entered _ _ _
  | object => exact .same rfl
  | initialized =>
    exact (Heap.changes_instantiate _ _ _).trans (Heap.changes_entered _ _ _)

/-- Every environment has kept its place in the chain and all of its names. -/
structure Heap.Extends (h h' : Heap) : Prop where
  enclosing : ∀ e env, h.environment? e = some env →
    (h'.environment? e).map (·.enclosing) = some env.enclosing
  names : ∀ e x, h.binds e x = true → h'.binds e x = true

/-- The first environments have kept their places and have the same names. -/
structure Heap.Agrees (count : Nat) (h h' : Heap) : Prop where
  enclosing : ∀ e : EnvironmentId, e.index < count →
    (h'.environment? e).map (·.enclosing) = (h.environment? e).map (·.enclosing)
  names : ∀ e : EnvironmentId, e.index < count → ∀ x, h'.binds e x = h.binds e x

namespace Heap

variable {h h' h'' : Heap} {count : Nat}

theorem enclosing_define (h : Heap) (e e' : EnvironmentId) (x : String) (v : Value) :
    ((h.define e x v).environment? e').map (·.enclosing) =
      (h.environment? e').map (·.enclosing) := by
  rw [environment?_define]
  split
  · simp [Function.comp_def]
  · rfl

/-- A new value for one name leaves the others bound as they were. -/
theorem binds_define (h : Heap) (e e' : EnvironmentId) (x y : String) (v : Value) :
    (h.define e x v).binds e' y =
      (h.binds e' y || (decide (e = e' ∧ x = y) && (h.environment? e').isSome)) := by
  unfold binds
  rw [local?_define]
  by_cases hc : e = e' ∧ x = y ∧ (h.environment? e').isSome = true
  · simp [hc]
  · rw [if_neg hc]
    by_cases hxy : e = e' ∧ x = y
    · have hnone : (h.environment? e').isSome = false :=
        Bool.eq_false_iff.mpr fun hsome => hc ⟨hxy.1, hxy.2, hsome⟩
      simp [hnone]
    · simp [hxy]

theorem index_lt_of_binds {e : EnvironmentId} {x : String} (hb : h.binds e x = true) :
    e.index < h.environments.size := by
  obtain ⟨v, hv⟩ := Option.isSome_iff_exists.mp hb
  obtain ⟨env, henv, -⟩ := Option.bind_eq_some_iff.mp hv
  exact index_lt_of_isSome (by simp [henv])

namespace Extends

theorem refl (h : Heap) : h.Extends h := ⟨fun e env he => by simp [he], fun e x hb => hb⟩

theorem trans (he : h.Extends h') (he' : h'.Extends h'') : h.Extends h'' := by
  refine ⟨fun e env henv => ?_, fun e x hb => he'.names e x (he.names e x hb)⟩
  obtain ⟨env', henv', hout⟩ := Option.map_eq_some_iff.mp (he.enclosing e env henv)
  exact (he'.enclosing e env' henv').trans (congrArg some hout)

theorem of_same (he : h'.environments = h.environments) : h.Extends h' := by
  have hsame (e : EnvironmentId) : h'.environment? e = h.environment? e := by
    rw [environment?, he, environment?]
  refine ⟨fun e env henv => by rw [hsame, henv]; rfl, fun e x hb => ?_⟩
  rwa [binds, local?, hsame, ← local?, ← binds]

end Extends

/-- Whatever the changes are, environments only grow. -/
theorem Changes.extends {declared : EnvironmentId → String → Prop} {assigned : String → Prop}
    (hc : Changes declared assigned h h') : h.Extends h' := by
  induction hc with
  | same he => exact .of_same he
  | push he =>
    refine ⟨fun e env henv => ?_, fun e x hb => ?_⟩
    · have hlt := index_lt_of_isSome (Option.isSome_of_eq_some henv)
      rw [environment?_push he, if_neg (Nat.ne_of_lt hlt), henv]
      rfl
    · rw [binds, local?_push he, if_neg (Nat.ne_of_lt (index_lt_of_binds hb))]
      exact hb
  | assign _ _ =>
    refine ⟨fun e env henv => by rw [enclosing_define, henv]; rfl, fun e x hb => ?_⟩
    rw [binds_define, hb, Bool.true_or]
  | declare _ =>
    refine ⟨fun e env henv => by rw [enclosing_define, henv]; rfl, fun e x hb => ?_⟩
    rw [binds_define, hb, Bool.true_or]
  | trans _ _ ih ih' => exact ih.trans ih'

theorem Changes.size_le {declared : EnvironmentId → String → Prop} {assigned : String → Prop}
    (hc : Changes declared assigned h h') : h.environments.size ≤ h'.environments.size := by
  induction hc with
  | same he => exact Nat.le_of_eq (by rw [he])
  | push he => rw [he, Array.size_push]; exact Nat.le_succ _
  | assign _ _ => exact Nat.le_of_eq (size_define _ _ _ _).symm
  | declare _ => exact Nat.le_of_eq (size_define _ _ _ _).symm
  | trans _ _ ih ih' => exact Nat.le_trans ih ih'

namespace Agrees

theorem refl (count : Nat) (h : Heap) : h.Agrees count h := ⟨fun _ _ => rfl, fun _ _ _ => rfl⟩

theorem trans (ha : h.Agrees count h') (ha' : h'.Agrees count h'') : h.Agrees count h'' :=
  ⟨fun e he => (ha'.enclosing e he).trans (ha.enclosing e he),
    fun e he x => (ha'.names e he x).trans (ha.names e he x)⟩

end Agrees

/-- Where only new environments are declared in, the first ones keep their names. -/
theorem Changes.agrees {declared : EnvironmentId → String → Prop} {assigned : String → Prop}
    (hc : Changes declared assigned h h')
    (hd : ∀ e x, declared e x → count ≤ e.index) (hle : count ≤ h.environments.size) :
    h.Agrees count h' := by
  induction hc with
  | @same h h' he =>
    have hsame (e : EnvironmentId) : h'.environment? e = h.environment? e := by
      rw [environment?, he, environment?]
    exact ⟨fun e _ => by rw [hsame], fun e _ x => by rw [binds, local?, hsame, binds, local?]⟩
  | push he =>
    refine ⟨fun e hlt => ?_, fun e hlt x => ?_⟩
    · rw [environment?_push he, if_neg (by omega)]
    · rw [binds, local?_push he, if_neg (by omega), binds]
  | @assign h e x v hb _ =>
    refine ⟨fun e' _ => enclosing_define h e e' x v, fun e' _ y => ?_⟩
    rw [binds_define]
    by_cases hxy : e = e' ∧ x = y
    · obtain ⟨rfl, rfl⟩ := hxy
      rw [hb, Bool.true_or]
    · simp [hxy]
  | @declare h e x v hdecl =>
    refine ⟨fun e' _ => enclosing_define h e e' x v, fun e' hlt y => ?_⟩
    have hne : e ≠ e' := by
      rintro rfl
      exact absurd (hd e x hdecl) (Nat.not_le.mpr hlt)
    rw [binds_define]
    simp [hne]
  | trans hc hc' ih ih' => exact (ih hle).trans (ih' (Nat.le_trans hle hc.size_le))

end Heap

/-- What a configuration does until it comes back to some frames, with its end. -/
inductive Config.During (frames : List Frame) (c : Config) : Config → Prop where
  | here : During frames c c
  | step {c'} : During frames c c' →
    (∀ completion, c'.control = .done completion → c'.frames ≠ frames) → During frames c c'.step

/-- An expression or statement in whose scope nothing is declared. -/
def Node.Undeclaring : Node → Prop
  | .expr _ => True
  | .stmt s => s.WellFormed ∧ s.declared? = none
  | _ => False

/-- A part that stands in the same scope declares nothing there either: the grammar keeps
declarations out of branches and loop bodies. -/
theorem Node.Undeclaring.beside {n m : Node} (h : n.Undeclaring) (hp : n.Beside m) :
    m.Undeclaring := by
  obtain ⟨Δ, hpart, hlength⟩ := hp .top
  cases hpart with
  | thenBranch => exact h.1.2
  | consequent => exact ⟨h.1.2.1, h.1.2.2.1⟩
  | alternative => exact h.1.2.2.2
  | repeated => exact ⟨h.1.2.1, h.1.2.2.1⟩
  | block => cases hlength
  | function => cases h.2
  | method => cases h.2
  | first => exact h.elim
  | rest => exact h.elim
  | inside => exact h.elim
  | _ => exact trivial

section

variable {count : Nat} {base : List Frame} {c : Config}

/-- A node is run in an environment made since, or declares nothing there. -/
def Node.Harmless (count : Nat) (e : EnvironmentId) (n : Node) : Prop :=
  count ≤ e.index ∨ n.Undeclaring

theorem Node.harmless_passesOn (count : Nat) : PassesOn (Node.Harmless count) :=
  ⟨fun h hp => h.imp_right fun h => h.beside hp⟩

/-- What declares is run in an environment made since. -/
theorem Config.Attached.declares (h : c.Attached (Node.Harmless count) base)
    (hrest : ∀ completion, c.control = .done completion → c.frames ≠ base)
    {e : EnvironmentId} {x : String} (hd : c.Declares e x) : count ≤ e.index := by
  obtain ⟨rfl, t, ht, -⟩ := hd
  obtain ⟨m, control, fs⟩ := c
  obtain ⟨hcontrol, hfs⟩ := h
  unfold declares? at ht
  split at ht
  · rename_i heq
    cases heq
    refine hcontrol.resolve_right fun hnone => ?_
    exact nomatch hnone.2.symm.trans ht
  · rename_i heq
    cases heq
    cases hfs with
    | base => exact absurd rfl (hrest _ rfl)
    | frame hfrom hn _ =>
      cases hfrom
      exact hn.resolve_right fun hnone => nomatch hnone.2
  · cases ht

/-- Every body is run in an environment made for it. -/
theorem Config.Opens.le_index {e : EnvironmentId} {body : List Stmt} (h : c.Opens e body) :
    c.machine.heap.environments.size ≤ e.index := by
  cases h with
  | block => exact Nat.le_refl _
  | function => exact Nat.le_refl _
  | @initializer _ k _ _ method =>
    have hgrows : Heap.Changes (fun _ _ => False) (fun _ => False) c.machine.heap
      (c.machine.heap.instantiate k method).2 := Heap.changes_instantiate _ _ _
    exact hgrows.size_le

/-- While a statement runs that declares nothing, the environments that were there before it keep
their names. -/
theorem Config.During.agrees {m : Machine} {s : Stmt} {fs : List Frame} {c' : Config}
    (hs : s.WellFormed) (hnone : s.declared? = none) (h : During fs ⟨m, .exec s, fs⟩ c') :
    m.heap.Agrees m.heap.environments.size c'.machine.heap := by
  suffices hall : c'.Attached (Node.Harmless m.heap.environments.size) fs ∧
      m.heap.environments.size ≤ c'.machine.heap.environments.size ∧
      m.heap.Agrees m.heap.environments.size c'.machine.heap from hall.2.2
  induction h with
  | here => exact ⟨⟨.inr ⟨hs, hnone⟩, .base⟩, Nat.le_refl _, .refl _ _⟩
  | @step c₁ hduring hrest ih =>
    obtain ⟨hattached, hsize, hagrees⟩ := ih
    have hchanges := (writes_step c₁).changes
    refine ⟨hattached.step (Node.harmless_passesOn _) hrest fun e body hopens => ?_,
      Nat.le_trans hsize hchanges.size_le,
      hagrees.trans (hchanges.agrees (fun e x => hattached.declares hrest) hsize)⟩
    exact .inl (Nat.le_trans hsize hopens.le_index)

end

end Lox
