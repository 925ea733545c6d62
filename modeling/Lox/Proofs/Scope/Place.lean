import Lox.Program.Nodes
import Lox.Proofs.Program.WellFormed

/-! Where a node of a program stands.

A place is what analysis knows when it comes to a node: the context, the scopes that are open with
the declarations met in each so far, and a declaration that has begun but binds nothing yet. The
places of the parts of a node are computed from its own, and the notes of a part are among the
notes of the whole. -/

namespace Lox

inductive ScopeKind where
  | globals | block | function | receiver | superclass
  deriving DecidableEq, Repr

/-- What introduces a name: a declaration or parameter, a method call, or a class with a
superclass. -/
inductive Binder where
  | named (t : Token)
  | receiver
  | superclass
  deriving DecidableEq, Repr

def Binder.name : Binder → String
  | .named t => t.lexeme
  | .receiver => "this"
  | .superclass => "super"

/-- A scope and what has introduced names in it so far, the oldest first. -/
structure OpenScope where
  kind : ScopeKind
  binders : List Binder
  deriving DecidableEq, Repr

namespace OpenScope

def names (s : OpenScope) : Scope :=
  s.binders.foldl (fun names b => names.insert b.name true) Bindings.empty

def add (s : OpenScope) (b : Binder) : OpenScope := { s with binders := s.binders ++ [b] }

def receiver : OpenScope := ⟨.receiver, [.receiver]⟩

def superclass : OpenScope := ⟨.superclass, [.superclass]⟩

@[simp] theorem kind_add (s : OpenScope) (b : Binder) : (s.add b).kind = s.kind := rfl

@[simp] theorem binders_add (s : OpenScope) (b : Binder) :
    (s.add b).binders = s.binders ++ [b] := rfl

@[simp] theorem names_add (s : OpenScope) (b : Binder) :
    (s.add b).names = s.names.insert b.name true := by
  simp [names]

theorem get?_foldl_insert (x : String) (bs : List Binder) : ∀ names : Scope,
    (bs.foldl (fun names b => names.insert b.name true) names).get? x =
      if ∃ b ∈ bs, b.name = x then some true else names.get? x := by
  induction bs with
  | nil => simp
  | cons b rest ih =>
    intro names
    rw [List.foldl_cons, ih, Bindings.get?_insert]
    by_cases hr : ∃ b ∈ rest, b.name = x <;> by_cases hb : b.name = x <;> simp_all

/-- Every name in an open scope is complete. -/
theorem get?_names (s : OpenScope) (x : String) :
    s.names.get? x = if ∃ b ∈ s.binders, b.name = x then some true else none :=
  get?_foldl_insert x s.binders Bindings.empty

theorem contains_names (s : OpenScope) (x : String) :
    s.names.contains x = true ↔ ∃ b ∈ s.binders, b.name = x := by
  rw [Bindings.contains, get?_names]
  split <;> simp_all

end OpenScope

/-- The scope of a call, once the parameters are bound. -/
def FunctionDecl.scope (f : FunctionDecl) : OpenScope := ⟨.function, f.params.map .named⟩

/-- A declaration that has begun. The name of a class can be read already, though not by the class
itself, the name of a variable cannot. -/
structure Underway where
  name : Token
  readable : Bool
  deriving DecidableEq, Repr

structure Place where
  context : ScopeContext
  opens : List OpenScope
  underway : Option Underway
  deriving DecidableEq, Repr

namespace Place

def top : Place := ⟨.topLevel, [], none⟩

/-- The scopes as analysis has them here, the innermost first. -/
def scopes (Γ : Place) : Scopes :=
  let base : Scopes := Γ.opens.map OpenScope.names
  match Γ.underway with
  | none => base
  | some ⟨name, true⟩ => base.define name.lexeme
  | some ⟨name, false⟩ => base.declare name.lexeme

/-- After the declaration of a name in the innermost scope. -/
def define (Γ : Place) (name : Token) : Place :=
  { Γ with opens :=
      match Γ.opens with
      | [] => []
      | s :: outer => s.add (.named name) :: outer }

def after (Γ : Place) (s : Stmt) : Place :=
  match s.declared? with
  | some name => Γ.define name
  | none => Γ

def declaring (Γ : Place) (name : Token) (readable : Bool) : Place :=
  { Γ with underway := some ⟨name, readable⟩ }

def inBlock (Γ : Place) : Place := { Γ with opens := ⟨.block, []⟩ :: Γ.opens }

def inLoop (Γ : Place) : Place := { Γ with context := { Γ.context with inLoop := true } }

/-- Where the methods of a class stand. -/
def inClass (Γ : Place) (superclass : Option Reference) : Place where
  context :=
    { Γ.context with classKind := if superclass.isSome then .derived else .root }
  opens :=
    match superclass with
    | none => .receiver :: Γ.opens
    | some _ => .receiver :: .superclass :: Γ.opens
  underway := Γ.underway

/-- Where the body of a function stands. -/
def inBody (Γ : Place) (kind : FunctionContext) (f : FunctionDecl) : Place where
  context := { Γ.context with function := kind, inLoop := false }
  opens := f.scope :: Γ.opens
  underway := Γ.underway

variable {Γ : Place}

@[simp] theorem underway_define (t : Token) : (Γ.define t).underway = Γ.underway := rfl

@[simp] theorem context_define (t : Token) : (Γ.define t).context = Γ.context := rfl

theorem after_eq_self {s : Stmt} (h : s.declared? = none) : Γ.after s = Γ := by
  simp [after, h]

@[simp] theorem underway_after (s : Stmt) : (Γ.after s).underway = Γ.underway := by
  unfold after
  split
  · exact underway_define _
  · rfl

@[simp] theorem context_after (s : Stmt) : (Γ.after s).context = Γ.context := by
  unfold after
  split
  · exact context_define _
  · rfl

theorem scopes_of_settled (h : Γ.underway = none) : Γ.scopes = Γ.opens.map OpenScope.names := by
  simp [scopes, h]

theorem scopes_define (h : Γ.underway = none) (t : Token) :
    (Γ.define t).scopes = Γ.scopes.define t.lexeme := by
  rw [scopes_of_settled h, scopes_of_settled ((underway_define t).trans h)]
  cases hs : Γ.opens with
  | nil => simp [define, hs, Scopes.define, Scopes.mark]
  | cons s outer => simp [define, hs, Scopes.define, Scopes.mark, Binder.name]

theorem scopes_after (h : Γ.underway = none) (s : Stmt) :
    (Γ.after s).scopes = Γ.scopes.after s := by
  unfold after Scopes.after
  cases s.declared? with
  | none => rfl
  | some t => exact scopes_define h t

theorem scopes_declaring (h : Γ.underway = none) (t : Token) :
    (Γ.declaring t false).scopes = Γ.scopes.declare t.lexeme ∧
      (Γ.declaring t true).scopes = Γ.scopes.define t.lexeme := by
  rw [scopes_of_settled h]
  exact ⟨rfl, rfl⟩

theorem scopes_inBlock (h : Γ.underway = none) :
    Γ.inBlock.scopes = Bindings.empty :: Γ.scopes := by
  rw [scopes_of_settled h]
  exact scopes_of_settled h

theorem scopes_inClass (h : Γ.underway = none) (superclass : Option Reference) :
    (Γ.inClass superclass).scopes = Γ.scopes.ofMethods superclass := by
  have hc : (Γ.inClass superclass).underway = none := h
  rw [scopes_of_settled h, scopes_of_settled hc]
  cases superclass <;> rfl

theorem foldl_define (params : List Token) : ∀ (s : OpenScope) (outer : Scopes),
    params.foldl (fun (scopes : Scopes) p => scopes.define p.lexeme) (s.names :: outer) =
      (⟨s.kind, s.binders ++ params.map .named⟩ : OpenScope).names :: outer := by
  induction params with
  | nil => simp [OpenScope.names]
  | cons p rest ih =>
    intro s outer
    have hs : Scopes.define (s.names :: outer) p.lexeme = (s.add (.named p)).names :: outer := by
      simp [Scopes.define, Scopes.mark, Binder.name]
    rw [List.foldl_cons, hs, ih]
    simp

theorem scopes_inBody (h : Γ.underway = none) (kind : FunctionContext) (f : FunctionDecl) :
    (Γ.inBody kind f).scopes =
      f.params.foldl (fun (scopes : Scopes) p => scopes.define p.lexeme)
        (Bindings.empty :: Γ.scopes) := by
  have hb : (Γ.inBody kind f).underway = none := h
  rw [scopes_of_settled h, scopes_of_settled hb]
  exact (foldl_define f.params ⟨.function, []⟩ _).symm

end Place

/-- A scope in which statements stand: only variables have names in it. -/
structure OpenScope.Plain (s : OpenScope) : Prop where
  kind : s.kind = .block ∨ s.kind = .function
  named : ∀ b ∈ s.binders, ∃ t, b = .named t ∧ t.IsName

theorem OpenScope.Plain.ne_receiver {s : OpenScope} (h : s.Plain) : s ≠ .receiver := by
  rintro rfl
  rcases h.kind with h | h <;> cases h

theorem OpenScope.Plain.ne_superclass {s : OpenScope} (h : s.Plain) : s ≠ .superclass := by
  rintro rfl
  rcases h.kind with h | h <;> cases h

theorem OpenScope.Plain.add {s : OpenScope} {t : Token} (h : s.Plain) (ht : t.IsName) :
    (s.add (.named t)).Plain := by
  refine ⟨h.kind, fun b hb => ?_⟩
  rcases List.mem_append.mp hb with hb | hb
  · exact h.named b hb
  · exact ⟨t, List.mem_singleton.mp hb, ht⟩

/-- A scope for `super` stands right outside of one for `this`. -/
inductive Stacked : List OpenScope → Prop where
  | nil : Stacked []
  | plain {s outer} : s.Plain → Stacked outer → Stacked (s :: outer)
  | root {outer} : Stacked outer → Stacked (.receiver :: outer)
  | derived {outer} : Stacked outer → Stacked (.receiver :: .superclass :: outer)

namespace Place

/-- The scopes are stacked as the context says. -/
structure Shaped (Γ : Place) : Prop where
  stacked : Stacked Γ.opens
  receiver : Γ.context.classKind ≠ .none → OpenScope.receiver ∈ Γ.opens
  superclass : Γ.context.classKind = .derived → OpenScope.superclass ∈ Γ.opens

/-- The innermost scope is one that statements stand in. -/
def Flat (Γ : Place) : Prop := ∀ s ∈ Γ.opens.head?, s.Plain

theorem Shaped.define {Γ : Place} {t : Token} (h : Γ.Shaped) (hf : Γ.Flat) (ht : t.IsName) :
    (Γ.define t).Shaped ∧ (Γ.define t).Flat := by
  obtain ⟨hs, hr, hc⟩ := h
  unfold Flat at hf ⊢
  cases ho : Γ.opens with
  | nil =>
    have hd : (Γ.define t).opens = Γ.opens := by simp [Place.define, ho]
    exact ⟨⟨hd ▸ hs, hd ▸ hr, hd ▸ hc⟩, hd ▸ hf⟩
  | cons s outer =>
    have hd : (Γ.define t).opens = s.add (.named t) :: outer := by simp [Place.define, ho]
    rw [ho] at hs hr hc hf
    have hp : s.Plain := hf s rfl
    have hout : Stacked outer := by
      cases hs with
      | plain _ hout => exact hout
      | root hout => exact hout
      | derived hout => exact absurd rfl hp.ne_receiver
    have hadd := hp.add ht
    refine ⟨⟨hd ▸ .plain hadd hout, fun hk => ?_, fun hk => ?_⟩, ?_⟩
    · rw [hd]
      exact .tail _ ((List.mem_cons.mp (hr hk)).resolve_left fun h => hp.ne_receiver h.symm)
    · rw [hd]
      exact .tail _ ((List.mem_cons.mp (hc hk)).resolve_left fun h => hp.ne_superclass h.symm)
    · rw [hd]
      rintro _ ⟨⟩
      exact hadd

theorem Shaped.inBlock {Γ : Place} (h : Γ.Shaped) : Γ.inBlock.Shaped ∧ Γ.inBlock.Flat := by
  have hp : OpenScope.Plain ⟨.block, []⟩ := ⟨.inl rfl, by simp⟩
  refine ⟨⟨.plain hp h.stacked, fun hk => .tail _ (h.receiver hk),
    fun hk => .tail _ (h.superclass hk)⟩, ?_⟩
  rintro _ ⟨⟩
  exact hp

theorem Shaped.inBody {Γ : Place} {f : FunctionDecl} (h : Γ.Shaped) (kind : FunctionContext)
    (hf : ∀ p ∈ f.params, p.IsName) : (Γ.inBody kind f).Shaped ∧ (Γ.inBody kind f).Flat := by
  have hp : f.scope.Plain := ⟨.inr rfl, fun b hb => by
    obtain ⟨p, hp, rfl⟩ := List.mem_map.mp hb
    exact ⟨p, rfl, hf p hp⟩⟩
  refine ⟨⟨.plain hp h.stacked, fun hk => .tail _ (h.receiver hk),
    fun hk => .tail _ (h.superclass hk)⟩, ?_⟩
  rintro _ ⟨⟩
  exact hp

theorem Shaped.inClass {Γ : Place} (h : Γ.Shaped) (superclass : Option Reference) :
    (Γ.inClass superclass).Shaped := by
  cases superclass with
  | none => exact ⟨.root h.stacked, fun _ => .head _, fun hk => by cases hk⟩
  | some r => exact ⟨.derived h.stacked, fun _ => .head _, fun _ => .tail _ (.head _)⟩

theorem Shaped.after {Γ : Place} {s : Stmt} (h : Γ.Shaped) (hf : Γ.Flat) (hs : s.WellFormed) :
    (Γ.after s).Shaped ∧ (Γ.after s).Flat := by
  unfold Place.after
  cases s with
  | varDecl name e => exact h.define hf hs.1
  | function f => exact h.define hf ((FunctionDecl.wellFormed_iff f).mp hs).1
  | classDecl name r fs => exact h.define hf hs.1
  | _ => exact ⟨h, hf⟩

end Place

/-- The parts of a program that analysis walks over: expressions, statements, what is left of a
list of statements, and functions with what they are. -/
inductive Node where
  | expr (e : Expr)
  | stmt (s : Stmt)
  | body (rest : List Stmt)
  | callable (kind : FunctionContext) (f : FunctionDecl)

/-- What is collected from a part of a list is among what is collected from all of it. -/
theorem subset_of_collected {α β : Type} {f : α → List β} {g : List α → List β}
    (hg : ∀ x rest, g (x :: rest) = f x ++ g rest) {x : α} {xs : List α} (hx : x ∈ xs) :
    f x ⊆ g xs := by
  induction xs with
  | nil => cases hx
  | cons y rest ih =>
    rw [hg]
    rcases List.mem_cons.mp hx with rfl | hx
    · exact List.subset_append_left _ _
    · exact List.subset_append_of_subset_right _ (ih hx)

namespace Node

/-- The notes that analysis makes about a node. -/
def notes (Γ : Place) : Node → List ScopeNote
  | .expr e => e.notes Γ.context Γ.scopes
  | .stmt s => s.notes Γ.context Γ.scopes
  | .body rest => Stmt.notesOfAll Γ.context Γ.scopes rest
  | .callable kind f => f.notes Γ.context kind Γ.scopes

/-- A part of a node, with the place that it stands at. -/
inductive Part : Place → Node → Place → Node → Prop where
  | inner {Γ e} : Part Γ (.expr (.group e)) Γ (.expr e)
  | operand {Γ t e} : Part Γ (.expr (.unary t e)) Γ (.expr e)
  | left {Γ l t r} : Part Γ (.expr (.binary l t r)) Γ (.expr l)
  | right {Γ l t r} : Part Γ (.expr (.binary l t r)) Γ (.expr r)
  | logicalLeft {Γ l t r} : Part Γ (.expr (.logical l t r)) Γ (.expr l)
  | logicalRight {Γ l t r} : Part Γ (.expr (.logical l t r)) Γ (.expr r)
  | value {Γ r e} : Part Γ (.expr (.assign r e)) Γ (.expr e)
  | callee {Γ e t es} : Part Γ (.expr (.call e t es)) Γ (.expr e)
  | argument {Γ e t es a} : a ∈ es → Part Γ (.expr (.call e t es)) Γ (.expr a)
  | object {Γ e t} : Part Γ (.expr (.get e t)) Γ (.expr e)
  | setObject {Γ e t v} : Part Γ (.expr (.set e t v)) Γ (.expr e)
  | setValue {Γ e t v} : Part Γ (.expr (.set e t v)) Γ (.expr v)
  | expression {Γ e} : Part Γ (.stmt (.expression e)) Γ (.expr e)
  | printed {Γ e} : Part Γ (.stmt (.print e)) Γ (.expr e)
  | initializer {Γ t e} :
    Part Γ (.stmt (.varDecl t (some e))) (Γ.declaring t false) (.expr e)
  | block {Γ body} : Part Γ (.stmt (.block body)) Γ.inBlock (.body body)
  | thenCondition {Γ e s} : Part Γ (.stmt (.ifThen e s)) Γ (.expr e)
  | thenBranch {Γ e s} : Part Γ (.stmt (.ifThen e s)) Γ (.stmt s)
  | elseCondition {Γ e s t} : Part Γ (.stmt (.ifElse e s t)) Γ (.expr e)
  | consequent {Γ e s t} : Part Γ (.stmt (.ifElse e s t)) Γ (.stmt s)
  | alternative {Γ e s t} : Part Γ (.stmt (.ifElse e s t)) Γ (.stmt t)
  | condition {Γ e s i} : Part Γ (.stmt (.loop e s i)) Γ (.expr e)
  | repeated {Γ e s i} : Part Γ (.stmt (.loop e s i)) Γ.inLoop (.stmt s)
  | increment {Γ e s i} : Part Γ (.stmt (.loop e s (some i))) Γ (.expr i)
  | function {Γ f} : Part Γ (.stmt (.function f)) (Γ.define f.name) (.callable .function f)
  | superclass {Γ t r fs} :
    Part Γ (.stmt (.classDecl t (some r) fs)) (Γ.declaring t true) (.expr (.variable r))
  | method {Γ t r fs f} : f ∈ fs →
    Part Γ (.stmt (.classDecl t r fs)) ((Γ.define t).inClass r) (.callable f.methodContext f)
  | returned {Γ t e} : Part Γ (.stmt (.returning t (some e))) Γ (.expr e)
  | first {Γ s rest} : Part Γ (.body (s :: rest)) Γ (.stmt s)
  | rest {Γ s rest} : Part Γ (.body (s :: rest)) (Γ.after s) (.body rest)
  | inside {Γ kind f} : Part Γ (.callable kind f) (Γ.inBody kind f) (.body f.body)

/-- Only an expression can stand in a declaration that has begun. -/
def Settled (Γ : Place) : Node → Prop
  | .expr _ => True
  | _ => Γ.underway = none

variable {Γ Δ : Place} {n m : Node}

theorem Part.settled (h : Part Γ n Δ m) (hn : n.Settled Γ) : m.Settled Δ := by
  cases h <;> first | exact trivial | exact hn | skip
  · exact (Place.underway_after _).trans hn

theorem mem_notesOfAll {context : ScopeContext} {scopes : Scopes} {es : List Expr} {e : Expr}
    {note : ScopeNote} (he : e ∈ es) (h : note ∈ e.notes context scopes) :
    note ∈ Expr.notesOfAll context scopes es := by
  induction es with
  | nil => cases he
  | cons x rest ih =>
    rw [Expr.notesOfAll, List.mem_append]
    rcases List.mem_cons.mp he with rfl | he
    · exact .inl h
    · exact .inr (ih he)

theorem mem_notesOfMethods {context : ScopeContext} {scopes : Scopes} {fs : List FunctionDecl}
    {f : FunctionDecl} {note : ScopeNote} (hf : f ∈ fs)
    (h : note ∈ f.notes context f.methodContext scopes) :
    note ∈ FunctionDecl.notesOfMethods context scopes fs := by
  induction fs with
  | nil => cases hf
  | cons x rest ih =>
    rw [FunctionDecl.notesOfMethods, List.mem_append]
    rcases List.mem_cons.mp hf with rfl | hf
    · exact .inl h
    · exact .inr (ih hf)

/-- What analysis notes about a part, it notes about the whole. -/
theorem Part.notes (h : Part Γ n Δ m) (hn : n.Settled Γ) {note : ScopeNote}
    (hm : note ∈ m.notes Δ) : note ∈ n.notes Γ := by
  cases h <;> simp only [Node.notes] at hm ⊢
  case argument ha => exact List.mem_append_right _ (mem_notesOfAll ha hm)
  case initializer t e =>
    rw [(Place.scopes_declaring hn t).1] at hm
    exact List.mem_append_right _ hm
  case block =>
    rw [Place.scopes_inBlock hn] at hm
    exact hm
  case repeated => exact List.mem_append_left _ (List.mem_append_right _ hm)
  case function f =>
    rw [Place.scopes_define hn] at hm
    exact List.mem_append_right _ hm
  case superclass t r fs =>
    rw [(Place.scopes_declaring hn t).2] at hm
    exact List.mem_append_left _ (List.mem_append_right _ (List.mem_append_right _ hm))
  case method t r fs f hf =>
    have hd : (Γ.define t).underway = none := hn
    rw [Place.scopes_inClass hd, Place.scopes_define hn] at hm
    exact List.mem_append_right _ (mem_notesOfMethods hf hm)
  case first => exact List.mem_append_left _ hm
  case rest s rest =>
    rw [Place.scopes_after hn, Place.context_after] at hm
    exact List.mem_append_right _ hm
  case inside kind f =>
    cases f
    rw [Place.scopes_inBody hn] at hm
    exact List.mem_append_right _ hm
  all_goals simp [Expr.notes, Stmt.notes, Expr.notesOf?, hm]

def nodes : Node → List NodeId
  | .expr e => e.nodes
  | .stmt s => s.nodes
  | .body rest => Stmt.nodesOfAll rest
  | .callable _ f => f.nodes

theorem nodes_subset_nodesOfAll {es : List Expr} {e : Expr} (he : e ∈ es) :
    e.nodes ⊆ Expr.nodesOfAll es := subset_of_collected (fun _ _ => rfl) he

theorem nodes_subset_nodesOfMethods {fs : List FunctionDecl} {f : FunctionDecl} (hf : f ∈ fs) :
    f.nodes ⊆ FunctionDecl.nodesOfAll fs := subset_of_collected (fun _ _ => rfl) hf

theorem Part.nodes (h : Part Γ n Δ m) : m.nodes ⊆ n.nodes := by
  cases h <;> simp only [Node.nodes]
  case argument ha => exact List.subset_append_of_subset_right _ (nodes_subset_nodesOfAll ha)
  case method hf => exact List.subset_append_of_subset_right _ (nodes_subset_nodesOfMethods hf)
  case inside f =>
    cases f
    exact List.Subset.refl _
  all_goals
    intro x hx
    simp_all [Expr.nodes, Stmt.nodes, Stmt.nodesOfAll, Expr.nodesOf?]

def WellFormed : Node → Prop
  | .expr e => e.WellFormed
  | .stmt s => s.WellFormed
  | .body rest => Stmt.AllWellFormed rest
  | .callable _ f => f.WellFormed

theorem Part.wellFormed (h : Part Γ n Δ m) (hn : n.WellFormed) : m.WellFormed := by
  cases h <;> simp only [Node.WellFormed] at hn ⊢
  case argument ha => exact (Expr.allWellFormed_iff _).mp hn.2 _ ha
  case superclass => exact hn.2.1 _ rfl
  case method hf => exact (FunctionDecl.allWellFormed_iff _).mp hn.2.2 _ hf
  case inside f => exact ((FunctionDecl.wellFormed_iff f).mp hn).2.2
  all_goals simp_all [Expr.WellFormed, Stmt.WellFormed, Stmt.AllWellFormed]

/-- Statements stand in the innermost scope. -/
def Flat (Γ : Place) : Node → Prop
  | .stmt _ | .body _ => Γ.Flat
  | _ => True

theorem Part.shaped (h : Part Γ n Δ m) (hw : n.WellFormed) (hs : Γ.Shaped) (hf : n.Flat Γ) :
    Δ.Shaped ∧ m.Flat Δ := by
  cases h
  case initializer => exact ⟨⟨hs.stacked, hs.receiver, hs.superclass⟩, trivial⟩
  case block => exact hs.inBlock
  case repeated => exact ⟨⟨hs.stacked, hs.receiver, hs.superclass⟩, hf⟩
  case function f => exact ⟨(hs.define hf ((FunctionDecl.wellFormed_iff f).mp hw).1).1, trivial⟩
  case superclass => exact ⟨⟨hs.stacked, hs.receiver, hs.superclass⟩, trivial⟩
  case method => exact ⟨(hs.define hf hw.1).1.inClass _, trivial⟩
  case rest => exact hs.after hf hw.1
  case inside kind f => exact hs.inBody kind ((FunctionDecl.wellFormed_iff f).mp hw).2.1
  all_goals exact ⟨hs, by first | exact trivial | exact hf⟩

end Node

/-- Analysis of a program comes to a node at a place. -/
inductive Meets (program : List Stmt) : Place → Node → Prop where
  | top : Meets program .top (.body program)
  | part {Γ Δ : Place} {n m : Node} : Meets program Γ n → Node.Part Γ n Δ m → Meets program Δ m

/-- Every identity in what analysis comes to is one of the program. -/
theorem Meets.nodes {program : List Stmt} {Γ : Place} {n : Node} (h : Meets program Γ n) :
    n.nodes ⊆ Stmt.nodesOfAll program := by
  induction h with
  | top => exact List.Subset.refl _
  | part _ hp ih => exact List.Subset.trans hp.nodes ih

end Lox
