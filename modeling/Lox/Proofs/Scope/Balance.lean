import Lox.Proofs.Grammar.Trees
import Lox.Proofs.Scope.Relabelling
import Lox.Proofs.Session.Outcomes
import Lox.Scope.Walk

/-! The walk puts its state back.

Whatever state a statement is met in, the walk over it opens and closes scopes in pairs and restores
what callables, classes and loops change. All that is left is that the names which the statement
declares itself are complete in the innermost scope. At the top level there is none, so what comes
behind other statements is met in the state that a fresh walk begins in. -/

namespace Lox

namespace Scopes

def defineAll (scopes : Scopes) (names : List String) : Scopes := names.foldl define scopes

@[simp] theorem defineAll_nil (scopes : Scopes) : scopes.defineAll [] = scopes := rfl

theorem defineAll_append (scopes : Scopes) (xs ys : List String) :
    scopes.defineAll (xs ++ ys) = (scopes.defineAll xs).defineAll ys := List.foldl_append

theorem define_declare (scopes : Scopes) (name : String) :
    (scopes.declare name).define name = scopes.define name := by
  unfold declare
  split
  · rfl
  · cases scopes with
    | nil => rfl
    | cons scope outer =>
      exact congrArg (· :: outer) (scope.insert_insert name false true)

theorem defineAll_empty (names : List String) : defineAll [] names = [] := by
  induction names with
  | nil => rfl
  | cons name rest ih => exact ih

theorem defineAll_cons (outer : Scopes) (names : List String) : ∀ scope : Scope,
    ∃ scope', defineAll (scope :: outer) names = scope' :: outer ∧
      ∀ x, scope'.get? x = if x ∈ names then some true else scope.get? x := by
  induction names with
  | nil => exact fun scope => ⟨scope, rfl, fun x => by simp⟩
  | cons name rest ih =>
    intro scope
    obtain ⟨scope', heq, hget⟩ := ih (scope.insert name true)
    refine ⟨scope', heq, fun x => ?_⟩
    rw [hget, Bindings.get?_insert]
    grind

theorem tail_defineAll (scopes : Scopes) (names : List String) :
    (scopes.defineAll names).tail = scopes.tail := by
  cases scopes with
  | nil => rw [defineAll_empty]
  | cons scope outer =>
    obtain ⟨scope', heq, -⟩ := defineAll_cons outer names scope
    rw [heq]
    rfl

theorem length_defineAll (scopes : Scopes) (names : List String) :
    (scopes.defineAll names).length = scopes.length := by
  cases scopes with
  | nil => rw [defineAll_empty]
  | cons scope outer =>
    obtain ⟨scope', heq, -⟩ := defineAll_cons outer names scope
    rw [heq, List.length_cons, List.length_cons]

end Scopes

/-- The names that a statement declares in the scope that it stands in. -/
def Stmt.declares : Stmt → List String
  | .varDecl name _ | .classDecl name _ _ => [name.lexeme]
  | .function decl => [decl.name.lexeme]
  | .ifThen _ consequent => consequent.declares
  | .ifElse _ consequent alternative => consequent.declares ++ alternative.declares
  | .loop _ body _ => body.declares
  | _ => []

namespace Walk

/-- Whatever state it is met in, this part of the walk completes these names in the innermost scope
and leaves all else as it is. -/
def Defines (f : Walk) (names : List String) : Prop :=
  ∀ a, (f a).1 = { a with scopes := a.scopes.defineAll names }

variable {f g : Walk} {xs ys : List String}

theorem Defines.leaves (h : f.Defines []) (a : ScopeState) : (f a).1 = a := h a

theorem defines_note (h : ScopeState → List ScopeNote) : (note h).Defines [] := fun _ => rfl

theorem Defines.append (hf : f.Defines xs) (hg : g.Defines ys) : (f ++ g).Defines (xs ++ ys) := by
  intro a
  rw [append_fst, hf, hg, Scopes.defineAll_append]

theorem defines_read (target : Reference) : (read target).Defines [] :=
  (defines_note _).append (defines_note _)

/-- One error is the end of this part, which goes on without it otherwise. -/
theorem defines_bindReceiver (keyword : Reference) : (bindReceiver keyword).Defines [] := by
  intro a
  unfold bindReceiver
  split
  · rfl
  · exact defines_note _ a

theorem defines_bindInherited (keyword : Reference) : (bindInherited keyword).Defines [] :=
  ((defines_note _).append (defines_note _)).append (defines_note _)

theorem defines_declaration (name : Token) (h : f.Defines []) :
    (declare name ++ f ++ define name.lexeme).Defines [name.lexeme] := by
  intro a
  rw [append_fst, append_fst, h.leaves, declare_fst, define_fst, Scopes.define_declare]
  rfl

theorem defines_declare_define (name : Token) :
    (declare name ++ define name.lexeme).Defines [name.lexeme] :=
  defines_declaration name (defines_note fun _ => [])

/-- What stands in a scope of its own declares nothing outside of it. -/
theorem Defines.inScope (h : f.Defines xs) : (inScope f).Defines [] := by
  intro a
  simp only [Walk.inScope, append_fst, change_fst, h _, Scopes.tail_defineAll, List.tail_cons,
    Scopes.defineAll_nil]

theorem Defines.inLoop (h : f.Defines xs) : (inLoop f).Defines xs := by
  intro a
  simp only [Walk.inLoop, append_fst, change_fst, h _, Nat.add_sub_cancel]

theorem Defines.inCallable (h : f.Defines xs) (kind : FunctionContext) :
    (inCallable kind f).Defines [] := by
  intro a
  simp only [Walk.inCallable, append_fst, change_fst, h.inScope.leaves, Scopes.defineAll_nil]

theorem defines_parameters : ∀ params : List Token,
    (parameters params).Defines (params.map (·.lexeme))
  | [] => defines_note _
  | p :: rest => (defines_declare_define p).append (defines_parameters rest)

/-- Like `Defines`, but the kind of the class may be another one afterwards. -/
def DefinesInClass (f : Walk) (names : List String) : Prop :=
  ∀ a, ∃ kind, (f a).1 = { a with scopes := a.scopes.defineAll names, classKind := kind }

theorem Defines.weaken (h : f.Defines xs) : f.DefinesInClass xs :=
  fun a => ⟨a.classKind, h a⟩

theorem DefinesInClass.append (hf : f.DefinesInClass xs) (hg : g.DefinesInClass ys) :
    (f ++ g).DefinesInClass (xs ++ ys) := by
  intro a
  obtain ⟨kind, hfirst⟩ := hf a
  obtain ⟨kind', hsecond⟩ := hg (f a).1
  refine ⟨kind', ?_⟩
  rw [append_fst, hsecond, hfirst, Scopes.defineAll_append]

theorem DefinesInClass.inClass (h : f.DefinesInClass xs) : (inClass f).Defines xs := by
  intro a
  obtain ⟨kind, hinside⟩ := h { a with classKind := .root }
  simp only [Walk.inClass, inClassKind, append_fst, change_fst, hinside]

theorem defines_inheriting (name : Token) (superclass : Option Reference) (h : f.Defines []) :
    (inheriting name superclass f).DefinesInClass [] := by
  have hname (x : String) : (define x).Defines [x] := fun _ => rfl
  have hmethods := ((hname "this").append h).inScope
  cases superclass with
  | none => exact hmethods.weaken
  | some target =>
    have hkind : (inClassKind .derived).DefinesInClass [] := fun _ => ⟨.derived, rfl⟩
    exact (((defines_note _).weaken.append hkind).append
      (defines_read target).weaken).append ((hname "super").append hmethods).inScope.weaken

end Walk

open Walk

mutual

theorem Expr.walk_defines : ∀ e : Expr, e.walk.Defines []
  | .constant _ => defines_note _
  | .group e | .unary _ e | .get e _ => e.walk_defines
  | .binary l _ r | .logical l _ r => l.walk_defines.append r.walk_defines
  | .variable r => defines_read r
  | .assign _ e => e.walk_defines.append (defines_note _)
  | .call e _ es => e.walk_defines.append (Expr.walkAll_defines es)
  | .set e _ v => v.walk_defines.append e.walk_defines
  | .receiver r => defines_bindReceiver r
  | .inherited r _ => defines_bindInherited r

theorem Expr.walkAll_defines : ∀ es : List Expr, (Expr.walkAll es).Defines []
  | [] => defines_note _
  | e :: rest => e.walk_defines.append (Expr.walkAll_defines rest)

end

theorem Expr.walk?_defines : ∀ e : Option Expr, (Expr.walk? e).Defines []
  | none => defines_note _
  | some e => e.walk_defines

mutual

theorem Stmt.walk_defines : ∀ s : Stmt, s.walk.Defines s.declares
  | .expression e | .print e => e.walk_defines
  | .varDecl t e => defines_declaration t (Expr.walk?_defines e)
  | .block body => (Stmt.walkAll_defines body).inScope
  | .ifThen e s => e.walk_defines.append s.walk_defines
  | .ifElse e s t => (e.walk_defines.append s.walk_defines).append t.walk_defines
  | .loop e s i => by
    -- The count is lowered and not put back, which is the same only because the body keeps it.
    have h := (e.walk_defines.append s.walk_defines.inLoop).append (Expr.walk?_defines i)
    rwa [List.append_nil] at h
  | .function d => by
    have h := (defines_declare_define d.name).append (d.walk_defines .function)
    rwa [List.append_nil] at h
  | .classDecl t r ds => by
    -- Between its beginning and its end a class changes the kind once more for a superclass.
    have h := (defines_declare_define t).weaken.append
      (defines_inheriting t r (FunctionDecl.walkMethods_defines ds))
    exact h.inClass
  | .returning _ e => ((defines_note _).append (defines_note _)).append (Expr.walk?_defines e)
  | .breaking _ | .continuing _ => defines_note _

theorem Stmt.walkAll_defines : ∀ ss : List Stmt,
    (Stmt.walkAll ss).Defines (ss.flatMap Stmt.declares)
  | [] => defines_note _
  | s :: rest => s.walk_defines.append (Stmt.walkAll_defines rest)

theorem FunctionDecl.walk_defines (kind : FunctionContext) : ∀ d : FunctionDecl,
    (d.walk kind).Defines []
  | .mk _ params body =>
    ((defines_parameters params).append (Stmt.walkAll_defines body)).inCallable kind

theorem FunctionDecl.walkMethods_defines : ∀ ds : List FunctionDecl,
    (FunctionDecl.walkMethods ds).Defines []
  | [] => defines_note _
  | d :: rest => (d.walk_defines _).append (FunctionDecl.walkMethods_defines rest)

end

/-- Two states between which no scope was opened or closed for good. Only the innermost scope may
differ, and there these names are complete and all others are as they were. -/
structure ScopeState.Balanced (names : List String) (a b : ScopeState) : Prop where
  height : b.scopes.length = a.scopes.length
  outer : b.scopes.tail = a.scopes.tail
  inner : ∀ scope ∈ a.scopes.head?, ∀ scope' ∈ b.scopes.head?, ∀ x,
    scope'.get? x = if x ∈ names then some true else scope.get? x
  function : b.function = a.function
  classKind : b.classKind = a.classKind
  loopDepth : b.loopDepth = a.loopDepth

theorem Walk.Defines.balanced {f : Walk} {names : List String} (h : f.Defines names)
    (a : ScopeState) : a.Balanced names (f a).1 := by
  rw [h a]
  refine ⟨Scopes.length_defineAll _ _, Scopes.tail_defineAll _ _, ?inner, rfl, rfl, rfl⟩
  intro scope hbefore scope' hafter
  obtain ⟨outer, hscopes⟩ : ∃ outer, a.scopes = scope :: outer :=
    ⟨a.scopes.tail, List.eq_cons_of_mem_head? hbefore⟩
  obtain ⟨completed, heq, hget⟩ := Scopes.defineAll_cons outer names scope
  rw [hscopes, heq] at hafter
  cases hafter
  exact hget

/-- What a state says of the place that the walk is at. -/
def ScopeState.context (a : ScopeState) : ScopeContext :=
  ⟨a.function, a.classKind, a.loopDepth != 0⟩

mutual

theorem Expr.walk_notes : ∀ (e : Expr) (a : ScopeState), (e.walk a).2 = e.notes a.context a.scopes
  | .constant _, _ => rfl
  | .group e, a | .unary _ e, a | .get e _, a => e.walk_notes a
  | .binary l _ r, a | .logical l _ r, a => by
    rw [Expr.walk, append_snd, l.walk_defines.leaves, l.walk_notes, r.walk_notes, Expr.notes]
  | .variable _, _ => rfl
  | .assign _ e, a => by
    rw [Expr.walk, append_snd, e.walk_defines.leaves, e.walk_notes, Expr.notes]
    rfl
  | .call e _ es, a => by
    rw [Expr.walk, append_snd, e.walk_defines.leaves, e.walk_notes, Expr.walkAll_notes es,
      Expr.notes]
  | .set e _ v, a => by
    rw [Expr.walk, append_snd, v.walk_defines.leaves, v.walk_notes, e.walk_notes, Expr.notes]
  | .receiver r, a => by
    rw [Expr.walk, bindReceiver, Expr.notes]
    exact apply_ite Prod.snd _ _ _
  | .inherited _ _, _ => rfl

theorem Expr.walkAll_notes : ∀ (es : List Expr) (a : ScopeState),
    (Expr.walkAll es a).2 = Expr.notesOfAll a.context a.scopes es
  | [], _ => rfl
  | e :: rest, a => by
    rw [Expr.walkAll, append_snd, e.walk_defines.leaves, e.walk_notes, Expr.walkAll_notes rest,
      Expr.notesOfAll]

end

theorem Expr.walk?_notes : ∀ (e : Option Expr) (a : ScopeState),
    (Expr.walk? e a).2 = Expr.notesOf? a.context a.scopes e
  | none, _ => rfl
  | some e, a => e.walk_notes a

namespace Walk

theorem declare_define_snd (name : Token) (a : ScopeState) :
    ((declare name ++ define name.lexeme) a).2 = ScopeNote.ofDeclaration a.scopes name := by
  rw [append_snd, declare_snd, define_snd, List.append_nil]

variable (f : Walk) (a : ScopeState)

theorem inScope_snd : (inScope f a).2 = (f { a with scopes := Bindings.empty :: a.scopes }).2 := by
  simp [inScope]

theorem inLoop_snd : (inLoop f a).2 = (f { a with loopDepth := a.loopDepth + 1 }).2 := by
  simp [inLoop]

theorem inCallable_snd (kind : FunctionContext) : (inCallable kind f a).2 =
    (f { a with scopes := Bindings.empty :: a.scopes, function := kind, loopDepth := 0 }).2 := by
  simp [inCallable, inScope]

theorem inClass_snd : (inClass f a).2 = (f { a with classKind := .root }).2 := by
  simp [inClass, inClassKind]

theorem inheriting_snd (name : Token) (superclass : Option Reference) :
    (inheriting name superclass f a).2 = ScopeNote.ofSuperclass a.scopes name superclass ++
      (f { a with
        scopes := a.scopes.ofMethods superclass
        classKind := if superclass.isSome then .derived else a.classKind }).2 := by
  cases superclass with
  | none =>
    rw [inheriting, inScope_snd, append_snd, define_snd]
    rfl
  | some target =>
    rw [inheriting, append_snd, append_snd, append_snd, inScope_snd, append_snd, inScope_snd,
      append_snd, define_snd, define_snd, inClassKind, change_snd, List.append_nil]
    rfl

end Walk

theorem parameters_notes : ∀ (params : List Token) (a : ScopeState),
    (parameters params a).2 = ScopeNote.ofParameters a.scopes params
  | [], _ => rfl
  | p :: rest, a => by
    rw [parameters, append_snd, declare_define_snd, defines_declare_define p a,
      parameters_notes rest, ScopeNote.ofParameters]
    rfl

/-- Branches and loop bodies that can be read declare nothing. -/
theorem Stmt.declares_eq : ∀ s : Stmt, s.WellFormed →
    s.declares = (s.declared?.map (·.lexeme)).toList
  | .expression _, _ | .print _, _ | .varDecl _ _, _ | .block _, _ | .function _, _
  | .classDecl _ _ _, _ | .returning _ _, _ | .breaking _, _ | .continuing _, _ => rfl
  | .ifThen _ s, ⟨_, hs, hnone⟩ => by
    rw [Stmt.declares, s.declares_eq hs, hnone]
    rfl
  | .ifElse _ s t, ⟨_, hs, hnone, ht, hnone'⟩ => by
    rw [Stmt.declares, s.declares_eq hs, t.declares_eq ht, hnone, hnone']
    rfl
  | .loop _ s _, ⟨_, hs, hnone, _⟩ => by
    rw [Stmt.declares, s.declares_eq hs, hnone]
    rfl

theorem Stmt.walk_after {s : Stmt} (h : s.WellFormed) (a : ScopeState) :
    (s.walk a).1 = { a with scopes := a.scopes.after s } := by
  rw [s.walk_defines a, s.declares_eq h, Scopes.after]
  cases s.declared? <;> rfl

theorem Stmt.walk_plain {s : Stmt} (h : s.WellFormed) (hnone : s.declared? = none)
    (a : ScopeState) : (s.walk a).1 = a := by
  rw [s.walk_after h, Scopes.after, hnone]

mutual

theorem Stmt.walk_notes : ∀ (s : Stmt) (a : ScopeState), s.WellFormed →
    (s.walk a).2 = s.notes a.context a.scopes
  | .expression e, a, _ | .print e, a, _ => e.walk_notes a
  | .varDecl t e, a, _ => by
    rw [Stmt.walk, append_snd, append_snd, declare_snd, declare_fst, Expr.walk?_notes, define_snd,
      List.append_nil, Stmt.notes]
    rfl
  | .block body, a, h => by
    rw [Stmt.walk, inScope_snd, Stmt.walkAll_notes body _ h, Stmt.notes]
    rfl
  | .ifThen e s, a, ⟨_, hs, _⟩ => by
    rw [Stmt.walk, append_snd, e.walk_defines.leaves, e.walk_notes, s.walk_notes a hs, Stmt.notes]
  | .ifElse e s t, a, ⟨_, hs, hnone, ht, _⟩ => by
    rw [Stmt.walk, append_snd, append_snd, append_fst, e.walk_defines.leaves, e.walk_notes,
      s.walk_plain hs hnone, s.walk_notes a hs, t.walk_notes a ht, Stmt.notes]
  | .loop e s i, a, ⟨_, hs, hnone, _⟩ => by
    have hbody : (inLoop s.walk a).1 = a := by
      simp only [inLoop, append_fst, change_fst, s.walk_plain hs hnone, Nat.add_sub_cancel]
    rw [Stmt.walk, append_snd, append_snd, append_fst, e.walk_defines.leaves, e.walk_notes, hbody,
      inLoop_snd, s.walk_notes _ hs, Expr.walk?_notes, Stmt.notes]
    rfl
  | .function d, a, h => by
    rw [Stmt.walk, append_snd, declare_define_snd, defines_declare_define d.name a,
      d.walk_notes _ _ h, Stmt.notes]
    rfl
  | .classDecl t r ds, a, ⟨_, _, hds⟩ => by
    rw [Stmt.walk, inClass_snd, append_snd, declare_define_snd, defines_declare_define t,
      inheriting_snd, FunctionDecl.walkMethods_notes ds _ hds, ← List.append_assoc, Stmt.notes]
    rfl
  | .returning t e, a, _ => by
    rw [Stmt.walk, append_snd, append_snd, errorWhen_snd, errorWhen_snd, Expr.walk?_notes,
      Stmt.notes]
    rfl
  | .breaking t, a, _ | .continuing t, a, _ => by
    rw [Stmt.walk, errorWhen_snd, Stmt.notes, ScopeState.context, bne, Bool.not_not]

theorem Stmt.walkAll_notes : ∀ (ss : List Stmt) (a : ScopeState), Stmt.AllWellFormed ss →
    (Stmt.walkAll ss a).2 = Stmt.notesOfAll a.context a.scopes ss
  | [], _, _ => rfl
  | s :: rest, a, ⟨hs, hrest⟩ => by
    rw [Stmt.walkAll, append_snd, s.walk_after hs, s.walk_notes a hs,
      Stmt.walkAll_notes rest _ hrest, Stmt.notesOfAll]
    rfl

theorem FunctionDecl.walk_notes (kind : FunctionContext) : ∀ (d : FunctionDecl) (a : ScopeState),
    d.WellFormed → (d.walk kind a).2 = d.notes a.context kind a.scopes
  | .mk _ params body, a, ⟨_, _, hbody⟩ => by
    rw [FunctionDecl.walk, inCallable_snd, append_snd, parameters_notes, defines_parameters,
      Stmt.walkAll_notes body _ hbody, FunctionDecl.notes, Scopes.defineAll, List.foldl_map]
    rfl

theorem FunctionDecl.walkMethods_notes : ∀ (ds : List FunctionDecl) (a : ScopeState),
    FunctionDecl.AllWellFormed ds →
    (FunctionDecl.walkMethods ds a).2 = FunctionDecl.notesOfMethods a.context a.scopes ds
  | [], _, _ => rfl
  | d :: rest, a, ⟨hd, hrest⟩ => by
    rw [FunctionDecl.walkMethods, append_snd, (d.walk_defines _).leaves, d.walk_notes _ a hd,
      FunctionDecl.walkMethods_notes rest a hrest, FunctionDecl.notesOfMethods]

end

/-- A walk that carries its state notes of a program that can be read what the analysis notes. -/
theorem walkAll_fresh_notes {program : List Stmt} (h : Stmt.AllWellFormed program) :
    (Stmt.walkAll program .fresh).2 = analyse program := Stmt.walkAll_notes program .fresh h

/-- No scope is open at the top level, so nothing at all is left of a walk that begins there. -/
theorem walkAll_fresh (program : List Stmt) : (Stmt.walkAll program .fresh).1 = .fresh := by
  rw [Stmt.walkAll_defines program .fresh, show ScopeState.fresh.scopes = [] from rfl,
    Scopes.defineAll_empty]
  rfl

theorem Stmt.walkAll_append (ys : List Stmt) : ∀ (xs : List Stmt) (a : ScopeState),
    (Stmt.walkAll (xs ++ ys) a).2 =
      (Stmt.walkAll xs a).2 ++ (Stmt.walkAll ys (Stmt.walkAll xs a).1).2
  | [], _ => rfl
  | s :: rest, a => by
    rw [List.cons_append, Stmt.walkAll, append_snd, Stmt.walkAll_append ys rest, Stmt.walkAll,
      append_snd, append_fst, List.append_assoc]

/-- The walk over a statement leaves every state in balance, with errors or without. So statements
behind others at the top level are noted as by a fresh walk. This walk is the analysis of whatever
text is read, and a session reports and records for two lists what it does for one after the
other. -/
theorem walk_is_balanced :
    (∀ (s : Stmt) (a : ScopeState), a.Balanced s.declares (s.walk a).1) ∧
      (∀ xs ys : List Stmt, (Stmt.walkAll (xs ++ ys) .fresh).2 =
        (Stmt.walkAll xs .fresh).2 ++ (Stmt.walkAll ys .fresh).2) ∧
      (∀ (source : String) (next : Nat),
        (Stmt.walkAll (parse (tokensOf source) next).statements .fresh).2 =
          analyse (parse (tokensOf source) next).statements) ∧
      ∀ (session : Session) (xs ys : List Stmt),
        session.resolve (xs ++ ys) = (session.resolve xs).resolve ys := by
  refine ⟨fun s a => s.walk_defines.balanced a, fun xs ys => ?later, fun source next => ?same,
    fun session xs ys => ?both⟩
  case later => rw [Stmt.walkAll_append, walkAll_fresh]
  case same => exact walkAll_fresh_notes (parse_proper (fun _ ht => scan_sound ht) next).wellFormed
  case both =>
    rw [Session.resolve_eq, Session.resolve_eq, Session.resolve_eq, analyse_append,
      Depths.recordAll_append, List.filterMap_append, List.map_append, Report.addAll_append]

/-- A declaration in a branch, which cannot be read, would be one of the scope around it. -/
example :
    let a : Token := ⟨.identifier, "a", none, 1⟩
    let branch := Stmt.ifThen (.constant .nil) (.varDecl a (some (.variable ⟨⟨0⟩, a⟩)))
    branch.walk ⟨[Bindings.empty], .none, .none, 0⟩ =
      (⟨[⟨[("a", true)]⟩], .none, .none, 0⟩,
        [.error ⟨a, .readInOwnInitializer⟩, .bound ⟨⟨0⟩, a⟩ (some 0)]) := by
  decide

end Lox
