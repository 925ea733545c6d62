import Lox.Proofs.Program.Respelling
import Lox.Proofs.Scope.Place

/-! The tokens of what analysis comes to.

A part of a node has tokens of the node only, and analysis blames no token that is not in the
program which it looks at. -/

namespace Lox

namespace Node

def tokens : Node → List Token
  | .expr e => e.tokens
  | .stmt s => s.tokens
  | .body rest => Stmt.tokensOfAll rest
  | .callable _ f => f.tokens

theorem tokens_subset_tokensOfAll {es : List Expr} {e : Expr} (he : e ∈ es) :
    e.tokens ⊆ Expr.tokensOfAll es := subset_of_collected (fun _ _ => rfl) he

theorem tokens_subset_tokensOfMethods {fs : List FunctionDecl} {f : FunctionDecl} (hf : f ∈ fs) :
    f.tokens ⊆ FunctionDecl.tokensOfAll fs := subset_of_collected (fun _ _ => rfl) hf

theorem Part.tokens {Γ Δ : Place} {n m : Node} (h : Part Γ n Δ m) : m.tokens ⊆ n.tokens := by
  cases h <;> simp only [Node.tokens]
  case argument ha =>
    exact List.subset_append_of_subset_right _
      (List.subset_cons_of_subset _ (tokens_subset_tokensOfAll ha))
  case method hf => exact List.subset_append_of_subset_right _ (tokens_subset_tokensOfMethods hf)
  case inside f =>
    cases f
    exact List.subset_append_right _ _
  all_goals
    intro t ht
    simp_all [Expr.tokens, Stmt.tokens, Stmt.tokensOfAll, Expr.tokensOf?]

end Node

/-- Every token in what analysis comes to is one of the program. -/
theorem Meets.tokens {program : List Stmt} {Γ : Place} {n : Node} (h : Meets program Γ n) :
    n.tokens ⊆ Stmt.tokensOfAll program := by
  induction h with
  | top => exact List.Subset.refl _
  | part _ hp ih => exact List.Subset.trans hp.tokens ih

/-- The tokens of the errors among some notes. -/
def blamed (notes : List ScopeNote) : List Token := (notes.filterMap ScopeNote.error?).map (·.token)

@[simp] theorem blamed_nil : blamed [] = [] := rfl

@[simp] theorem blamed_append (xs ys : List ScopeNote) :
    blamed (xs ++ ys) = blamed xs ++ blamed ys := by
  simp [blamed]

@[simp] theorem blamed_ofReference (scopes : Scopes) (r : Reference) :
    blamed [ScopeNote.ofReference scopes r] = [] := rfl

section

variable {t : Token} {scopes : Scopes}

theorem eq_of_mem_errorIf {b : Bool} {u : Token} {fault : ScopeFault}
    (h : u ∈ blamed (ScopeNote.errorIf b t fault)) : u = t := by
  cases b with
  | false => cases h
  | true => exact List.mem_singleton.mp h

theorem eq_of_mem_ofRead {r : Reference} (h : t ∈ blamed (ScopeNote.ofRead scopes r)) :
    t = r.name := by
  rw [ScopeNote.ofRead, blamed_append, blamed_ofReference, List.append_nil] at h
  exact eq_of_mem_errorIf h

theorem mem_of_ofSuperclass {name : Token} {r : Option Reference}
    (h : t ∈ blamed (ScopeNote.ofSuperclass scopes name r)) : t ∈ r.toList.map (·.name) := by
  cases r with
  | none => cases h
  | some r =>
    rw [ScopeNote.ofSuperclass, blamed_append, List.mem_append] at h
    exact List.mem_singleton.mpr (h.elim eq_of_mem_errorIf eq_of_mem_ofRead)

theorem mem_of_ofParameters {params : List Token} : ∀ {scopes : Scopes},
    t ∈ blamed (ScopeNote.ofParameters scopes params) → t ∈ params := by
  induction params with
  | nil => exact fun h => h
  | cons p rest ih =>
    intro scopes h
    rw [ScopeNote.ofParameters, blamed_append, List.mem_append] at h
    exact List.mem_cons.mpr (h.imp eq_of_mem_errorIf ih)

end

mutual

/-- Analysis blames a token of the tree that it looks at. -/
theorem Expr.blamed_subset (context : ScopeContext) (scopes : Scopes) : ∀ e : Expr,
    blamed (e.notes context scopes) ⊆ e.tokens
  | .constant _ => List.Subset.refl _
  | .group e => e.blamed_subset context scopes
  | .unary _ e => List.subset_cons_of_subset _ (e.blamed_subset context scopes)
  | .binary l _ r | .logical l _ r => by
    have hl := l.blamed_subset context scopes
    have hr := r.blamed_subset context scopes
    simp only [Expr.notes, Expr.tokens, blamed_append]
    grind
  | .variable r => fun _ ht => List.mem_singleton.mpr (eq_of_mem_ofRead ht)
  | .assign r e => by
    have he := e.blamed_subset context scopes
    simp only [Expr.notes, Expr.tokens, blamed_append, blamed_ofReference]
    grind
  | .call e _ es => by
    have he := e.blamed_subset context scopes
    have hes := Expr.blamedOfAll_subset context scopes es
    simp only [Expr.notes, Expr.tokens, blamed_append]
    grind
  | .get e _ => List.subset_append_of_subset_left _ (e.blamed_subset context scopes)
  | .set e _ v => by
    have he := e.blamed_subset context scopes
    have hv := v.blamed_subset context scopes
    simp only [Expr.notes, Expr.tokens, blamed_append]
    grind
  | .receiver r => by
    intro t ht
    rw [Expr.notes] at ht
    split at ht
    · exact ht
    · cases ht
  | .inherited r method => by
    intro t ht
    simp only [Expr.notes, blamed_append, blamed_ofReference, List.append_nil,
      List.mem_append] at ht
    obtain rfl := ht.elim eq_of_mem_errorIf eq_of_mem_errorIf
    exact .head _

theorem Expr.blamedOfAll_subset (context : ScopeContext) (scopes : Scopes) : ∀ es : List Expr,
    blamed (Expr.notesOfAll context scopes es) ⊆ Expr.tokensOfAll es
  | [] => List.Subset.refl _
  | e :: rest => by
    have he := e.blamed_subset context scopes
    have hrest := Expr.blamedOfAll_subset context scopes rest
    simp only [Expr.notesOfAll, Expr.tokensOfAll, blamed_append]
    grind

end

theorem Expr.blamed?_subset (context : ScopeContext) (scopes : Scopes) (e : Option Expr) :
    blamed (Expr.notesOf? context scopes e) ⊆ Expr.tokensOf? e := by
  cases e with
  | none => exact List.Subset.refl _
  | some e => exact e.blamed_subset context scopes

mutual

theorem Stmt.blamed_subset (context : ScopeContext) (scopes : Scopes) : ∀ s : Stmt,
    blamed (s.notes context scopes) ⊆ s.tokens
  | .expression e | .print e => e.blamed_subset context scopes
  | .varDecl t e => by
    have ht {u : Token} (h : u ∈ blamed (ScopeNote.ofDeclaration scopes t)) := eq_of_mem_errorIf h
    have he := Expr.blamed?_subset context (scopes.declare t.lexeme) e
    simp only [Stmt.notes, Stmt.tokens, blamed_append]
    grind
  | .block body => Stmt.blamedOfAll_subset context _ body
  | .ifThen e s => by
    have he := e.blamed_subset context scopes
    have hs := s.blamed_subset context scopes
    simp only [Stmt.notes, Stmt.tokens, blamed_append]
    grind
  | .ifElse e s t => by
    have he := e.blamed_subset context scopes
    have hs := s.blamed_subset context scopes
    have ht := t.blamed_subset context scopes
    simp only [Stmt.notes, Stmt.tokens, blamed_append]
    grind
  | .loop e s i => by
    have he := e.blamed_subset context scopes
    have hs := s.blamed_subset { context with inLoop := true } scopes
    have hi := Expr.blamed?_subset context scopes i
    simp only [Stmt.notes, Stmt.tokens, blamed_append]
    grind
  | .function f => by
    have ht {u : Token} (h : u ∈ blamed (ScopeNote.ofDeclaration scopes f.name)) :=
      eq_of_mem_errorIf h
    have hf := f.blamed_subset context .function (scopes.define f.name.lexeme)
    have hname : f.name ∈ f.tokens := by
      cases f
      exact .head _
    simp only [Stmt.notes, Stmt.tokens, blamed_append]
    grind
  | .classDecl t r fs => by
    have ht {u : Token} (h : u ∈ blamed (ScopeNote.ofDeclaration scopes t)) := eq_of_mem_errorIf h
    have hr {u : Token} (h : u ∈ blamed (ScopeNote.ofSuperclass (scopes.define t.lexeme) t r)) :=
      mem_of_ofSuperclass h
    have hfs := FunctionDecl.blamedOfMethods_subset
      { context with classKind := if r.isSome then .derived else .root }
      ((scopes.define t.lexeme).ofMethods r) fs
    simp only [Stmt.notes, Stmt.tokens, blamed_append]
    grind
  | .returning t e => by
    have hnone {u : Token}
        (h : u ∈ blamed (ScopeNote.errorIf (context.function == .none) t .returnOutsideFunction)) :=
      eq_of_mem_errorIf h
    have hsome {u : Token} (h : u ∈ blamed (ScopeNote.errorIf
        (e.isSome && context.function == .initializer) t .valueFromInitializer)) :=
      eq_of_mem_errorIf h
    have he := Expr.blamed?_subset context scopes e
    simp only [Stmt.notes, Stmt.tokens, blamed_append]
    grind
  | .breaking _ | .continuing _ => fun _ ht => List.mem_singleton.mpr (eq_of_mem_errorIf ht)

theorem Stmt.blamedOfAll_subset (context : ScopeContext) : ∀ (scopes : Scopes) (ss : List Stmt),
    blamed (Stmt.notesOfAll context scopes ss) ⊆ Stmt.tokensOfAll ss
  | _, [] => List.Subset.refl _
  | scopes, s :: rest => by
    have hs := s.blamed_subset context scopes
    have hrest := Stmt.blamedOfAll_subset context (scopes.after s) rest
    simp only [Stmt.notesOfAll, Stmt.tokensOfAll, blamed_append]
    grind

theorem FunctionDecl.blamed_subset (context : ScopeContext) (kind : FunctionContext)
    (scopes : Scopes) : ∀ f : FunctionDecl, blamed (f.notes context kind scopes) ⊆ f.tokens
  | .mk name params body => by
    have hparams {u : Token}
        (h : u ∈ blamed (ScopeNote.ofParameters (Bindings.empty :: scopes) params)) :=
      mem_of_ofParameters h
    have hbody := Stmt.blamedOfAll_subset { context with function := kind, inLoop := false }
      (params.foldl (fun scopes p => scopes.define p.lexeme) (Bindings.empty :: scopes)) body
    simp only [FunctionDecl.notes, FunctionDecl.tokens, blamed_append]
    grind

theorem FunctionDecl.blamedOfMethods_subset (context : ScopeContext) (scopes : Scopes) :
    ∀ fs : List FunctionDecl, blamed (FunctionDecl.notesOfMethods context scopes fs) ⊆
      FunctionDecl.tokensOfAll fs
  | [] => List.Subset.refl _
  | f :: rest => by
    have hf := f.blamed_subset context f.methodContext scopes
    have hrest := FunctionDecl.blamedOfMethods_subset context scopes rest
    simp only [FunctionDecl.notesOfMethods, FunctionDecl.tokensOfAll, blamed_append]
    grind

end

/-- Every error of analysis is at a token of the program. -/
theorem analyse_error_token_mem (program : List Stmt) :
    ∀ e ∈ (analyse program).filterMap ScopeNote.error?, e.token ∈ Stmt.tokensOfAll program :=
  fun _ he => Stmt.blamedOfAll_subset .topLevel [] program (List.mem_map_of_mem he)

end Lox
