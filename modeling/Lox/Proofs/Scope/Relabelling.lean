import Lox.Proofs.Program.Relabelling
import Lox.Proofs.Scope.Table

/-! Analysis of relabelled programs and of programs one behind the other.

Analysis carries identities and lines to its notes without looking at them, and it starts every
declaration of the global level with no scope open, so a program's notes do not depend on what
comes before it. -/

namespace Lox

def ScopeNote.relabel (f : Relabelling) : ScopeNote → ScopeNote
  | .error e => .error ⟨e.token.relabel f, e.fault⟩
  | .bound target depth => .bound (target.relabel f) depth

section

variable {f : Relabelling}

open ScopeNote

@[simp] theorem ScopeNote.errorIf_relabel (b : Bool) (t : Token) (fault : ScopeFault) :
    errorIf b (t.relabel f) fault = (errorIf b t fault).map (ScopeNote.relabel f) := by
  cases b <;> rfl

@[simp] theorem ScopeNote.ofRead_relabel (scopes : Scopes) (r : Reference) :
    ofRead scopes (r.relabel f) = (ofRead scopes r).map (ScopeNote.relabel f) := by
  simp [ofRead, ofReference, ScopeNote.relabel]

@[simp] theorem ScopeNote.ofDeclaration_relabel (scopes : Scopes) (t : Token) :
    ofDeclaration scopes (t.relabel f) = (ofDeclaration scopes t).map (ScopeNote.relabel f) := by
  simp [ofDeclaration]

theorem ScopeNote.ofSuperclass_relabel (scopes : Scopes) (t : Token) (r : Option Reference) :
    ofSuperclass scopes (t.relabel f) (r.map (Reference.relabel f)) =
      (ofSuperclass scopes t r).map (ScopeNote.relabel f) := by
  cases r <;> simp [ofSuperclass]

theorem ScopeNote.ofParameters_relabel (params : List Token) : ∀ scopes : Scopes,
    ofParameters scopes (params.map (Token.relabel f)) =
      (ofParameters scopes params).map (ScopeNote.relabel f) := by
  induction params with
  | nil => exact fun _ => rfl
  | cons p rest ih => exact fun scopes => by simp [ofParameters, ih]

mutual

theorem Expr.notes_relabel (context : ScopeContext) (scopes : Scopes) : ∀ e : Expr,
    (e.relabel f).notes context scopes = (e.notes context scopes).map (ScopeNote.relabel f)
  | .constant _ => rfl
  | .group e => e.notes_relabel context scopes
  | .unary _ e => e.notes_relabel context scopes
  | .binary l _ r | .logical l _ r => by
    rw [Expr.relabel, Expr.notes, l.notes_relabel, r.notes_relabel, ← List.map_append, Expr.notes]
  | .variable r => ScopeNote.ofRead_relabel scopes r
  | .assign r e => by
    rw [Expr.relabel, Expr.notes, e.notes_relabel, Expr.notes, List.map_append]
    rfl
  | .call e _ es => by
    rw [Expr.relabel, Expr.notes, e.notes_relabel, Expr.notesOfAll_relabel, ← List.map_append,
      Expr.notes]
  | .get e _ => e.notes_relabel context scopes
  | .set e _ v => by
    rw [Expr.relabel, Expr.notes, e.notes_relabel, v.notes_relabel, ← List.map_append, Expr.notes]
  | .receiver r => by
    rw [Expr.relabel, Expr.notes, Expr.notes]
    split <;> rfl
  | .inherited r _ => by
    simp [Expr.relabel, Expr.notes, ScopeNote.relabel, ofReference]

theorem Expr.notesOfAll_relabel (context : ScopeContext) (scopes : Scopes) : ∀ es : List Expr,
    Expr.notesOfAll context scopes (Expr.relabelAll f es) =
      (Expr.notesOfAll context scopes es).map (ScopeNote.relabel f)
  | [] => rfl
  | e :: rest => by
    rw [Expr.relabelAll, Expr.notesOfAll, e.notes_relabel, Expr.notesOfAll_relabel,
      ← List.map_append, Expr.notesOfAll]

end

theorem Expr.notesOf?_relabel (context : ScopeContext) (scopes : Scopes) (e : Option Expr) :
    Expr.notesOf? context scopes (e.map (Expr.relabel f)) =
      (Expr.notesOf? context scopes e).map (ScopeNote.relabel f) := by
  cases e with
  | none => rfl
  | some e => exact e.notes_relabel context scopes

@[simp] theorem Stmt.declared?_relabel (s : Stmt) :
    (s.relabel f).declared? = s.declared?.map (Token.relabel f) := by
  cases s with
  | function decl => simp [Stmt.relabel, Stmt.declared?]
  | _ => rfl

@[simp] theorem Scopes.after_relabel (scopes : Scopes) (s : Stmt) :
    scopes.after (s.relabel f) = scopes.after s := by
  unfold Scopes.after
  rw [Stmt.declared?_relabel]
  cases s.declared? <;> rfl

@[simp] theorem Scopes.ofMethods_relabel (scopes : Scopes) (r : Option Reference) :
    scopes.ofMethods (r.map (Reference.relabel f)) = scopes.ofMethods r := by
  cases r <;> rfl

@[simp] theorem FunctionDecl.methodContext_relabel (d : FunctionDecl) :
    (d.relabel f).methodContext = d.methodContext := by
  simp [FunctionDecl.methodContext]

mutual

theorem Stmt.notes_relabel (context : ScopeContext) (scopes : Scopes) : ∀ s : Stmt,
    (s.relabel f).notes context scopes = (s.notes context scopes).map (ScopeNote.relabel f)
  | .expression e | .print e => e.notes_relabel context scopes
  | .varDecl t e => by
    simp [Stmt.relabel, Stmt.notes, Expr.notesOf?_relabel]
  | .block body => Stmt.notesOfAll_relabel context _ body
  | .ifThen e s => by
    rw [Stmt.relabel, Stmt.notes, e.notes_relabel, s.notes_relabel, ← List.map_append, Stmt.notes]
  | .ifElse e s t => by
    rw [Stmt.relabel, Stmt.notes, e.notes_relabel, s.notes_relabel, t.notes_relabel,
      ← List.map_append, ← List.map_append, Stmt.notes]
  | .loop e s i => by
    rw [Stmt.relabel, Stmt.notes, e.notes_relabel, s.notes_relabel, Expr.notesOf?_relabel,
      ← List.map_append, ← List.map_append, Stmt.notes]
  | .function d => by
    simp [Stmt.relabel, Stmt.notes, d.notes_relabel]
  | .classDecl t r fs => by
    simp only [Stmt.relabel, Stmt.notes, ofDeclaration_relabel, ofSuperclass_relabel,
      Scopes.ofMethods_relabel, FunctionDecl.notesOfMethods_relabel, Token.relabel_lexeme,
      Option.isSome_map, List.map_append]
  | .returning t e => by
    simp [Stmt.relabel, Stmt.notes, Expr.notesOf?_relabel]
  | .breaking t | .continuing t => ScopeNote.errorIf_relabel _ t _

theorem Stmt.notesOfAll_relabel (context : ScopeContext) : ∀ (scopes : Scopes) (ss : List Stmt),
    Stmt.notesOfAll context scopes (Stmt.relabelAll f ss) =
      (Stmt.notesOfAll context scopes ss).map (ScopeNote.relabel f)
  | _, [] => rfl
  | scopes, s :: rest => by
    rw [Stmt.relabelAll, Stmt.notesOfAll, s.notes_relabel, Scopes.after_relabel,
      Stmt.notesOfAll_relabel context (scopes.after s) rest, ← List.map_append, Stmt.notesOfAll]

theorem FunctionDecl.notes_relabel (context : ScopeContext) (kind : FunctionContext)
    (scopes : Scopes) : ∀ d : FunctionDecl, (d.relabel f).notes context kind scopes =
      (d.notes context kind scopes).map (ScopeNote.relabel f)
  | .mk _ params body => by
    simp only [FunctionDecl.relabel, FunctionDecl.notes, ofParameters_relabel, List.foldl_map,
      Token.relabel_lexeme, Stmt.notesOfAll_relabel, List.map_append]

theorem FunctionDecl.notesOfMethods_relabel (context : ScopeContext) (scopes : Scopes) :
    ∀ ds : List FunctionDecl,
    FunctionDecl.notesOfMethods context scopes (FunctionDecl.relabelAll f ds) =
      (FunctionDecl.notesOfMethods context scopes ds).map (ScopeNote.relabel f)
  | [] => rfl
  | d :: rest => by
    rw [FunctionDecl.relabelAll, FunctionDecl.notesOfMethods, d.notes_relabel,
      FunctionDecl.notesOfMethods_relabel, FunctionDecl.methodContext_relabel,
      ← List.map_append, FunctionDecl.notesOfMethods]

end

/-- The notes of a relabelled program are its notes, relabelled. -/
theorem analyse_relabel (program : List Stmt) :
    analyse (program.map (Stmt.relabel f)) = (analyse program).map (ScopeNote.relabel f) := by
  rw [← Stmt.relabelAll_eq_map]
  exact Stmt.notesOfAll_relabel _ _ program

theorem accepted_relabel {notes : List ScopeNote} (h : Accepted notes) :
    Accepted (notes.map (ScopeNote.relabel f)) := by
  intro e he
  obtain ⟨note, hn, hr⟩ := List.mem_map.mp he
  cases note with
  | error e' => exact h e' hn
  | bound target depth => cases hr

theorem accepted_of_relabel {notes : List ScopeNote}
    (h : Accepted (notes.map (ScopeNote.relabel f))) : Accepted notes :=
  fun e he => h ⟨e.token.relabel f, e.fault⟩ (List.mem_map.mpr ⟨_, he, rfl⟩)

end

/-- New identities change no error. -/
theorem errors_relabel_ofNodes (g : NodeId → NodeId) (notes : List ScopeNote) :
    (notes.map (ScopeNote.relabel (.ofNodes g))).filterMap ScopeNote.error? =
      notes.filterMap ScopeNote.error? := by
  rw [List.filterMap_map]
  congr 1
  funext note
  cases note <;> rfl

@[simp] theorem Scopes.after_nil (s : Stmt) : Scopes.after [] s = [] := by
  unfold Scopes.after
  split <;> rfl

theorem analyse_append (first second : List Stmt) :
    analyse (first ++ second) = analyse first ++ analyse second := by
  unfold analyse
  induction first with
  | nil => rfl
  | cons s rest ih =>
    rw [List.cons_append, Stmt.notesOfAll, Stmt.notesOfAll, Scopes.after_nil, ih,
      List.append_assoc]

namespace Depths

theorem recordAll_append (d : Depths) (xs ys : List ScopeNote) :
    d.recordAll (xs ++ ys) = (d.recordAll xs).recordAll ys := List.foldl_append

/-- A table holds at the new identities what another holds at the old ones. -/
def Renames (g : NodeId → NodeId) (d d' : Depths) : Prop := ∀ n, d'.get? (g n) = d.get? n

variable {g : NodeId → NodeId} {d d' : Depths}

theorem Renames.recordNote (hg : g.Injective) (h : d.Renames g d') (note : ScopeNote) :
    (d.recordNote note).Renames g (d'.recordNote (note.relabel (.ofNodes g))) := by
  intro n
  cases note with
  | error e => exact h n
  | bound target depth =>
    cases depth with
    | none => exact h n
    | some depth =>
      simp only [Depths.recordNote, ScopeNote.relabel, get?_record, Reference.relabel_node,
        Relabelling.ofNodes_node, hg.eq_iff, h n]

theorem Renames.recordAll (hg : g.Injective) (notes : List ScopeNote) :
    ∀ {d d' : Depths}, d.Renames g d' →
    (d.recordAll notes).Renames g
      (d'.recordAll (notes.map (ScopeNote.relabel (.ofNodes g)))) := by
  induction notes with
  | nil => exact fun h => h
  | cons note rest ih => exact fun h => ih (h.recordNote hg note)

end Depths

end Lox
