import Lox.Proofs.Grammar.Trees
import Lox.Scope.Depths

/-! What the table of depths says of an accepted program.

The nodes of a program are drawn afresh and analysis notes each of them once at most, so recording
the notes of one program changes no entry of another, and every note of a program can be read back
from the table for as long as the session lasts. -/

namespace Lox

/-- Notes without an error among them. -/
def Accepted (notes : List ScopeNote) : Prop := ∀ e, ScopeNote.error e ∉ notes

@[simp] theorem accepted_append (xs ys : List ScopeNote) :
    Accepted (xs ++ ys) ↔ Accepted xs ∧ Accepted ys := by
  simp [Accepted, forall_and]

@[simp] theorem accepted_errorIf (b : Bool) (t : Token) (fault : ScopeFault) :
    Accepted (ScopeNote.errorIf b t fault) ↔ b = false := by
  cases b <;> simp [Accepted, ScopeNote.errorIf]

def ScopeNote.node? : ScopeNote → Option NodeId
  | .error _ => none
  | .bound target _ => some target.node

/-- The nodes that notes are about. -/
def noted (notes : List ScopeNote) : List NodeId := notes.filterMap ScopeNote.node?

@[simp] theorem noted_nil : noted [] = [] := rfl

@[simp] theorem noted_append (xs ys : List ScopeNote) : noted (xs ++ ys) = noted xs ++ noted ys := by
  simp [noted]

@[simp] theorem noted_errorIf (b : Bool) (t : Token) (fault : ScopeFault) :
    noted (ScopeNote.errorIf b t fault) = [] := by
  cases b <;> rfl

@[simp] theorem noted_ofDeclaration (scopes : Scopes) (t : Token) :
    noted (ScopeNote.ofDeclaration scopes t) = [] := noted_errorIf _ _ _

@[simp] theorem noted_ofReference (scopes : Scopes) (r : Reference) :
    noted [ScopeNote.ofReference scopes r] = [r.node] := rfl

@[simp] theorem noted_ofRead (scopes : Scopes) (r : Reference) :
    noted (ScopeNote.ofRead scopes r) = [r.node] := by
  simp [ScopeNote.ofRead]

@[simp] theorem noted_ofParameters (params : List Token) : ∀ scopes : Scopes,
    noted (ScopeNote.ofParameters scopes params) = [] := by
  induction params with
  | nil => exact fun _ => rfl
  | cons p rest ih => exact fun scopes => by simp [ScopeNote.ofParameters, ih]

mutual

theorem Expr.noted_subperm (context : ScopeContext) (scopes : Scopes) : ∀ e : Expr,
    (noted (e.notes context scopes)).Subperm e.nodes
  | .constant _ => .refl _
  | .group e => e.noted_subperm context scopes
  | .unary _ e => e.noted_subperm context scopes
  | .binary l _ r | .logical l _ r => by
    simpa [Expr.notes, Expr.nodes] using
      (l.noted_subperm context scopes).append (r.noted_subperm context scopes)
  | .variable r => by simp [Expr.notes, Expr.nodes, List.Subperm.refl]
  | .assign r e => by
    have h := (e.noted_subperm context scopes).append (.refl [r.node])
    simpa [Expr.notes, Expr.nodes] using h.trans List.perm_append_comm.subperm
  | .call e _ es => by
    simpa [Expr.notes, Expr.nodes] using
      (e.noted_subperm context scopes).append (Expr.notedOfAll_subperm context scopes es)
  | .get e _ => e.noted_subperm context scopes
  | .set e _ v => by
    have h := (v.noted_subperm context scopes).append (e.noted_subperm context scopes)
    simpa [Expr.notes, Expr.nodes] using h.trans List.perm_append_comm.subperm
  | .receiver r => by
    unfold Expr.notes
    split
    · exact List.nil_subperm
    · exact .refl _
  | .inherited r _ => by simp [Expr.notes, Expr.nodes, List.Subperm.refl]

theorem Expr.notedOfAll_subperm (context : ScopeContext) (scopes : Scopes) : ∀ es : List Expr,
    (noted (Expr.notesOfAll context scopes es)).Subperm (Expr.nodesOfAll es)
  | [] => .refl _
  | e :: rest => by
    simpa [Expr.notesOfAll, Expr.nodesOfAll] using
      (e.noted_subperm context scopes).append (Expr.notedOfAll_subperm context scopes rest)

end

theorem Expr.noted?_subperm (context : ScopeContext) (scopes : Scopes) : ∀ e : Option Expr,
    (noted (Expr.notesOf? context scopes e)).Subperm (Expr.nodesOf? e)
  | none => .refl _
  | some e => e.noted_subperm context scopes

mutual

theorem Stmt.noted_subperm (context : ScopeContext) (scopes : Scopes) : ∀ s : Stmt,
    (noted (s.notes context scopes)).Subperm s.nodes
  | .expression e | .print e => e.noted_subperm context scopes
  | .varDecl t e => by
    simpa [Stmt.notes, Stmt.nodes] using Expr.noted?_subperm context (scopes.declare t.lexeme) e
  | .block body => Stmt.notedOfAll_subperm context _ body
  | .ifThen e s => by
    simpa [Stmt.notes, Stmt.nodes] using
      (e.noted_subperm context scopes).append (s.noted_subperm context scopes)
  | .ifElse e s t => by
    simpa [Stmt.notes, Stmt.nodes] using (e.noted_subperm context scopes).append
      ((s.noted_subperm context scopes).append (t.noted_subperm context scopes))
  | .loop e s i => by
    simpa [Stmt.notes, Stmt.nodes] using (e.noted_subperm context scopes).append
      ((s.noted_subperm _ scopes).append (Expr.noted?_subperm context scopes i))
  | .function f => by
    simpa [Stmt.notes, Stmt.nodes] using f.noted_subperm context .function _
  | .classDecl t r fs => by
    have h := FunctionDecl.notedOfMethods_subperm
      { context with classKind := if r.isSome then .derived else .root }
      ((scopes.define t.lexeme).ofMethods r) fs
    cases r with
    | none => simpa [Stmt.notes, Stmt.nodes, ScopeNote.ofSuperclass] using h
    | some r =>
      simpa [Stmt.notes, Stmt.nodes, ScopeNote.ofSuperclass] using
        (List.Subperm.refl [r.node]).append h
  | .returning _ e => by
    simpa [Stmt.notes, Stmt.nodes] using Expr.noted?_subperm context scopes e
  | .breaking _ | .continuing _ => by simp [Stmt.notes]

theorem Stmt.notedOfAll_subperm (context : ScopeContext) : ∀ (scopes : Scopes) (ss : List Stmt),
    (noted (Stmt.notesOfAll context scopes ss)).Subperm (Stmt.nodesOfAll ss)
  | _, [] => .refl _
  | scopes, s :: rest => by
    simpa [Stmt.notesOfAll, Stmt.nodesOfAll] using (s.noted_subperm context scopes).append
      (Stmt.notedOfAll_subperm context (scopes.after s) rest)

theorem FunctionDecl.noted_subperm (context : ScopeContext) (kind : FunctionContext)
    (scopes : Scopes) : ∀ f : FunctionDecl, (noted (f.notes context kind scopes)).Subperm f.nodes
  | .mk _ params body => by
    simpa [FunctionDecl.notes, FunctionDecl.nodes] using Stmt.notedOfAll_subperm _ _ body

theorem FunctionDecl.notedOfMethods_subperm (context : ScopeContext) (scopes : Scopes) :
    ∀ fs : List FunctionDecl, (noted (FunctionDecl.notesOfMethods context scopes fs)).Subperm
      (FunctionDecl.nodesOfAll fs)
  | [] => .refl _
  | f :: rest => by
    simpa [FunctionDecl.notesOfMethods, FunctionDecl.nodesOfAll] using
      (f.noted_subperm context f.methodContext scopes).append
        (FunctionDecl.notedOfMethods_subperm context scopes rest)

end

namespace Depths

/-- The table holds no nodes from the given one on. -/
def Below (d : Depths) (next : Nat) : Prop := ∀ n : NodeId, next ≤ n.index → d.get? n = none

theorem get?_recordNote (d : Depths) (note : ScopeNote) (n : NodeId)
    (h : note.node? ≠ some n) : (d.recordNote note).get? n = d.get? n := by
  unfold recordNote
  split
  · rename_i target depth
    have hn : target.node ≠ n := fun he => h (congrArg some he)
    rw [get?_record, if_neg hn]
  · rfl

theorem get?_recordAll (n : NodeId) (notes : List ScopeNote) : ∀ d : Depths,
    n ∉ noted notes → (d.recordAll notes).get? n = d.get? n := by
  induction notes with
  | nil => exact fun _ _ => rfl
  | cons note rest ih =>
    intro d hn
    have hnote : note.node? ≠ some n := fun he => hn (by simp [noted, he])
    have hrest : n ∉ noted rest := fun hr => hn (by
      unfold noted at hr ⊢
      rw [List.filterMap_cons]
      split
      · exact hr
      · exact .tail _ hr)
    exact (ih (d.recordNote note) hrest).trans (get?_recordNote d note n hnote)

/-- Each note about a node of its own can be read back. -/
theorem get?_recordAll_of_bound {target : Reference} {depth : Option Nat}
    (notes : List ScopeNote) : ∀ d : Depths, (noted notes).Nodup →
    (∀ n ∈ noted notes, d.get? n = none) → .bound target depth ∈ notes →
    (d.recordAll notes).get? target.node = depth := by
  induction notes with
  | nil => intro d _ _ h; cases h
  | cons note rest ih =>
    intro d hnodup hnone hmem
    rcases List.mem_cons.mp hmem with rfl | hrest
    · have hnoted : noted (.bound target depth :: rest) = target.node :: noted rest := rfl
      rw [hnoted] at hnodup hnone
      have hrest := get?_recordAll target.node rest (d.recordNote (.bound target depth))
        (List.nodup_cons.mp hnodup).1
      refine hrest.trans ?_
      cases depth with
      | none => exact hnone _ (.head _)
      | some depth => simp [recordNote]
    · cases note with
      | error e => exact ih d hnodup hnone hrest
      | bound other otherDepth =>
        have hnoted : noted (.bound other otherDepth :: rest) = other.node :: noted rest := rfl
        rw [hnoted] at hnodup hnone
        obtain ⟨hfresh, hnodup⟩ := List.nodup_cons.mp hnodup
        refine ih (d.recordNote (.bound other otherDepth)) hnodup (fun n hn => ?_) hrest
        have hne : ScopeNote.node? (.bound other otherDepth) ≠ some n := by
          rintro ⟨⟩
          exact hfresh hn
        exact (get?_recordNote d _ n hne).trans (hnone n (.tail _ hn))

end Depths

/-- What an accepted note promises of the table. -/
def ScopeNote.Holds (d : Depths) : ScopeNote → Prop
  | .error _ => False
  | .bound target depth => d.get? target.node = depth

theorem Drawn.noted {lo hi : Nat} {program : List Stmt} (h : Drawn lo hi (Stmt.nodesOfAll program)) :
    Drawn lo hi (noted (analyse program)) :=
  h.subperm (Stmt.notedOfAll_subperm _ _ _)

/-- Taking over the notes of a program leaves earlier entries alone. -/
theorem Depths.recordAll_analyse {d : Depths} {lo hi : Nat} {program : List Stmt}
    (hd : Drawn lo hi (Stmt.nodesOfAll program)) (hb : d.Below lo) (hlo : lo ≤ hi) :
    (d.recordAll (analyse program)).Below hi ∧
      (∀ n : NodeId, n.index < lo → (d.recordAll (analyse program)).get? n = d.get? n) ∧
      (Accepted (analyse program) →
        ∀ note ∈ analyse program, note.Holds (d.recordAll (analyse program))) := by
  have hn := hd.noted
  refine ⟨fun n hle => ?_, fun n hlt => ?_, fun ha note hmem => ?_⟩
  · rw [get?_recordAll n _ d fun hm => Nat.not_lt.mpr hle (hn.range n hm).2]
    exact hb n (Nat.le_trans hlo hle)
  · exact get?_recordAll n _ d fun hm => Nat.not_le.mpr hlt (hn.range n hm).1
  · cases note with
    | error e => exact ha e hmem
    | bound target depth =>
      exact get?_recordAll_of_bound _ d hn.nodup (fun n hm => hb n (hn.range n hm).1) hmem

end Lox
