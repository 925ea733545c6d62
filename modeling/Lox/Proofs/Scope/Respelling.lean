import Lox.Proofs.Program.Respelling
import Lox.Proofs.Scope.Lookup

/-! Places in programs with other tokens.

Analysis of a respelled program goes through the same places, with the other tokens as the names of
what is open there. -/

namespace Lox

section

variable (f : Respelling)

def Binder.respell : Binder → Binder
  | .named t => .named (f.token t)
  | .receiver => .receiver
  | .superclass => .superclass

def OpenScope.respell (s : OpenScope) : OpenScope := ⟨s.kind, s.binders.map (Binder.respell f)⟩

def Underway.respell (u : Underway) : Underway := ⟨f.token u.name, u.readable⟩

def Place.respell (Γ : Place) : Place :=
  ⟨Γ.context, Γ.opens.map (OpenScope.respell f), Γ.underway.map (Underway.respell f)⟩

def ScopeNote.respell : ScopeNote → ScopeNote
  | .error e => .error ⟨f.token e.token, e.fault⟩
  | .bound target depth => .bound (target.respell f) depth

end

variable {f : Respelling}

@[simp] theorem OpenScope.kind_respell (s : OpenScope) : (s.respell f).kind = s.kind := rfl

@[simp] theorem OpenScope.binders_respell (s : OpenScope) :
    (s.respell f).binders = s.binders.map (Binder.respell f) := rfl

@[simp] theorem OpenScope.respell_add (s : OpenScope) (t : Token) :
    (s.add (.named t)).respell f = (s.respell f).add (.named (f.token t)) := by
  simp [OpenScope.respell, OpenScope.add, Binder.respell]

@[simp] theorem FunctionDecl.scope_respell (d : FunctionDecl) :
    (d.respell f).scope = d.scope.respell f := by
  simp [FunctionDecl.scope, OpenScope.respell, Function.comp_def, Binder.respell]

@[simp] theorem Stmt.declared?_respell (s : Stmt) :
    (s.respell f).declared? = s.declared?.map f.token := by
  cases s with
  | function d => simp [Stmt.respell, Stmt.declared?]
  | _ => rfl

namespace Place

variable (Γ : Place)

@[simp] theorem context_respell : (Γ.respell f).context = Γ.context := rfl

@[simp] theorem opens_respell : (Γ.respell f).opens = Γ.opens.map (OpenScope.respell f) := rfl

@[simp] theorem underway_respell :
    (Γ.respell f).underway = Γ.underway.map (Underway.respell f) := rfl

theorem respell_define (t : Token) : (Γ.define t).respell f = (Γ.respell f).define (f.token t) := by
  unfold define respell
  cases Γ.opens with
  | nil => rfl
  | cons s outer => simp

theorem respell_after (s : Stmt) : (Γ.after s).respell f = (Γ.respell f).after (s.respell f) := by
  unfold after
  rw [Stmt.declared?_respell]
  cases s.declared? with
  | none => rfl
  | some t => exact Γ.respell_define t

theorem respell_declaring (t : Token) (readable : Bool) :
    (Γ.declaring t readable).respell f = (Γ.respell f).declaring (f.token t) readable := rfl

theorem respell_inBlock : Γ.inBlock.respell f = (Γ.respell f).inBlock := rfl

theorem respell_inLoop : Γ.inLoop.respell f = (Γ.respell f).inLoop := rfl

theorem respell_inClass (r : Option Reference) :
    (Γ.inClass r).respell f = (Γ.respell f).inClass (r.map (Reference.respell f)) := by
  cases r <;> rfl

theorem respell_inBody (kind : FunctionContext) (d : FunctionDecl) :
    (Γ.inBody kind d).respell f = (Γ.respell f).inBody kind (d.respell f) := by
  simp [inBody, respell]

end Place

/-- Texts stay as they are. -/
def Respelling.KeepsTexts (f : Respelling) : Prop := ∀ t, (f.token t).lexeme = t.lexeme

theorem Binder.name_respell (hf : f.KeepsTexts) (b : Binder) : (b.respell f).name = b.name := by
  cases b with
  | named t => exact hf t
  | _ => rfl

end Lox
