import Lox.Proofs.Scope.Table
import Lox.Proofs.Session.Stages

/-! Static faults by what stands around them.

Every declaration, read, jump and use of `this` or `super` of a program is listed with what it
stands in, from the inside outwards, and with the declarations before it in the same statements. A
fault is a property of such an occurrence alone. The analysis, which carries scopes and a context
along, reports these faults in the order of the list and no others. A branch or a loop body declares
nothing in the scope around it, since the grammar admits only statements there. -/

namespace Lox

/-- What stands around an occurrence, or before it in the same list of statements or parameters. -/
inductive Enclosure where
  | block
  | callable (kind : FunctionContext)
  | classBody (derived : Bool)
  | loopBody
  | initializer (name : Token)
  | declared (name : Token)
  deriving DecidableEq, Repr

namespace Enclosure

def opensScope : Enclosure → Bool
  | .block | .callable _ => true
  | _ => false

def declares (name : String) : Enclosure → Bool
  | .declared t => t.lexeme == name
  | _ => false

def callable? : Enclosure → Option FunctionContext
  | .callable kind => some kind
  | _ => none

def isLoopBody : Enclosure → Bool
  | .loopBody => true
  | _ => false

def derived? : Enclosure → Option Bool
  | .classBody derived => some derived
  | _ => none

end Enclosure

/-- The innermost enclosure comes first. -/
abbrev Surroundings := List Enclosure

namespace Surroundings

def isLocal (Γ : Surroundings) : Bool := Γ.any (·.opensScope)

/-- The name was declared before in the innermost scope, and this is not the global one. -/
def declaredBefore (Γ : Surroundings) (name : String) : Bool :=
  isLocal Γ && (Γ.takeWhile (!·.opensScope)).any (·.declares name)

/-- It is inside the initializer of a local variable of that name, the first one in its scope. -/
def inOwnInitializer (name : String) : Surroundings → Bool
  | [] => false
  | .initializer t :: outer =>
    t.lexeme == name && isLocal outer && !declaredBefore outer name || inOwnInitializer name outer
  | _ :: outer => inOwnInitializer name outer

/-- What kind of function is the innermost one, if there is any. -/
def function? (Γ : Surroundings) : Option FunctionContext := Γ.findSome? Enclosure.callable?

/-- Whether the innermost class has a superclass, if there is a class. -/
def derived? (Γ : Surroundings) : Option Bool := Γ.findSome? Enclosure.derived?

/-- There is a loop body around it in the same function, or at the top level outside of any. -/
def inLoop (Γ : Surroundings) : Bool :=
  (Γ.takeWhile (·.callable?.isNone)).any (·.isLoopBody)

def after (Γ : Surroundings) (s : Stmt) : Surroundings :=
  match s.declared? with
  | some name => .declared name :: Γ
  | none => Γ

end Surroundings

inductive Site where
  | declaration (name : Token)
  | read (name : Token)
  | superclass (name className : Token)
  | returning (keyword : Token) (hasValue : Bool)
  | breaking (keyword : Token)
  | continuing (keyword : Token)
  | receiver (keyword : Token)
  | inherited (keyword : Token)
  deriving DecidableEq, Repr

namespace Site

def token : Site → Token
  | .declaration t | .read t | .superclass t _ | .returning t _ | .breaking t | .continuing t
  | .receiver t | .inherited t => t

def fault? (Γ : Surroundings) : Site → Option ScopeFault
  | .declaration t => if Γ.declaredBefore t.lexeme then some .alreadyDeclared else none
  | .read t => if Γ.inOwnInitializer t.lexeme then some .readInOwnInitializer else none
  | .superclass t className =>
    if t.lexeme = className.lexeme then some .inheritsFromItself else none
  | .returning _ hasValue =>
    match Γ.function? with
    | none => some .returnOutsideFunction
    | some kind => if hasValue ∧ kind = .initializer then some .valueFromInitializer else none
  | .breaking _ => if Γ.inLoop then none else some .breakOutsideLoop
  | .continuing _ => if Γ.inLoop then none else some .continueOutsideLoop
  | .receiver _ => if Γ.derived? = none then some .thisOutsideClass else none
  | .inherited _ =>
    match Γ.derived? with
    | none => some .superOutsideClass
    | some derived => if derived then none else some .superWithoutSuperclass

end Site

structure Occurrence where
  site : Site
  around : Surroundings
  deriving DecidableEq, Repr

def Occurrence.error? (o : Occurrence) : Option ScopeError :=
  (o.site.fault? o.around).map (⟨o.site.token, ·⟩)

mutual

/-- In the order of the walk: a new value comes before what it is assigned to. -/
def Expr.occurrences (Γ : Surroundings) : Expr → List Occurrence
  | .constant _ => []
  | .group inner => inner.occurrences Γ
  | .unary _ operand => operand.occurrences Γ
  | .binary left _ right | .logical left _ right => left.occurrences Γ ++ right.occurrences Γ
  | .variable target => [⟨.read target.name, Γ⟩]
  | .assign _ value => value.occurrences Γ
  | .call callee _ arguments => callee.occurrences Γ ++ Expr.occurrencesOfAll Γ arguments
  | .get object _ => object.occurrences Γ
  | .set object _ value => value.occurrences Γ ++ object.occurrences Γ
  | .receiver keyword => [⟨.receiver keyword.name, Γ⟩]
  | .inherited keyword _ => [⟨.inherited keyword.name, Γ⟩]

def Expr.occurrencesOfAll (Γ : Surroundings) : List Expr → List Occurrence
  | [] => []
  | e :: rest => e.occurrences Γ ++ Expr.occurrencesOfAll Γ rest

end

def Expr.occurrencesOf? (Γ : Surroundings) : Option Expr → List Occurrence
  | none => []
  | some e => e.occurrences Γ

/-- A superclass is read like a variable. -/
def Reference.occurrences (Γ : Surroundings) (className : Token) : Option Reference → List Occurrence
  | none => []
  | some target => [⟨.superclass target.name className, Γ⟩, ⟨.read target.name, Γ⟩]

def occurrencesOfParameters (Γ : Surroundings) : List Token → List Occurrence
  | [] => []
  | p :: rest => ⟨.declaration p, Γ⟩ :: occurrencesOfParameters (.declared p :: Γ) rest

mutual

def Stmt.occurrences (Γ : Surroundings) : Stmt → List Occurrence
  | .expression value | .print value => value.occurrences Γ
  | .varDecl name initializer =>
    ⟨.declaration name, Γ⟩ :: Expr.occurrencesOf? (.initializer name :: Γ) initializer
  | .block body => Stmt.occurrencesOfAll (.block :: Γ) body
  | .ifThen condition consequent => condition.occurrences Γ ++ consequent.occurrences Γ
  | .ifElse condition consequent alternative =>
    condition.occurrences Γ ++ consequent.occurrences Γ ++ alternative.occurrences Γ
  | .loop condition body increment =>
    condition.occurrences Γ ++ body.occurrences (.loopBody :: Γ)
      ++ Expr.occurrencesOf? Γ increment
  | .function decl =>
    ⟨.declaration decl.name, Γ⟩ :: decl.occurrences (.callable .function :: .declared decl.name :: Γ)
  | .classDecl name superclass methods =>
    ⟨.declaration name, Γ⟩ :: Reference.occurrences (.declared name :: Γ) name superclass
      ++ FunctionDecl.occurrencesOfMethods
        (.classBody superclass.isSome :: .declared name :: Γ) methods
  | .returning keyword value =>
    ⟨.returning keyword value.isSome, Γ⟩ :: Expr.occurrencesOf? Γ value
  | .breaking keyword => [⟨.breaking keyword, Γ⟩]
  | .continuing keyword => [⟨.continuing keyword, Γ⟩]

def Stmt.occurrencesOfAll (Γ : Surroundings) : List Stmt → List Occurrence
  | [] => []
  | s :: rest => s.occurrences Γ ++ Stmt.occurrencesOfAll (Γ.after s) rest

/-- What a function holds, from the inside of its scope. -/
def FunctionDecl.occurrences (Γ : Surroundings) : FunctionDecl → List Occurrence
  | .mk _ params body =>
    occurrencesOfParameters Γ params
      ++ Stmt.occurrencesOfAll (params.foldl (fun Γ p => .declared p :: Γ) Γ) body

def FunctionDecl.occurrencesOfMethods (Γ : Surroundings) : List FunctionDecl → List Occurrence
  | [] => []
  | f :: rest =>
    f.occurrences (.callable f.methodContext :: Γ) ++ FunctionDecl.occurrencesOfMethods Γ rest

end

/-- The static faults of a program, in the order of the walk. -/
def staticFaults (program : List Stmt) : List ScopeError :=
  (Stmt.occurrencesOfAll [] program).filterMap Occurrence.error?

/-- Nothing around is the initializer of a variable: so it is for every statement. -/
def Surroundings.Settled (Γ : Surroundings) : Prop := ∀ x, Surroundings.inOwnInitializer x Γ = false

/-- The context that analysis carries along is that of the surroundings. -/
structure ScopeContext.Matches (context : ScopeContext) (Γ : Surroundings) : Prop where
  function : Γ.function? = if context.function = .none then none else some context.function
  derived : Γ.derived? = match context.classKind with
    | .none => none
    | .root => some false
    | .derived => some true
  inLoop : Γ.inLoop = context.inLoop

/-- The innermost scope holds what was declared before, and between two statements all of it is
complete. -/
structure Scopes.Matches (scopes : Scopes) (Γ : Surroundings) : Prop where
  isLocal : Γ.isLocal = !scopes.isEmpty
  declared : ∀ x, Γ.declaredBefore x = scopes.isDeclared x
  complete : ∀ x, scopes.isIncomplete x = false

namespace Surroundings

variable (e : Enclosure) (Γ : Surroundings) (x : String)

@[simp] theorem isLocal_cons : isLocal (e :: Γ) = (e.opensScope || Γ.isLocal) := List.any_cons

@[simp] theorem declaredBefore_cons : declaredBefore (e :: Γ) x =
    (!e.opensScope && (Γ.isLocal && e.declares x || Γ.declaredBefore x)) := by
  simp only [declaredBefore, isLocal_cons, List.takeWhile_cons]
  cases e.opensScope <;> simp [Bool.and_or_distrib_left]

@[simp] theorem function?_cons : function? (e :: Γ) = e.callable?.or Γ.function? := by
  rw [function?, List.findSome?_cons]
  cases e.callable? <;> rfl

@[simp] theorem derived?_cons : derived? (e :: Γ) = e.derived?.or Γ.derived? := by
  rw [derived?, List.findSome?_cons]
  cases e.derived? <;> rfl

@[simp] theorem inLoop_cons :
    inLoop (e :: Γ) = (e.callable?.isNone && (e.isLoopBody || Γ.inLoop)) := by
  simp only [inLoop, List.takeWhile_cons]
  cases e.callable? <;> simp

variable {e} {Γ}

theorem Settled.cons (h : Γ.Settled) (he : ∀ t, e ≠ .initializer t) : Settled (e :: Γ) := by
  intro x
  cases e with
  | initializer t => exact absurd rfl (he t)
  | _ => exact h x

theorem Settled.after (h : Γ.Settled) (s : Stmt) : (Γ.after s).Settled := by
  unfold Surroundings.after
  split
  · exact h.cons (by simp)
  · exact h

end Surroundings

namespace ScopeContext.Matches

variable {context : ScopeContext} {Γ : Surroundings} {e : Enclosure}

theorem topLevel : ScopeContext.topLevel.Matches [] := ⟨rfl, rfl, rfl⟩

/-- Blocks, initializers and declarations do not matter to the context. -/
theorem cons (h : context.Matches Γ) (hf : e.callable? = none) (hd : e.derived? = none)
    (hl : e.isLoopBody = false) : context.Matches (e :: Γ) :=
  ⟨by simpa [hf] using h.function, by simpa [hd] using h.derived, by simpa [hf, hl] using h.inLoop⟩

theorem after (h : context.Matches Γ) (s : Stmt) : context.Matches (Γ.after s) := by
  unfold Surroundings.after
  split
  · exact h.cons rfl rfl rfl
  · exact h

theorem loopBody (h : context.Matches Γ) :
    { context with inLoop := true }.Matches (.loopBody :: Γ) :=
  ⟨h.function, h.derived, by simp [Enclosure.callable?, Enclosure.isLoopBody]⟩

theorem callable (h : context.Matches Γ) {kind : FunctionContext} (hk : kind ≠ .none) :
    { context with function := kind, inLoop := false }.Matches (.callable kind :: Γ) :=
  ⟨by simp [Enclosure.callable?, hk], h.derived, by simp [Enclosure.callable?]⟩

theorem classBody (h : context.Matches Γ) (derived : Bool) :
    { context with classKind := if derived then .derived else .root }.Matches
      (.classBody derived :: Γ) :=
  ⟨h.function, by cases derived <;> rfl,
    by simpa [Enclosure.callable?, Enclosure.isLoopBody] using h.inLoop⟩

end ScopeContext.Matches

namespace Scopes

variable {scopes : Scopes} {Γ : Surroundings} {e : Enclosure}

theorem isDeclared_define (scopes : Scopes) (x y : String) :
    (scopes.define x).isDeclared y = (!scopes.isEmpty && x == y || scopes.isDeclared y) := by
  cases scopes with
  | nil => rfl
  | cons scope outer =>
    by_cases h : x = y <;> simp [define, mark, isDeclared, Bindings.contains, h]

theorem isIncomplete_mark (scopes : Scopes) (complete : Bool) (x y : String) :
    (scopes.mark complete x).isIncomplete y =
      if x = y then !complete && !scopes.isEmpty else scopes.isIncomplete y := by
  cases scopes with
  | nil => simp [mark, isIncomplete]
  | cons scope outer => by_cases h : x = y <;> simp [mark, isIncomplete, h]

namespace Matches

theorem global : Matches [] [] := ⟨rfl, fun _ => rfl, fun _ => rfl⟩

theorem enter (he : e.opensScope = true) : Matches (Bindings.empty :: scopes) (e :: Γ) :=
  ⟨by simp [he], fun x => by simp [he, Scopes.isDeclared, Bindings.contains],
    fun x => by simp [isIncomplete]⟩

theorem loopBody (h : scopes.Matches Γ) : scopes.Matches (.loopBody :: Γ) :=
  ⟨h.isLocal, by simpa [Enclosure.opensScope, Enclosure.declares] using h.declared, h.complete⟩

theorem define (h : scopes.Matches Γ) (t : Token) :
    (scopes.define t.lexeme).Matches (.declared t :: Γ) := by
  refine ⟨?_, fun x => ?_, fun x => ?_⟩
  · cases scopes <;> simpa [Enclosure.opensScope, Scopes.define, mark] using h.isLocal
  · simp [Enclosure.opensScope, Enclosure.declares, h.declared, h.isLocal, isDeclared_define]
  · simp [Scopes.define, isIncomplete_mark, h.complete]

theorem after (h : scopes.Matches Γ) (s : Stmt) : (scopes.after s).Matches (Γ.after s) := by
  unfold Scopes.after Surroundings.after
  cases s.declared? with
  | none => exact h
  | some t => exact h.define t

/-- In an initializer the name is incomplete if it is local and the first one in its scope. -/
theorem declare (h : scopes.Matches Γ) (hΓ : Γ.Settled) (t : Token) (x : String) :
    Surroundings.inOwnInitializer x (.initializer t :: Γ) =
      (scopes.declare t.lexeme).isIncomplete x := by
  rw [Surroundings.inOwnInitializer, hΓ x, h.declared, h.isLocal, Scopes.declare]
  by_cases hx : t.lexeme = x
  · subst hx
    cases hdeclared : scopes.isDeclared t.lexeme <;>
      simp [isIncomplete_mark, h.complete]
  · cases hdeclared : scopes.isDeclared t.lexeme <;>
      simp [isIncomplete_mark, h.complete, hx]

end Matches

end Scopes

/-- The errors among notes. -/
def errorsOf (notes : List ScopeNote) : List ScopeError := notes.filterMap ScopeNote.error?

def faultsOf (occurrences : List Occurrence) : List ScopeError :=
  occurrences.filterMap Occurrence.error?

section Errors

@[simp] theorem errorsOf_nil : errorsOf [] = [] := rfl

@[simp] theorem errorsOf_append (xs ys : List ScopeNote) :
    errorsOf (xs ++ ys) = errorsOf xs ++ errorsOf ys := List.filterMap_append

@[simp] theorem errorsOf_error (e : ScopeError) (notes : List ScopeNote) :
    errorsOf (.error e :: notes) = e :: errorsOf notes := rfl

@[simp] theorem errorsOf_ofReference (scopes : Scopes) (r : Reference) :
    errorsOf [ScopeNote.ofReference scopes r] = [] := rfl

@[simp] theorem errorsOf_errorIf (b : Bool) (t : Token) (fault : ScopeFault) :
    errorsOf (ScopeNote.errorIf b t fault) = if b then [⟨t, fault⟩] else [] := by
  cases b <;> rfl

@[simp] theorem faultsOf_nil : faultsOf [] = [] := rfl

@[simp] theorem faultsOf_append (xs ys : List Occurrence) :
    faultsOf (xs ++ ys) = faultsOf xs ++ faultsOf ys := List.filterMap_append

theorem faultsOf_cons (o : Occurrence) (os : List Occurrence) :
    faultsOf (o :: os) = o.error?.toList ++ faultsOf os := by
  rw [faultsOf, List.filterMap_cons]
  cases o.error? <;> rfl

variable {context : ScopeContext} {scopes : Scopes} {Γ : Surroundings}

theorem faultsOf_cons' (site : Site) (os : List Occurrence) : faultsOf (⟨site, Γ⟩ :: os) =
    ((site.fault? Γ).map (ScopeError.mk site.token)).toList ++ faultsOf os := faultsOf_cons _ _

theorem errorsOf_ofRead (h : ∀ x, Γ.inOwnInitializer x = scopes.isIncomplete x) (r : Reference) :
    errorsOf (ScopeNote.ofRead scopes r) = faultsOf [⟨.read r.name, Γ⟩] := by
  rw [faultsOf_cons', Site.fault?, h]
  cases hr : scopes.isIncomplete r.name.lexeme <;> simp [ScopeNote.ofRead, hr, Site.token]

theorem errorsOf_ofDeclaration (h : scopes.Matches Γ) (t : Token) :
    errorsOf (ScopeNote.ofDeclaration scopes t) = faultsOf [⟨.declaration t, Γ⟩] := by
  rw [faultsOf_cons', Site.fault?, h.declared]
  cases ht : scopes.isDeclared t.lexeme <;> simp [ScopeNote.ofDeclaration, ht, Site.token]

theorem errorsOf_ofParameters (params : List Token) : ∀ {scopes : Scopes} {Γ : Surroundings},
    scopes.Matches Γ → errorsOf (ScopeNote.ofParameters scopes params) =
      faultsOf (occurrencesOfParameters Γ params) := by
  induction params with
  | nil => exact fun _ => rfl
  | cons p rest ih =>
    intro scopes Γ h
    rw [ScopeNote.ofParameters, errorsOf_append, errorsOf_ofDeclaration h, ih (h.define p),
      occurrencesOfParameters, ← faultsOf_append]
    rfl

theorem errorsOf_ofSuperclass (h : scopes.Matches Γ) (hΓ : Γ.Settled) (t : Token)
    (r : Option Reference) :
    errorsOf (ScopeNote.ofSuperclass scopes t r) = faultsOf (Reference.occurrences Γ t r) := by
  cases r with
  | none => rfl
  | some r =>
    have hread := errorsOf_ofRead (fun x => (hΓ x).trans (h.complete x).symm) r
    rw [ScopeNote.ofSuperclass, errorsOf_append, hread, Reference.occurrences,
      faultsOf_cons' (.superclass r.name t), Site.fault?]
    by_cases hself : r.name.lexeme = t.lexeme <;> simp [hself, Site.token]

theorem errorsOf_returning (h : context.Matches Γ) (keyword : Token) (hasValue : Bool) :
    errorsOf (ScopeNote.errorIf (context.function == .none) keyword .returnOutsideFunction
      ++ ScopeNote.errorIf (hasValue && context.function == .initializer) keyword
        .valueFromInitializer) = faultsOf [⟨.returning keyword hasValue, Γ⟩] := by
  rw [faultsOf_cons', Site.fault?, h.function]
  cases hf : context.function <;> cases hasValue <;> simp [Site.token]

theorem errorsOf_jump (h : context.Matches Γ) (keyword : Token) (fault : ScopeFault) {site : Site}
    (ht : site.token = keyword) (hs : site.fault? Γ = if Γ.inLoop then none else some fault) :
    errorsOf (ScopeNote.errorIf (!context.inLoop) keyword fault) = faultsOf [⟨site, Γ⟩] := by
  rw [faultsOf_cons', ht, hs, h.inLoop]
  cases context.inLoop <;> simp

theorem errorsOf_receiver (h : context.Matches Γ) (scopes : Scopes) (keyword : Reference) :
    errorsOf ((Expr.receiver keyword).notes context scopes) =
      faultsOf [⟨.receiver keyword.name, Γ⟩] := by
  rw [faultsOf_cons', Site.fault?, h.derived, Expr.notes]
  cases context.classKind <;> simp [Site.token]

theorem errorsOf_inherited (h : context.Matches Γ) (scopes : Scopes) (keyword : Reference)
    (method : Token) : errorsOf ((Expr.inherited keyword method).notes context scopes) =
      faultsOf [⟨.inherited keyword.name, Γ⟩] := by
  rw [faultsOf_cons', Site.fault?, h.derived, Expr.notes]
  cases context.classKind <;> simp [Site.token]

end Errors

section Walk

mutual

/-- An expression's errors are the faults of its occurrences. -/
theorem Expr.errorsOf_notes {context : ScopeContext} {scopes : Scopes} {Γ : Surroundings}
    (hc : context.Matches Γ) (hs : ∀ x, Γ.inOwnInitializer x = scopes.isIncomplete x) : ∀ e : Expr,
    errorsOf (e.notes context scopes) = faultsOf (e.occurrences Γ)
  | .constant _ => rfl
  | .group e => e.errorsOf_notes hc hs
  | .unary _ e => e.errorsOf_notes hc hs
  | .binary l _ r | .logical l _ r => by
    rw [Expr.notes, errorsOf_append, l.errorsOf_notes hc hs, r.errorsOf_notes hc hs,
      ← faultsOf_append, Expr.occurrences]
  | .variable r => errorsOf_ofRead hs r
  | .assign r e => by
    rw [Expr.notes, errorsOf_append, e.errorsOf_notes hc hs, errorsOf_ofReference,
      List.append_nil, Expr.occurrences]
  | .call e _ es => by
    rw [Expr.notes, errorsOf_append, e.errorsOf_notes hc hs, Expr.errorsOf_notesOfAll hc hs es,
      ← faultsOf_append, Expr.occurrences]
  | .get e _ => e.errorsOf_notes hc hs
  | .set e _ v => by
    rw [Expr.notes, errorsOf_append, v.errorsOf_notes hc hs, e.errorsOf_notes hc hs,
      ← faultsOf_append, Expr.occurrences]
  | .receiver r => errorsOf_receiver hc scopes r
  | .inherited r method => errorsOf_inherited hc scopes r method

theorem Expr.errorsOf_notesOfAll {context : ScopeContext} {scopes : Scopes} {Γ : Surroundings}
    (hc : context.Matches Γ) (hs : ∀ x, Γ.inOwnInitializer x = scopes.isIncomplete x) :
    ∀ es : List Expr,
    errorsOf (Expr.notesOfAll context scopes es) = faultsOf (Expr.occurrencesOfAll Γ es)
  | [] => rfl
  | e :: rest => by
    rw [Expr.notesOfAll, errorsOf_append, e.errorsOf_notes hc hs,
      Expr.errorsOf_notesOfAll hc hs rest, ← faultsOf_append, Expr.occurrencesOfAll]

end

theorem Expr.errorsOf_notesOf? {context : ScopeContext} {scopes : Scopes} {Γ : Surroundings}
    (hc : context.Matches Γ) (hs : ∀ x, Γ.inOwnInitializer x = scopes.isIncomplete x) :
    ∀ e : Option Expr,
    errorsOf (Expr.notesOf? context scopes e) = faultsOf (Expr.occurrencesOf? Γ e)
  | none => rfl
  | some e => e.errorsOf_notes hc hs

/-- What analysis carries along fits the surroundings of a statement. -/
structure Tracks (context : ScopeContext) (scopes : Scopes) (Γ : Surroundings) : Prop where
  context : context.Matches Γ
  scopes : scopes.Matches Γ
  settled : Γ.Settled

namespace Tracks

variable {context : ScopeContext} {scopes : Scopes} {Γ : Surroundings}

theorem topLevel : Tracks .topLevel [] [] := ⟨.topLevel, .global, fun _ => rfl⟩

theorem incomplete (h : Tracks context scopes Γ) (x : String) :
    Γ.inOwnInitializer x = scopes.isIncomplete x := (h.settled x).trans (h.scopes.complete x).symm

theorem after (h : Tracks context scopes Γ) (s : Stmt) :
    Tracks context (scopes.after s) (Γ.after s) :=
  ⟨h.context.after s, h.scopes.after s, h.settled.after s⟩

theorem define (h : Tracks context scopes Γ) (t : Token) :
    Tracks context (scopes.define t.lexeme) (.declared t :: Γ) :=
  ⟨h.context.cons rfl rfl rfl, h.scopes.define t, h.settled.cons (by simp)⟩

theorem defineAll (params : List Token) : ∀ {scopes : Scopes} {Γ : Surroundings},
    Tracks context scopes Γ →
    Tracks context (params.foldl (fun scopes p => scopes.define p.lexeme) scopes)
      (params.foldl (fun Γ p => .declared p :: Γ) Γ) := by
  induction params with
  | nil => exact fun h => h
  | cons p rest ih => exact fun h => ih (h.define p)

theorem block (h : Tracks context scopes Γ) :
    Tracks context (Bindings.empty :: scopes) (.block :: Γ) :=
  ⟨h.context.cons rfl rfl rfl, .enter rfl, h.settled.cons (by simp)⟩

theorem loopBody (h : Tracks context scopes Γ) :
    Tracks { context with inLoop := true } scopes (.loopBody :: Γ) :=
  ⟨h.context.loopBody, h.scopes.loopBody, h.settled.cons (by simp)⟩

/-- The scopes outside of a function do not matter to what it declares. -/
theorem callable (hc : context.Matches Γ) (hΓ : Γ.Settled) {kind : FunctionContext}
    (hk : kind ≠ .none) (scopes : Scopes) :
    Tracks { context with function := kind, inLoop := false } (Bindings.empty :: scopes)
      (.callable kind :: Γ) :=
  ⟨hc.callable hk, .enter rfl, hΓ.cons (by simp)⟩

end Tracks

theorem FunctionDecl.methodContext_ne_none (f : FunctionDecl) : f.methodContext ≠ .none := by
  unfold FunctionDecl.methodContext
  split <;> simp

mutual

/-- A statement's errors are the faults of its occurrences. -/
theorem Stmt.errorsOf_notes {context : ScopeContext} {scopes : Scopes} {Γ : Surroundings}
    (h : Tracks context scopes Γ) : ∀ s : Stmt,
    errorsOf (s.notes context scopes) = faultsOf (s.occurrences Γ)
  | .expression e | .print e => e.errorsOf_notes h.context h.incomplete
  | .varDecl t e => by
    -- Analysis has declared the name already; for an expression it matters only as incomplete.
    have hinitializer := Expr.errorsOf_notesOf? (h.context.cons (e := .initializer t) rfl rfl rfl)
      (h.scopes.declare h.settled t) e
    rw [Stmt.notes, errorsOf_append, errorsOf_ofDeclaration h.scopes, hinitializer,
      ← faultsOf_append]
    rfl
  | .block body => Stmt.errorsOf_notesOfAll h.block body
  | .ifThen e s => by
    rw [Stmt.notes, errorsOf_append, e.errorsOf_notes h.context h.incomplete,
      s.errorsOf_notes h, ← faultsOf_append, Stmt.occurrences]
  | .ifElse e s t => by
    rw [Stmt.notes, errorsOf_append, errorsOf_append, e.errorsOf_notes h.context h.incomplete,
      s.errorsOf_notes h, t.errorsOf_notes h, ← faultsOf_append, ← faultsOf_append,
      Stmt.occurrences]
  | .loop e s i => by
    rw [Stmt.notes, errorsOf_append, errorsOf_append, e.errorsOf_notes h.context h.incomplete,
      s.errorsOf_notes h.loopBody, Expr.errorsOf_notesOf? h.context h.incomplete i,
      ← faultsOf_append, ← faultsOf_append, Stmt.occurrences]
  | .function f => by
    have hdecl := h.define f.name
    rw [Stmt.notes, errorsOf_append, errorsOf_ofDeclaration h.scopes,
      f.errorsOf_notes hdecl.context hdecl.settled FunctionContext.noConfusion,
      ← faultsOf_append]
    rfl
  | .classDecl t r methods => by
    have hdecl := h.define t
    rw [Stmt.notes, errorsOf_append, errorsOf_append, errorsOf_ofDeclaration h.scopes,
      errorsOf_ofSuperclass hdecl.scopes hdecl.settled,
      FunctionDecl.errorsOf_notesOfMethods (hdecl.context.classBody r.isSome)
        (hdecl.settled.cons (by simp)), ← faultsOf_append, ← faultsOf_append]
    rfl
  | .returning t e => by
    rw [Stmt.notes, errorsOf_append, errorsOf_returning h.context,
      Expr.errorsOf_notesOf? h.context h.incomplete e, ← faultsOf_append]
    rfl
  | .breaking t => errorsOf_jump h.context t .breakOutsideLoop rfl rfl
  | .continuing t => errorsOf_jump h.context t .continueOutsideLoop rfl rfl

theorem Stmt.errorsOf_notesOfAll {context : ScopeContext} {scopes : Scopes} {Γ : Surroundings}
    (h : Tracks context scopes Γ) : ∀ ss : List Stmt,
    errorsOf (Stmt.notesOfAll context scopes ss) = faultsOf (Stmt.occurrencesOfAll Γ ss)
  | [] => rfl
  | s :: rest => by
    rw [Stmt.notesOfAll, errorsOf_append, s.errorsOf_notes h,
      Stmt.errorsOf_notesOfAll (h.after s) rest, ← faultsOf_append, Stmt.occurrencesOfAll]

theorem FunctionDecl.errorsOf_notes {context : ScopeContext} {scopes : Scopes} {Γ : Surroundings}
    (hc : context.Matches Γ) (hΓ : Γ.Settled) {kind : FunctionContext} (hk : kind ≠ .none) :
    ∀ f : FunctionDecl,
    errorsOf (f.notes context kind scopes) = faultsOf (f.occurrences (.callable kind :: Γ))
  | .mk _ params body => by
    have h := Tracks.callable hc hΓ hk scopes
    rw [FunctionDecl.notes, errorsOf_append, errorsOf_ofParameters params h.scopes,
      Stmt.errorsOf_notesOfAll (h.defineAll params) body, ← faultsOf_append,
      FunctionDecl.occurrences]

theorem FunctionDecl.errorsOf_notesOfMethods {context : ScopeContext} {scopes : Scopes}
    {Γ : Surroundings} (hc : context.Matches Γ) (hΓ : Γ.Settled) : ∀ fs : List FunctionDecl,
    errorsOf (FunctionDecl.notesOfMethods context scopes fs) =
      faultsOf (FunctionDecl.occurrencesOfMethods Γ fs)
  | [] => rfl
  | f :: rest => by
    rw [FunctionDecl.notesOfMethods, errorsOf_append,
      f.errorsOf_notes hc hΓ f.methodContext_ne_none,
      FunctionDecl.errorsOf_notesOfMethods hc hΓ rest, ← faultsOf_append,
      FunctionDecl.occurrencesOfMethods]

end

end Walk

/-- Resolving a program reports exactly its static faults, in the order of the walk, so a program is
accepted if and only if none of its occurrences is at fault. -/
theorem resolves_exactly (s : Session) (program : List Stmt) :
    (s.resolve program).report = s.report.addAll ((staticFaults program).map ScopeError.diagnostic) ∧
      (Accepted (analyse program) ↔
        ∀ o ∈ Stmt.occurrencesOfAll [] program, o.site.fault? o.around = none) := by
  have herrors : (analyse program).filterMap ScopeNote.error? = staticFaults program :=
    Stmt.errorsOf_notesOfAll .topLevel program
  refine ⟨by rw [Session.resolve, herrors], ?_⟩
  rw [accepted_iff, herrors, staticFaults, List.filterMap_eq_nil_iff]
  simp [Occurrence.error?]

end Lox
