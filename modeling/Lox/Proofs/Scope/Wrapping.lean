import Lox.Proofs.Program.Wrapping
import Lox.Proofs.Scope.Lookup

/-! Scopes in programs with blocks around the bodies of loops.

Nothing is declared in the scope of such a block, so it hides nothing and is never the one that a
name is found in. What analysis accepts of a program it accepts of the wrapped one, and the depths
that it records there are those of the program, further out by the blocks in between. -/

namespace Lox

section Scopes

variable {p : Layout} {scopes : Scopes} {x : String}

theorem depth?_spread (p : Layout) (scopes : Scopes) (x : String) :
    Scopes.depth? (p.spread Bindings.empty scopes) x = (scopes.depth? x).map p.lift := by
  induction p generalizing scopes with
  | nil => simp [Layout.spread, Layout.lift]
  | cons layer outer ih =>
    cases layer with
    | shared =>
      cases scopes with
      | nil => rfl
      | cons scope scopes =>
        rw [Layout.spread, depth?_cons, ih, depth?_cons]
        split
        · rfl
        · simp only [Option.map_map]
          rfl
    | wrapper =>
      have hempty : (Bindings.empty : Scope).contains x = false := rfl
      rw [Layout.spread, depth?_cons, ih, hempty, if_neg Bool.false_ne_true, Option.map_map]
      rfl

theorem isDeclared_spread (h : Scopes.isDeclared (p.spread Bindings.empty scopes) x = true) :
    scopes.isDeclared x = true := by
  cases p with
  | nil => exact h
  | cons layer outer =>
    cases layer with
    | shared => cases scopes <;> exact h
    | wrapper => cases h

theorem isIncomplete_spread (h : Scopes.isIncomplete (p.spread Bindings.empty scopes) x = true) :
    scopes.isIncomplete x = true := by
  cases p with
  | nil => exact h
  | cons layer outer =>
    cases layer with
    | shared => cases scopes <;> exact h
    | wrapper => cases h

section Declarations

variable (hp : p.Open) (scopes x)

include hp

theorem mark_spread (complete : Bool) :
    Scopes.mark complete x (p.spread Bindings.empty scopes) =
      p.spread Bindings.empty (scopes.mark complete x) := by
  cases p with
  | nil => rfl
  | cons layer outer =>
    cases layer with
    | shared => cases scopes <;> rfl
    | wrapper => exact absurd hp (Layout.not_open_wrapper _)

theorem define_spread : Scopes.define (p.spread Bindings.empty scopes) x =
    p.spread Bindings.empty (scopes.define x) := mark_spread scopes x hp true

theorem declare_spread : Scopes.declare (p.spread Bindings.empty scopes) x =
    p.spread Bindings.empty (scopes.declare x) := by
  have hdeclared : Scopes.isDeclared (p.spread Bindings.empty scopes) x = scopes.isDeclared x := by
    cases p with
    | nil => rfl
    | cons layer outer =>
      cases layer with
      | shared => cases scopes <;> rfl
      | wrapper => exact absurd hp (Layout.not_open_wrapper _)
  unfold Scopes.declare
  rw [hdeclared, mark_spread _ _ hp]
  split <;> rfl

end Declarations

theorem after_spread (scopes : Scopes) {s s' : Stmt} (hs : s'.declared? = s.declared?)
    (hp : s.declared? ≠ none → p.Open) :
    Scopes.after (p.spread Bindings.empty scopes) s' =
      p.spread Bindings.empty (scopes.after s) := by
  unfold Scopes.after
  rw [hs]
  cases hd : s.declared? with
  | none => rfl
  | some t => exact define_spread _ _ (hp (by simp [hd]))

/-- The parameters of a function concern its own scope only. -/
theorem ofParameters_eq (scope : Scope) (outer outer' : Scopes) (params : List Token) :
    ScopeNote.ofParameters (scope :: outer) params =
      ScopeNote.ofParameters (scope :: outer') params := by
  induction params generalizing scope with
  | nil => rfl
  | cons t rest ih =>
    rw [ScopeNote.ofParameters, ScopeNote.ofParameters]
    exact congrArg (ScopeNote.ofDeclaration (scope :: outer) t ++ ·) (ih _)

theorem defineAll_spread (params : List Token) (scope : Scope) (outer : Scopes) :
    params.foldl (fun (scopes : Scopes) t => scopes.define t.lexeme)
        (scope :: p.spread Bindings.empty outer) =
      Layout.spread Bindings.empty (.shared :: p)
        (params.foldl (fun (scopes : Scopes) t => scopes.define t.lexeme) (scope :: outer)) := by
  induction params generalizing scope with
  | nil => rfl
  | cons t rest ih => exact ih _

end Scopes

/-- The notes that analysis makes about a part. -/
def Piece.notes (context : ScopeContext) (scopes : Scopes) : Piece → List ScopeNote
  | .expr e => e.notes context scopes
  | .args es => Expr.notesOfAll context scopes es
  | .stmt s => s.notes context scopes
  | .body rest => Stmt.notesOfAll context scopes rest
  | .callable kind f => f.notes context kind scopes
  | .methods fs => FunctionDecl.notesOfMethods context scopes fs

/-- The one context allows what the other does, and may be inside of a loop besides. -/
structure ScopeContext.Within (c c' : ScopeContext) : Prop where
  function : c'.function = c.function
  classKind : c'.classKind = c.classKind
  inLoop : c.inLoop = true → c'.inLoop = true

theorem ScopeContext.Within.refl (c : ScopeContext) : c.Within c := ⟨rfl, rfl, id⟩

theorem ScopeContext.Within.loop {c c' : ScopeContext} (h : c.Within c') (k : Bool) :
    ScopeContext.Within { c with inLoop := k } { c' with inLoop := true } :=
  ⟨h.function, h.classKind, fun _ => rfl⟩

theorem ScopeContext.Within.jump {c c' : ScopeContext} (h : c.Within c')
    (hc : (!c.inLoop) = false) : (!c'.inLoop) = false := by
  have hloop := h.inLoop (by simpa using hc)
  simp [hloop]

@[simp] theorem accepted_nil : Accepted [] := fun _ => nofun

@[simp] theorem accepted_ofReference (scopes : Scopes) (r : Reference) :
    Accepted [ScopeNote.ofReference scopes r] := by
  simp [Accepted, ScopeNote.ofReference]

theorem notesOfAll_toList (context : ScopeContext) (scopes : Scopes) (e : Option Expr) :
    Expr.notesOfAll context scopes e.toList = Expr.notesOf? context scopes e := by
  cases e with
  | none => rfl
  | some e => exact List.append_nil _

section Acceptance

variable {L : Links} {k : Bool} {p : Layout} {x x' : Piece} {scopes : Scopes}

theorem accepted_ofRead_spread {r r' : Reference} (hname : r'.name = r.name)
    (h : Accepted (ScopeNote.ofRead scopes r)) :
    Accepted (ScopeNote.ofRead (p.spread Bindings.empty scopes) r') := by
  simp only [ScopeNote.ofRead, accepted_append, accepted_errorIf, accepted_ofReference, and_true,
    hname] at h ⊢
  exact Bool.eq_false_iff.mpr fun hi => Bool.eq_false_iff.mp h (isIncomplete_spread hi)

theorem accepted_ofDeclaration_spread {t : Token}
    (h : Accepted (ScopeNote.ofDeclaration scopes t)) :
    Accepted (ScopeNote.ofDeclaration (p.spread Bindings.empty scopes) t) := by
  rw [accepted_ofDeclaration] at h ⊢
  exact Bool.eq_false_iff.mpr fun hd => Bool.eq_false_iff.mp h (isDeclared_spread hd)

theorem notesOfAll_expressions (context : ScopeContext) (es : List Expr) :
    Stmt.notesOfAll context scopes (es.map .expression) = Expr.notesOfAll context scopes es := by
  induction es with
  | nil => rfl
  | cons e rest ih =>
    rw [List.map_cons, Stmt.notesOfAll, Expr.notesOfAll]
    exact congrArg (e.notes context scopes ++ ·) ih

/-- A loop with a block for its body, in which nothing is declared. -/
theorem accepted_wrapped {c : ScopeContext} {e : Expr} {s : Stmt} {i : Option Expr}
    (hs : s.declared? = none) (he : Accepted (e.notes c (p.spread Bindings.empty scopes)))
    (hbody : Accepted (s.notes { c with inLoop := true }
      (Layout.spread Bindings.empty (.wrapper :: p) scopes)))
    (hi : Accepted (Expr.notesOfAll { c with inLoop := true }
      (Layout.spread Bindings.empty (.wrapper :: p) scopes) i.toList)) :
    Accepted ((Stmt.loop e (.block (s :: i.toList.map .expression)) none).notes c
      (p.spread Bindings.empty scopes)) := by
  have hafter : Scopes.after (Layout.spread Bindings.empty (.wrapper :: p) scopes) s =
      Layout.spread Bindings.empty (.wrapper :: p) scopes := by
    rw [Scopes.after, hs]
  have hblock : Accepted (Stmt.notesOfAll { c with inLoop := true }
      (Layout.spread Bindings.empty (.wrapper :: p) scopes)
      (s :: i.toList.map .expression)) := by
    rw [Stmt.notesOfAll, hafter, notesOfAll_expressions, accepted_append]
    exact ⟨hbody, hi⟩
  exact (accepted_append _ _).mpr ⟨(accepted_append _ _).mpr ⟨he, hblock⟩, accepted_nil⟩

/-- What analysis accepts of a part, it accepts of the wrapped one. -/
theorem Wraps.accepted (h : Wraps .spelled k p x x') : ∀ {c c' : ScopeContext} {scopes : Scopes},
    c.Within c' → Accepted (x.notes c scopes) →
    Accepted (x'.notes c' (p.spread Bindings.empty scopes)) := by
  induction h with
  | constant | noArgs | noStmts | noMethods => exact fun _ _ => accepted_nil
  | group _ ih | unary _ ih | get _ ih | expression _ ih | print _ ih => exact fun hc ha => ih hc ha
  | binary _ _ ihl ihr | logical _ _ ihl ihr | call _ _ ihl ihr | moreArgs _ _ ihl ihr
  | ifThen _ _ ihl ihr =>
    intro c c' scopes hc ha
    obtain ⟨hl, hr⟩ := (accepted_append _ _).mp ha
    exact (accepted_append _ _).mpr ⟨ihl hc hl, ihr hc hr⟩
  | «variable» hr => exact fun _ ha => accepted_ofRead_spread hr ha
  | assign hr _ ih =>
    intro c c' scopes hc ha
    exact (accepted_append _ _).mpr
      ⟨ih hc ((accepted_append _ _).mp ha).1, accepted_ofReference _ _⟩
  | set _ _ iho ihv =>
    intro c c' scopes hc ha
    obtain ⟨hv, ho⟩ := (accepted_append _ _).mp ha
    exact (accepted_append _ _).mpr ⟨ihv hc hv, iho hc ho⟩
  | receiver hr =>
    intro c c' scopes hc ha
    simp only [Piece.notes, Expr.notes, hc.classKind] at ha ⊢
    split at ha
    · exact absurd (List.mem_singleton_self _) (ha _)
    · rename_i hclass
      rw [if_neg hclass]
      exact accepted_ofReference _ _
  | inherited hr =>
    intro c c' scopes hc ha
    simp only [Piece.notes, Expr.notes, hc.classKind, accepted_append, accepted_errorIf,
      accepted_ofReference] at ha ⊢
    exact ha
  | varDecl hp _ ih =>
    intro c c' scopes hc ha
    obtain ⟨hd, hi⟩ := (accepted_append _ _).mp ha
    refine (accepted_append _ _).mpr ⟨accepted_ofDeclaration_spread hd, ?_⟩
    rw [declare_spread _ _ hp, ← notesOfAll_toList]
    rw [← notesOfAll_toList] at hi
    exact ih hc hi
  | block _ ih => exact fun hc ha => ih hc ha
  | ifElse _ _ _ ihe ihs ihu =>
    intro c c' scopes hc ha
    simp only [Piece.notes, Stmt.notes, accepted_append] at ha ⊢
    exact ⟨⟨ihe hc ha.1.1, ihs hc ha.1.2⟩, ihu hc ha.2⟩
  | loop _ _ _ ihe ihs ihi =>
    intro c c' scopes hc ha
    simp only [Piece.notes, Stmt.notes, accepted_append, ← notesOfAll_toList] at ha ⊢
    exact ⟨⟨ihe hc ha.1.1, ihs (hc.loop true) ha.1.2⟩, ihi hc ha.2⟩
  | wrapped _ hs _ ihe ihs ihi =>
    intro c c' scopes hc ha
    simp only [Piece.notes, Stmt.notes, accepted_append, ← notesOfAll_toList] at ha
    obtain ⟨⟨he, hbody⟩, hi⟩ := ha
    -- In the block the increment stands in a loop, which is nothing to an expression.
    have hinside : c.Within { c' with inLoop := true } :=
      ⟨hc.function, hc.classKind, fun _ => rfl⟩
    exact accepted_wrapped hs.undeclared.2 (ihe hc he) (ihs (hc.loop true) hbody) (ihi hinside hi)
  | enclosed _ ih =>
    intro c c' scopes hc ha
    exact (accepted_append _ _).mpr ⟨ih hc ha, accepted_nil⟩
  | function hp hf ih =>
    intro c c' scopes hc ha
    obtain ⟨hd, hi⟩ := (accepted_append _ _).mp ha
    refine (accepted_append _ _).mpr ⟨?_, ?_⟩
    · rw [hf.name_eq.1]
      exact accepted_ofDeclaration_spread hd
    · rw [hf.name_eq.1, define_spread _ _ hp]
      exact ih hc hi
  | @classDecl k p t fs fs' r r' hp hr _ ihr ihm =>
    intro c c' scopes hc ha
    simp only [Piece.notes, Stmt.notes, accepted_append, define_spread _ _ hp] at ha ⊢
    obtain ⟨⟨hd, hsuper⟩, hmethods⟩ := ha
    refine ⟨⟨accepted_ofDeclaration_spread hd, ?_⟩, ?_⟩
    · rcases hr.superclass_cases with ⟨rfl, rfl⟩ | ⟨q, q', rfl, rfl, hname⟩
      · exact accepted_nil
      · obtain ⟨hself, hread⟩ := (accepted_append _ _).mp hsuper
        refine (accepted_append _ _).mpr ⟨?_, accepted_ofRead_spread hname hread⟩
        rwa [hname]
    · have hclass (kind : ClassContext) : ScopeContext.Within { c with classKind := kind }
          { c' with classKind := kind } := ⟨hc.function, rfl, hc.inLoop⟩
      rcases hr.superclass_cases with ⟨rfl, rfl⟩ | ⟨q, q', rfl, rfl, -⟩ <;>
        exact ihm (hclass _) hmethods
  | returning hv ih =>
    intro c c' scopes hc ha
    simp only [Piece.notes, Stmt.notes, accepted_append, accepted_errorIf, ← notesOfAll_toList,
      hc.function, hv.isSome_eq] at ha ⊢
    exact ⟨ha.1, ih hc ha.2⟩
  | breaking =>
    intro c c' scopes hc ha
    simp only [Piece.notes, Stmt.notes, accepted_errorIf] at ha ⊢
    exact hc.jump ha
  | continuing =>
    intro c c' scopes hc ha
    simp only [Piece.notes, Stmt.notes, accepted_errorIf] at ha ⊢
    exact hc.jump ha
  | moreStmts hs _ ihs ihrest =>
    intro c c' scopes hc ha
    obtain ⟨hfirst, hrest⟩ := (accepted_append _ _).mp ha
    obtain ⟨hd, hp⟩ := hs.declared_eq
    refine (accepted_append _ _).mpr ⟨ihs hc hfirst, ?_⟩
    rw [after_spread _ hd hp]
    exact ihrest hc hrest
  | @callable p kind t params ss ss' _ ih =>
    intro c c' scopes hc ha
    obtain ⟨hparams, hbody⟩ := (accepted_append _ _).mp ha
    refine (accepted_append _ _).mpr ⟨?_, ?_⟩
    · rw [ofParameters_eq _ _ scopes]
      exact hparams
    · rw [defineAll_spread]
      have hinner : ScopeContext.Within { c with function := kind, inLoop := false }
          { c' with function := kind, inLoop := false } :=
        ⟨rfl, hc.classKind, fun h => absurd h Bool.false_ne_true⟩
      exact ih hinner hbody
  | moreMethods hf _ ihf ihfs =>
    intro c c' scopes hc ha
    obtain ⟨hfirst, hrest⟩ := (accepted_append _ _).mp ha
    refine (accepted_append _ _).mpr ⟨?_, ihfs hc hrest⟩
    rw [FunctionDecl.methodContext, hf.isInitializer_eq]
    exact ihf hc hfirst

end Acceptance

/-- The place in the wrapped program has the same scopes with those of the wrappers in between. -/
structure Place.Wraps (p : Layout) (Γ Γ' : Place) : Prop where
  opens : Γ'.opens = p.spread ⟨.block, []⟩ Γ.opens
  underway : Γ'.underway = Γ.underway
  settled : Γ.underway ≠ none → p.Open

namespace Place.Wraps

variable {p : Layout} {Γ Γ' : Place}

theorem scopes (h : Γ.Wraps p Γ') : Γ'.scopes = p.spread Bindings.empty Γ.scopes := by
  have hnames : Γ'.opens.map OpenScope.names =
      p.spread Bindings.empty (Γ.opens.map OpenScope.names) := by
    rw [h.opens, Layout.map_spread]
    rfl
  cases hu : Γ.underway with
  | none => rw [scopes_of_settled hu, scopes_of_settled (h.underway.trans hu), hnames]
  | some u =>
    have hp := h.settled (by simp [hu])
    have hu' := h.underway.trans hu
    obtain ⟨t, readable⟩ := u
    cases readable with
    | true => simp only [Place.scopes, hu, hu', hnames, define_spread _ _ hp]
    | false => simp only [Place.scopes, hu, hu', hnames, declare_spread _ _ hp]

theorem define (h : Γ.Wraps p Γ') (hp : p.Open) (t : Token) :
    (Γ.define t).Wraps p (Γ'.define t) := by
  refine ⟨?_, h.underway, fun _ => hp⟩
  have hopens := h.opens
  cases p with
  | nil =>
    have hsame : Γ'.opens = Γ.opens := hopens
    simp only [Place.define, hsame]
    rfl
  | cons layer outer =>
    cases layer with
    | wrapper => exact absurd hp (Layout.not_open_wrapper _)
    | shared =>
      cases hs : Γ.opens with
      | nil =>
        rw [hs] at hopens
        simp only [Place.define, hs, show Γ'.opens = [] from hopens]
        rfl
      | cons s rest =>
        rw [hs] at hopens
        have hcons : Γ'.opens = s :: Layout.spread ⟨.block, []⟩ outer rest := hopens
        simp only [Place.define, hs, hcons]
        rfl

theorem after (h : Γ.Wraps p Γ') {s s' : Stmt} (hs : s'.declared? = s.declared?)
    (hp : s.declared? ≠ none → p.Open) : (Γ.after s).Wraps p (Γ'.after s') := by
  unfold Place.after
  rw [hs]
  cases hd : s.declared? with
  | none => exact h
  | some t => exact h.define (hp (by simp [hd])) t

theorem declaring (h : Γ.Wraps p Γ') (hp : p.Open) (t : Token) (readable : Bool) :
    (Γ.declaring t readable).Wraps p (Γ'.declaring t readable) := ⟨h.opens, rfl, fun _ => hp⟩

theorem inLoop (h : Γ.Wraps p Γ') : Γ.inLoop.Wraps p Γ'.inLoop := ⟨h.opens, h.underway, h.settled⟩

theorem inBlock (h : Γ.Wraps p Γ') : Γ.inBlock.Wraps (.shared :: p) Γ'.inBlock :=
  ⟨congrArg (List.cons (⟨.block, []⟩ : OpenScope)) h.opens, h.underway,
    fun _ => Layout.open_shared p⟩

theorem inWrapper (h : Γ.Wraps p Γ') (hu : Γ.underway = none) :
    Γ.Wraps (.wrapper :: p) Γ'.inBlock :=
  ⟨congrArg (List.cons (⟨.block, []⟩ : OpenScope)) h.opens, h.underway, fun hne => absurd hu hne⟩

theorem inBody (h : Γ.Wraps p Γ') (kind : FunctionContext) {f f' : FunctionDecl}
    (hf : f'.params = f.params) :
    (Γ.inBody kind f).Wraps (.shared :: p) (Γ'.inBody kind f') := by
  refine ⟨?_, h.underway, fun _ => Layout.open_shared p⟩
  rw [Place.inBody, Place.inBody, FunctionDecl.scope, hf, h.opens]
  rfl

theorem inClass (h : Γ.Wraps p Γ') {r r' : Option Reference} (hr : r'.isSome = r.isSome) :
    (Γ.inClass r).Wraps (.shared :: (r.toList.map fun _ => .shared) ++ p) (Γ'.inClass r') := by
  refine ⟨?_, h.underway, fun _ => Layout.open_shared _⟩
  cases r <;> cases r' <;> simp only [Option.isSome_none, Option.isSome_some, reduceCtorEq] at hr
  · exact congrArg (OpenScope.receiver :: ·) h.opens
  · exact congrArg (OpenScope.receiver :: OpenScope.superclass :: ·) h.opens

end Place.Wraps

/-- A part of an accepted program, with the table of depths and the identities drawn by then. -/
structure Node.Placed (d : Depths) (drawn : Nat) (Γ : Place) (n : Node) : Prop where
  standing : n.Standing d Γ
  below : ∀ m ∈ n.nodes, m.index < drawn

theorem Node.Placed.part {d : Depths} {drawn : Nat} {Γ Δ : Place} {n m : Node}
    (h : n.Placed d drawn Γ) (hp : Node.Part Γ n Δ m) : m.Placed d drawn Δ :=
  ⟨h.standing.part hp, fun i hi => h.below i (hp.nodes hi)⟩

def Piece.Placed (d : Depths) (drawn : Nat) (Γ : Place) : Piece → Prop
  | .expr e => (Node.expr e).Placed d drawn Γ
  | .args es => ∀ e ∈ es, (Node.expr e).Placed d drawn Γ
  | .stmt s => (Node.stmt s).Placed d drawn Γ
  | .body rest => (Node.body rest).Placed d drawn Γ
  | .callable kind f => (Node.callable kind f).Placed d drawn Γ
  | .methods fs => ∀ f ∈ fs, (Node.callable f.methodContext f).Placed d drawn Γ

namespace Node.Placed

variable {d : Depths} {drawn : Nat} {Γ : Place}

theorem initializer {t : Token} {i : Option Expr}
    (h : (Node.stmt (.varDecl t i)).Placed d drawn Γ) :
    (Piece.args i.toList).Placed d drawn (Γ.declaring t false) := by
  cases i with
  | none => exact List.forall_mem_nil _
  | some e => exact List.forall_mem_singleton.mpr (h.part .initializer)

theorem increment {e : Expr} {s : Stmt} {i : Option Expr}
    (h : (Node.stmt (.loop e s i)).Placed d drawn Γ) : (Piece.args i.toList).Placed d drawn Γ := by
  cases i with
  | none => exact List.forall_mem_nil _
  | some e => exact List.forall_mem_singleton.mpr (h.part .increment)

theorem returned {t : Token} {v : Option Expr} (h : (Node.stmt (.returning t v)).Placed d drawn Γ) :
    (Piece.args v.toList).Placed d drawn Γ := by
  cases v with
  | none => exact List.forall_mem_nil _
  | some e => exact List.forall_mem_singleton.mpr (h.part .returned)

theorem superclass {t : Token} {r : Option Reference} {fs : List FunctionDecl}
    (h : (Node.stmt (.classDecl t r fs)).Placed d drawn Γ) :
    (Piece.args (r.toList.map .variable)).Placed d drawn (Γ.declaring t true) := by
  cases r with
  | none => exact List.forall_mem_nil _
  | some r => exact List.forall_mem_singleton.mpr (h.part .superclass)

/-- An increment that stands behind the body of its loop. -/
theorem expressions {i : Option Expr}
    (h : (Node.body (i.toList.map .expression)).Placed d drawn Γ) :
    (Piece.args i.toList).Placed d drawn Γ := by
  cases i with
  | none => exact List.forall_mem_nil _
  | some e => exact List.forall_mem_singleton.mpr ((h.part .first).part .expression)

end Node.Placed

/-- The tables of depths and the counters of a program and of its wrapped one. -/
structure Tables where
  depths : Depths
  next : Nat
  depths' : Depths
  next' : Nat

/-- The references have one name, and the second one is as far out as the wrappers require. -/
structure Tables.Linked (w : Tables) (p : Layout) (r r' : Reference) : Prop where
  name : r'.name = r.name
  below : r.node.index < w.next
  below' : r'.node.index < w.next'
  depth : w.depths'.get? r'.node = (w.depths.get? r.node).map p.lift

/-- No wrapper stands between the scopes of a superclass and of the receiver. -/
def Tables.links (w : Tables) : Links where
  name := w.Linked
  superclass p r r' := w.Linked p r r' ∧
    ∃ depth, w.depths.get? r.node = some (depth + 1) ∧ p.lift (depth + 1) = p.lift depth + 1

section Depths

variable {α : Type} {extra a : α}

theorem Layout.lift_succ_ne_zero (p : Layout) (depth : Nat) : p.lift (depth + 1) ≠ 0 := by
  cases p with
  | nil => exact Nat.succ_ne_zero depth
  | cons layer outer => cases layer <;> exact Nat.succ_ne_zero _

theorem Layout.spread_before_first (p : Layout) : ∀ {items : List α} {j : Nat},
    p.lift 0 = j + 1 → (p.spread extra items)[j]? = some extra := by
  induction p with
  | nil => exact fun h => absurd h.symm (Nat.succ_ne_zero _)
  | cons layer outer ih =>
    intro items j h
    cases layer with
    | shared => exact absurd h.symm (Nat.succ_ne_zero _)
    | wrapper =>
      have hlift : lift outer 0 = j := Nat.succ.inj h
      cases j with
      | zero => rfl
      | succ j => exact ih hlift

/-- What is right inside of a scope in the wrapped program is so in the program, unless it is a
wrapper. -/
theorem Layout.lift_of_succ (ha : a ≠ extra) (p : Layout) : ∀ {items : List α} {i j : Nat},
    p.lift (i + 1) = j + 1 → (p.spread extra items)[j]? = some a → p.lift i = j := by
  induction p with
  | nil => exact fun h _ => Nat.succ.inj h
  | cons layer outer ih =>
    intro items i j h hj
    cases layer with
    | shared =>
      have hlift : lift outer i = j := Nat.succ.inj h
      cases items with
      | nil => cases hj
      | cons item items =>
        cases i with
        | zero =>
          cases j with
          | zero => rfl
          | succ j =>
            have hextra : (spread extra outer items)[j]? = some extra :=
              spread_before_first outer hlift
            exact absurd (Option.some.inj (hj.symm.trans hextra)) ha
        | succ i =>
          cases j with
          | zero => exact absurd hlift (lift_succ_ne_zero outer i)
          | succ j => exact congrArg (· + 1) (ih hlift hj)
    | wrapper =>
      have hlift : lift outer (i + 1) = j := Nat.succ.inj h
      cases j with
      | zero => exact absurd hlift (lift_succ_ne_zero outer i)
      | succ j => exact congrArg (· + 1) (ih hlift hj)

end Depths

section Links

variable {w : Tables} {k : Bool} {p : Layout} {x x' : Piece} {Γ Γ' : Place}

/-- What an occurrence is bound to, by the note about it. -/
theorem Tables.Linked.of_bound {n n' : Node} (hn : n.Placed w.depths w.next Γ)
    (hn' : n'.Placed w.depths' w.next' Γ') (hΓ : Γ.Wraps p Γ') {r r' : Reference}
    (hname : r'.name = r.name) (hr : r.node ∈ n.nodes) (hr' : r'.node ∈ n'.nodes)
    (hb : ScopeNote.ofReference Γ.scopes r ∈ n.notes Γ)
    (hb' : ScopeNote.ofReference Γ'.scopes r' ∈ n'.notes Γ') : w.Linked p r r' := by
  have hdepth : w.depths.get? r.node = Γ.scopes.depth? r.name.lexeme := hn.standing.holds _ hb
  have hdepth' : w.depths'.get? r'.node = Γ'.scopes.depth? r'.name.lexeme :=
    hn'.standing.holds _ hb'
  refine ⟨hname, hn.below _ hr, hn'.below _ hr', ?_⟩
  rw [hdepth, hdepth', hname, hΓ.scopes, depth?_spread]

theorem Tables.Linked.of_variable {r r' : Reference} (hname : r'.name = r.name)
    (hn : (Node.expr (.variable r)).Placed w.depths w.next Γ)
    (hn' : (Node.expr (.variable r')).Placed w.depths' w.next' Γ') (hΓ : Γ.Wraps p Γ') :
    w.Linked p r r' :=
  .of_bound hn hn' hΓ hname (.head _) (.head _)
    (List.mem_append_right _ (.head _)) (List.mem_append_right _ (.head _))

theorem Tables.Linked.of_assign {r r' : Reference} {e e' : Expr} (hname : r'.name = r.name)
    (hn : (Node.expr (.assign r e)).Placed w.depths w.next Γ)
    (hn' : (Node.expr (.assign r' e')).Placed w.depths' w.next' Γ') (hΓ : Γ.Wraps p Γ') :
    w.Linked p r r' :=
  .of_bound hn hn' hΓ hname (.head _) (.head _)
    (List.mem_append_right _ (.head _)) (List.mem_append_right _ (.head _))

theorem Place.Wraps.nearest? (h : Γ.Wraps p Γ') (x : String) :
    (nearest? x Γ'.opens).map Prod.fst = ((nearest? x Γ.opens).map Prod.fst).map p.lift := by
  rw [← depth?_names, ← depth?_names, h.opens, Layout.map_spread, ← depth?_spread]
  rfl

theorem Tables.Linked.of_receiver {r r' : Reference} (hname : r'.name = r.name)
    (hn : (Node.expr (.receiver r)).Placed w.depths w.next Γ)
    (hn' : (Node.expr (.receiver r')).Placed w.depths' w.next' Γ') (hΓ : Γ.Wraps p Γ') :
    w.Linked p r r' := by
  obtain ⟨i, hi, hdepth⟩ := hn.standing.depth_of_receiver
  obtain ⟨i', hi', hdepth'⟩ := hn'.standing.depth_of_receiver
  refine ⟨hname, hn.below _ (.head _), hn'.below _ (.head _), ?_⟩
  have hnear := hΓ.nearest? "this"
  rw [hi, hi'] at hnear
  rw [hdepth, hdepth']
  exact hnear

theorem Tables.Linked.of_inherited {r r' : Reference} {t t' : Token} (hname : r'.name = r.name)
    (hn : (Node.expr (.inherited r t)).Placed w.depths w.next Γ)
    (hn' : (Node.expr (.inherited r' t')).Placed w.depths' w.next' Γ') (hΓ : Γ.Wraps p Γ') :
    w.links.superclass p r r' := by
  obtain ⟨i, hi, -, -, hdepth⟩ := hn.standing.depth_of_inherited
  obtain ⟨i', hi', hreceiver, -, hdepth'⟩ := hn'.standing.depth_of_inherited
  have hnear := hΓ.nearest? "super"
  rw [hi, hi'] at hnear
  have hlift : p.lift (i + 1) = i' + 1 := (Option.some.inj hnear).symm
  rw [hΓ.opens] at hreceiver
  refine ⟨⟨hname, hn.below _ (.head _), hn'.below _ (.head _), ?_⟩, i, hdepth, ?_⟩
  · rw [hdepth, hdepth', Option.map_some, hlift]
  · rw [hlift, Layout.lift_of_succ (by decide) p hlift hreceiver]

/-- In accepted programs, references that are spelled alike are linked. -/
theorem Wraps.linked (h : Wraps .spelled k p x x') : ∀ {Γ Γ' : Place}, Γ.Wraps p Γ' →
    x.Placed w.depths w.next Γ → x'.Placed w.depths' w.next' Γ' → Wraps w.links k p x x' := by
  induction h with
  | constant => exact fun _ _ _ => .constant
  | group _ ih => exact fun hΓ hx hx' => .group (ih hΓ (hx.part .inner) (hx'.part .inner))
  | unary _ ih => exact fun hΓ hx hx' => .unary (ih hΓ (hx.part .operand) (hx'.part .operand))
  | binary _ _ ihl ihr =>
    exact fun hΓ hx hx' => .binary (ihl hΓ (hx.part .left) (hx'.part .left))
      (ihr hΓ (hx.part .right) (hx'.part .right))
  | logical _ _ ihl ihr =>
    exact fun hΓ hx hx' => .logical (ihl hΓ (hx.part .logicalLeft) (hx'.part .logicalLeft))
      (ihr hΓ (hx.part .logicalRight) (hx'.part .logicalRight))
  | «variable» hr => exact fun hΓ hx hx' => .variable (.of_variable hr hx hx' hΓ)
  | assign hr _ ih =>
    exact fun hΓ hx hx' => .assign (.of_assign hr hx hx' hΓ)
      (ih hΓ (hx.part .value) (hx'.part .value))
  | call _ _ ihe ihes =>
    exact fun hΓ hx hx' => .call (ihe hΓ (hx.part .callee) (hx'.part .callee))
      (ihes hΓ (fun _ ha => hx.part (.argument ha)) fun _ ha => hx'.part (.argument ha))
  | get _ ih => exact fun hΓ hx hx' => .get (ih hΓ (hx.part .object) (hx'.part .object))
  | set _ _ iho ihv =>
    exact fun hΓ hx hx' => .set (iho hΓ (hx.part .setObject) (hx'.part .setObject))
      (ihv hΓ (hx.part .setValue) (hx'.part .setValue))
  | receiver hr => exact fun hΓ hx hx' => .receiver (.of_receiver hr hx hx' hΓ)
  | inherited hr => exact fun hΓ hx hx' => .inherited (Tables.Linked.of_inherited hr hx hx' hΓ)
  | noArgs => exact fun _ _ _ => .noArgs
  | moreArgs _ _ ihe ihes =>
    intro Γ Γ' hΓ hx hx'
    obtain ⟨he, hes⟩ := List.forall_mem_cons.mp hx
    obtain ⟨he', hes'⟩ := List.forall_mem_cons.mp hx'
    exact .moreArgs (ihe hΓ he he') (ihes hΓ hes hes')
  | expression _ ih =>
    exact fun hΓ hx hx' => .expression (ih hΓ (hx.part .expression) (hx'.part .expression))
  | print _ ih => exact fun hΓ hx hx' => .print (ih hΓ (hx.part .printed) (hx'.part .printed))
  | varDecl hp _ ih =>
    exact fun hΓ hx hx' =>
      .varDecl hp (ih (hΓ.declaring hp _ false) hx.initializer hx'.initializer)
  | block _ ih => exact fun hΓ hx hx' => .block (ih hΓ.inBlock (hx.part .block) (hx'.part .block))
  | ifThen _ _ ihe ihs =>
    exact fun hΓ hx hx' => .ifThen (ihe hΓ (hx.part .thenCondition) (hx'.part .thenCondition))
      (ihs hΓ (hx.part .thenBranch) (hx'.part .thenBranch))
  | ifElse _ _ _ ihe ihs ihu =>
    exact fun hΓ hx hx' => .ifElse (ihe hΓ (hx.part .elseCondition) (hx'.part .elseCondition))
      (ihs hΓ (hx.part .consequent) (hx'.part .consequent))
      (ihu hΓ (hx.part .alternative) (hx'.part .alternative))
  | loop _ _ _ ihe ihs ihi =>
    exact fun hΓ hx hx' => .loop (ihe hΓ (hx.part .condition) (hx'.part .condition))
      (ihs hΓ.inLoop (hx.part .repeated) (hx'.part .repeated)) (ihi hΓ hx.increment hx'.increment)
  | @wrapped k p e s e' s' i i' _ hs _ ihe ihs ihi =>
    intro Γ Γ' hΓ hx hx'
    have hu : Γ.underway = none := hx.standing.settled
    have hbody := (hx'.part .repeated).part .block
    have hincrement := hbody.part .rest
    rw [Place.after_eq_self hs.undeclared.2] at hincrement
    have hinner : Γ.Wraps (.wrapper :: p) Γ'.inLoop.inBlock :=
      ⟨(hΓ.inWrapper hu).opens, hΓ.underway, fun hne => absurd hu hne⟩
    exact .wrapped (ihe hΓ (hx.part .condition) (hx'.part .condition))
      (ihs (hΓ.inLoop.inWrapper hu) (hx.part .repeated) (hbody.part .first))
      (ihi hinner hx.increment hincrement.expressions)
  | enclosed _ ih =>
    intro Γ Γ' hΓ hx hx'
    exact .enclosed (ih (hΓ.inWrapper hx.standing.settled) hx ((hx'.part .block).part .first))
  | @function k p f f' hp hf ih =>
    intro Γ Γ' hΓ hx hx'
    have hfunction := hx'.part .function
    rw [hf.name_eq.1] at hfunction
    exact .function hp (ih (hΓ.define hp f.name) (hx.part .function) hfunction)
  | @classDecl k p t fs fs' r r' hp hr _ ihr ihfs =>
    intro Γ Γ' hΓ hx hx'
    have hsuper : r'.isSome = r.isSome := by
      rcases hr.superclass_cases with ⟨rfl, rfl⟩ | ⟨_, _, rfl, rfl, -⟩ <;> rfl
    exact .classDecl hp (ihr (hΓ.declaring hp t true) hx.superclass hx'.superclass)
      (ihfs ((hΓ.define hp t).inClass hsuper) (fun _ hf => hx.part (.method hf))
        fun _ hf => hx'.part (.method hf))
  | returning _ ih => exact fun hΓ hx hx' => .returning (ih hΓ hx.returned hx'.returned)
  | breaking => exact fun _ _ _ => .breaking
  | continuing => exact fun _ _ _ => .continuing
  | noStmts => exact fun _ _ _ => .noStmts
  | moreStmts hs _ ihs ihrest =>
    intro Γ Γ' hΓ hx hx'
    obtain ⟨hd, hp⟩ := hs.declared_eq
    exact .moreStmts (ihs hΓ (hx.part .first) (hx'.part .first))
      (ihrest (hΓ.after hd hp) (hx.part .rest) (hx'.part .rest))
  | @callable p kind t params ss ss' _ ih =>
    intro Γ Γ' hΓ hx hx'
    exact .callable (ih (hΓ.inBody kind rfl) (hx.part .inside) (hx'.part .inside))
  | noMethods => exact fun _ _ _ => .noMethods
  | @moreMethods p f fs f' fs' hf _ ihf ihfs =>
    intro Γ Γ' hΓ hx hx'
    obtain ⟨hfirst, hrest⟩ := List.forall_mem_cons.mp hx
    obtain ⟨hfirst', hrest'⟩ := List.forall_mem_cons.mp hx'
    have hkind : f'.methodContext = f.methodContext := by
      rw [FunctionDecl.methodContext, hf.isInitializer_eq, FunctionDecl.methodContext]
    exact .moreMethods (ihf hΓ hfirst (hkind ▸ hfirst')) (ihfs hΓ hrest hrest')

end Links

end Lox
