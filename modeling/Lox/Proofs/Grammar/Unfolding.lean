import Lox.Proofs.Grammar.Completeness.Statement
import Lox.Proofs.Program.Wrapping
import Lox.Proofs.Scope.Relabelling

/-! Loops that are written out.

A loop with a header of three parts is short for a block with its initializer and a loop without
increment, whose body is a block of the body and the increment. Where a statement in a program is
written out so, the program wraps the one that it was, whatever the identities of the nodes are. -/

namespace Lox

section Identities

variable {f : Relabelling}

theorem Token.isName_relabel (t : Token) : (t.relabel f).IsName ↔ t.IsName :=
  ⟨fun ⟨hk, hthis, hsuper⟩ => ⟨hk, hthis, hsuper⟩, fun ⟨hk, hthis, hsuper⟩ => ⟨hk, hthis, hsuper⟩⟩

mutual

theorem Expr.wellFormed_relabel : ∀ e : Expr, (e.relabel f).WellFormed ↔ e.WellFormed
  | .constant _ => Iff.rfl
  | .group inner => inner.wellFormed_relabel
  | .unary _ operand => and_congr Iff.rfl operand.wellFormed_relabel
  | .binary left _ right =>
    and_congr Iff.rfl (and_congr left.wellFormed_relabel right.wellFormed_relabel)
  | .logical left _ right => and_congr left.wellFormed_relabel right.wellFormed_relabel
  | .variable target => target.name.isName_relabel
  | .assign target value => and_congr target.name.isName_relabel value.wellFormed_relabel
  | .call callee _ arguments =>
    and_congr callee.wellFormed_relabel (Expr.allWellFormed_relabel arguments)
  | .get object _ => object.wellFormed_relabel
  | .set object _ value => and_congr object.wellFormed_relabel value.wellFormed_relabel
  | .receiver _ => Iff.rfl
  | .inherited _ _ => Iff.rfl

theorem Expr.allWellFormed_relabel : ∀ es : List Expr,
    Expr.AllWellFormed (Expr.relabelAll f es) ↔ Expr.AllWellFormed es
  | [] => Iff.rfl
  | e :: rest => and_congr e.wellFormed_relabel (Expr.allWellFormed_relabel rest)

end

theorem Expr.wellFormed_relabel? (e : Option Expr) :
    (∀ x ∈ e.map (Expr.relabel f), x.WellFormed) ↔ ∀ x ∈ e, x.WellFormed := by
  cases e <;> simp [Expr.wellFormed_relabel]

mutual

theorem Stmt.wellFormed_relabel : ∀ s : Stmt, (s.relabel f).WellFormed ↔ s.WellFormed
  | .expression value | .print value => value.wellFormed_relabel
  | .varDecl name initializer =>
    and_congr name.isName_relabel (Expr.wellFormed_relabel? initializer)
  | .block body => Stmt.allWellFormed_relabel body
  | .ifThen condition consequent => by
    simp only [Stmt.relabel, Stmt.WellFormed, condition.wellFormed_relabel,
      consequent.wellFormed_relabel, Stmt.declared?_relabel, Option.map_eq_none_iff]
  | .ifElse condition consequent alternative => by
    simp only [Stmt.relabel, Stmt.WellFormed, condition.wellFormed_relabel,
      consequent.wellFormed_relabel, alternative.wellFormed_relabel, Stmt.declared?_relabel,
      Option.map_eq_none_iff]
  | .loop condition body increment => by
    simp only [Stmt.relabel, Stmt.WellFormed, condition.wellFormed_relabel,
      body.wellFormed_relabel, Expr.wellFormed_relabel?, Stmt.declared?_relabel,
      Option.map_eq_none_iff]
  | .function decl => decl.wellFormed_relabel
  | .classDecl name superclass methods => by
    refine and_congr name.isName_relabel (and_congr ?_ (FunctionDecl.allWellFormed_relabel methods))
    cases superclass <;> simp [Token.isName_relabel]
  | .returning _ value => Expr.wellFormed_relabel? value
  | .breaking _ | .continuing _ => Iff.rfl

theorem Stmt.allWellFormed_relabel : ∀ ss : List Stmt,
    Stmt.AllWellFormed (Stmt.relabelAll f ss) ↔ Stmt.AllWellFormed ss
  | [] => Iff.rfl
  | s :: rest => and_congr s.wellFormed_relabel (Stmt.allWellFormed_relabel rest)

theorem FunctionDecl.wellFormed_relabel : ∀ d : FunctionDecl,
    (d.relabel f).WellFormed ↔ d.WellFormed
  | .mk name params body => by
    refine and_congr name.isName_relabel (and_congr ?_ (Stmt.allWellFormed_relabel body))
    simp [Token.isName_relabel]

theorem FunctionDecl.allWellFormed_relabel : ∀ ds : List FunctionDecl,
    FunctionDecl.AllWellFormed (FunctionDecl.relabelAll f ds) ↔ FunctionDecl.AllWellFormed ds
  | [] => Iff.rfl
  | d :: rest => and_congr d.wellFormed_relabel (FunctionDecl.allWellFormed_relabel rest)

end

mutual

theorem Stmt.continues_relabel : ∀ s : Stmt, (s.relabel f).continues = s.continues
  | .block body => Stmt.anyContinues_relabel body
  | .ifThen _ consequent => consequent.continues_relabel
  | .ifElse _ consequent alternative =>
    congrArg₂ or consequent.continues_relabel alternative.continues_relabel
  | .expression _ | .print _ | .varDecl .. | .loop .. | .function _ | .classDecl .. | .returning ..
  | .breaking _ | .continuing _ => rfl

theorem Stmt.anyContinues_relabel : ∀ ss : List Stmt,
    Stmt.anyContinues (Stmt.relabelAll f ss) = Stmt.anyContinues ss
  | [] => rfl
  | s :: rest => congrArg₂ or s.continues_relabel (Stmt.anyContinues_relabel rest)

end

end Identities

section Like

variable {p : Layout}

theorem Expr.wraps_like {k : Bool} {e y y' : Expr} (h : y.Like e) (h' : y'.Like e) :
    Wraps .spelled k p (.expr y) (.expr y') := y.wraps_self y' (h.trans h'.symm)

theorem Stmt.wraps_like {k : Bool} {s y y' : Stmt} (hw : s.WellFormed)
    (hp : p.Open ∨ s.declared? = none) (hk : k = true ∨ s.continues = false) (h : y.Like s)
    (h' : y'.Like s) : Wraps .spelled k p (.stmt y) (.stmt y') := by
  have hdeclared : y.declared?.map (Token.relabel .anonymous) =
      s.declared?.map (Token.relabel .anonymous) := by
    rw [← Stmt.declared?_relabel, h, Stmt.declared?_relabel]
  apply y.wraps_self y'
  · rw [← Stmt.wellFormed_relabel, h, Stmt.wellFormed_relabel]
    exact hw
  · exact hp.imp_right fun hs => by simpa [hs] using hdeclared
  · rw [← y.continues_relabel, h, s.continues_relabel]
    exact hk
  · exact h.trans h'.symm

theorem FunctionDecl.wraps_like {kind : FunctionContext} {d y y' : FunctionDecl}
    (hw : d.WellFormed) (h : y.relabel .anonymous = d.relabel .anonymous)
    (h' : y'.relabel .anonymous = d.relabel .anonymous) :
    Wraps .spelled true p (.callable kind y) (.callable kind y') := by
  apply y.wraps_self y'
  · rw [← FunctionDecl.wellFormed_relabel, h, FunctionDecl.wellFormed_relabel]
    exact hw
  · exact h.trans h'.symm

end Like

/-- Whatever their identities are, the second statement wraps the first where something can be
declared. -/
def Stmt.Unfolds (s s' : Stmt) : Prop :=
  ∀ (p : Layout) (y y' : Stmt), p.Open → y.Like s → y'.Like s' →
    Wraps .spelled true p (.stmt y) (.stmt y')

def Stmt.AllUnfold (ss ss' : List Stmt) : Prop :=
  ∀ (p : Layout) (ys ys' : List Stmt), p.Open →
    ys.map (Stmt.relabel .anonymous) = ss.map (Stmt.relabel .anonymous) →
    ys'.map (Stmt.relabel .anonymous) = ss'.map (Stmt.relabel .anonymous) →
    Wraps .spelled true p (.body ys) (.body ys')

def FunctionDecl.Unfolds (d d' : FunctionDecl) : Prop :=
  ∀ (p : Layout) (kind : FunctionContext) (y y' : FunctionDecl),
    y.relabel .anonymous = d.relabel .anonymous → y'.relabel .anonymous = d'.relabel .anonymous →
    Wraps .spelled true p (.callable kind y) (.callable kind y')

def FunctionDecl.AllUnfold (ds ds' : List FunctionDecl) : Prop :=
  ∀ (p : Layout) (ys ys' : List FunctionDecl),
    ys.map (FunctionDecl.relabel .anonymous) = ds.map (FunctionDecl.relabel .anonymous) →
    ys'.map (FunctionDecl.relabel .anonymous) = ds'.map (FunctionDecl.relabel .anonymous) →
    Wraps .spelled true p (.methods ys) (.methods ys')

section Lists

variable {L : Links} {k : Bool} {p : Layout}

theorem Wraps.snoc {ss ss' : List Stmt} {s s' : Stmt} (h : Wraps L k p (.body ss) (.body ss'))
    (hs : Wraps L k p (.stmt s) (.stmt s')) :
    Wraps L k p (.body (ss ++ [s])) (.body (ss' ++ [s'])) := by
  induction ss generalizing ss' with
  | nil =>
    cases h
    exact .moreStmts hs .noStmts
  | cons first rest ih =>
    cases h with
    | moreStmts hfirst hrest => exact .moreStmts hfirst (ih hrest)

theorem Wraps.snocMethod {fs fs' : List FunctionDecl} {f f' : FunctionDecl}
    (h : Wraps L true p (.methods fs) (.methods fs'))
    (hf : Wraps L true p (.callable f.methodContext f) (.callable f.methodContext f')) :
    Wraps L true p (.methods (fs ++ [f])) (.methods (fs' ++ [f'])) := by
  induction fs generalizing fs' with
  | nil =>
    cases h
    exact .moreMethods hf .noMethods
  | cons first rest ih =>
    cases h with
    | moreMethods hfirst hrest => exact .moreMethods hfirst (ih hrest)

theorem Stmt.AllUnfold.nil : Stmt.AllUnfold [] [] := by
  intro p ys ys' _ h h'
  rw [List.map_eq_nil_iff.mp h, List.map_eq_nil_iff.mp h']
  exact .noStmts

theorem Stmt.AllUnfold.snoc {ss ss' : List Stmt} {s s' : Stmt} (h : Stmt.AllUnfold ss ss')
    (hs : s.Unfolds s') : Stmt.AllUnfold (ss ++ [s]) (ss' ++ [s']) := by
  intro p ys ys' hp hy hy'
  rw [List.map_append, List.map_eq_append_iff] at hy hy'
  obtain ⟨rest, last, rfl, hrest, hlast⟩ := hy
  obtain ⟨rest', last', rfl, hrest', hlast'⟩ := hy'
  obtain ⟨y, rfl, hsame⟩ := List.map_eq_singleton_iff.mp hlast
  obtain ⟨y', rfl, hsame'⟩ := List.map_eq_singleton_iff.mp hlast'
  exact (h p rest rest' hp hrest hrest').snoc (hs p y y' hp hsame hsame')

theorem FunctionDecl.AllUnfold.nil : FunctionDecl.AllUnfold [] [] := by
  intro p ys ys' h h'
  rw [List.map_eq_nil_iff.mp h, List.map_eq_nil_iff.mp h']
  exact .noMethods

theorem FunctionDecl.AllUnfold.snoc {ds ds' : List FunctionDecl} {d d' : FunctionDecl}
    (h : FunctionDecl.AllUnfold ds ds') (hd : d.Unfolds d') :
    FunctionDecl.AllUnfold (ds ++ [d]) (ds' ++ [d']) := by
  intro p ys ys' hy hy'
  rw [List.map_append, List.map_eq_append_iff] at hy hy'
  obtain ⟨rest, last, rfl, hrest, hlast⟩ := hy
  obtain ⟨rest', last', rfl, hrest', hlast'⟩ := hy'
  obtain ⟨y, rfl, hsame⟩ := List.map_eq_singleton_iff.mp hlast
  obtain ⟨y', rfl, hsame'⟩ := List.map_eq_singleton_iff.mp hlast'
  exact (h p rest rest' hrest hrest').snocMethod (hd p y.methodContext y y' hsame hsame')

theorem Stmt.AllUnfold.refl {ss : List Stmt} (hw : Stmt.AllWellFormed ss) :
    Stmt.AllUnfold ss ss := by
  intro p ys ys' hp hy hy'
  rw [← Stmt.relabelAll_eq_map, ← Stmt.relabelAll_eq_map] at hy hy'
  apply Stmt.wraps_selves ys ys' _ hp (.inl rfl) (hy.trans hy'.symm)
  rw [← Stmt.allWellFormed_relabel, hy, Stmt.allWellFormed_relabel]
  exact hw

theorem FunctionDecl.AllUnfold.refl {ds : List FunctionDecl} (hw : FunctionDecl.AllWellFormed ds) :
    FunctionDecl.AllUnfold ds ds := by
  intro p ys ys' hy hy'
  rw [← FunctionDecl.relabelAll_eq_map, ← FunctionDecl.relabelAll_eq_map] at hy hy'
  apply FunctionDecl.wraps_selves ys ys' _ (hy.trans hy'.symm)
  rw [← FunctionDecl.allWellFormed_relabel, hy, FunctionDecl.allWellFormed_relabel]
  exact hw

end Lists

namespace Stmt.Unfolds

variable {s s' : Stmt}

theorem refl (hw : s.WellFormed) : s.Unfolds s :=
  fun _ _ _ hp h h' => Stmt.wraps_like hw (.inl hp) (.inl rfl) h h'

theorem of_like {t : Stmt} (h : s.Unfolds s') (ht : t.Like s) : t.Unfolds s' :=
  fun p y y' hp hy hy' => h p y y' hp (hy.trans ht) hy'

theorem block {ss ss' : List Stmt} (h : Stmt.AllUnfold ss ss') :
    (Stmt.block ss).Unfolds (.block ss') := by
  intro p y y' _ hy hy'
  cases y <;> simp only [Stmt.Like, Stmt.relabel, Stmt.relabelAll_eq_map, Stmt.block.injEq,
    reduceCtorEq] at hy
  cases y' <;> simp only [Stmt.Like, Stmt.relabel, Stmt.relabelAll_eq_map, Stmt.block.injEq,
    reduceCtorEq] at hy'
  exact .block (h _ _ _ (Layout.open_shared p) hy hy')

theorem ifThen {e : Expr} (h : s.Unfolds s') : (Stmt.ifThen e s).Unfolds (.ifThen e s') := by
  intro p y y' hp hy hy'
  cases y <;> simp only [Stmt.Like, Stmt.relabel, Stmt.ifThen.injEq, reduceCtorEq] at hy
  cases y' <;> simp only [Stmt.Like, Stmt.relabel, Stmt.ifThen.injEq, reduceCtorEq] at hy'
  exact .ifThen (Expr.wraps_like hy.1 hy'.1) (h p _ _ hp hy.2 hy'.2)

theorem ifElse {e : Expr} {t t' : Stmt} (h : s.Unfolds s') (h' : t.Unfolds t') :
    (Stmt.ifElse e s t).Unfolds (.ifElse e s' t') := by
  intro p y y' hp hy hy'
  cases y <;> simp only [Stmt.Like, Stmt.relabel, Stmt.ifElse.injEq, reduceCtorEq] at hy
  cases y' <;> simp only [Stmt.Like, Stmt.relabel, Stmt.ifElse.injEq, reduceCtorEq] at hy'
  exact .ifElse (Expr.wraps_like hy.1 hy'.1) (h p _ _ hp hy.2.1 hy'.2.1)
    (h' p _ _ hp hy.2.2 hy'.2.2)

theorem loop {e : Expr} {i : Option Expr} (h : s.Unfolds s') :
    (Stmt.loop e s i).Unfolds (.loop e s' i) := by
  intro p y y' hp hy hy'
  cases y <;> simp only [Stmt.Like, Stmt.relabel, Stmt.loop.injEq, reduceCtorEq] at hy
  cases y' <;> simp only [Stmt.Like, Stmt.relabel, Stmt.loop.injEq, reduceCtorEq] at hy'
  exact .loop (Expr.wraps_like hy.1 hy'.1) (h p _ _ hp hy.2.1 hy'.2.1)
    (Expr.wraps_self? (hy.2.2.trans hy'.2.2.symm))

theorem forLoop {i : Option Stmt} {c n : Option Expr} (hi : ∀ first ∈ i, first.WellFormed)
    (h : s.Unfolds s') : (Grammar.forLoop i c n s).Unfolds (Grammar.forLoop i c n s') := by
  cases i with
  | none => exact h.loop
  | some first => exact .block ((Stmt.AllUnfold.nil.snoc (.refl (hi first rfl))).snoc h.loop)

theorem function {d d' : FunctionDecl} (h : d.Unfolds d') :
    (Stmt.function d).Unfolds (.function d') := by
  intro p y y' hp hy hy'
  cases y <;> simp only [Stmt.Like, Stmt.relabel, Stmt.function.injEq, reduceCtorEq] at hy
  cases y' <;> simp only [Stmt.Like, Stmt.relabel, Stmt.function.injEq, reduceCtorEq] at hy'
  exact .function hp (h p .function _ _ hy hy')

theorem classDecl {name : Token} {r : Option Reference} {ds ds' : List FunctionDecl}
    (h : FunctionDecl.AllUnfold ds ds') :
    (Stmt.classDecl name r ds).Unfolds (.classDecl name r ds') := by
  intro p y y' hp hy hy'
  cases y <;> simp only [Stmt.Like, Stmt.relabel, Token.relabel_anonymous,
    FunctionDecl.relabelAll_eq_map, Stmt.classDecl.injEq, reduceCtorEq] at hy
  cases y' <;> simp only [Stmt.Like, Stmt.relabel, Token.relabel_anonymous,
    FunctionDecl.relabelAll_eq_map, Stmt.classDecl.injEq, reduceCtorEq] at hy'
  obtain ⟨rfl, hr, hd⟩ := hy
  obtain ⟨rfl, hr', hd'⟩ := hy'
  exact .classDecl hp (Expr.wraps_superclass (hr.trans hr'.symm)) (h _ _ _ hd hd')

end Stmt.Unfolds

theorem FunctionDecl.Unfolds.refl {d : FunctionDecl} (hw : d.WellFormed) : d.Unfolds d :=
  fun _ _ _ _ h h' => FunctionDecl.wraps_like hw h h'

theorem FunctionDecl.Unfolds.mk {name : Token} {params : List Token} {ss ss' : List Stmt}
    (h : Stmt.AllUnfold ss ss') :
    (FunctionDecl.mk name params ss).Unfolds (.mk name params ss') := by
  rintro p kind ⟨name', params', body⟩ ⟨name'', params'', body'⟩ hy hy'
  simp only [FunctionDecl.relabel, Token.relabel_anonymous, Token.map_relabel_anonymous,
    Stmt.relabelAll_eq_map, FunctionDecl.mk.injEq] at hy hy'
  obtain ⟨rfl, rfl, hbody⟩ := hy
  obtain ⟨rfl, rfl, hbody'⟩ := hy'
  exact .callable (h _ _ _ (Layout.open_shared p) hbody hbody')

namespace Grammar

/-- A loop written out: its initializer, if any, and a loop whose body ends in the increment. -/
def plainLoop (initializer : Option Stmt) (condition increment : Option Expr) (body : Stmt) :
    Stmt :=
  .block (initializer.toList ++ [.loop (condition.getD (.constant (.bool true)))
    (.block (body :: increment.toList.map .expression)) none])

end Grammar

section Loops

variable {k : Bool} {p : Layout} {e : Expr} {s : Stmt} {i : Option Expr}

/-- The increment moves into the body, where it is the last statement. -/
theorem Stmt.wraps_loop (hw : (Stmt.loop e s i).WellFormed) (hs : s.continues = false)
    {y y' : Stmt} (hy : y.Like (.loop e s i))
    (hy' : y'.Like (.loop e (.block (s :: i.toList.map .expression)) none)) :
    ∃ e₁ s₁ i₁ e₂ s₂ i₂, y = .loop e₁ s₁ i₁ ∧ y' = .loop e₂ s₂ i₂ ∧
      Wraps .spelled k p (.stmt (.loop e₁ s₁ i₁)) (.stmt (.loop e₂ s₂ i₂)) := by
  cases y <;> simp only [Stmt.Like, Stmt.relabel, Stmt.loop.injEq, reduceCtorEq] at hy
  rename_i e₁ s₁ i₁
  obtain ⟨he, hbody, hi⟩ := hy
  cases y' <;> simp only [Stmt.Like, Stmt.relabel, Stmt.loop.injEq, reduceCtorEq, Option.map_none,
    Option.map_eq_none_iff] at hy'
  rename_i e₂ block i₂
  obtain ⟨he', hblock, rfl⟩ := hy'
  cases block <;> simp only [Stmt.relabel, Stmt.relabelAll_eq_map, Stmt.block.injEq, reduceCtorEq,
    List.map_cons] at hblock
  obtain ⟨s₂, rest, rfl, hbody', hrest⟩ := List.map_eq_cons_iff.mp hblock
  obtain ⟨i₂, rfl, hi'⟩ : ∃ i₂ : Option Expr, rest = i₂.toList.map .expression ∧
      i₂.map (Expr.relabel .anonymous) = i.map (Expr.relabel .anonymous) := by
    cases i with
    | none => exact ⟨none, by simpa using hrest, rfl⟩
    | some n =>
      obtain ⟨last, rfl, hlast⟩ := List.map_eq_singleton_iff.mp hrest
      cases last <;> simp only [Stmt.relabel, Stmt.expression.injEq, reduceCtorEq] at hlast
      exact ⟨some _, rfl, congrArg some hlast⟩
  refine ⟨e₁, s₁, i₁, e₂, _, none, rfl, rfl, .wrapped (Expr.wraps_like he he') ?_
    (Expr.wraps_self? (hi.trans hi'.symm))⟩
  exact Stmt.wraps_like hw.2.1 (.inr hw.2.2.1) (.inr hs) hbody hbody'

theorem Stmt.Unfolds.plainLoop {i : Option Stmt} {c n : Option Expr}
    (hw : (Grammar.forLoop i c n s).WellFormed) (hs : s.continues = false) :
    (Grammar.forLoop i c n s).Unfolds (Grammar.plainLoop i c n s) := by
  intro p y y' hp hy hy'
  cases y' <;> simp only [Stmt.Like, Grammar.plainLoop, Stmt.relabel, Stmt.relabelAll_eq_map,
    Stmt.block.injEq, reduceCtorEq] at hy'
  cases i with
  | none =>
    obtain ⟨y', rfl, hsame'⟩ := List.map_eq_singleton_iff.mp hy'
    obtain ⟨e₁, s₁, i₁, e₂, s₂, i₂, rfl, rfl, hloop⟩ := Stmt.wraps_loop hw hs hy hsame'
    exact .enclosed hloop
  | some first =>
    cases y <;> simp only [Stmt.Like, Grammar.forLoop, Stmt.relabel, Stmt.relabelAll_eq_map,
      Stmt.block.injEq, reduceCtorEq] at hy
    obtain ⟨first₁, rest, rfl, hfirst, hrest⟩ := List.map_eq_cons_iff.mp hy
    obtain ⟨loop, rfl, hsame⟩ := List.map_eq_singleton_iff.mp hrest
    obtain ⟨first₂, rest', rfl, hfirst', hrest'⟩ := List.map_eq_cons_iff.mp hy'
    obtain ⟨loop', rfl, hsame'⟩ := List.map_eq_singleton_iff.mp hrest'
    obtain ⟨hwfirst, hwloop, -⟩ := hw
    obtain ⟨e₁, s₁, i₁, e₂, s₂, i₂, rfl, rfl, hloop⟩ := Stmt.wraps_loop hwloop hs hsame hsame'
    refine .block (.moreStmts ?_ (.moreStmts hloop .noStmts))
    exact Stmt.wraps_like hwfirst (.inl (Layout.open_shared p)) (.inl rfl) hfirst hfirst'

end Loops

end Lox
