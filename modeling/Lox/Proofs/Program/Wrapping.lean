import Lox.Proofs.Program.Relabelling
import Lox.Proofs.Program.WellFormed

/-! Programs with blocks around the bodies of loops.

A loop need not keep its increment apart: the body and, behind it, the increment can stand in a
block that is the body of a loop without increment. Such a program has more scopes than the one it
was made from, so the occurrences in it are further from what they are bound to. The relation of the
two carries along which of the scopes around a part are there in both, and what the references of
the one have to do with those of the other is a parameter of it. -/

namespace Lox

/-- A scope that both programs have, or one that is made by a block around the body of a loop. -/
inductive Layer where
  | shared
  | wrapper
  deriving DecidableEq, Repr

/-- The scopes around a part of the wrapped program, the innermost first. -/
abbrev Layout := List Layer

namespace Layout

/-- The scope at a depth is further out by the wrappers in between. -/
def lift : Layout → Nat → Nat
  | [], depth => depth
  | .shared :: _, 0 => 0
  | .shared :: outer, depth + 1 => lift outer depth + 1
  | .wrapper :: outer, depth => lift outer depth + 1

/-- What belongs to the scopes, with something else in the places of the wrappers. -/
def spread {α : Type} (extra : α) : Layout → List α → List α
  | [], items => items
  | .shared :: _, [] => []
  | .shared :: outer, item :: items => item :: spread extra outer items
  | .wrapper :: outer, items => extra :: spread extra outer items

/-- The innermost scope is there in both programs, so that something can be declared in it. -/
def Open (p : Layout) : Prop := p.head? ≠ some .wrapper

@[simp] theorem open_nil : Open [] := by simp [Open]

@[simp] theorem open_shared (p : Layout) : Open (.shared :: p) := by simp [Open]

@[simp] theorem not_open_wrapper (p : Layout) : ¬Open (.wrapper :: p) := by simp [Open]

/-- Without wrappers nothing is moved. -/
theorem spread_shared {α : Type} {extra : α} {p : Layout} (h : ∀ layer ∈ p, layer = .shared)
    (items : List α) : p.spread extra items = items := by
  induction p generalizing items with
  | nil => rfl
  | cons layer outer ih =>
    obtain ⟨rfl, hrest⟩ := List.forall_mem_cons.mp h
    cases items with
    | nil => rfl
    | cons item items => rw [spread, ih hrest]

theorem map_spread {α β : Type} (f : α → β) (extra : α) (p : Layout) (items : List α) :
    (p.spread extra items).map f = p.spread (f extra) (items.map f) := by
  induction p generalizing items with
  | nil => rfl
  | cons layer outer ih =>
    cases layer with
    | shared =>
      cases items with
      | nil => rfl
      | cons item items => rw [spread, List.map_cons, ih, List.map_cons, spread]
    | wrapper => rw [spread, List.map_cons, ih, spread]

end Layout

/-- What is asked of two references at places of this layout; and of those for a superclass. -/
structure Links where
  name : Layout → Reference → Reference → Prop
  superclass : Layout → Reference → Reference → Prop

/-- References that are spelled alike. -/
def Links.spelled : Links where
  name _ r r' := r'.name = r.name
  superclass _ r r' := r'.name = r.name

/-- The parts of a program, and lists of them. -/
inductive Piece where
  | expr (e : Expr)
  | args (es : List Expr)
  | stmt (s : Stmt)
  | body (rest : List Stmt)
  | callable (kind : FunctionContext) (f : FunctionDecl)
  | methods (fs : List FunctionDecl)

/-- The second part is the first one with blocks around some bodies of loops, or around loops. Both
keep their tokens. The flag says whether a `continue` may belong to a loop further out. -/
inductive Wraps (L : Links) : Bool → Layout → Piece → Piece → Prop where
  | constant {k p v} : Wraps L k p (.expr (.constant v)) (.expr (.constant v))
  | group {k p e e'} : Wraps L k p (.expr e) (.expr e') →
    Wraps L k p (.expr (.group e)) (.expr (.group e'))
  | unary {k p t e e'} : Wraps L k p (.expr e) (.expr e') →
    Wraps L k p (.expr (.unary t e)) (.expr (.unary t e'))
  | binary {k p l t r l' r'} : Wraps L k p (.expr l) (.expr l') → Wraps L k p (.expr r) (.expr r') →
    Wraps L k p (.expr (.binary l t r)) (.expr (.binary l' t r'))
  | logical {k p l t r l' r'} : Wraps L k p (.expr l) (.expr l') →
    Wraps L k p (.expr r) (.expr r') →
    Wraps L k p (.expr (.logical l t r)) (.expr (.logical l' t r'))
  | variable {k p r r'} : L.name p r r' → Wraps L k p (.expr (.variable r)) (.expr (.variable r'))
  | assign {k p r e r' e'} : L.name p r r' → Wraps L k p (.expr e) (.expr e') →
    Wraps L k p (.expr (.assign r e)) (.expr (.assign r' e'))
  | call {k p e t es e' es'} : Wraps L k p (.expr e) (.expr e') →
    Wraps L k p (.args es) (.args es') →
    Wraps L k p (.expr (.call e t es)) (.expr (.call e' t es'))
  | get {k p e t e'} : Wraps L k p (.expr e) (.expr e') →
    Wraps L k p (.expr (.get e t)) (.expr (.get e' t))
  | set {k p e t v e' v'} : Wraps L k p (.expr e) (.expr e') → Wraps L k p (.expr v) (.expr v') →
    Wraps L k p (.expr (.set e t v)) (.expr (.set e' t v'))
  | receiver {k p r r'} : L.name p r r' → Wraps L k p (.expr (.receiver r)) (.expr (.receiver r'))
  | inherited {k p r t r'} : L.superclass p r r' →
    Wraps L k p (.expr (.inherited r t)) (.expr (.inherited r' t))
  | noArgs {k p} : Wraps L k p (.args []) (.args [])
  | moreArgs {k p e es e' es'} : Wraps L k p (.expr e) (.expr e') →
    Wraps L k p (.args es) (.args es') → Wraps L k p (.args (e :: es)) (.args (e' :: es'))
  | expression {k p e e'} : Wraps L k p (.expr e) (.expr e') →
    Wraps L k p (.stmt (.expression e)) (.stmt (.expression e'))
  | print {k p e e'} : Wraps L k p (.expr e) (.expr e') →
    Wraps L k p (.stmt (.print e)) (.stmt (.print e'))
  | varDecl {k p t} {i i' : Option Expr} : p.Open → Wraps L k p (.args i.toList) (.args i'.toList) →
    Wraps L k p (.stmt (.varDecl t i)) (.stmt (.varDecl t i'))
  | block {k p ss ss'} : Wraps L k (.shared :: p) (.body ss) (.body ss') →
    Wraps L k p (.stmt (.block ss)) (.stmt (.block ss'))
  | ifThen {k p e s e' s'} : Wraps L k p (.expr e) (.expr e') → Wraps L k p (.stmt s) (.stmt s') →
    Wraps L k p (.stmt (.ifThen e s)) (.stmt (.ifThen e' s'))
  | ifElse {k p e s u e' s' u'} : Wraps L k p (.expr e) (.expr e') →
    Wraps L k p (.stmt s) (.stmt s') → Wraps L k p (.stmt u) (.stmt u') →
    Wraps L k p (.stmt (.ifElse e s u)) (.stmt (.ifElse e' s' u'))
  | loop {k p e s e' s'} {i i' : Option Expr} : Wraps L k p (.expr e) (.expr e') →
    Wraps L true p (.stmt s) (.stmt s') → Wraps L k p (.args i.toList) (.args i'.toList) →
    Wraps L k p (.stmt (.loop e s i)) (.stmt (.loop e' s' i'))
  | wrapped {k p e s e' s'} {i i' : Option Expr} : Wraps L k p (.expr e) (.expr e') →
    Wraps L false (.wrapper :: p) (.stmt s) (.stmt s') →
    Wraps L k (.wrapper :: p) (.args i.toList) (.args i'.toList) →
    Wraps L k p (.stmt (.loop e s i))
      (.stmt (.loop e' (.block (s' :: i'.toList.map .expression)) none))
  | enclosed {k p e s i e' s' i'} :
    Wraps L k (.wrapper :: p) (.stmt (.loop e s i)) (.stmt (.loop e' s' i')) →
    Wraps L k p (.stmt (.loop e s i)) (.stmt (.block [.loop e' s' i']))
  | function {k p f f'} : p.Open → Wraps L true p (.callable .function f) (.callable .function f') →
    Wraps L k p (.stmt (.function f)) (.stmt (.function f'))
  | classDecl {k p t fs fs'} {r r' : Option Reference} : p.Open →
    Wraps L k p (.args (r.toList.map .variable)) (.args (r'.toList.map .variable)) →
    Wraps L true (.shared :: (r.toList.map fun _ => .shared) ++ p) (.methods fs) (.methods fs') →
    Wraps L k p (.stmt (.classDecl t r fs)) (.stmt (.classDecl t r' fs'))
  | returning {k p t} {v v' : Option Expr} : Wraps L k p (.args v.toList) (.args v'.toList) →
    Wraps L k p (.stmt (.returning t v)) (.stmt (.returning t v'))
  | breaking {k p t} : Wraps L k p (.stmt (.breaking t)) (.stmt (.breaking t))
  | continuing {p t} : Wraps L true p (.stmt (.continuing t)) (.stmt (.continuing t))
  | noStmts {k p} : Wraps L k p (.body []) (.body [])
  | moreStmts {k p s rest s' rest'} : Wraps L k p (.stmt s) (.stmt s') →
    Wraps L k p (.body rest) (.body rest') → Wraps L k p (.body (s :: rest)) (.body (s' :: rest'))
  | callable {p kind t params ss ss'} : Wraps L true (.shared :: p) (.body ss) (.body ss') →
    Wraps L true p (.callable kind (.mk t params ss)) (.callable kind (.mk t params ss'))
  | noMethods {p} : Wraps L true p (.methods []) (.methods [])
  | moreMethods {p f fs f' fs'} :
    Wraps L true p (.callable f.methodContext f) (.callable f.methodContext f') →
    Wraps L true p (.methods fs) (.methods fs') →
    Wraps L true p (.methods (f :: fs)) (.methods (f' :: fs'))

section Parts

variable {L M : Links} {k : Bool} {p : Layout} {x x' : Piece}

theorem Wraps.mono (hname : ∀ p r r', L.name p r r' → M.name p r r')
    (hsuper : ∀ p r r', L.superclass p r r' → M.superclass p r r') (h : Wraps L k p x x') :
    Wraps M k p x x' := by
  induction h with
  | «variable» h => exact .variable (hname _ _ _ h)
  | assign h _ ih => exact .assign (hname _ _ _ h) ih
  | receiver h => exact .receiver (hname _ _ _ h)
  | inherited h => exact .inherited (hsuper _ _ _ h)
  | loop _ _ _ ihe ihs ihi => exact .loop ihe ihs ihi
  | wrapped _ _ _ ihe ihs ihi => exact .wrapped ihe ihs ihi
  | enclosed _ ih => exact .enclosed ih
  | _ => constructor <;> assumption

/-- A function keeps its name and its parameters. -/
theorem Wraps.name_eq {kind : FunctionContext} {f f' : FunctionDecl}
    (h : Wraps L k p (.callable kind f) (.callable kind f')) :
    f'.name = f.name ∧ f'.params = f.params := by
  cases h
  exact ⟨rfl, rfl⟩

theorem Wraps.isInitializer_eq {kind : FunctionContext} {f f' : FunctionDecl}
    (h : Wraps L k p (.callable kind f) (.callable kind f')) :
    f'.isInitializer = f.isInitializer := by
  rw [FunctionDecl.isInitializer, h.name_eq.1, FunctionDecl.isInitializer]

/-- What declares a name declares it in both programs, in a scope that is there in both. -/
theorem Wraps.declared_eq {s s' : Stmt} (h : Wraps L k p (.stmt s) (.stmt s')) :
    s'.declared? = s.declared? ∧ (s.declared? ≠ none → p.Open) := by
  cases h with
  | varDecl hp _ | classDecl hp _ _ => exact ⟨rfl, fun _ => hp⟩
  | function hp hf => exact ⟨congrArg some hf.name_eq.1, fun _ => hp⟩
  | _ => exact ⟨rfl, fun h => absurd rfl h⟩

/-- Nothing is declared in a wrapper. -/
theorem Wraps.undeclared {s s' : Stmt} (h : Wraps L k (.wrapper :: p) (.stmt s) (.stmt s')) :
    s.declared? = none ∧ s'.declared? = none := by
  obtain ⟨hsame, hopen⟩ := h.declared_eq
  cases hd : s.declared? with
  | none => exact ⟨rfl, hsame.trans hd⟩
  | some t => exact absurd (hopen (by simp [hd])) (Layout.not_open_wrapper p)

theorem Wraps.isSome_eq {e e' : Option Expr} (h : Wraps L k p (.args e.toList) (.args e'.toList)) :
    e'.isSome = e.isSome := by
  cases e <;> cases e' <;> first | rfl | cases h

/-- A class wraps one with as many superclasses. -/
theorem Wraps.superclass_cases {r r' : Option Reference}
    (h : Wraps L k p (.args (r.toList.map .variable)) (.args (r'.toList.map .variable))) :
    (r = none ∧ r' = none) ∨ ∃ q q', r = some q ∧ r' = some q' ∧ L.name p q q' := by
  cases r <;> cases r'
  · exact .inl ⟨rfl, rfl⟩
  · cases h
  · cases h
  · obtain ⟨⟩ := h
    rename_i hr _
    obtain ⟨⟩ := hr
    exact .inr ⟨_, _, rfl, rfl, by assumption⟩

end Parts

mutual

/-- Whether a statement has a `continue` that belongs to a loop around it. -/
def Stmt.continues : Stmt → Bool
  | .block body => Stmt.anyContinues body
  | .ifThen _ consequent => consequent.continues
  | .ifElse _ consequent alternative => consequent.continues || alternative.continues
  | .continuing _ => true
  | _ => false

def Stmt.anyContinues : List Stmt → Bool
  | [] => false
  | s :: rest => s.continues || Stmt.anyContinues rest

end

section Same

variable {k : Bool} {p : Layout}

mutual

/-- A tree wraps itself, whatever the identities in it are. -/
theorem Expr.wraps_self : ∀ e e' : Expr, e.relabel .anonymous = e'.relabel .anonymous →
    Wraps .spelled k p (.expr e) (.expr e')
  | .constant _, e', h => by
    cases e' <;> simp only [relabel, Token.relabel_anonymous, constant.injEq, reduceCtorEq] at h
    exact h ▸ .constant
  | .group inner, e', h => by
    cases e' <;> simp only [relabel, Token.relabel_anonymous, group.injEq, reduceCtorEq] at h
    exact .group (inner.wraps_self _ h)
  | .unary t operand, e', h => by
    cases e' <;> simp only [relabel, Token.relabel_anonymous, unary.injEq, reduceCtorEq] at h
    obtain ⟨rfl, h⟩ := h
    exact .unary (operand.wraps_self _ h)
  | .binary left t right, e', h => by
    cases e' <;> simp only [relabel, Token.relabel_anonymous, binary.injEq, reduceCtorEq] at h
    obtain ⟨hl, rfl, hr⟩ := h
    exact .binary (left.wraps_self _ hl) (right.wraps_self _ hr)
  | .logical left t right, e', h => by
    cases e' <;> simp only [relabel, Token.relabel_anonymous, logical.injEq, reduceCtorEq] at h
    obtain ⟨hl, rfl, hr⟩ := h
    exact .logical (left.wraps_self _ hl) (right.wraps_self _ hr)
  | .variable r, e', h => by
    cases e' <;> simp only [relabel, Token.relabel_anonymous, variable.injEq, reduceCtorEq] at h
    exact .variable (Reference.name_of_anonymous h)
  | .assign r value, e', h => by
    cases e' <;> simp only [relabel, Token.relabel_anonymous, assign.injEq, reduceCtorEq] at h
    exact .assign (Reference.name_of_anonymous h.1) (value.wraps_self _ h.2)
  | .call callee t es, e', h => by
    cases e' <;> simp only [relabel, Token.relabel_anonymous, call.injEq, reduceCtorEq] at h
    obtain ⟨hc, rfl, ha⟩ := h
    exact .call (callee.wraps_self _ hc) (Expr.wraps_selves es _ ha)
  | .get object t, e', h => by
    cases e' <;> simp only [relabel, Token.relabel_anonymous, get.injEq, reduceCtorEq] at h
    obtain ⟨ho, rfl⟩ := h
    exact .get (object.wraps_self _ ho)
  | .set object t value, e', h => by
    cases e' <;> simp only [relabel, Token.relabel_anonymous, set.injEq, reduceCtorEq] at h
    obtain ⟨ho, rfl, hv⟩ := h
    exact .set (object.wraps_self _ ho) (value.wraps_self _ hv)
  | .receiver r, e', h => by
    cases e' <;> simp only [relabel, Token.relabel_anonymous, receiver.injEq, reduceCtorEq] at h
    exact .receiver (Reference.name_of_anonymous h)
  | .inherited r t, e', h => by
    cases e' <;> simp only [relabel, Token.relabel_anonymous, inherited.injEq, reduceCtorEq] at h
    obtain ⟨hr, rfl⟩ := h
    exact .inherited (Reference.name_of_anonymous hr)

theorem Expr.wraps_selves : ∀ es es' : List Expr,
    Expr.relabelAll .anonymous es = Expr.relabelAll .anonymous es' →
    Wraps .spelled k p (.args es) (.args es')
  | [], es', h => by
    cases es' <;> simp only [relabelAll, reduceCtorEq] at h
    exact .noArgs
  | e :: es, es', h => by
    cases es' <;> simp only [relabelAll, List.cons.injEq, reduceCtorEq] at h
    exact .moreArgs (e.wraps_self _ h.1) (Expr.wraps_selves es _ h.2)

end

theorem Expr.wraps_self? {e e' : Option Expr}
    (h : e.map (Expr.relabel .anonymous) = e'.map (Expr.relabel .anonymous)) :
    Wraps .spelled k p (.args e.toList) (.args e'.toList) := by
  cases e <;> cases e' <;> simp only [Option.map_none, Option.map_some, Option.some.injEq,
    reduceCtorEq] at h
  · exact .noArgs
  · exact .moreArgs (Expr.wraps_self _ _ h) .noArgs

theorem Expr.wraps_superclass {r r' : Option Reference}
    (h : r.map (Reference.relabel .anonymous) = r'.map (Reference.relabel .anonymous)) :
    Wraps .spelled k p (.args (r.toList.map .variable)) (.args (r'.toList.map .variable)) := by
  cases r <;> cases r' <;> simp only [Option.map_none, Option.map_some, Option.some.injEq,
    reduceCtorEq] at h
  · exact .noArgs
  · exact .moreArgs (.variable (Reference.name_of_anonymous h)) .noArgs

mutual

/-- A statement wraps itself where what it declares can be declared and what it goes on with can be
gone on with. -/
theorem Stmt.wraps_self {k : Bool} {p : Layout} : ∀ s s' : Stmt, s.WellFormed →
    (p.Open ∨ s.declared? = none) → (k = true ∨ s.continues = false) →
    s.relabel .anonymous = s'.relabel .anonymous → Wraps .spelled k p (.stmt s) (.stmt s')
  | .expression value, s', _, _, _, h => by
    cases s' <;> simp only [Stmt.relabel, Stmt.expression.injEq, reduceCtorEq] at h
    exact .expression (value.wraps_self _ h)
  | .print value, s', _, _, _, h => by
    cases s' <;> simp only [Stmt.relabel, Stmt.print.injEq, reduceCtorEq] at h
    exact .print (value.wraps_self _ h)
  | .varDecl t initializer, s', _, hp, _, h => by
    cases s' <;> simp only [Stmt.relabel, Token.relabel_anonymous, Stmt.varDecl.injEq,
      reduceCtorEq] at h
    obtain ⟨rfl, h⟩ := h
    exact .varDecl (hp.resolve_right nofun) (Expr.wraps_self? h)
  | .block body, s', hw, _, hk, h => by
    cases s' <;> simp only [Stmt.relabel, Stmt.block.injEq, reduceCtorEq] at h
    exact .block (Stmt.wraps_selves body _ hw (Layout.open_shared p) hk h)
  | .ifThen condition consequent, s', hw, _, hk, h => by
    cases s' <;> simp only [Stmt.relabel, Stmt.ifThen.injEq, reduceCtorEq] at h
    exact .ifThen (condition.wraps_self _ h.1)
      (consequent.wraps_self _ hw.2.1 (.inr hw.2.2) hk h.2)
  | .ifElse condition consequent alternative, s', hw, _, hk, h => by
    cases s' <;> simp only [Stmt.relabel, Stmt.ifElse.injEq, reduceCtorEq] at h
    obtain ⟨-, hc, hcd, ha, had⟩ := hw
    have hparts : (k = true ∨ consequent.continues = false) ∧
        (k = true ∨ alternative.continues = false) := by
      rw [Stmt.continues, Bool.or_eq_false_iff] at hk
      exact ⟨hk.imp_right And.left, hk.imp_right And.right⟩
    exact .ifElse (condition.wraps_self _ h.1)
      (consequent.wraps_self _ hc (.inr hcd) hparts.1 h.2.1)
      (alternative.wraps_self _ ha (.inr had) hparts.2 h.2.2)
  | .loop condition body increment, s', hw, _, _, h => by
    cases s' <;> simp only [Stmt.relabel, Stmt.loop.injEq, reduceCtorEq] at h
    exact .loop (condition.wraps_self _ h.1)
      (body.wraps_self _ hw.2.1 (.inr hw.2.2.1) (.inl rfl) h.2.1) (Expr.wraps_self? h.2.2)
  | .function decl, s', hw, hp, _, h => by
    cases s' <;> simp only [Stmt.relabel, Stmt.function.injEq, reduceCtorEq] at h
    exact .function (hp.resolve_right nofun) (decl.wraps_self _ hw h)
  | .classDecl t superclass methods, s', hw, hp, _, h => by
    cases s' <;> simp only [Stmt.relabel, Token.relabel_anonymous, Stmt.classDecl.injEq,
      reduceCtorEq] at h
    obtain ⟨rfl, hr, hm⟩ := h
    exact .classDecl (hp.resolve_right nofun) (Expr.wraps_superclass hr)
      (FunctionDecl.wraps_selves methods _ hw.2.2 hm)
  | .returning t value, s', _, _, _, h => by
    cases s' <;> simp only [Stmt.relabel, Token.relabel_anonymous, Stmt.returning.injEq,
      reduceCtorEq] at h
    obtain ⟨rfl, h⟩ := h
    exact .returning (Expr.wraps_self? h)
  | .breaking t, s', _, _, _, h => by
    cases s' <;> simp only [Stmt.relabel, Token.relabel_anonymous, Stmt.breaking.injEq,
      reduceCtorEq] at h
    exact h ▸ .breaking
  | .continuing t, s', _, _, hk, h => by
    cases s' <;> simp only [Stmt.relabel, Token.relabel_anonymous, Stmt.continuing.injEq,
      reduceCtorEq] at h
    obtain rfl := hk.resolve_right nofun
    exact h ▸ .continuing
termination_by structural s => s

theorem Stmt.wraps_selves {k : Bool} {p : Layout} : ∀ ss ss' : List Stmt, Stmt.AllWellFormed ss →
    p.Open → (k = true ∨ Stmt.anyContinues ss = false) →
    Stmt.relabelAll .anonymous ss = Stmt.relabelAll .anonymous ss' →
    Wraps .spelled k p (.body ss) (.body ss')
  | [], ss', _, _, _, h => by
    cases ss' <;> simp only [Stmt.relabelAll, reduceCtorEq] at h
    exact .noStmts
  | s :: ss, ss', hw, hp, hk, h => by
    cases ss' <;> simp only [Stmt.relabelAll, List.cons.injEq, reduceCtorEq] at h
    have hparts : (k = true ∨ s.continues = false) ∧
        (k = true ∨ Stmt.anyContinues ss = false) := by
      rw [Stmt.anyContinues, Bool.or_eq_false_iff] at hk
      exact ⟨hk.imp_right And.left, hk.imp_right And.right⟩
    exact .moreStmts (s.wraps_self _ hw.1 (.inl hp) hparts.1 h.1)
      (Stmt.wraps_selves ss _ hw.2 hp hparts.2 h.2)
termination_by structural ss => ss

theorem FunctionDecl.wraps_self {p : Layout} {kind : FunctionContext} :
    ∀ f f' : FunctionDecl, f.WellFormed → f.relabel .anonymous = f'.relabel .anonymous →
    Wraps .spelled true p (.callable kind f) (.callable kind f')
  | .mk t params body, .mk t' params' body', hw, h => by
    simp only [FunctionDecl.relabel, Token.relabel_anonymous, FunctionDecl.mk.injEq] at h
    obtain ⟨rfl, hparams, hbody⟩ := h
    obtain rfl : params = params' := by
      simpa [Relabelling.anonymous] using hparams
    exact .callable (Stmt.wraps_selves body _ hw.2.2 (Layout.open_shared p) (.inl rfl) hbody)
termination_by structural f => f

theorem FunctionDecl.wraps_selves {p : Layout} : ∀ fs fs' : List FunctionDecl,
    FunctionDecl.AllWellFormed fs →
    FunctionDecl.relabelAll .anonymous fs = FunctionDecl.relabelAll .anonymous fs' →
    Wraps .spelled true p (.methods fs) (.methods fs')
  | [], fs', _, h => by
    cases fs' <;> simp only [FunctionDecl.relabelAll, reduceCtorEq] at h
    exact .noMethods
  | f :: fs, fs', hw, h => by
    cases fs' <;> simp only [FunctionDecl.relabelAll, List.cons.injEq, reduceCtorEq] at h
    exact .moreMethods (f.wraps_self _ hw.1 h.1) (FunctionDecl.wraps_selves fs _ hw.2 h.2)
termination_by structural fs => fs

end

end Same

end Lox
