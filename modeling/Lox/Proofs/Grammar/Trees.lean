import Lox.Proofs.Grammar.Productions
import Lox.Proofs.Program.WellFormed
import Lox.Program.Nodes
import Mathlib.Data.List.Perm.Subperm

/-! The trees that reading builds.

Every tree read from sound tokens is well-formed, and the nodes in it are among those drawn while
it was read, each drawn once. Some that are drawn are dropped again: a variable that turns out to
be the target of an assignment is replaced by an occurrence of its own. -/

namespace Lox

/-- Nodes that were drawn between two counts, each of them once. -/
structure Drawn (lo hi : Nat) (nodes : List NodeId) : Prop where
  nodup : nodes.Nodup
  range : ∀ n ∈ nodes, lo ≤ n.index ∧ n.index < hi

theorem Drawn.nil (lo hi : Nat) : Drawn lo hi [] := ⟨List.nodup_nil, by simp⟩

theorem Drawn.append {lo mid hi : Nat} {xs ys : List NodeId} (hx : Drawn lo mid xs)
    (hy : Drawn mid hi ys) (hlo : lo ≤ mid) (hhi : mid ≤ hi) : Drawn lo hi (xs ++ ys) where
  nodup := by
    refine List.nodup_append.mpr ⟨hx.nodup, hy.nodup, fun a ha b hb hab => ?_⟩
    have := (hx.range a ha).2
    have := (hy.range b hb).1
    subst hab
    omega
  range n hn := by
    rcases List.mem_append.mp hn with h | h
    · have := hx.range n h
      omega
    · have := hy.range n h
      omega

theorem Drawn.subperm {lo hi : Nat} {xs ys : List NodeId} (h : Drawn lo hi ys)
    (hs : xs.Subperm ys) : Drawn lo hi xs := by
  obtain ⟨zs, hz, hsub⟩ := hs
  exact ⟨hz.nodup_iff.mp (hsub.nodup h.nodup),
    fun n hn => h.range n (hsub.subset (hz.mem_iff.mpr hn))⟩

/-- All that can still be read is sound. -/
structure Cursor.Sound (c : Cursor) : Prop where
  pending : ∀ t ∈ c.pending, t.Sound
  finish : c.finish.Sound

theorem Cursor.Sound.after {c d : Cursor} (h : c.Sound) (hr : c.ReadsTo d) : d.Sound :=
  ⟨fun t ht => h.pending t (hr.pending.subset ht), hr.finish ▸ h.finish⟩

theorem Cursor.Sound.peek {c : Cursor} (h : c.Sound) : c.peek.Sound := by
  unfold Cursor.peek
  cases hc : c.pending with
  | nil => exact h.finish
  | cons t rest => exact h.pending t (by simp [hc])

namespace Parser

variable {α β : Type}

/-- What holds of every result and the nodes that were drawn for it. -/
def Builds (Q : α → List NodeId → Prop) (p : Parser α) : Prop :=
  ∀ (c d : Cursor) (a : α), c.Sound → p c = (some a, d) →
    c.ReadsTo d ∧ ∃ nodes, Drawn c.nextNode d.nextNode nodes ∧ Q a nodes

namespace Builds

variable {Q : α → List NodeId → Prop} {R : β → List NodeId → Prop} {p q : Parser α}
  {g : α → Parser β}

theorem of_reads (h : Reads p) (hq : ∀ c d a, c.Sound → p c = (some a, d) → Q a []) :
    Builds Q p := by
  intro c d a hc hd
  have hr := h.reads c
  rw [hd] at hr
  exact ⟨hr, [], .nil _ _, hq c d a hc hd⟩

theorem pure {a : α} (h : Q a []) : Builds Q (pure a) :=
  of_reads (.pure a) fun _ _ _ _ hd => Option.some.inj (Prod.mk.inj hd).1 ▸ h

theorem bind (h : Builds Q p)
    (hg : ∀ a nodes, Q a nodes → Builds (fun b more => R b (nodes ++ more)) (g a)) :
    Builds R (p >>= g) := by
  intro c d b hc hd
  obtain ⟨a, e, ha, hb⟩ := bind_eq_some.mp hd
  obtain ⟨hr, xs, hx, hqx⟩ := h c e a hc ha
  obtain ⟨hr', ys, hy, hry⟩ := hg a xs hqx e d b (hc.after hr) hb
  exact ⟨hr.trans hr', xs ++ ys, hx.append hy hr.nextNode hr'.nextNode, hry⟩

theorem weaken {Q' : α → List NodeId → Prop} (h : Builds Q p)
    (hq : ∀ a nodes, Q a nodes → Q' a nodes) : Builds Q' p := by
  intro c d a hc hd
  obtain ⟨hr, xs, hx, hqx⟩ := h c d a hc hd
  exact ⟨hr, xs, hx, hq a xs hqx⟩

/-- Goes on after a parser that draws no nodes. -/
theorem read {P : β → Prop} {u : Parser β} {g : β → Parser α}
    (h : Builds (fun b nodes => P b ∧ nodes = []) u) (hg : ∀ b, P b → Builds Q (g b)) :
    Builds Q (u >>= g) :=
  h.bind fun b nodes ⟨hb, hn⟩ => by simpa [hn] using hg b hb

/-- Goes on after a parser whose result does not matter. -/
theorem skip {u : Parser β} {g : β → Parser α} (h : Reads u) (hg : ∀ b, Builds Q (g b)) :
    Builds Q (u >>= g) :=
  (of_reads (Q := fun _ nodes => True ∧ nodes = []) h fun _ _ _ _ _ => ⟨trivial, rfl⟩).read
    fun b _ => hg b

theorem ite (b : Prop) [Decidable b] (hp : Builds Q p) (hq : Builds Q q) :
    Builds Q (if b then p else q) := by
  split
  · exact hp
  · exact hq

theorem fail (fault : ParseFault) : Builds Q (Parser.fail fault) := by
  intro c d a _ hd
  cases hd

theorem peek : Builds (fun t nodes => t.Sound ∧ nodes = []) Parser.peek :=
  of_reads .peek fun _ _ _ hc hd => ⟨Option.some.inj (Prod.mk.inj hd).1 ▸ hc.peek, rfl⟩

theorem acceptIf? (wanted : TokenKind → Bool) :
    Builds (fun t nodes => (∀ u ∈ t, u.Sound ∧ wanted u.kind = true) ∧ nodes = [])
      (Parser.acceptIf? wanted) :=
  of_reads (.acceptIf? wanted) fun c d t hc hd => by
    refine ⟨fun u hu => ?_, rfl⟩
    obtain rfl := Option.mem_def.mp hu
    obtain ⟨hw, hp, -⟩ := acceptIf?_eq_some hd
    exact ⟨hc.pending u (by simp [hp]), hw⟩

theorem expect (e : Expectation) :
    Builds (fun t nodes => (t.Sound ∧ t.kind = e.kind) ∧ nodes = []) (Parser.expect e) :=
  of_reads (.expect e) fun c d t hc hd => by
    obtain ⟨hk, hp, -⟩ := expect_eq_some hd
    exact ⟨⟨hc.pending t (by simp [hp]), hk⟩, rfl⟩

theorem freshNode : Builds (fun n nodes => nodes = [n]) Parser.freshNode := by
  intro c d n _ hd
  obtain ⟨hn, rfl⟩ := Prod.mk.inj hd
  obtain rfl := Option.some.inj hn
  exact ⟨Reads.freshNode.reads c, [⟨c.nextNode⟩],
    ⟨by simp, by simp⟩, rfl⟩

theorem recovering (h : Builds Q p) (hr : Reads p) :
    Builds (fun a? nodes => ∀ a ∈ a?, Q a nodes) (Parser.recovering p) := by
  intro c d a? hc hd
  have hrd := hr.recovering.reads c
  rw [hd] at hrd
  refine ⟨hrd, ?_⟩
  unfold Parser.recovering at hd
  have hp := h c
  generalize p c = r at hd hp
  rcases r with ⟨_ | a, e⟩
  · obtain ⟨ha, -⟩ := Prod.mk.inj hd
    obtain rfl := Option.some.inj ha
    exact ⟨[], .nil _ _, by simp⟩
  · obtain ⟨ha, rfl⟩ := Prod.mk.inj hd
    obtain rfl := Option.some.inj ha
    obtain ⟨-, xs, hx, hqx⟩ := hp e a hc rfl
    exact ⟨xs, hx, fun b hb => Option.mem_some.mp hb ▸ hqx⟩

/-- A loop keeps what every turn keeps; the last turn leaves the result as it is. -/
theorem iterate {I : α → List NodeId → Prop} {next : α → Parser (Option α)}
    (hn : ∀ a nodes, I a nodes → Builds (fun b more => I (b.getD a) (nodes ++ more)) (next a))
    {a : α} {nodes : List NodeId} (ha : I a nodes) :
    Builds (fun b more => I b (nodes ++ more)) (Parser.iterate next a) := by
  have hupTo : ∀ (n : Nat) (a : α) (nodes : List NodeId), I a nodes →
      Builds (fun b more => I b (nodes ++ more)) (Parser.iterateUpTo n next a) := by
    intro n
    induction n with
    | zero => exact fun a nodes ha => .pure (by simpa using ha)
    | succ n ih =>
      intro a nodes ha
      refine (hn a nodes ha).bind fun b? more hb => ?_
      cases b? with
      | none => exact .pure (by simpa using hb)
      | some b => simpa using ih b _ hb
  refine (hn a nodes ha).bind fun b? more hb => ?_
  cases b? with
  | none => exact .pure (by simpa using hb)
  | some b =>
    intro c d b' hc hd
    simpa using hupTo _ b _ hb c d b' hc hd

end Builds

end Parser

theorem Expr.nodesOfAll_append (xs ys : List Expr) :
    Expr.nodesOfAll (xs ++ ys) = Expr.nodesOfAll xs ++ Expr.nodesOfAll ys := by
  induction xs with
  | nil => rfl
  | cons e rest ih => simp [Expr.nodesOfAll, ih]

theorem Stmt.nodesOfAll_append (xs ys : List Stmt) :
    Stmt.nodesOfAll (xs ++ ys) = Stmt.nodesOfAll xs ++ Stmt.nodesOfAll ys := by
  induction xs with
  | nil => rfl
  | cons s rest ih => simp [Stmt.nodesOfAll, ih]

theorem FunctionDecl.nodesOfAll_append (xs ys : List FunctionDecl) :
    FunctionDecl.nodesOfAll (xs ++ ys) =
      FunctionDecl.nodesOfAll xs ++ FunctionDecl.nodesOfAll ys := by
  induction xs with
  | nil => rfl
  | cons f rest ih => simp [FunctionDecl.nodesOfAll, ih]

namespace Grammar

open Lox.Parser

/-- Of a tree that was built, and of the nodes that were drawn meanwhile. -/
structure Built (wellFormed : Prop) (own nodes : List NodeId) : Prop where
  wellFormed : wellFormed
  among : own.Subperm nodes

abbrev BuiltExpr (e : Expr) : List NodeId → Prop := Built e.WellFormed e.nodes

variable {nested : Parser Expr}

theorem builds_primary (h : Builds BuiltExpr nested) : Builds BuiltExpr (primary nested) := by
  refine Builds.peek.read fun t ht => ?_
  split
  · exact .skip .advance fun _ => .pure ⟨trivial, List.nil_subperm⟩
  · exact .skip .advance fun _ => .pure ⟨trivial, List.nil_subperm⟩
  · exact .skip .advance fun _ => .pure ⟨trivial, List.nil_subperm⟩
  · exact .skip .advance fun _ => .pure ⟨trivial, List.nil_subperm⟩
  · exact .skip .advance fun _ => .pure ⟨trivial, List.nil_subperm⟩
  · rename_i hk
    refine .skip .advance fun _ => .skip (.expect _) fun _ => .skip (.expect _) fun method =>
      Builds.freshNode.bind fun n nodes hn => .pure ⟨⟨hk, ht.superclass hk⟩, ?_⟩
    simp [hn, Expr.nodes, List.Subperm.refl]
  · rename_i hk
    refine .skip .advance fun _ => Builds.freshNode.bind fun n nodes hn =>
      .pure ⟨⟨hk, ht.receiver hk⟩, ?_⟩
    simp [hn, Expr.nodes, List.Subperm.refl]
  · rename_i hk
    refine .skip .advance fun _ => Builds.freshNode.bind fun n nodes hn => .pure ⟨ht.isName hk, ?_⟩
    simp [hn, Expr.nodes, List.Subperm.refl]
  · refine .skip .advance fun _ => h.bind fun inner nodes hi => .skip (.expect _) fun _ => .pure ?_
    exact ⟨hi.wellFormed, by simpa [Expr.nodes] using hi.among⟩
  · exact .fail _

theorem builds_commaSeparated {α : Type} {Q : α → List NodeId → Prop}
    {I : List α → List NodeId → Prop} {item : Parser α} (h : Builds Q item) (hnil : I [] [])
    (hstep : ∀ items nodes a more, I items nodes → Q a more → I (items ++ [a]) (nodes ++ more))
    (fault : ParseFault) : Builds I (commaSeparated item fault) := by
  refine h.bind fun first nodes hf => ?_
  have hfirst : I #[first].toList nodes := by simpa using hstep [] [] first nodes hnil hf
  refine (Builds.iterate (I := fun items nodes => I items.toList nodes) (fun items nodes hi => ?_)
    hfirst).bind fun items more hi => .pure (by simpa using hi)
  refine .skip (.accept _) fun b => ?_
  have hitem : Builds (fun b more => I (b.getD items).toList (nodes ++ more))
      (do return some (items.push (← item))) :=
    h.bind fun a more ha => .pure (by simpa using hstep _ _ _ _ hi ha)
  refine .ite _ (.ite _ ?_ hitem) (.pure (by simpa using hi))
  exact .skip .peek fun t => .skip (.record _ _) fun _ => hitem

theorem builds_arguments (h : Builds BuiltExpr nested) :
    Builds (fun es nodes => Built (Expr.AllWellFormed es) (Expr.nodesOfAll es) nodes)
      (arguments nested) := by
  refine .skip (.check _) fun _ => .ite _ (.pure ⟨trivial, List.nil_subperm⟩) ?_
  refine builds_commaSeparated h ⟨trivial, List.nil_subperm⟩ (fun es nodes e more hs he => ?_) _
  refine ⟨?_, ?_⟩
  · have hw := hs.wellFormed
    rw [Expr.allWellFormed_iff] at hw ⊢
    simpa [or_imp, forall_and] using ⟨hw, he.wellFormed⟩
  · simpa [Expr.nodesOfAll_append, Expr.nodesOfAll] using hs.among.append he.among

theorem builds_call (h : Builds BuiltExpr nested) : Builds BuiltExpr (call nested) := by
  refine (builds_primary h).bind fun object nodes ho => .iterate (fun object nodes ho => ?_) ho
  refine .skip (.accept _) fun _ => .ite _ ?_ (.skip (.accept _) fun _ => .ite _ ?_ ?_)
  · refine (builds_arguments h).bind fun args more ha => .skip (.expect _) fun paren => .pure ?_
    exact ⟨⟨ho.wellFormed, ha.wellFormed⟩, by simpa [Expr.nodes] using ho.among.append ha.among⟩
  · refine .skip (.expect _) fun name => .pure ⟨ho.wellFormed, ?_⟩
    simpa [Expr.nodes] using ho.among
  · exact .pure (by simpa using ho)

theorem builds_unaryOperators :
    Builds (fun operators nodes => (∀ t ∈ operators, isUnaryOperator t.kind = true) ∧ nodes = [])
      unaryOperators := by
  refine (Builds.iterate (I := fun (operators : List Token) (nodes : List NodeId) =>
    (∀ t ∈ operators, isUnaryOperator t.kind = true) ∧ nodes = []) (fun operators nodes ho => ?_)
    (show _ ∧ ([] : List NodeId) = [] from ⟨by simp, rfl⟩)).weaken fun operators nodes h => by
      simpa using h
  refine (Builds.acceptIf? _).read fun t ht => .pure ?_
  cases t with
  | none => simpa using ho
  | some t => simpa [ho.2] using ⟨(ht t rfl).2, ho.1⟩

theorem builtExpr_unary_foldl (operators : List Token) : ∀ (e : Expr) (nodes : List NodeId),
    (∀ t ∈ operators, isUnaryOperator t.kind = true) → BuiltExpr e nodes →
    BuiltExpr (operators.foldl (fun e operator => .unary operator e) e) nodes := by
  induction operators with
  | nil => exact fun e nodes _ he => he
  | cons operator rest ih =>
    intro e nodes ho he
    exact ih _ _ (fun t ht => ho t (.tail _ ht)) ⟨⟨ho operator (.head _), he.wellFormed⟩, he.among⟩

theorem builds_unary (h : Builds BuiltExpr nested) : Builds BuiltExpr (unary nested) := by
  refine builds_unaryOperators.read fun operators ho => (builds_call h).bind
    fun operand nodes he => .pure ?_
  simpa using builtExpr_unary_foldl operators operand nodes ho he

theorem builds_leftAssociative {isOperator : TokenKind → Bool} {node : Expr → Token → Expr → Expr}
    {operand : Parser Expr} (h : Builds BuiltExpr operand)
    (hw : ∀ l t r, isOperator t.kind = true → l.WellFormed → r.WellFormed →
      (node l t r).WellFormed)
    (hn : ∀ l t r, (node l t r).nodes = l.nodes ++ r.nodes) :
    Builds BuiltExpr (leftAssociative isOperator node operand) := by
  refine h.bind fun first nodes hf => .iterate (fun left nodes hl => ?_) hf
  refine (Builds.acceptIf? _).read fun t ht => ?_
  cases t with
  | none => exact .pure (by simpa using hl)
  | some t =>
    refine h.bind fun right more hr => .pure ⟨hw _ _ _ (ht t rfl).2 hl.wellFormed hr.wellFormed, ?_⟩
    simpa [hn] using hl.among.append hr.among

theorem builds_disjunction (h : Builds BuiltExpr nested) :
    Builds BuiltExpr (disjunction nested) := by
  have hbinary (isOperator : TokenKind → Bool) (operand : Parser Expr)
      (hk : ∀ k, isOperator k = true → isBinaryOperator k = true) (h : Builds BuiltExpr operand) :
      Builds BuiltExpr (leftAssociative isOperator .binary operand) :=
    builds_leftAssociative h (fun _ t _ ht hl hr => ⟨hk t.kind ht, hl, hr⟩) fun _ _ _ => rfl
  have hlogical (isOperator : TokenKind → Bool) (operand : Parser Expr)
      (h : Builds BuiltExpr operand) :
      Builds BuiltExpr (leftAssociative isOperator .logical operand) :=
    builds_leftAssociative h (fun _ _ _ _ hl hr => ⟨hl, hr⟩) fun _ _ _ => rfl
  refine hlogical _ _ (hlogical _ _ (hbinary _ _ ?_ (hbinary _ _ ?_ (hbinary _ _ ?_ (hbinary _ _ ?_
    (builds_unary h))))))
  all_goals
    intro k hk
    simp [isBinaryOperator, hk]

theorem builds_assignment (h : Builds BuiltExpr nested) : Builds BuiltExpr (assignment nested) := by
  refine (builds_disjunction h).bind fun target nodes ht => (Builds.acceptIf? _).read
    fun equals _ => ?_
  cases equals with
  | none => exact .pure (by simpa using ht)
  | some equals =>
    refine h.bind fun value more hv => ?_
    have hdrop : Builds (fun e rest => BuiltExpr e (nodes ++ (more ++ rest)))
        (do record equals .invalidAssignmentTarget; return target) := by
      refine .skip (.record _ _) fun _ => .pure ⟨ht.wellFormed, ?_⟩
      exact ht.among.trans (List.sublist_append_left _ _).subperm
    cases target with
    | «variable» r =>
      refine Builds.freshNode.bind fun n ns hn => .pure ⟨⟨ht.wellFormed, hv.wellFormed⟩, ?_⟩
      have hfresh : (n :: value.nodes).Subperm (more ++ [n]) :=
        (show ([n] ++ value.nodes).Perm (value.nodes ++ [n]) from
          List.perm_append_comm).subperm.trans (hv.among.append (.refl _))
      simpa [hn, Expr.nodes] using hfresh.trans (List.sublist_append_right _ _).subperm
    | get object name =>
      exact .pure ⟨⟨ht.wellFormed, hv.wellFormed⟩, by
        simpa [Expr.nodes] using ht.among.append hv.among⟩
    | _ => exact hdrop

theorem builds_expressionUpTo (depth : Nat) : Builds BuiltExpr (expressionUpTo depth) := by
  induction depth with
  | zero => exact .fail _
  | succ depth ih => exact builds_assignment ih

theorem builds_expression : Builds BuiltExpr expression :=
  fun c => builds_expressionUpTo (c.pending.length + 1) c

abbrev BuiltStmt (s : Stmt) : List NodeId → Prop := Built s.WellFormed s.nodes

/-- What can be a branch or the body of a loop. -/
abbrev BuiltBranch (s : Stmt) : List NodeId → Prop :=
  Built (s.WellFormed ∧ s.declared? = none) s.nodes

abbrev BuiltBody (body : List Stmt) : List NodeId → Prop :=
  Built (Stmt.AllWellFormed body) (Stmt.nodesOfAll body)

abbrev BuiltFunction (f : FunctionDecl) : List NodeId → Prop := Built f.WellFormed f.nodes

abbrev BuiltExpr? (e : Option Expr) : List NodeId → Prop :=
  Built (∀ x ∈ e, x.WellFormed) (Expr.nodesOf? e)

abbrev BuiltStmt? (s : Option Stmt) : List NodeId → Prop :=
  Built (∀ x ∈ s, x.WellFormed) (Stmt.nodesOfAll s.toList)

abbrev BuiltDeclaration (s : Option Stmt) (nodes : List NodeId) : Prop :=
  ∀ x ∈ s, BuiltStmt x nodes

theorem BuiltBranch.stmt {s : Stmt} {nodes : List NodeId} (h : BuiltBranch s nodes) :
    BuiltStmt s nodes := ⟨h.wellFormed.1, h.among⟩

theorem BuiltBody.push {body : List Stmt} {s : Stmt} {nodes more : List NodeId}
    (h : BuiltBody body nodes) (hs : BuiltStmt s more) : BuiltBody (body ++ [s]) (nodes ++ more) := by
  refine ⟨?_, ?_⟩
  · have hw := h.wellFormed
    rw [Stmt.allWellFormed_iff] at hw ⊢
    simpa [or_imp, forall_and] using ⟨hw, hs.wellFormed⟩
  · simpa [Stmt.nodesOfAll_append, Stmt.nodesOfAll] using h.among.append hs.among

abbrev BuiltMethods (methods : List FunctionDecl) : List NodeId → Prop :=
  Built (FunctionDecl.AllWellFormed methods) (FunctionDecl.nodesOfAll methods)

theorem BuiltMethods.push {methods : List FunctionDecl} {f : FunctionDecl}
    {nodes more : List NodeId} (h : BuiltMethods methods nodes) (hf : BuiltFunction f more) :
    BuiltMethods (methods ++ [f]) (nodes ++ more) := by
  refine ⟨?_, ?_⟩
  · have hw := h.wellFormed
    rw [FunctionDecl.allWellFormed_iff] at hw ⊢
    simpa [or_imp, forall_and] using ⟨hw, hf.wellFormed⟩
  · simpa [FunctionDecl.nodesOfAll_append, FunctionDecl.nodesOfAll] using
      h.among.append hf.among

/-- Nodes may have been drawn in vain. -/
theorem Built.more {w : Prop} {own nodes : List NodeId} (h : Built w own nodes)
    (more : List NodeId) : Built w own (nodes ++ more) :=
  ⟨h.wellFormed, h.among.trans (List.sublist_append_left _ _).subperm⟩

theorem builds_name (e : Expectation) (he : e.kind = .identifier) :
    Builds (fun t nodes => t.IsName ∧ nodes = []) (expect e) :=
  (Builds.expect e).weaken fun _ _ h => ⟨h.1.1.isName (h.1.2.trans he), h.2⟩

theorem builds_parameters :
    Builds (fun params nodes => (∀ p ∈ params, p.IsName) ∧ nodes = []) parameters := by
  refine .skip (.check _) fun _ => .ite _ (.pure (by simp)) ?_
  refine builds_commaSeparated (builds_name _ rfl) (by simp) (fun params nodes p more hs hp => ?_) _
  simpa [or_imp, forall_and] using ⟨⟨hs.1, hp.1⟩, hs.2, hp.2⟩

theorem reads_bodyGoesOn : Reads bodyGoesOn := (follows_bodyGoesOn (k := .same)).toReads

section Declarations

variable {block : Parser (List Stmt)}

theorem builds_function (callable : Callable) (h : Builds BuiltBody block) :
    Builds BuiltFunction (function callable block) := by
  refine (builds_name _ rfl).read fun name hname => .skip (.expect _) fun _ =>
    builds_parameters.read fun params hparams => .skip (.expect _) fun _ => .skip (.expect _) fun _ =>
    h.bind fun body nodes hb => .pure ⟨⟨hname, hparams, hb.wellFormed⟩, ?_⟩
  simpa [FunctionDecl.nodes] using hb.among

theorem builds_superclass? :
    Builds (fun r nodes => Built (∀ t ∈ r, t.name.IsName)
      ((r : Option Reference).toList.map (·.node)) nodes) superclass? := by
  refine .skip (.accept _) fun _ => .ite _ ?_ (.pure ⟨by simp, by simp⟩)
  refine (builds_name _ rfl).read fun name hname => Builds.freshNode.bind fun n nodes hn =>
    .pure ⟨by simpa using hname, ?_⟩
  simp [hn, List.Subperm.refl]

theorem builds_classDeclaration (h : Builds BuiltBody block) :
    Builds BuiltStmt (classDeclaration block) := by
  refine (builds_name _ rfl).read fun name hname =>
    builds_superclass?.bind fun superclass nodes hs => .skip (.expect _) fun _ => ?_
  have hempty : BuiltMethods (#[] : Array FunctionDecl).toList [] := ⟨trivial, List.nil_subperm⟩
  refine (Builds.iterate (I := fun (methods : Array FunctionDecl) more =>
    BuiltMethods methods.toList more) (fun methods more hm => ?_) hempty).bind fun methods more hm =>
    .skip (.expect _) fun _ => .pure ⟨⟨hname, hs.wellFormed, hm.wellFormed⟩, ?_⟩
  · refine .skip reads_bodyGoesOn fun _ => .ite _ ?_ (.pure (by simpa using hm))
    exact (builds_function _ h).bind fun f rest hf => .pure (by simpa using hm.push hf)
  · simpa [Stmt.nodes] using hs.among.append hm.among

end Declarations

theorem builds_optionalExpression : Builds BuiltExpr? (some <$> expression) :=
  builds_expression.bind fun e nodes he => .pure ⟨by simpa using he.wellFormed, by
    simpa [Expr.nodesOf?] using he.among⟩

theorem builds_expressionUnless (kind : TokenKind) : Builds BuiltExpr? (expressionUnless kind) :=
  .skip (.check _) fun _ => .ite _ (.pure ⟨by simp, List.nil_subperm⟩) builds_optionalExpression

theorem builds_varDeclaration : Builds BuiltStmt varDeclaration := by
  refine (builds_name _ rfl).read fun name hname => .skip (.accept _) fun given => ?_
  have hend (e : Option Expr) (nodes : List NodeId) (he : BuiltExpr? e nodes) :
      Builds (fun s more => BuiltStmt s (nodes ++ more))
        (do let _ ← expect .variableEnd; return .varDecl name e) :=
    .skip (.expect _) fun _ => .pure ⟨⟨hname, he.wellFormed⟩, by simpa [Stmt.nodes] using he.among⟩
  have hnone : BuiltExpr? none [] := ⟨by simp, List.nil_subperm⟩
  exact .ite _ (builds_optionalExpression.bind hend) (Builds.bind (.pure hnone) hend)

theorem builds_expressionStatement : Builds BuiltBranch expressionStatement :=
  builds_expression.bind fun e nodes he => .skip (.expect _) fun _ =>
    .pure ⟨⟨he.wellFormed, rfl⟩, by simpa [Stmt.nodes] using he.among⟩

theorem builds_printStatement : Builds BuiltBranch printStatement :=
  builds_expression.bind fun e nodes he => .skip (.expect _) fun _ =>
    .pure ⟨⟨he.wellFormed, rfl⟩, by simpa [Stmt.nodes] using he.among⟩

theorem builds_returnStatement (keyword : Token) : Builds BuiltBranch (returnStatement keyword) :=
  (builds_expressionUnless _).bind fun e nodes he => .skip (.expect _) fun _ =>
    .pure ⟨⟨he.wellFormed, rfl⟩, by simpa [Stmt.nodes] using he.among⟩

theorem builds_forInitializer :
    Builds BuiltStmt? forInitializer := by
  have hsome {p : Parser Stmt} (h : Builds BuiltStmt p) :
      Builds BuiltStmt? (some <$> p) :=
    h.bind fun s nodes hs => .pure ⟨by simpa using hs.wellFormed, by
      simpa [Stmt.nodesOfAll] using hs.among⟩
  exact .skip (.accept _) fun _ => .ite _ (.pure ⟨by simp, List.nil_subperm⟩) <|
    .skip (.accept _) fun _ => .ite _ (hsome builds_varDeclaration)
      (hsome (builds_expressionStatement.weaken fun _ _ h => h.stmt))

section Statements

variable {nested : Parser Stmt} {declared : Parser (Option Stmt)}

theorem builds_forStatement (h : Builds BuiltBranch nested) :
    Builds BuiltBranch (forStatement nested) := by
  refine .skip (.expect _) fun _ => builds_forInitializer.bind fun initializer xs hi =>
    (builds_expressionUnless _).bind fun condition ys hc => .skip (.expect _) fun _ =>
    (builds_expressionUnless _).bind fun increment zs hn => .skip (.expect _) fun _ =>
    h.bind fun body ws hb => ?_
  have hcondition : BuiltExpr (condition.getD (.constant (.bool true))) ys := by
    cases condition with
    | none => exact ⟨trivial, List.nil_subperm⟩
    | some e => exact ⟨hc.wellFormed e rfl, hc.among⟩
  have hloop : BuiltStmt
      (.loop (condition.getD (.constant (.bool true))) body increment) (ys ++ (zs ++ ws)) := by
    refine ⟨⟨hcondition.wellFormed, hb.wellFormed.1, hb.wellFormed.2, hn.wellFormed⟩, ?_⟩
    have hswap := List.perm_append_comm.subperm.trans (hn.among.append hb.among)
    simpa [Stmt.nodes] using hcondition.among.append hswap
  cases initializer with
  | none =>
    refine .pure ⟨⟨hloop.wellFormed, rfl⟩, ?_⟩
    simpa using hloop.among.trans (List.sublist_append_right xs _).subperm
  | some first =>
    refine .pure ⟨⟨⟨hi.wellFormed first rfl, hloop.wellFormed, trivial⟩, rfl⟩, ?_⟩
    have hfirst : first.nodes.Subperm xs := by simpa [Stmt.nodesOfAll] using hi.among
    simpa [Stmt.nodes, Stmt.nodesOfAll] using hfirst.append hloop.among

theorem builds_ifStatement (h : Builds BuiltBranch nested) :
    Builds BuiltBranch (ifStatement nested) := by
  refine .skip (.expect _) fun _ => builds_expression.bind fun e xs he => .skip (.expect _) fun _ =>
    h.bind fun s ys hs => .skip (.accept _) fun _ => .ite _ ?_ (.pure ⟨⟨⟨he.wellFormed,
      hs.wellFormed⟩, rfl⟩, ?_⟩)
  · refine h.bind fun t zs ht => .pure ⟨⟨⟨he.wellFormed, hs.wellFormed.1, hs.wellFormed.2,
      ht.wellFormed⟩, rfl⟩, ?_⟩
    simpa [Stmt.nodes] using he.among.append (hs.among.append ht.among)
  · simpa [Stmt.nodes] using he.among.append hs.among

theorem builds_whileStatement (h : Builds BuiltBranch nested) :
    Builds BuiltBranch (whileStatement nested) := by
  refine .skip (.expect _) fun _ => builds_expression.bind fun e xs he => .skip (.expect _) fun _ =>
    h.bind fun s ys hs => .pure ⟨⟨⟨he.wellFormed, hs.wellFormed.1, hs.wellFormed.2, by simp⟩,
      rfl⟩, ?_⟩
  simpa [Stmt.nodes, Expr.nodesOf?] using he.among.append hs.among

theorem builds_block (h : Builds BuiltDeclaration declared) :
    Builds BuiltBody (block declared) := by
  have hempty : BuiltBody (#[] : Array Stmt).toList [] := ⟨trivial, List.nil_subperm⟩
  refine (Builds.iterate (I := fun (body : Array Stmt) nodes => BuiltBody body.toList nodes)
    (fun body nodes hb => ?_) hempty).bind fun body nodes hb =>
      .skip (.expect _) fun _ => .pure (by simpa using hb)
  refine .skip reads_bodyGoesOn fun _ => .ite _ ?_ (.pure (by simpa using hb))
  refine h.bind fun s more hs => ?_
  cases s with
  | none => exact .pure (by simpa using hb.more more)
  | some s => exact .pure (by simpa using hb.push (hs s rfl))

theorem builds_statement (h : Builds BuiltBranch nested)
    (hd : Builds BuiltDeclaration declared) :
    Builds BuiltBranch (statement nested declared) := by
  refine .skip .peek fun t => ?_
  split
  · exact .skip .advance fun _ => builds_forStatement h
  · exact .skip .advance fun _ => builds_ifStatement h
  · exact .skip .advance fun _ => builds_printStatement
  · exact .skip .advance fun _ => builds_returnStatement t
  · exact .skip .advance fun _ => builds_whileStatement h
  · exact .skip .advance fun _ => .skip (.expect _) fun _ => .pure ⟨⟨trivial, rfl⟩, List.nil_subperm⟩
  · exact .skip .advance fun _ => .skip (.expect _) fun _ => .pure ⟨⟨trivial, rfl⟩, List.nil_subperm⟩
  · refine .skip .advance fun _ => (builds_block hd).bind fun body nodes hb =>
      .pure ⟨⟨hb.wellFormed, rfl⟩, ?_⟩
    simpa [Stmt.nodes] using hb.among
  · exact builds_expressionStatement

theorem builds_declaration
    (hc : Closes .same (Stmt.respell Comparison.same.respell) nested nested)
    (hf : Follows .same (Option.map (Stmt.respell Comparison.same.respell)) declared declared)
    (hs : Shortens (fun _ => True) declared) (h : Builds BuiltBranch nested)
    (hd : Builds BuiltDeclaration declared) :
    Builds BuiltDeclaration (declaration nested declared) := by
  refine Builds.recovering (.skip .peek fun t => ?_) (closes_declared hc hf hs).toReads
  split
  · exact .skip .advance fun _ => builds_classDeclaration (builds_block hd)
  · refine .skip .advance fun _ => (builds_function _ (builds_block hd)).bind fun f nodes hf =>
      .pure ⟨hf.wellFormed, ?_⟩
    simpa [Stmt.nodes] using hf.among
  · exact .skip .advance fun _ => builds_varDeclaration
  · exact h.weaken fun _ _ h => h.stmt

end Statements

theorem builds_levels (depth : Nat) :
    Builds BuiltBranch (statementUpTo depth) ∧ Builds BuiltDeclaration (declarationUpTo depth) := by
  induction depth with
  | zero => exact ⟨.fail _, Builds.recovering (.fail _) (.fail rfl)⟩
  | succ depth ih =>
    obtain ⟨hc, hf, hs⟩ := levelsFollow (k := .same) depth depth (Nat.le_refl _) fun _ => rfl
    exact ⟨builds_statement ih.1 ih.2, builds_declaration hc hf.toFollows hs ih.1 ih.2⟩

theorem builds_program (depth : Nat) : Builds BuiltBody (program depth) := by
  have hempty : BuiltBody (#[] : Array Stmt).toList [] := ⟨trivial, List.nil_subperm⟩
  refine (Builds.iterate (I := fun (body : Array Stmt) nodes => BuiltBody body.toList nodes)
    (fun body nodes hb => ?_) hempty).bind fun body nodes hb => .pure (by simpa using hb)
  refine .skip .atEnd fun _ => .ite _ (.pure (by simpa using hb)) ?_
  refine (builds_levels depth).2.bind fun s more hs => ?_
  cases s with
  | none => exact .pure (by simpa using hb.more more)
  | some s => exact .pure (by simpa using hb.push (hs s rfl))

end Grammar

/-- What reading a text yields. -/
structure Parsed.Proper (nextNode : Nat) (p : Parsed) : Prop where
  wellFormed : Stmt.AllWellFormed p.statements
  drawn : Drawn nextNode p.nextNode (Stmt.nodesOfAll p.statements)
  nextNode : nextNode ≤ p.nextNode

theorem parse_proper {tokens : List Token} (h : ∀ t ∈ tokens, t.Sound) (nextNode : Nat) :
    (parse tokens nextNode).Proper nextNode := by
  have hsound : (Cursor.ofTokens tokens nextNode).Sound := by
    refine ⟨fun t ht => h t ((List.takeWhile_sublist _).subset ht), ?_⟩
    unfold Cursor.ofTokens
    cases hf : tokens.find? (·.kind == .eof) with
    | none => exact ⟨by simp [Token.endOfInput], by simp [Token.endOfInput],
        by simp [Token.endOfInput]⟩
    | some t => exact h t (List.mem_of_find?_eq_some hf)
  have hstart : (Cursor.ofTokens tokens nextNode).nextNode = nextNode := rfl
  unfold parse
  generalize Cursor.ofTokens tokens nextNode = start at hsound hstart
  have hr := (Grammar.follows_program (k := .same) (2 * start.pending.length + 2)).reads start
  have hb := Grammar.builds_program (2 * start.pending.length + 2) start
  rcases hp : Grammar.program (2 * start.pending.length + 2) start with ⟨body?, finish⟩
  simp only [hp]
  rw [hp] at hr
  cases body? with
  | none => exact ⟨trivial, .nil _ _, hstart ▸ hr.nextNode⟩
  | some body =>
    obtain ⟨-, nodes, hd, hbody⟩ := hb finish body hsound hp
    exact ⟨hbody.wellFormed, hstart ▸ hd.subperm hbody.among, hstart ▸ hr.nextNode⟩

end Lox
