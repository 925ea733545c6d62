import Lox.Proofs.Grammar.Acceptance
import Lox.Proofs.Grammar.Concatenation

/-! Expressions that are spelled are read.

The parser takes every spelling of an expression, as long as the token behind it does not continue
the expression, and yields the tree that was spelled, with node identities of its own. At the levels
that repeat, a spelling is a point that the loop of the level comes to; it is left when the token
behind does not bind at that level. -/

namespace Lox

def Expr.Like (e e' : Expr) : Prop := e.relabel .anonymous = e'.relabel .anonymous

theorem Expr.Like.of_variable {e : Expr} {r : Reference} (h : e.Like (.variable r)) :
    ∃ node, e = .variable ⟨node, r.name⟩ := by
  cases e <;> simp only [Expr.Like, Expr.relabel, Expr.variable.injEq, reduceCtorEq] at h
  exact ⟨_, by rw [Reference.name_of_anonymous h]⟩

theorem Expr.Like.of_get {e object : Expr} {name : Token} (h : e.Like (.get object name)) :
    ∃ object', e = .get object' name ∧ object'.Like object := by
  cases e <;> simp only [Expr.Like, Expr.relabel, Token.relabel_anonymous, Expr.get.injEq,
    reduceCtorEq] at h
  obtain ⟨hobject, rfl⟩ := h
  exact ⟨_, rfl, hobject⟩

namespace Grammar

open Lox.Parser

/-- The level at which a token binds what stands before it. -/
def bindsAt : TokenKind → Option Nat
  | .equal => some 0
  | .kwOr => some 1
  | .kwAnd => some 2
  | .bangEqual | .equalEqual => some 3
  | .greater | .greaterEqual | .less | .lessEqual => some 4
  | .minus | .plus => some 5
  | .slash | .star => some 6
  | .leftParen | .dot => some 8
  | _ => none

theorem bindsAt_of_joinsAt {k : Nat} {kind : TokenKind} (h : joinsAt k kind = true) :
    bindsAt kind = some k ∧ 1 ≤ k ∧ k ≤ 6 := by
  unfold joinsAt at h
  split at h <;> cases kind <;> first | exact ⟨rfl, by decide, by decide⟩ | cases h

/-- No token of this level or a tighter one comes next. -/
def Stops (k : Nat) (us : List Token) : Prop :=
  ∀ t ∈ us.head?, ∀ l ∈ bindsAt t.kind, l < k

theorem Stops.weaken {k l : Nat} {us : List Token} (h : Stops k us) (hkl : k ≤ l) : Stops l us :=
  fun t ht m hm => Nat.lt_of_lt_of_le (h t ht m hm) hkl

theorem Stops.cons {k : Nat} {t : Token} {us : List Token} (h : ∀ l ∈ bindsAt t.kind, l < k) :
    Stops k (t :: us) := by
  rintro _ ⟨⟩
  exact h

theorem Stops.of_none {k : Nat} {t : Token} {us : List Token} (h : bindsAt t.kind = none) :
    Stops k (t :: us) := .cons (by simp [h])

theorem Stops.not_joinsAt {k : Nat} {us : List Token} (h : Stops k us) :
    ∀ t ∈ us.head?, joinsAt k t.kind = false := by
  intro t ht
  cases hj : joinsAt k t.kind with
  | false => rfl
  | true => exact absurd (h t ht k (bindsAt_of_joinsAt hj).1) (Nat.lt_irrefl k)

theorem Stops.ne {k l : Nat} {us : List Token} {kind : TokenKind} (h : Stops k us)
    (hb : bindsAt kind = some l) (hl : k ≤ l) : ∀ t ∈ us.head?, t.kind ≠ kind := by
  intro t ht hk
  have := h t ht l (hk ▸ hb)
  omega

/-- The parser of a level. -/
def atLevel (nested : Parser Expr) : Nat → Parser Expr
  | 0 => assignment nested
  | 1 => disjunction nested
  | 2 => conjunction nested
  | 3 => equality nested
  | 4 => comparison nested
  | 5 => term nested
  | 6 => factor nested
  | 7 => unary nested
  | 8 => call nested
  | _ => primary nested

def Repeats (k : Nat) : Prop := (1 ≤ k ∧ k ≤ 6) ∨ k = 8

/-- One turn of the loop of a level. -/
def levelNext (nested : Parser Expr) (k : Nat) (left : Expr) : Parser (Option Expr) :=
  if k = 8 then suffix? nested left
  else do
    match ← acceptIf? (joinsAt k) with
    | some operator => return some (joined k left operator (← atLevel nested (k + 1)))
    | none => return none

theorem atLevel_eq {k : Nat} (h : Repeats k) (nested : Parser Expr) :
    atLevel nested k = (do iterate (levelNext nested k) (← atLevel nested (k + 1))) := by
  obtain rfl | rfl | rfl | rfl | rfl | rfl | rfl :
      k = 1 ∨ k = 2 ∨ k = 3 ∨ k = 4 ∨ k = 5 ∨ k = 6 ∨ k = 8 := by
    unfold Repeats at h
    omega
  all_goals rfl

theorem levelNext_stops {k : Nat} (h : Repeats k) {us : List Token} (hs : Stops k us)
    (nested : Parser Expr) (left : Expr) :
    Takes (levelNext nested k left) us fun e? vs => e? = none ∧ vs = us := by
  unfold levelNext
  split
  · subst k
    exact .accept_else (hs.ne rfl (Nat.le_refl 8))
      (.accept_else (hs.ne rfl (Nat.le_refl 8)) (.pure ⟨rfl, rfl⟩))
  · exact .acceptIf?_none hs.not_joinsAt (.pure ⟨rfl, rfl⟩)

/-- One turn of the loop over the operators in front of an operand. -/
def unaryNext (operators : List Token) : Parser (Option (List Token)) := do
  return (← acceptIf? isUnaryOperator).map (· :: operators)

def applied (operators : List Token) (e : Expr) : Expr :=
  operators.foldl (fun e operator => .unary operator e) e

theorem applied_like (operators : List Token) : ∀ {e e' : Expr}, e.Like e' →
    (applied operators e).Like (applied operators e') := by
  induction operators with
  | nil => exact fun h => h
  | cons operator rest ih =>
    refine fun h => ih ?_
    simpa [Expr.Like, Expr.relabel] using h

def operandOf (nested : Parser Expr) (operators : List Token) : Parser Expr := do
  return applied operators (← call nested)

theorem unary_eq (nested : Parser Expr) :
    unary nested = (do operandOf nested (← iterate unaryNext [])) := rfl

section

variable (k : Nat) (e : Expr) (ts us : List Token)

/-- What the parser of a level is to do with a spelling of that level: take it, and at a level that
repeats come to it in the loop, and at that of the operators in front come to what follows them. -/
structure Complete : Prop where
  takes : ∀ depth, ts.length ≤ depth + 1 → Stops k us →
    Takes (atLevel (expressionUpTo depth) k) ts fun e' vs => e'.Like e ∧ vs = us
  arrives : Repeats k → ∀ depth, ts.length ≤ depth + 1 → Stops (k + 1) us →
    ∀ Q : Expr → List Token → Prop,
      (∀ e', e'.Like e → Loops (levelNext (expressionUpTo depth) k) e' us Q) →
      Takes (atLevel (expressionUpTo depth) k) ts Q
  follows : k = 7 → ∀ depth, ts.length ≤ depth + 1 → Stops 8 us → ∀ operators,
    Loops unaryNext operators ts fun operators' vs =>
      Takes (operandOf (expressionUpTo depth) operators') vs
        fun e' ws => e'.Like (applied operators e) ∧ ws = us

end

section

variable {k : Nat} {e : Expr} {ts us : List Token}

theorem Complete.of_arrives (hk : Repeats k)
    (h : ∀ depth, ts.length ≤ depth + 1 → Stops (k + 1) us → ∀ Q : Expr → List Token → Prop,
      (∀ e', e'.Like e → Loops (levelNext (expressionUpTo depth) k) e' us Q) →
      Takes (atLevel (expressionUpTo depth) k) ts Q) : Complete k e ts us where
  takes depth hdepth hs := h depth hdepth (hs.weaken (Nat.le_succ k)) _ fun _ he =>
    .stop (levelNext_stops hk hs _ _) ⟨he, rfl⟩
  arrives _ := h
  follows hk' := by
    subst hk'
    rcases hk with h | h <;> omega

theorem Complete.of_follows
    (h : ∀ depth, ts.length ≤ depth + 1 → Stops 8 us → ∀ operators,
      Loops unaryNext operators ts fun operators' vs =>
        Takes (operandOf (expressionUpTo depth) operators') vs
          fun e' ws => e'.Like (applied operators e) ∧ ws = us) : Complete 7 e ts us where
  takes depth hdepth hs := by
    rw [atLevel, unary_eq]
    exact .bind (h depth hdepth (hs.weaken (by decide)) []).first
  arrives hk := by rcases hk with h | h <;> omega
  follows _ := h

theorem Complete.of_takes (hk : k = 0 ∨ k = 9)
    (h : ∀ depth, ts.length ≤ depth + 1 → Stops k us →
      Takes (atLevel (expressionUpTo depth) k) ts fun e' vs => e'.Like e ∧ vs = us) :
    Complete k e ts us where
  takes := h
  arrives hr := by rcases hr with h | h <;> omega
  follows hk' := by omega

/-- A call does not begin with an operator. -/
theorem first_of_call (hk : 8 ≤ k) (h : SpellsExpr (.expr k e) ts us) :
    ∀ t ∈ ts.head?, isUnaryOperator t.kind = false := by
  generalize hp : ExprPhrase.expr k e = p at h
  induction h generalizing k e with
  | looser _ _ ih =>
    cases hp
    exact ih (Nat.le_succ_of_le hk) rfl
  | join _ hj _ _ _ =>
    cases hp
    have := (bindsAt_of_joinsAt hj).2.2
    omega
  | call _ _ _ ih | callWith _ _ _ _ _ ih _ | get _ _ _ ih => exact ih (Nat.le_refl 8) rfl
  | constant hc =>
    rintro _ ⟨⟩
    unfold constantAt? at hc
    split at hc <;> simp_all [isUnaryOperator]
  | inherited hkind _ _ | receiver hkind | occurrence hkind | group hkind _ _ _ =>
    rintro _ ⟨⟩
    simp [hkind, isUnaryOperator]
  | one | more => cases hp
  | _ =>
    cases hp
    omega

theorem Complete.looser (hk : k < 9) (hspelled : SpellsExpr (.expr (k + 1) e) ts us)
    (h : Complete (k + 1) e ts us) : Complete k e ts us := by
  by_cases hr : Repeats k
  · refine .of_arrives hr fun depth hdepth hs Q hq => ?_
    rw [atLevel_eq hr]
    exact .bind ((h.takes depth hdepth hs).mono fun e' vs ⟨he, hv⟩ => hv ▸ (hq e' he).first)
  · obtain rfl | rfl : k = 0 ∨ k = 7 := by
      unfold Repeats at hr
      omega
    · -- No assignment: an equals sign would have to be behind it.
      refine .of_takes (.inl rfl) fun depth hdepth hs => ?_
      refine .bind ((h.takes depth hdepth (hs.weaken (by decide))).mono fun e' vs ⟨he, hv⟩ => ?_)
      have hne : ∀ t ∈ us.head?, t.kind ≠ .equal := hs.ne rfl (Nat.le_refl 0)
      exact .acceptIf?_none (by simpa [hv] using hne) (.pure ⟨he, hv⟩)
    · -- The call is the operand, since no operator begins it.
      refine .of_follows fun depth hdepth hs operators => ?_
      refine .stop (.acceptIf?_none (first_of_call (Nat.le_refl 8) hspelled)
        (.pure ⟨rfl, rfl⟩)) ?_
      exact .bind ((h.takes depth hdepth hs).mono fun e' vs ⟨he, hv⟩ =>
        .pure ⟨applied_like operators he, hv⟩)

theorem Complete.lower {l : Nat} (hspelled : SpellsExpr (.expr l e) ts us)
    (h : Complete l e ts us) (hkl : k ≤ l) (hl : l ≤ 9) : Complete k e ts us := by
  induction hd : l - k generalizing k with
  | zero => exact (show l = k by omega) ▸ h
  | succ d ih =>
    exact .looser (by omega) (hspelled.lower (by omega) hl) (ih (by omega) (by omega))

theorem stops_nine (us : List Token) : Stops 9 us := by
  intro t _ l hl
  cases hk : t.kind <;> rw [hk] at hl <;> cases hl <;> decide

theorem Complete.nested (h : Complete 0 e ts us) (hspelled : SpellsExpr (.expr 0 e) ts us)
    {depth : Nat} (hdepth : ts.length ≤ depth) (hs : Stops 0 us) :
    Takes (expressionUpTo depth) ts fun e' vs => e'.Like e ∧ vs = us := by
  have := hspelled.length_lt
  cases depth with
  | zero => omega
  | succ depth => exact h.takes depth hdepth hs

theorem complete_constant {t : Token} {value : Constant} (h : constantAt? t = some value) :
    Complete 9 (.constant value) (t :: us) us := by
  refine .of_takes (.inr rfl) fun depth _ _ => .peek ?_
  unfold constantAt? at h
  split at h
  case h_6 => cases h
  all_goals
    rename_i hk
    cases h
    rw [hk]
    exact .advance (.pure ⟨rfl, rfl⟩)

theorem complete_inherited {node : NodeId} {keyword dot method : Token}
    (hk : keyword.kind = .kwSuper) (hd : dot.kind = .dot) (hm : method.kind = .identifier) :
    Complete 9 (.inherited ⟨node, keyword⟩ method) (keyword :: dot :: method :: us) us := by
  refine .of_takes (.inr rfl) fun depth _ _ => .peek ?_
  rw [hk]
  exact .advance (.expect hd (.expect hm (.freshNode fun _ => .pure ⟨rfl, rfl⟩)))

theorem complete_receiver {node : NodeId} {keyword : Token} (hk : keyword.kind = .kwThis) :
    Complete 9 (.receiver ⟨node, keyword⟩) (keyword :: us) us := by
  refine .of_takes (.inr rfl) fun depth _ _ => .peek ?_
  rw [hk]
  exact .advance (.freshNode fun _ => .pure ⟨rfl, rfl⟩)

theorem complete_occurrence {node : NodeId} {name : Token} (hk : name.kind = .identifier) :
    Complete 9 (.variable ⟨node, name⟩) (name :: us) us := by
  refine .of_takes (.inr rfl) fun depth _ _ => .peek ?_
  rw [hk]
  exact .advance (.freshNode fun _ => .pure ⟨rfl, rfl⟩)

theorem complete_group {opening closing : Token} {inner : Expr}
    (ho : opening.kind = .leftParen) (hspelled : SpellsExpr (.expr 0 inner) ts (closing :: us))
    (h : Complete 0 inner ts (closing :: us)) (hc : closing.kind = .rightParen) :
    Complete 9 (.group inner) (opening :: ts) us := by
  refine .of_takes (.inr rfl) fun depth hdepth _ => .peek ?_
  rw [ho]
  refine .advance (.bind ((h.nested hspelled (by simpa using hdepth)
    (.of_none (by rw [hc]; rfl))).mono fun e' vs ⟨he, hv⟩ => ?_))
  subst hv
  exact .expect hc (.pure ⟨by simpa [Expr.Like, Expr.relabel] using he, rfl⟩)

theorem complete_get {object : Expr} {dot name : Token}
    (h : Complete 8 object ts (dot :: name :: us)) (hd : dot.kind = .dot)
    (hn : name.kind = .identifier) : Complete 8 (.get object name) ts us := by
  refine .of_arrives (.inr rfl) fun depth hdepth _ Q hq => h.arrives (.inr rfl) depth hdepth
    (stops_nine _) Q fun e' he => .turn ?_
  refine .accept_else (by simp [hd]) (.accept hd (.expect hn (.pure ⟨_, rfl, by grind, hq _ ?_⟩)))
  simpa [Expr.Like, Expr.relabel] using he

theorem complete_call {callee : Expr} {opening paren : Token}
    (h : Complete 8 callee ts (opening :: paren :: us)) (ho : opening.kind = .leftParen)
    (hp : paren.kind = .rightParen) : Complete 8 (.call callee paren []) ts us := by
  refine .of_arrives (.inr rfl) fun depth hdepth _ Q hq => h.arrives (.inr rfl) depth hdepth
    (stops_nine _) Q fun e' he => .turn ?_
  refine .accept ho (.bind (.check hp (.pure (.expect hp (.pure ⟨_, rfl, by grind, hq _ ?_⟩)))))
  simpa [Expr.Like, Expr.relabel] using he

theorem complete_callWith {callee : Expr} {opening paren : Token} {args : List Expr}
    {vs : List Token} (hspelled : SpellsExpr (.expr 8 callee) ts (opening :: us))
    (h : Complete 8 callee ts (opening :: us)) (ho : opening.kind = .leftParen)
    (hargs : SpellsExpr (.items args) us (paren :: vs))
    (hlisted : ∀ depth, us.length ≤ depth → Stops 0 (paren :: vs) →
      Listed (TakesItem (Expr.relabel .anonymous) (expressionUpTo depth)) us args (paren :: vs))
    (hp : paren.kind = .rightParen) (hlen : args.length ≤ maxListLength) :
    Complete 8 (.call callee paren args) ts vs := by
  refine .of_arrives (.inr rfl) fun depth hdepth _ Q hq => h.arrives (.inr rfl) depth hdepth
    (stops_nine _) Q fun e' he => .turn ?_
  have hlt := hspelled.length_lt
  have hlt' := hargs.length_lt
  simp only [List.length_cons] at hlt hlt'
  have hitems := hlisted depth (by omega) (.of_none (by rw [hp]; rfl))
  obtain ⟨t, rest, rfl, ht⟩ := hargs.first
  refine .accept ho (.bind (.check_else ?_ ((takes_commaSeparated hitems hlen ?_).mono
    fun args' ws ⟨ha, hw⟩ => ?_)))
  · rintro _ ⟨⟩ hk
    rw [hk] at ht
    cases ht
  · rintro _ ⟨⟩
    simp [hp]
  · subst hw
    refine .expect hp (.pure ⟨_, rfl, ?_, hq _ ?_⟩)
    · simp only [List.length_cons] at hlt' ⊢
      omega
    · simp only [Expr.Like, Expr.relabel, Expr.relabelAll_eq_map] at he ⊢
      rw [he, ha]

theorem complete_unary {operator : Token} {operand : Expr}
    (ho : isUnaryOperator operator.kind = true) (h : Complete 7 operand ts us) :
    Complete 7 (.unary operator operand) (operator :: ts) us := by
  refine .of_follows fun depth hdepth hs operators => .turn ?_
  simp only [List.length_cons] at hdepth
  exact .acceptIf? ho (.pure ⟨operator :: operators, rfl, by simp,
    h.follows rfl depth (by omega) hs (operator :: operators)⟩)

theorem complete_join {left right : Expr} {operator : Token} {vs : List Token}
    (hspelled : SpellsExpr (.expr k left) ts (operator :: us))
    (h : Complete k left ts (operator :: us)) (hj : joinsAt k operator.kind = true)
    (hright : SpellsExpr (.expr (k + 1) right) us vs) (hr : Complete (k + 1) right us vs) :
    Complete k (joined k left operator right) ts vs := by
  obtain ⟨hbinds, h1, h6⟩ := bindsAt_of_joinsAt hj
  have hlt := hspelled.length_lt
  have hlt' := hright.length_lt
  simp only [List.length_cons] at hlt
  refine .of_arrives (.inl ⟨h1, h6⟩) fun depth hdepth hs Q hq =>
    h.arrives (.inl ⟨h1, h6⟩) depth hdepth (.cons fun l hl => ?_) Q fun left' hleft => .turn ?_
  · obtain rfl := Option.some.inj (hbinds.symm.trans hl)
    exact Nat.lt_succ_self k
  · rw [levelNext, if_neg (by omega)]
    refine .acceptIf? hj (.bind ((hr.takes depth (by omega) hs).mono fun right' ws ⟨he, hw⟩ => ?_))
    subst hw
    refine .pure ⟨_, rfl, ?_, hq _ ?_⟩
    · simp only [List.length_cons]
      omega
    · unfold Expr.Like at hleft he ⊢
      unfold joined
      split <;> simp only [Expr.relabel, hleft, he]

theorem complete_assign {node : NodeId} {name equals : Token} {value : Expr}
    (hn : name.kind = .identifier) (heq : equals.kind = .equal)
    (hspelled : SpellsExpr (.expr 0 value) ts us) (h : Complete 0 value ts us) :
    Complete 0 (.assign ⟨node, name⟩ value) (name :: equals :: ts) us := by
  refine .of_takes (.inl rfl) fun depth hdepth hs => ?_
  simp only [List.length_cons] at hdepth
  have htarget : Complete 1 (.variable ⟨node, name⟩) (name :: equals :: ts) (equals :: ts) :=
    (complete_occurrence hn).lower (.occurrence hn) (by decide) (by decide)
  refine .bind ((htarget.takes depth hdepth (.cons (by simp [heq, bindsAt]))).mono
    fun target vs ⟨ht, hv⟩ => ?_)
  subst hv
  refine .acceptIf? (by simp [heq]) (.bind ((h.nested hspelled (by omega) hs).mono
    fun value' ws ⟨he, hw⟩ => ?_))
  obtain ⟨node', rfl⟩ := ht.of_variable
  refine .freshNode fun _ => .pure ⟨?_, hw⟩
  simp only [Expr.Like, Expr.relabel] at he ⊢
  rw [he]
  rfl

theorem complete_set {object value : Expr} {dot name equals : Token} {vs : List Token}
    (hobject : SpellsExpr (.expr 8 object) ts (dot :: name :: equals :: us))
    (ho : Complete 8 object ts (dot :: name :: equals :: us)) (hd : dot.kind = .dot)
    (hn : name.kind = .identifier) (heq : equals.kind = .equal)
    (hspelled : SpellsExpr (.expr 0 value) us vs) (h : Complete 0 value us vs) :
    Complete 0 (.set object name value) ts vs := by
  refine .of_takes (.inl rfl) fun depth hdepth hs => ?_
  have hlt := hobject.length_lt
  simp only [List.length_cons] at hlt
  have htarget : Complete 1 (.get object name) ts (equals :: us) :=
    (complete_get ho hd hn).lower (.get hobject hd hn) (by decide) (by decide)
  refine .bind ((htarget.takes depth hdepth (.cons (by simp [heq, bindsAt]))).mono
    fun target ws ⟨ht, hw⟩ => ?_)
  subst hw
  refine .acceptIf? (by simp [heq]) (.bind ((h.nested hspelled (by omega) hs).mono
    fun value' xs ⟨he, hx⟩ => ?_))
  obtain ⟨object', rfl, hobject'⟩ := ht.of_get
  refine .pure ⟨?_, hx⟩
  simp only [Expr.Like, Expr.relabel] at he hobject' ⊢
  rw [he, hobject']

theorem complete {p : ExprPhrase} (h : SpellsExpr p ts us) :
    match p with
    | .expr k e => Complete k e ts us
    | .items es => ∀ depth, ts.length ≤ depth → Stops 0 us →
      Listed (TakesItem (Expr.relabel .anonymous) (expressionUpTo depth)) ts es us := by
  induction h with
  | looser hk h ih => exact .looser hk h ih
  | assign hn heq h ih => exact complete_assign hn heq h ih
  | set ho hd hn heq h ih ih' => exact complete_set ho ih hd hn heq h ih'
  | join h hj hr ih ih' => exact complete_join h ih hj hr ih'
  | unary ho _ ih => exact complete_unary ho ih
  | call _ ho hp ih => exact complete_call ih ho hp
  | callWith h ho ha hp hlen ih ih' => exact complete_callWith h ih ho ha ih' hp hlen
  | get _ hd hn ih => exact complete_get ih hd hn
  | constant hc => exact complete_constant hc
  | inherited hk hd hm => exact complete_inherited hk hd hm
  | receiver hk => exact complete_receiver hk
  | occurrence hn => exact complete_occurrence hn
  | group ho h hc ih => exact complete_group ho h ih hc
  | one h ih => exact fun depth hdepth hs => .one ⟨h.length_lt, ih.nested h hdepth hs⟩
  | more hes hk h ih ih' =>
    intro depth hdepth hs
    have hlt := hes.length_lt
    simp only [List.length_cons] at hlt
    exact .more (ih depth hdepth (.of_none (by rw [hk]; rfl))) hk
      ⟨h.length_lt, ih'.nested h (by omega) hs⟩

/-- An expression is read up to a token that does not continue it. -/
theorem takes_expression (h : SpellsExpr (.expr 0 e) ts us) (hs : Stops 0 us) :
    Takes expression ts fun e' vs => e'.Like e ∧ vs = us :=
  .sized (f := fun n => expressionUpTo (n + 1)) ((complete h).nested h (Nat.le_succ _) hs)

end

end Grammar

end Lox
