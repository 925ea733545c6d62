import Lox.Proofs.Grammar.Prediction
import Lox.Proofs.Grammar.Recognition

/-! Expressions are predicted.

At every level of binding the parser predicts the words of that level before continuations that do
not begin with a token that binds at the level or tighter. A loop over operators stops just before
what cannot go on. -/

namespace Lox.Grammar

open Lox.Parser Ebnf
open scoped Computability

/-- Nothing that binds at this level or tighter comes behind. -/
def Behind (k : Nat) : Language Token → Prop := Heads fun kind => ∀ l ∈ bindsAt kind, l < k

theorem Behind.weaken {k l : Nat} {K : Language Token} (h : Behind k K) (hkl : k ≤ l) :
    Behind l K :=
  h.mono fun _ hk m hm => Nat.lt_of_lt_of_le (hk m hm) hkl

theorem behind_single {k : Nat} {kind : TokenKind} (hk : bindsAt kind = none)
    (K : Language Token) : Behind k (single (· = kind) * K) :=
  heads_token (by simp [hk]) K

/-- The words of the expressions of a level. -/
abbrev levelWords (k : Nat) : Language Token := lang (.rule (levelRule k))

abbrev expressionWords : Language Token := lang (.rule .expression)

theorem expressionWords_eq : expressionWords = levelWords 0 := lang_rule .expression

def isAtom : TokenKind → Bool
  | .number | .string | .kwTrue | .kwFalse | .kwNil | .kwThis | .identifier => true
  | _ => false

theorem levelWords_primary : levelWords 9 = single (isAtom · = true) +
    single (· = .leftParen) * (expressionWords * single (· = .rightParen)) +
    single (· = .kwSuper) * (single (· = .dot) * single (· = .identifier)) := by
  have hatoms : (fun k => isAtom k = true) = fun k => ((((((k = .number ∨ k = .string) ∨
      k = .kwTrue) ∨ k = .kwFalse) ∨ k = .kwNil) ∨ k = .kwThis) ∨ k = .identifier) := by
    funext k
    cases k <;> simp [isAtom]
  rw [hatoms, levelWords, lang_rule]
  simp only [levelRule, relaxed, unlimited, rules, lang_or, lang_append, lang_token, single_add,
    mul_assoc]

theorem levelWords_call : levelWords 8 = levelWords 9 *
    (single (· = .leftParen) * ((1 + lang (.rule .arguments)) * single (· = .rightParen)) +
      single (· = .dot) * single (· = .identifier))∗ := by
  rw [levelWords, lang_rule]
  simp only [levelRule, relaxed, unlimited, rules, lang_or, lang_append, lang_token, lang_many,
    lang_optional, mul_assoc]
  rfl

/-- Operators in front of a call. -/
theorem levelWords_unary :
    levelWords 7 = (single (isUnaryOperator · = true))∗ * levelWords 8 := by
  have hoperators : (fun k => isUnaryOperator k = true) = fun k => k = .bang ∨ k = .minus := by
    funext k
    simp [isUnaryOperator]
  have hrule : levelWords 7 = single (isUnaryOperator · = true) * levelWords 7 + levelWords 8 := by
    rw [hoperators]
    conv => lhs; rw [levelWords, lang_rule]
    simp only [levelRule, relaxed, unlimited, rules, lang_or, lang_append, lang_token, single_add]
    rfl
  exact (Language.self_eq_mul_add_iff (by simp [mem_single])).mp hrule

theorem lang_operatorsAt {k : Nat} (h1 : 1 ≤ k) (h6 : k ≤ 6) :
    lang (operatorsAt k) = single (joinsAt k · = true) := by
  obtain rfl | rfl | rfl | rfl | rfl | rfl :
    k = 1 ∨ k = 2 ∨ k = 3 ∨ k = 4 ∨ k = 5 ∨ k = 6 := by omega
  all_goals
    simp only [operatorsAt, lang_or, lang_token, single_add, joinsAt, isEqualityOperator,
      isComparisonOperator, isTermOperator, isFactorOperator, Bool.or_eq_true, beq_iff_eq]

theorem levelWords_join {k : Nat} (h1 : 1 ≤ k) (h6 : k ≤ 6) : levelWords k =
    levelWords (k + 1) * (single (joinsAt k · = true) * levelWords (k + 1))∗ := by
  have hrelaxed : relaxed (levelRule k) = rules (levelRule k) := by
    obtain rfl | rfl | rfl | rfl | rfl | rfl :
      k = 1 ∨ k = 2 ∨ k = 3 ∨ k = 4 ∨ k = 5 ∨ k = 6 := by omega
    all_goals rfl
  rw [levelWords, lang_rule, hrelaxed, rules_levelRule h1 h6, lang_append, lang_many, lang_append,
    lang_operatorsAt h1 h6]

theorem levelWords_assignment :
    levelWords 0 = levelWords 1 * (1 + single (· = .equal) * levelWords 0) := by
  conv => lhs; rw [levelWords, lang_rule]
  simp only [levelRule, relaxed, lang_append, lang_token, lang_optional]
  rfl

theorem argumentWords : lang (.rule .arguments) =
    expressionWords * (single (· = .comma) * expressionWords)∗ := by
  rw [lang_rule]
  simp only [relaxed, unlimited, lang_append, lang_token, lang_many]

section Lists

variable {α : Type} {n : Nat} {item : Parser α} {Admits : Language Token → Prop}
  {I : Language Token}

/-- Items with commas between them, up to a closing parenthesis. -/
theorem predicts_commaSeparated (hfrugal : Frugal 0 item item) (h : Predicts True n Admits I item)
    (hA : ∀ K, Heads (fun k => k = .comma ∨ k = .rightParen) K → Admits K) (tooMany : ParseFault)
    (hmild : tooMany.isMild = true) :
    Predicts True n (Heads (· = .rightParen)) (I * (single (· = .comma) * I)∗)
      (commaSeparated item tooMany) := by
  have hcomma : Heads (fun k => ¬k ≠ .comma) (single (· = .comma) * I) :=
    heads_token (not_not_intro rfl) I
  have hbehind (K : Language Token) (hK : Heads (· = .rightParen) K) :
      Admits ((single (· = .comma) * I)∗ * K) :=
    hA _ ((heads_token (.inl rfl) I).kstar (hK.mono fun _ => .inr))
  rw [commaSeparated_eq]
  refine h.before hbehind fun first => Predicts.silently ?_ fun items => .pure _
  refine .iterate (S := (· ≠ .comma)) (exhausts_listNext hfrugal tooMany) (by decide) hcomma
    (fun K hK => hK.mono fun k hk => by simp [hk]) hbehind
    (fun items c hk => Predicted.accept_skip hk) (fun items c hf hn hk => ?_) #[first]
  replace hk : c.peek.kind = .comma := Decidable.not_not.mp hk
  obtain ⟨rest, hc⟩ := Predicted.pending_of_peek hf (by simp [hk])
  have hn' : rest.length < n := by
    rw [hc, List.length_cons] at hn
    omega
  have hitem (d : Cursor) (hp : d.pending = rest) (hf' : d.finish = c.finish) :
      Predicted True Admits I d ((item >>= fun a => pure (some (items.push a))) d) :=
    (h d (hf' ▸ hf) (hp ▸ hn')).silently fun _ => .pure _
  rw [listNext, Predicted.accept_read hc hk]
  split
  · constructor
    · refine .token hc hk (.behind .peek fun t d hp hf' => .behind (.record t hmild)
        fun _ e hp' hf'' => ?_)
      exact hitem e (hp'.trans hp) (hf''.trans hf')
    · exact GoesOn.bind (fun _ => .bind fun _ => .bind fun _ => .pure _) _
  · exact ⟨.token hc hk (hitem _ rfl rfl), GoesOn.bind (fun _ => .pure _) _⟩

end Lists

section Levels

variable {n : Nat} {nested : Parser Expr}

theorem predicts_primary (h : Predicts True n (Behind 0) expressionWords nested) :
    Predicts True (n + 1) Any (levelWords 9) (primary nested) := by
  intro c hf hn
  have hrest {rest : List Token} (hc : c.pending = c.peek :: rest) : rest.length < n := by
    rw [hc, List.length_cons] at hn
    omega
  have hother {k k' : TokenKind} (Y : Language Token) (hk : c.peek.kind = k') (hne : k ≠ k') :
      Heads (· ≠ c.peek.kind) (single (· = k) * Y) :=
    heads_token (hk ▸ hne) Y
  have hatom {g : Unit → Parser Expr} (hk : isAtom c.peek.kind = true) (hg : ∀ u, Silent (g u)) :
      Predicted True Any (single (isAtom · = true)) c ((advance >>= g) c) := by
    rw [← mul_one (single _)]
    refine .advance hf hk (fun he => ?_) fun _ _ => .of_silent (hg ())
    rw [he] at hk
    cases hk
  have hnot {k : TokenKind} (Y : Language Token) (hk : isAtom c.peek.kind = true)
      (hne : isAtom k = false) : Heads (· ≠ c.peek.kind) (single (· = k) * Y) := by
    refine heads_token (fun he => ?_) Y
    rw [← he, hne] at hk
    cases hk
  rw [levelWords_primary]
  refine .peek ?_
  split
  case h_6 hk =>
    refine .right (.advance hf hk (by simp [hk]) fun rest hc => ?_) ?_
    · refine .expect rfl hf fun dot rest' hc' => ?_
      exact .expected rfl hf fun _ => Silent.freshNode.bind fun _ => .pure _
    · exact .add ((heads_single _).mono fun _ h he => by rw [he, hk] at h; cases h)
        (hother _ hk (by decide))
  case h_9 hk =>
    refine .left (.right (.advance hf hk (by simp [hk]) fun rest hc => ?_) ?_)
      (hother _ hk (by decide))
    · refine (h { c with pending := rest } hf (hrest hc)).before (fun K _ => ?_)
        fun inner d us hpending _ hfinish => ?_
      · exact behind_single rfl K
      · exact .expected rfl (hfinish ▸ hf) fun _ => .pure _
    · exact (heads_single _).mono fun _ h he => by rw [he, hk] at h; cases h
  case h_10 =>
    rw [← levelWords_primary]
    refine .fail rfl fun K _ w hw => ((heads_rule .primary).mul K).not_mem hw ?_
    cases hk : c.peek.kind <;> simp_all [heads, beginsExpression, isUnaryOperator]
  all_goals
    rename_i hk
    have hk' : isAtom c.peek.kind = true := by rw [hk]; rfl
    refine .left (.left (hatom hk' fun _ => ?_) (hnot _ hk' rfl)) (hnot _ hk' rfl)
  · exact .pure _
  · exact .pure _
  · exact .pure _
  · exact .pure _
  · exact .pure _
  · exact Silent.freshNode.bind fun _ => .pure _
  · exact Silent.freshNode.bind fun _ => .pure _

/-- The words of one call or property access. -/
abbrev suffixWords : Language Token :=
  single (· = .leftParen) * ((1 + lang (.rule .arguments)) * single (· = .rightParen)) +
    single (· = .dot) * single (· = .identifier)

theorem predicts_arguments (hfrugal : Frugal 0 nested nested)
    (h : Predicts True n (Behind 0) expressionWords nested) :
    Predicts True n (Heads (· = .rightParen)) (1 + lang (.rule .arguments)) (arguments nested) := by
  have hlist := predicts_commaSeparated hfrugal h (fun K hK => hK.mono fun k hk => by
    rcases hk with rfl | rfl <;> simp [bindsAt]) .tooManyArguments rfl
  exact .or_nothing (by decide) (heads_ne rfl) (argumentWords ▸ hlist) []

theorem predicts_call (hfrugal : Frugal 0 nested nested)
    (h : Predicts True n (Behind 0) expressionWords nested) :
    Predicts True (n + 1) (Behind 8) (levelWords 8) (call nested) := by
  have hsuffix : Heads (fun k => ¬(k ≠ .leftParen ∧ k ≠ .dot)) suffixWords :=
    .add (heads_token (by simp) _) (heads_token (by simp) _)
  rw [levelWords_call]
  refine (predicts_primary h).beyond ((heads_rule .primary).mono fun _ _ => trivial)
    (fun _ _ => trivial) fun e => ?_
  refine Predicts.iterate (S := fun k => k ≠ .leftParen ∧ k ≠ .dot) (B := Any)
    (exhausts_levelNext hfrugal 8) (by decide) hsuffix ?_ (fun _ _ => trivial) ?_ ?_ e
  · refine fun K hK => hK.mono fun k hk => ?_
    constructor <;> rintro rfl <;> exact absurd (hk 8 rfl) (Nat.lt_irrefl 8)
  · intro e c hk
    exact (Predicted.accept_skip hk.1).trans (Predicted.accept_skip hk.2)
  · intro e c hf hn hk
    have hrest {t : Token} {rest : List Token} (hc : c.pending = t :: rest) : rest.length < n := by
      rw [hc, List.length_cons] at hn
      exact Nat.lt_of_succ_lt hn
    by_cases hp : c.peek.kind = .leftParen
    · obtain ⟨rest, hc⟩ := Predicted.pending_of_peek hf (by simp [hp])
      have hturn : levelNext nested 8 e c = _ := Predicted.accept_read hc hp
      rw [hturn]
      refine ⟨.left (.token hc hp ?_) ?_, GoesOn.bind (fun _ => .bind fun _ => .pure _) _⟩
      · refine (predicts_arguments hfrugal h).before (fun K _ => (heads_single _).mul K)
          (fun args => ?_) { c with pending := rest } hf (hrest hc)
        exact .expected rfl fun _ => .pure _
      · exact heads_token (by simp [hp]) _
    · have hd : c.peek.kind = .dot := by
        by_contra hd
        exact hk ⟨hp, hd⟩
      obtain ⟨rest, hc⟩ := Predicted.pending_of_peek hf (by simp [hd])
      have hturn : levelNext nested 8 e c = _ :=
        (Predicted.accept_skip hp).trans (Predicted.accept_read hc hd)
      rw [hturn]
      refine ⟨.right (.token hc hd (.expected rfl hf fun _ => .pure _)) ?_,
        GoesOn.bind (fun _ => .pure _) _⟩
      exact heads_token (by simp [hd]) _

theorem predicts_unaryOperators (n : Nat) :
    Predicts True n (Heads (isUnaryOperator · = false)) (single (isUnaryOperator · = true))∗
      unaryOperators := by
  refine Predicts.iterate (S := fun k => isUnaryOperator k = false) (B := Any) exhausts_unaryNext
    rfl ((heads_single _).mono fun k hk => by simp [hk]) (fun _ h => h) (fun _ _ => trivial)
    (fun operators c hk => Predicted.acceptIf?_skip hk) (fun operators c hf _ hk => ?_) []
  have hk' : isUnaryOperator c.peek.kind = true := by simpa using hk
  obtain ⟨rest, hc⟩ := Predicted.pending_of_peek hf fun he => by
    rw [he] at hk'
    cases hk'
  have hturn : unaryNext operators c = _ := Predicted.acceptIf?_read hc hk'
  rw [hturn, ← mul_one (single _)]
  exact ⟨.token hc hk' (.pure _), by simp⟩

theorem predicts_unary (hfrugal : Frugal 0 nested nested)
    (h : Predicts True n (Behind 0) expressionWords nested) :
    Predicts True (n + 1) (Behind 7) (levelWords 7) (unary nested) := by
  rw [levelWords_unary]
  refine (predicts_unaryOperators (n + 1)).before (fun K _ => ?_) fun operators => ?_
  · refine ((heads_rule .call).mul K).mono fun k hk => ?_
    simpa [heads] using (Bool.and_eq_true_iff.mp hk).2
  · exact ((predicts_call hfrugal h).silently fun _ => .pure _).fewer
      fun K hK => hK.weaken (by decide)

/-- Operands with operators of the level between them. -/
theorem predicts_join {k : Nat} (h1 : 1 ≤ k) (h6 : k ≤ 6) (hfrugal : Frugal 0 nested nested)
    (h : Predicts True n (Behind (k + 1)) (levelWords (k + 1)) (atLevel nested (k + 1))) :
    Predicts True n (Behind k) (levelWords k) (atLevel nested k) := by
  have hoperators : Heads (fun kind => ¬joinsAt k kind = false)
      (single (joinsAt k · = true) * levelWords (k + 1)) :=
    ((heads_single _).mul _).mono fun kind hk => by simp [hk]
  have hbehind (K : Language Token) (hK : Behind k K) :
      Behind (k + 1) ((single (joinsAt k · = true) * levelWords (k + 1))∗ * K) := by
    refine Heads.kstar (((heads_single _).mul _).mono fun kind hk l hl => ?_)
      (hK.weaken (Nat.le_succ k))
    obtain rfl := Option.some.inj ((bindsAt_of_joinsAt hk).1.symm.trans hl)
    exact Nat.lt_succ_self k
  have hnext (left : Expr) : levelNext nested k left = acceptIf? (joinsAt k) >>= _ :=
    if_neg (show ¬k = 8 by omega)
  rw [atLevel_eq (.inl ⟨h1, h6⟩), levelWords_join h1 h6]
  refine h.before hbehind fun left => ?_
  refine Predicts.iterate (S := fun kind => joinsAt k kind = false) (B := Behind (k + 1))
    (exhausts_levelNext hfrugal k) ?_ hoperators ?_ hbehind ?_ ?_ left
  · cases hj : joinsAt k .eof with
    | false => rfl
    | true => cases (bindsAt_of_joinsAt hj).1
  · refine fun K hK => hK.mono fun kind hk => ?_
    cases hj : joinsAt k kind with
    | false => rfl
    | true => exact absurd (hk k (bindsAt_of_joinsAt hj).1) (Nat.lt_irrefl k)
  · intro left c hk
    rw [hnext]
    exact Predicted.acceptIf?_skip hk
  · intro left c hf hn hk
    have hk' : joinsAt k c.peek.kind = true := by simpa using hk
    obtain ⟨rest, hc⟩ := Predicted.pending_of_peek hf fun he => by
      rw [he] at hk'
      cases (bindsAt_of_joinsAt hk').1
    rw [hnext, Predicted.acceptIf?_read hc hk']
    refine ⟨.token hc hk' ((h { c with pending := rest } hf ?_).silently fun _ => .pure _),
      GoesOn.bind (fun _ => .pure _) _⟩
    rw [hc, List.length_cons] at hn
    exact Nat.lt_of_succ_lt hn

/-- Every level but that of assignments. -/
theorem predicts_atLevel (hfrugal : Frugal 0 nested nested)
    (h : Predicts True n (Behind 0) expressionWords nested) {k : Nat} (h1 : 1 ≤ k) (h7 : k ≤ 7) :
    Predicts True (n + 1) (Behind k) (levelWords k) (atLevel nested k) := by
  induction hd : 7 - k generalizing k with
  | zero =>
    obtain rfl : k = 7 := by omega
    exact predicts_unary hfrugal h
  | succ d ih => exact predicts_join h1 (by omega) hfrugal (ih (by omega) (by omega) (by omega))

theorem predicts_assignment (hfrugal : Frugal 0 nested nested)
    (h : Predicts True n (Behind 0) expressionWords nested) :
    Predicts True (n + 1) (Behind 0) expressionWords (assignment nested) := by
  have hequal (K : Language Token) (hK : Behind 0 K) :
      Behind 1 ((1 + single (· = .equal) * levelWords 0) * K) :=
    .optional (heads_token (by simp [bindsAt]) _)
      (hK.weaken (Nat.zero_le 1))
  rw [expressionWords_eq, levelWords_assignment]
  refine (predicts_atLevel hfrugal h (Nat.le_refl 1) (by decide)).beyond
    ((heads_rule .logicOr).mono fun _ _ => trivial) hequal fun target c hf hn => ?_
  by_cases hk : c.peek.kind = .equal
  · obtain ⟨rest, hc⟩ := Predicted.pending_of_peek hf (by simp [hk])
    rw [accept?, Predicted.acceptIf?_read hc (by simp [hk])]
    refine (Predicted.token hc hk ?_).among (fun us hus => .inr hus) fun K hK w hw hmem => ?_
    · rw [← expressionWords_eq]
      refine (h { c with pending := rest } hf ?_).silently fun value => ?_
      · rw [hc, List.length_cons] at hn
        exact Nat.lt_of_succ_lt hn
      · cases target with
        | «variable» r => exact Silent.freshNode.bind fun _ => .pure _
        | get object name => exact .pure _
        | _ => exact (Silent.record _ rfl).bind fun _ => .pure _
    · rw [add_mul, one_mul] at hmem
      refine hmem.resolve_left (hK.not_mem hw fun hb => ?_)
      exact absurd (hb 0 (by rw [hk]; rfl)) (Nat.lt_irrefl 0)
  · rw [accept?, Predicted.acceptIf?_skip (by simpa using hk)]
    exact (Predicted.pure _).left (heads_token (fun he => hk he.symm) _)

theorem predicts_expressionUpTo (depth : Nat) :
    Predicts True depth (Behind 0) expressionWords (expressionUpTo depth) := by
  induction depth with
  | zero => exact fun c _ hn => absurd hn (Nat.not_lt_zero _)
  | succ depth ih =>
    exact predicts_assignment
      (frugal_expressionUpTo depth depth 0 (Nat.zero_le _) (Nat.zero_le _)) ih

theorem predicts_expression (n : Nat) : Predicts True n (Behind 0) expressionWords expression :=
  fun c hf _ => predicts_expressionUpTo (c.pending.length + 1) c hf (Nat.lt_succ_self _)

end Levels

end Lox.Grammar
