import Lox.Proofs.Grammar.Completeness.Statement

/-! The stretch of tokens that a phrase takes up.

What a phrase is does not depend on what stands behind it: the tokens that spell it spell it before
any others too. Only statements have loops in them, so the stretch of any smaller phrase has no
`for` in it. -/

namespace Lox.Grammar

/-- No loop with a header of three parts begins here. -/
def Forless (ts : List Token) : Prop := ∀ t ∈ ts, t.kind ≠ .kwFor

@[simp] theorem forless_nil : Forless [] := by simp [Forless]

@[simp] theorem forless_cons {t : Token} {ts : List Token} :
    Forless (t :: ts) ↔ t.kind ≠ .kwFor ∧ Forless ts := by simp [Forless]

@[simp] theorem forless_append {ts us : List Token} :
    Forless (ts ++ us) ↔ Forless ts ∧ Forless us := by
  simp [Forless, or_imp, forall_and]

/-- A stretch of tokens is spelled here, and spelled alike before any other tokens. -/
def Stretches (S : List Token → List Token → Prop) (ts us : List Token) : Prop :=
  ∃ own, ts = own ++ us ∧ ∀ vs, S (own ++ vs) vs

/-- The same of a stretch without loops. -/
def ForlessStretch (S : List Token → List Token → Prop) (ts us : List Token) : Prop :=
  ∃ own, ts = own ++ us ∧ Forless own ∧ ∀ vs, S (own ++ vs) vs

section Expressions

variable {ts us : List Token}

theorem ForlessStretch.stretches {S : List Token → List Token → Prop}
    (h : ForlessStretch S ts us) : Stretches S ts us := by
  obtain ⟨own, hts, -, hown⟩ := h
  exact ⟨own, hts, hown⟩

theorem forless_of_begins {k : TokenKind} (h : beginsExpression k = true) : k ≠ .kwFor := by
  rintro rfl
  cases h

theorem forless_of_joinsAt {level : Nat} {k : TokenKind} (h : joinsAt level k = true) :
    k ≠ .kwFor := by
  rintro rfl
  cases (bindsAt_of_joinsAt h).1

theorem SpellsExpr.stretches {p : ExprPhrase} (h : SpellsExpr p ts us) :
    ForlessStretch (SpellsExpr p) ts us := by
  induction h with
  | looser hk _ ih =>
    obtain ⟨own, rfl, hfor, hown⟩ := ih
    exact ⟨own, rfl, hfor, fun vs => .looser hk (hown vs)⟩
  | @assign _ name equals _ _ _ hn heq _ ih =>
    obtain ⟨own, rfl, hfor, hown⟩ := ih
    exact ⟨name :: equals :: own, rfl, by simp [hn, heq, hfor], fun vs => .assign hn heq (hown vs)⟩
  | @set _ _ dot name equals _ _ _ _ hd hn heq _ ih ih' =>
    obtain ⟨own, rfl, hfor, hown⟩ := ih
    obtain ⟨own', rfl, hfor', hown'⟩ := ih'
    refine ⟨own ++ dot :: name :: equals :: own', by simp, by simp [*], fun vs => ?_⟩
    have hobject := hown (dot :: name :: equals :: (own' ++ vs))
    simpa using SpellsExpr.set hobject hd hn heq (hown' vs)
  | @join _ _ _ operator _ _ _ _ hj _ ih ih' =>
    obtain ⟨own, rfl, hfor, hown⟩ := ih
    obtain ⟨own', rfl, hfor', hown'⟩ := ih'
    refine ⟨own ++ operator :: own', by simp, by simp [forless_of_joinsAt hj, *], fun vs => ?_⟩
    simpa using SpellsExpr.join (hown (operator :: (own' ++ vs))) hj (hown' vs)
  | @unary operator _ _ _ ho _ ih =>
    obtain ⟨own, rfl, hfor, hown⟩ := ih
    have hkind := forless_of_begins (beginsExpression_of_unary ho)
    exact ⟨operator :: own, rfl, by simp [hkind, hfor], fun vs => .unary ho (hown vs)⟩
  | @call _ opening paren _ _ _ ho hp ih =>
    obtain ⟨own, rfl, hfor, hown⟩ := ih
    refine ⟨own ++ [opening, paren], by simp, by simp [*], fun vs => ?_⟩
    simpa using SpellsExpr.call (hown (opening :: paren :: vs)) ho hp
  | @callWith _ opening paren _ _ _ _ _ ho _ hp hlen ih ih' =>
    obtain ⟨own, rfl, hfor, hown⟩ := ih
    obtain ⟨own', rfl, hfor', hown'⟩ := ih'
    refine ⟨own ++ opening :: (own' ++ [paren]), by simp, by simp [*], fun vs => ?_⟩
    have hcallee := hown (opening :: (own' ++ paren :: vs))
    simpa using SpellsExpr.callWith hcallee ho (hown' (paren :: vs)) hp hlen
  | @get _ dot name _ _ _ hd hn ih =>
    obtain ⟨own, rfl, hfor, hown⟩ := ih
    refine ⟨own ++ [dot, name], by simp, by simp [*], fun vs => ?_⟩
    simpa using SpellsExpr.get (hown (dot :: name :: vs)) hd hn
  | @constant t _ _ hc =>
    have hkind := forless_of_begins (beginsExpression_of_constantAt? hc)
    exact ⟨[t], rfl, by simp [hkind], fun _ => .constant hc⟩
  | @inherited _ keyword dot method _ hk hd hm =>
    exact ⟨[keyword, dot, method], rfl, by simp [*], fun _ => .inherited hk hd hm⟩
  | @receiver _ keyword _ hk => exact ⟨[keyword], rfl, by simp [hk], fun _ => .receiver hk⟩
  | @occurrence _ name _ hn => exact ⟨[name], rfl, by simp [hn], fun _ => .occurrence hn⟩
  | @group opening closing _ _ _ ho _ hc ih =>
    obtain ⟨own, rfl, hfor, hown⟩ := ih
    refine ⟨opening :: (own ++ [closing]), by simp, by simp [*], fun vs => ?_⟩
    simpa using SpellsExpr.group ho (hown (closing :: vs)) hc
  | one _ ih =>
    obtain ⟨own, rfl, hfor, hown⟩ := ih
    exact ⟨own, rfl, hfor, fun vs => .one (hown vs)⟩
  | @more _ _ comma _ _ _ _ hk _ ih ih' =>
    obtain ⟨own, rfl, hfor, hown⟩ := ih
    obtain ⟨own', rfl, hfor', hown'⟩ := ih'
    refine ⟨own ++ comma :: own', by simp, by simp [*], fun vs => ?_⟩
    simpa using SpellsExpr.more (hown (comma :: (own' ++ vs))) hk (hown' vs)

theorem SpellsOption.stretches {e : Option Expr} (h : SpellsOption e ts us) :
    ForlessStretch (SpellsOption e) ts us := by
  cases e with
  | none => exact ⟨[], h, by simp, fun _ => rfl⟩
  | some e => exact SpellsExpr.stretches h

theorem SpellsSuperclass.stretches {r : Option Reference} (h : SpellsSuperclass r ts us) :
    ForlessStretch (SpellsSuperclass r) ts us := by
  cases r with
  | none => exact ⟨[], h, by simp, fun _ => rfl⟩
  | some r =>
    obtain ⟨less, hless, hname, rfl⟩ := h
    exact ⟨[less, r.name], rfl, by simp [*], fun _ => ⟨less, hless, hname, rfl⟩⟩

theorem SpellsVariable.stretches {s : Stmt} (h : SpellsVariable s ts us) :
    ForlessStretch (SpellsVariable s) ts us := by
  cases h with
  | @bare name closing _ hn hc =>
    exact ⟨[name, closing], rfl, by simp [*], fun _ => .bare hn hc⟩
  | @initialized name equals closing _ _ _ hn heq he hc =>
    obtain ⟨own, rfl, hfor, hown⟩ := he.stretches
    refine ⟨name :: equals :: (own ++ [closing]), by simp, by simp [*], fun vs => ?_⟩
    simpa using SpellsVariable.initialized hn heq (hown (closing :: vs)) hc

theorem SpellsInitializer.stretches {s : Option Stmt} (h : SpellsInitializer s ts us) :
    ForlessStretch (SpellsInitializer s) ts us := by
  cases h with
  | @none closing _ hc => exact ⟨[closing], rfl, by simp [hc], fun _ => .none hc⟩
  | @varDecl keyword _ _ _ hk hs =>
    obtain ⟨own, rfl, hfor, hown⟩ := hs.stretches
    exact ⟨keyword :: own, rfl, by simp [hk, hfor], fun vs => .varDecl hk (hown vs)⟩
  | @expression _ closing _ _ he hc =>
    obtain ⟨own, rfl, hfor, hown⟩ := he.stretches
    refine ⟨own ++ [closing], by simp, by simp [*], fun vs => ?_⟩
    simpa using SpellsInitializer.expression (hown (closing :: vs)) hc

theorem SpellsParameters.stretches {params : List Token} (h : SpellsParameters params ts us) :
    ForlessStretch (SpellsParameters params) ts us := by
  rcases h with ⟨rfl, rfl⟩ | ⟨h, hlen⟩
  · exact ⟨[], rfl, by simp, fun _ => .inl ⟨rfl, rfl⟩⟩
  · suffices ForlessStretch (fun ts us => Listed SpellsParameter ts params us) ts us by
      obtain ⟨own, hts, hfor, hown⟩ := this
      exact ⟨own, hts, hfor, fun vs => .inr ⟨hown vs, hlen⟩⟩
    clear hlen
    induction h with
    | @one name _ _ h =>
      obtain ⟨hk, rfl⟩ := h
      exact ⟨[name], rfl, by simp [hk], fun _ => .one ⟨hk, rfl⟩⟩
    | @more _ name comma _ _ _ _ hcomma h ih =>
      obtain ⟨hk, rfl⟩ := h
      obtain ⟨own, rfl, hfor, hown⟩ := ih
      refine ⟨own ++ [comma, name], by simp, by simp [*], fun vs => ?_⟩
      simpa using Listed.more (hown (comma :: name :: vs)) hcomma ⟨hk, rfl⟩

end Expressions

theorem Spells.stretches {p : Phrase} {ts us : List Token} (h : Spells p ts us) :
    Stretches (Spells p) ts us := by
  induction h with
  | @expression _ closing _ _ he hc =>
    obtain ⟨own, rfl, -, hown⟩ := he.stretches
    refine ⟨own ++ [closing], by simp, fun vs => ?_⟩
    simpa using Spells.expression (hown (closing :: vs)) hc
  | @print keyword closing _ _ _ hk he hc =>
    obtain ⟨own, rfl, -, hown⟩ := he.stretches
    refine ⟨keyword :: (own ++ [closing]), by simp, fun vs => ?_⟩
    simpa using Spells.print hk (hown (closing :: vs)) hc
  | @returning keyword closing _ _ _ hk he hc =>
    obtain ⟨own, rfl, -, hown⟩ := he.stretches
    refine ⟨keyword :: (own ++ [closing]), by simp, fun vs => ?_⟩
    simpa using Spells.returning hk (hown (closing :: vs)) hc
  | @breaking keyword closing _ hk hc =>
    exact ⟨[keyword, closing], rfl, fun _ => .breaking hk hc⟩
  | @continuing keyword closing _ hk hc =>
    exact ⟨[keyword, closing], rfl, fun _ => .continuing hk hc⟩
  | @block opening closing _ _ _ ho _ hc ih =>
    obtain ⟨own, rfl, hown⟩ := ih
    refine ⟨opening :: (own ++ [closing]), by simp, fun vs => ?_⟩
    simpa using Spells.block ho (hown (closing :: vs)) hc
  | @ifThen keyword opening closing _ _ _ _ _ _ hk ho he hc _ ih =>
    obtain ⟨own, rfl, -, hown⟩ := he.stretches
    obtain ⟨own', rfl, hown'⟩ := ih
    refine ⟨keyword :: opening :: (own ++ closing :: own'), by simp, fun vs => ?_⟩
    simpa using Spells.ifThen hk ho (hown (closing :: (own' ++ vs))) hc (hown' vs)
  | @ifElse keyword opening closing other _ _ _ _ _ _ _ _ hk ho he hc _ hother _ ih ih' =>
    obtain ⟨own, rfl, -, hown⟩ := he.stretches
    obtain ⟨own', rfl, hown'⟩ := ih
    obtain ⟨own'', rfl, hown''⟩ := ih'
    refine ⟨keyword :: opening :: (own ++ closing :: (own' ++ other :: own'')), by simp,
      fun vs => ?_⟩
    have hcondition := hown (closing :: (own' ++ other :: (own'' ++ vs)))
    simpa using Spells.ifElse hk ho hcondition hc (hown' (other :: (own'' ++ vs))) hother
      (hown'' vs)
  | @whileLoop keyword opening closing _ _ _ _ _ _ hk ho he hc _ ih =>
    obtain ⟨own, rfl, -, hown⟩ := he.stretches
    obtain ⟨own', rfl, hown'⟩ := ih
    refine ⟨keyword :: opening :: (own ++ closing :: own'), by simp, fun vs => ?_⟩
    simpa using Spells.whileLoop hk ho (hown (closing :: (own' ++ vs))) hc (hown' vs)
  | @forLoop keyword opening closing closing' _ _ _ _ _ _ _ _ _ _ hk ho hi hcond hc hn hc' _ ih =>
    obtain ⟨first, rfl, -, hfirst⟩ := hi.stretches
    obtain ⟨own, rfl, -, hown⟩ := hcond.stretches
    obtain ⟨own', rfl, -, hown'⟩ := hn.stretches
    obtain ⟨own'', rfl, hown''⟩ := ih
    refine ⟨keyword :: opening :: (first ++ (own ++ closing :: (own' ++ closing' :: own''))),
      by simp, fun vs => ?_⟩
    have hincrement := hown' (closing' :: (own'' ++ vs))
    have hcondition := hown (closing :: (own' ++ closing' :: (own'' ++ vs)))
    simpa using Spells.forLoop hk ho (hfirst _) hcondition hc hincrement hc' (hown'' vs)
  | @varDecl keyword _ _ _ hk hs =>
    obtain ⟨own, rfl, -, hown⟩ := hs.stretches
    exact ⟨keyword :: own, rfl, fun vs => .varDecl hk (hown vs)⟩
  | @function keyword _ _ _ hk _ ih =>
    obtain ⟨own, rfl, hown⟩ := ih
    exact ⟨keyword :: own, rfl, fun vs => .function hk (hown vs)⟩
  | @classDecl keyword name opening closing _ _ _ _ _ hk hn hs ho _ hc ih =>
    obtain ⟨own, rfl, -, hown⟩ := hs.stretches
    obtain ⟨own', rfl, hown'⟩ := ih
    refine ⟨keyword :: name :: (own ++ opening :: (own' ++ [closing])), by simp, fun vs => ?_⟩
    have hheader := hown (opening :: (own' ++ closing :: vs))
    simpa using Spells.classDecl hk hn hheader ho (hown' (closing :: vs)) hc
  | statement _ ih =>
    obtain ⟨own, rfl, hown⟩ := ih
    exact ⟨own, rfl, fun vs => .statement (hown vs)⟩
  | none => exact ⟨[], rfl, fun _ => .none⟩
  | more _ _ ih ih' =>
    obtain ⟨own, rfl, hown⟩ := ih
    obtain ⟨own', rfl, hown'⟩ := ih'
    refine ⟨own ++ own', by simp, fun vs => ?_⟩
    simpa using Spells.more (hown (own' ++ vs)) (hown' vs)
  | @callable name opening closing opening' closing' _ _ _ _ _ hn ho hp hc ho' _ hc' ih =>
    obtain ⟨own, rfl, -, hown⟩ := hp.stretches
    obtain ⟨own', rfl, hown'⟩ := ih
    refine ⟨name :: opening :: (own ++ closing :: opening' :: (own' ++ [closing'])), by simp,
      fun vs => ?_⟩
    have hparams := hown (closing :: opening' :: (own' ++ closing' :: vs))
    simpa using Spells.callable hn ho hparams hc ho' (hown' (closing' :: vs)) hc'
  | noMethods => exact ⟨[], rfl, fun _ => .noMethods⟩
  | moreMethods _ _ ih ih' =>
    obtain ⟨own, rfl, hown⟩ := ih
    obtain ⟨own', rfl, hown'⟩ := ih'
    refine ⟨own ++ own', by simp, fun vs => ?_⟩
    simpa using Spells.moreMethods (hown (own' ++ vs)) (hown' vs)

/-- The tokens of a phrase spell it wherever they stand. -/
theorem Stretches.moved {S : List Token → List Token → Prop} {own us : List Token}
    (h : Stretches S (own ++ us) us) (vs : List Token) : S (own ++ vs) vs := by
  obtain ⟨own', hown, hspelled⟩ := h
  obtain rfl := List.append_cancel_right hown
  exact hspelled vs

end Lox.Grammar
