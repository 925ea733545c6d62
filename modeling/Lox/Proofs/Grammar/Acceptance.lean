import Lox.Proofs.Grammar.Spelling
import Lox.Proofs.Program.Relabelling

/-! Parsers that take what stands before them.

A parser takes a list of tokens if from every cursor in front of them it yields a result and leaves
no error. A loop may be entered at any turn, with as many turns to spare as there are tokens. -/

namespace Lox

namespace Parser

variable {α β : Type}

def Takes (p : Parser α) (ts : List Token) (Q : α → List Token → Prop) : Prop :=
  ∀ c : Cursor, c.pending = ts →
    ∃ a d, p c = (some a, d) ∧ d.errors = c.errors ∧ Q a d.pending

namespace Takes

variable {p q : Parser α} {u : Parser β} {g : β → Parser α} {ts us : List Token}
  {Q : α → List Token → Prop} {t : Token}

theorem pure {a : α} (h : Q a ts) : Takes (pure a) ts Q := by
  rintro c rfl
  exact ⟨a, c, rfl, rfl, h⟩

theorem bind (h : Takes u ts fun b us => Takes (g b) us Q) : Takes (u >>= g) ts Q := by
  intro c hc
  obtain ⟨b, d, hb, herrors, hg⟩ := h c hc
  obtain ⟨a, e, ha, herrors', hq⟩ := hg d rfl
  refine ⟨a, e, ?_, herrors'.trans herrors, hq⟩
  rw [bind_apply, hb]
  exact ha

theorem mono {Q' : α → List Token → Prop} (h : Takes p ts Q) (hq : ∀ a us, Q a us → Q' a us) :
    Takes p ts Q' := by
  intro c hc
  obtain ⟨a, d, ha, herrors, hqa⟩ := h c hc
  exact ⟨a, d, ha, herrors, hq a d.pending hqa⟩

theorem map {f : β → α} (h : Takes u ts fun b us => Q (f b) us) : Takes (f <$> u) ts Q :=
  bind (h.mono fun _ _ hq => pure hq)

/-- The parser may be chosen by the tokens that are left. -/
theorem sized {f : Nat → Parser α} (h : Takes (f ts.length) ts Q) :
    Takes (fun c => f c.pending.length c) ts Q := by
  rintro c rfl
  exact h c rfl

theorem peek {g : Token → Parser α} (h : Takes (g t) (t :: ts) Q) :
    Takes (Parser.peek >>= g) (t :: ts) Q := by
  refine bind fun c hc => ⟨t, c, ?_, rfl, hc ▸ h⟩
  simp [Parser.peek, Cursor.peek, hc]

theorem advance {g : Unit → Parser α} (h : Takes (g ()) ts Q) :
    Takes (Parser.advance >>= g) (t :: ts) Q :=
  bind fun c hc => ⟨(), { c with pending := c.pending.tail }, rfl, rfl, by rw [hc]; exact h⟩

theorem freshNode {g : NodeId → Parser α} (h : ∀ n, Takes (g n) ts Q) :
    Takes (Parser.freshNode >>= g) ts Q :=
  bind fun c hc => ⟨⟨c.nextNode⟩, { c with nextNode := c.nextNode + 1 }, rfl, rfl, by
    rw [hc]
    exact h _⟩

theorem acceptIf? {wanted : TokenKind → Bool} {g : Option Token → Parser α}
    (hk : wanted t.kind = true) (h : Takes (g (some t)) ts Q) :
    Takes (Parser.acceptIf? wanted >>= g) (t :: ts) Q :=
  bind fun c hc => ⟨some t, { c with pending := ts }, by simp [Parser.acceptIf?, hc, hk], rfl, h⟩

theorem acceptIf?_none {wanted : TokenKind → Bool} {g : Option Token → Parser α}
    (hk : ∀ t ∈ ts.head?, wanted t.kind = false) (h : Takes (g none) ts Q) :
    Takes (Parser.acceptIf? wanted >>= g) ts Q := by
  refine bind fun c hc => ⟨none, c, ?_, rfl, hc ▸ h⟩
  cases ts with
  | nil => simp [Parser.acceptIf?, hc]
  | cons t rest => simp [Parser.acceptIf?, hc, hk t rfl]

theorem accept {kind : TokenKind} (hk : t.kind = kind) (h : Takes p ts Q) :
    Takes (do if ← Parser.accept kind then p else q) (t :: ts) Q :=
  bind (acceptIf? (by simp [hk]) (.pure (by simpa using h)))

theorem accept_else {kind : TokenKind} (hk : ∀ t ∈ ts.head?, t.kind ≠ kind) (h : Takes q ts Q) :
    Takes (do if ← Parser.accept kind then p else q) ts Q :=
  bind (acceptIf?_none (by simpa using hk) (.pure (by simpa using h)))

theorem expected {e : Expectation} {Q : Token → List Token → Prop} (hk : t.kind = e.kind)
    (h : Q t ts) : Takes (Parser.expect e) (t :: ts) Q :=
  acceptIf? (by simp [hk]) (.pure h)

theorem expect {e : Expectation} {g : Token → Parser α} (hk : t.kind = e.kind)
    (h : Takes (g t) ts Q) : Takes (Parser.expect e >>= g) (t :: ts) Q :=
  bind (expected hk h)

theorem check {kind : TokenKind} (hk : t.kind = kind) (h : Takes p (t :: ts) Q) :
    Takes (do if ← Parser.check kind then p else q) (t :: ts) Q := by
  refine bind fun c hc => ⟨true, c, ?_, rfl, hc ▸ by simpa using h⟩
  simp [Parser.check, Cursor.check, hc, hk]

theorem check_else {kind : TokenKind} (hk : ∀ t ∈ ts.head?, t.kind ≠ kind) (h : Takes q ts Q) :
    Takes (do if ← Parser.check kind then p else q) ts Q := by
  refine bind fun c hc => ⟨false, c, ?_, rfl, hc ▸ by simpa using h⟩
  cases ts with
  | nil => simp [Parser.check, Cursor.check, hc]
  | cons t rest => simpa [Parser.check, Cursor.check, hc] using hk t rfl

theorem recovering (h : Takes p ts Q) :
    Takes (Parser.recovering p) ts fun a? us => ∃ a, a? = some a ∧ Q a us := by
  intro c hc
  obtain ⟨a, d, ha, herrors, hq⟩ := h c hc
  exact ⟨some a, d, by rw [Parser.recovering, ha], herrors, a, rfl, hq⟩

end Takes

/-- The loop from a state that it has come to, in its first turn or in a later one. -/
structure Loops (next : α → Parser (Option α)) (a : α) (ts : List Token)
    (Q : α → List Token → Prop) : Prop where
  first : Takes (iterate next a) ts Q
  later : ∀ n, ts.length ≤ n → Takes (iterateUpTo n next a) ts Q

namespace Loops

variable {next : α → Parser (Option α)} {a : α} {ts : List Token} {Q : α → List Token → Prop}

theorem stop (h : Takes (next a) ts fun b? us => b? = none ∧ us = ts) (hq : Q a ts) :
    Loops next a ts Q where
  first := .bind (h.mono fun b? us ⟨hb, hu⟩ => by
    subst hb hu
    exact .pure hq)
  later n hn := by
    cases n with
    | zero => exact .pure hq
    | succ n =>
      refine .bind (h.mono fun b? us ⟨hb, hu⟩ => ?_)
      subst hb hu
      exact .pure hq

theorem turn (h : Takes (next a) ts fun b? us =>
      ∃ b, b? = some b ∧ us.length < ts.length ∧ Loops next b us Q) : Loops next a ts Q where
  first := .bind (h.mono fun b? us ⟨b, hb, _, hloop⟩ => by
    subst hb
    exact Takes.sized (f := fun n => iterateUpTo n next b) (hloop.later us.length (Nat.le_refl _)))
  later n hn := by
    cases n with
    | zero =>
      -- A turn costs a token, so it is not taken where none is left.
      obtain ⟨_, d, -, -, _, -, hlt, -⟩ := h ⟨ts, Token.endOfInput 0, 0, #[]⟩ rfl
      omega
    | succ n =>
      refine .bind (h.mono fun b? us ⟨b, hb, hlt, hloop⟩ => ?_)
      subst hb
      exact hloop.later n (by omega)

end Loops

/-- One turn of the loop over the items of a list. -/
def listNext (item : Parser α) (tooMany : ParseFault) (items : Array α) :
    Parser (Option (Array α)) := do
  if ← accept .comma then
    if maxListLength ≤ items.size then record (← peek) tooMany
    return some (items.push (← item))
  else return none

theorem commaSeparated_eq (item : Parser α) (tooMany : ParseFault) :
    commaSeparated item tooMany = (do
      let first ← item
      let items ← iterate (listNext item tooMany) #[first]
      return items.toList) := rfl

/-- An item that is taken, with a result that looks the same through `f`. -/
def TakesItem (f : α → β) (item : Parser α) (ts : List Token) (a : α) (us : List Token) : Prop :=
  us.length < ts.length ∧ Takes item ts fun b vs => f b = f a ∧ vs = us

theorem takes_listed {f : α → β} {item : Parser α} {tooMany : ParseFault} {ts us : List Token}
    {as : List α} (h : Grammar.Listed (TakesItem f item) ts as us)
    (hlen : as.length ≤ maxListLength) : ∀ {Q : List α → List Token → Prop},
    (∀ bs : Array α, bs.toList.map f = as.map f →
      Loops (listNext item tooMany) bs us fun cs vs => Q cs.toList vs) →
    Takes (commaSeparated item tooMany) ts Q := by
  induction h with
  | one h =>
    intro Q hq
    rw [commaSeparated_eq]
    refine .bind (h.2.mono fun b vs ⟨hb, hv⟩ => ?_)
    rw [hv]
    exact .bind ((hq #[b] (by simp [hb])).first.mono fun cs ws hcs => .pure hcs)
  | @more as a comma ts us vs _ hk ha ih =>
    rw [List.length_append, List.length_singleton] at hlen
    refine fun hq => ih (by omega) fun bs hbs => .turn (.accept hk ?_)
    have hsize : bs.size = as.length := by simpa using congrArg List.length hbs
    rw [if_neg (show ¬maxListLength ≤ bs.size by omega)]
    refine .bind (ha.2.mono fun b ws ⟨hb, hw⟩ => .pure ⟨_, rfl, ?_, ?_⟩)
    · have := ha.1
      simp only [hw, List.length_cons]
      omega
    · exact hw ▸ hq (bs.push b) (by simp [hbs, hb])

/-- A list with no comma behind it is read whole if it is short enough. -/
theorem takes_commaSeparated {f : α → β} {item : Parser α} {tooMany : ParseFault}
    {ts us : List Token} {as : List α} (h : Grammar.Listed (TakesItem f item) ts as us)
    (hlen : as.length ≤ maxListLength) (hstop : ∀ t ∈ us.head?, t.kind ≠ .comma) :
    Takes (commaSeparated item tooMany) ts fun bs vs => bs.map f = as.map f ∧ vs = us :=
  takes_listed h hlen fun _ hbs => .stop (.accept_else hstop (.pure ⟨rfl, rfl⟩)) ⟨hbs, rfl⟩

end Parser

end Lox
