import Lox.Proofs.Grammar.Lockstep

/-! Rules that read the token they end with.

A statement ends with a semicolon, a brace, or a statement. Where it is read without an error, its
last token was the last one looked at, with one exception: an `if` looks for an `else` behind its
branch. What follows a statement therefore has no part in how it is read, as long as no `else`
comes first there. -/

namespace Lox.Parser

variable {α β γ δ : Type} {k : Comparison}

theorem bind_of_some {q : Parser β} {g : β → Parser δ} {d : Cursor} {b : β}
    (h : (q d).1 = some b) : (q >>= g) d = g b (q d).2 := by
  rw [bind_apply]
  rcases hq : q d with ⟨b?, e⟩
  rw [hq] at h
  obtain rfl := h
  rfl

theorem expect_cons {e : Expectation} {c : Cursor} {t : Token} {rest : List Token}
    (hk : t.kind = e.kind) (hc : c.pending = t :: rest) :
    expect e c = (some t, { c with pending := rest }) := by
  simp [expect, accept?, Parser.acceptIf?, hc, hk]

/-- Keeps step to the end of the input too, if nothing is wrong before it. -/
structure Settles (k : Comparison) (φ : α → β) (p : Parser α) (q : Parser β) : Prop
    extends Follows k φ p q where
  settles : ∀ (c d e : Cursor) (a : α), c.Along k d → p c = (some a, e) →
    ((q d).1 = some (φ a) ∧ e.Along k (q d).2) ∨ c.graves.length < e.graves.length

/-- Costs a token at least, the last of which is read for itself. -/
structure Closes (k : Comparison) (φ : α → β) (p : Parser α) (q : Parser β) : Prop
    extends Settles k φ p q where
  shorter : ∀ (c d : Cursor) (a : α), p c = (some a, d) → d.pending.length < c.pending.length

namespace Settles

variable {φ : α → β} {ψ : γ → δ} {p : Parser α} {q : Parser β} {g : α → Parser γ}
  {g' : β → Parser δ}

theorem pure (φ : α → β) (a : α) : Settles k φ (pure a) (pure (φ a)) where
  toFollows := .pure φ a
  settles c d e b h he := by
    obtain ⟨ha, rfl⟩ := Prod.mk.inj he
    obtain rfl := Option.some.inj ha
    exact .inl ⟨rfl, h⟩

theorem bind (h : Settles k φ p q) (hg : ∀ a, Settles k ψ (g a) (g' (φ a))) :
    Settles k ψ (p >>= g) (q >>= g') where
  toFollows := h.toFollows.bind fun a => (hg a).toFollows
  settles c d e b hd he := by
    obtain ⟨a, c', hc', hb⟩ := bind_eq_some.mp he
    have hr := (hg a).reads c'
    rw [hb] at hr
    rcases h.settles c d c' a hd hc' with ⟨hq, ha⟩ | hlt
    · have hr' := h.reads c
      rw [hc'] at hr'
      have hs := ((hg a).settles c' (q d).2 e b ha hb).imp id fun hlt =>
        Nat.lt_of_le_of_lt hr'.graves_length hlt
      rwa [bind_of_some hq]
    · exact .inr (Nat.lt_of_lt_of_le hlt hr.graves_length)

theorem ite {p p' : Parser α} {q q' : Parser β} (b : Prop) [Decidable b]
    (h : Settles k φ p q) (h' : Settles k φ p' q') :
    Settles k φ (if b then p else p') (if b then q else q') := by
  split
  · exact h
  · exact h'

theorem acceptIf? {wanted : TokenKind → Bool} (hw : ∀ t ∈ k.more.head?, wanted t.kind = false) :
    Settles k (Option.map k.respell.token) (Parser.acceptIf? wanted)
      (Parser.acceptIf? wanted) where
  toFollows := .acceptIf? wanted
  settles c d e t h he := by
    have ha := Follows.acceptIf?_along h fun _ => hw
    rw [he] at ha
    exact .inl ha

/-- What follows is not taken for the other branch. -/
theorem acceptElse : Settles k id (accept .kwElse) (accept .kwElse) :=
  (acceptIf? fun t ht => by simpa using k.no_else t ht).bind fun t => by
    rw [Option.isSome_map]
    exact pure id t.isSome

theorem recovering (h : Settles k φ p q) :
    Settles k (Option.map φ) (Parser.recovering p) (Parser.recovering q) where
  toFollows := h.toFollows.recovering
  settles c d e b hd he := by
    unfold Parser.recovering at he ⊢
    have hf := h.faults c
    have hs := h.settles c d
    generalize p c = r at he hf hs
    rcases r with ⟨_ | a, e'⟩
    · obtain ⟨-, rfl⟩ := Prod.mk.inj he
      exact .inr (hf rfl)
    · obtain ⟨hb, rfl⟩ := Prod.mk.inj he
      obtain rfl := Option.some.inj hb
      rcases hs e' a hd rfl with ⟨hq, ha⟩ | hlt
      · generalize q d = r at hq ha ⊢
        rcases r with ⟨b?, d'⟩
        obtain rfl := hq
        exact .inl ⟨rfl, ha⟩
      · exact .inr hlt

end Settles

namespace Closes

variable {φ : α → β} {ψ : γ → δ} {p : Parser α} {q : Parser β} {g : α → Parser γ}
  {g' : β → Parser δ}

theorem bind (h : Closes k φ p q) (hg : ∀ a, Settles k ψ (g a) (g' (φ a))) :
    Closes k ψ (p >>= g) (q >>= g') where
  toSettles := h.toSettles.bind hg
  shorter c d b hd := by
    obtain ⟨a, e, he, hb⟩ := bind_eq_some.mp hd
    have hr := (hg a).reads e
    rw [hb] at hr
    exact Nat.lt_of_le_of_lt hr.pending.length_le (h.shorter c e a he)

theorem expect (e : Expectation) :
    Closes k k.respell.token (Parser.expect e) (Parser.expect e) where
  toFollows := .expect e
  settles c d c' t h hc' := by
    obtain ⟨hk, hp, he⟩ := expect_eq_some hc'
    have hd : d.pending =
        k.respell.token t :: (c'.pending.map k.respell.token ++ k.more) := by
      rw [h.pending, hp]
      rfl
    rw [expect_cons ((k.respell.kind t).trans hk) hd]
    rw [he]
    exact .inl ⟨rfl, rfl, h.errors, h.nodes, h.finish⟩
  shorter c d t h := by
    obtain ⟨-, hp, -⟩ := expect_eq_some h
    simp [hp]

theorem fail_left (φ : α → β) {fault : ParseFault} (hfault : fault.isMild = false) (q : Parser β)
    (hx : ¬k.exact) : Closes k φ (Parser.fail fault) q where
  toFollows := .fail_left φ hfault q hx
  settles c d e a _ h := by cases h
  shorter c d a h := by cases h

theorem fail (φ : α → β) {fault : ParseFault} (hfault : fault.isMild = false) :
    Closes k φ (Parser.fail fault) (Parser.fail fault) where
  toFollows := .fail φ hfault
  settles c d e a _ h := by cases h
  shorter c d a h := by cases h

theorem shortens (h : Closes k φ p q) : Shortens (fun _ => True) p :=
  fun c a d hd _ => .inl (h.shorter c d a hd)

end Closes

/-- Whatever comes before, a rule settles with what closes it. -/
theorem Follows.before {φ : α → β} {ψ : γ → δ} {p : Parser α} {q : Parser β} {g : α → Parser γ}
    {g' : β → Parser δ} (h : Follows k φ p q) (hg : ∀ a, Closes k ψ (g a) (g' (φ a))) :
    Closes k ψ (p >>= g) (q >>= g') where
  toFollows := h.bind fun a => (hg a).toFollows
  settles c d e b hd he := by
    obtain ⟨a, c', hc', hb⟩ := bind_eq_some.mp he
    have hlt := (hg a).shorter c' e b hb
    have hr := (hg a).reads c'
    have hr' := h.reads c
    rw [hb] at hr
    rw [hc'] at hr'
    rcases h.along c d hd with ⟨hq, ha⟩ | ⟨-, hl⟩
    · rw [hc'] at hq ha
      have hs := ((hg a).settles c' (q d).2 e b ha hb).imp id fun hlt =>
        Nat.lt_of_le_of_lt hr'.graves_length hlt
      rwa [bind_of_some hq]
    · rw [hc'] at hl
      rcases hl with hnil | hl
      · rw [show c'.pending = [] from hnil] at hlt
        exact absurd hlt (Nat.not_lt_zero _)
      · exact .inr (Nat.lt_of_lt_of_le hl hr.graves_length)
  shorter c d b hd := by
    obtain ⟨a, e, he, hb⟩ := bind_eq_some.mp hd
    have hr := h.reads c
    rw [he] at hr
    exact Nat.lt_of_lt_of_le ((hg a).shorter e d b hb) hr.pending.length_le

end Lox.Parser
