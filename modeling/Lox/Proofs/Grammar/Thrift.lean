import Lox.Proofs.Grammar.Guards

/-! What reading costs.

Every token that is read pays for one error and for one level of nesting. The load of a cursor is
what was spent and what is left: the errors that were met and the tokens that are pending. A parser
that yields a result without reading a token leaves the load as it was, one that reads at least a
token lowers it, and the error of one that gives up is paid by the token at fault or by the tokens
read before. A token lies between the entries of two levels as well, so a cursor with few tokens
left never comes to the last of many levels.

The limits of lists and the targets of assignments are checked in passing: these errors are paid by
the comma or the equals sign that was read just before. -/

namespace Lox

namespace Cursor

/-- Whether the declarations of a block end here. -/
def closes (c : Cursor) : Bool := c.check .rightBrace || c.atEnd

/-- The errors that were met and the tokens that are left. -/
def load (c : Cursor) : Nat := c.errors.size + c.pending.length

/-- The load where a token can still be at fault, and that of one more error where none is left. -/
def room (c : Cursor) : Nat := c.errors.size + max 1 c.pending.length

/-- The load after an error, without the token at fault. -/
def debt (c : Cursor) : Nat := c.errors.size + (c.pending.length - 1)

theorem debt_record (c : Cursor) (t : Token) (fault : ParseFault) :
    (c.record t fault).debt = c.room := by
  simp only [debt, room, record, Array.size_push]
  omega

theorem room_le (c : Cursor) : c.room ≤ c.load + 1 := by
  unfold room load
  omega

theorem load_le_room (c : Cursor) : c.load ≤ c.room := by
  unfold room load
  omega

theorem load_skip {c : Cursor} (h : c.pending ≠ []) :
    { c with pending := c.pending.tail }.load + 1 = c.load := by
  have := List.length_pos_iff.mpr h
  simp only [load, List.length_tail]
  omega

end Cursor

namespace Parser

variable {α β : Type} {n j k : Nat}

/-- A parser that looks up tokens by guards, and another that does the same where less than `n`
tokens are left. -/
structure Keeps (n : Nat) (p q : Parser α) : Prop where
  guarded : Guarded p
  same : ∀ c : Cursor, c.finish.kind = .eof → c.pending.length < n → q c = p c

/-- A result does not raise the load by more than `k`, nor giving up by more than one more. -/
structure Steady (k n : Nat) (p q : Parser α) : Prop extends Keeps n p q where
  gains : ∀ (c d : Cursor) (a : α), c.finish.kind = .eof → p c = (some a, d) → d.load ≤ c.load + k
  owes : ∀ c d : Cursor, c.finish.kind = .eof → p c = (none, d) → d.debt ≤ c.load + 1 + k

/-- A result costs a token that pays for nothing else, and giving up costs the token at fault. -/
structure Frugal (n : Nat) (p q : Parser α) : Prop extends Keeps n p q where
  gains : ∀ (c d : Cursor) (a : α), c.finish.kind = .eof → p c = (some a, d) → d.load < c.load
  owes : ∀ c d : Cursor, c.finish.kind = .eof → p c = (none, d) → d.debt ≤ c.room

/-- Never gives up and costs nothing. -/
structure Harmless (p : Parser α) : Prop where
  guarded : Guarded p
  yields : ∀ c : Cursor, ∃ a d, p c = (some a, d) ∧ d.load ≤ c.load ∧ d.room ≤ c.room

theorem bind_eq_none {p : Parser α} {g : α → Parser β} {c d : Cursor} :
    (p >>= g) c = (none, d) ↔
      p c = (none, d) ∨ ∃ a e, p c = (some a, e) ∧ g a e = (none, d) := by
  rw [bind_apply]
  rcases p c with ⟨_ | a, e⟩
  · simp
  · constructor
    · exact fun h => .inr ⟨a, e, rfl, h⟩
    · rintro (⟨⟨⟩⟩ | ⟨_, _, ⟨rfl, rfl⟩, h⟩)
      exact h

theorem accept_cases (kind : TokenKind) (c : Cursor) :
    (∃ t rest, c.pending = t :: rest ∧ accept kind c = (some true, { c with pending := rest })) ∨
      accept kind c = (some false, c) := by
  simp only [accept, accept?, bind_apply, acceptIf?]
  cases hc : c.pending with
  | nil => exact .inr rfl
  | cons t rest =>
    by_cases hk : (t.kind == kind) = true
    · exact .inl ⟨t, rest, rfl, by simp [hk]⟩
    · exact .inr (by simp [hk])

theorem accept_ne_none (kind : TokenKind) (c d : Cursor) : accept kind c ≠ (none, d) := by
  rcases accept_cases kind c with ⟨t, rest, -, he⟩ | he <;> rw [he] <;> simp

namespace Keeps

variable {p q : Parser α} {g g' : α → Parser β}

theorem of_guarded (h : Guarded p) : Keeps n p p := ⟨h, fun _ _ _ => rfl⟩

theorem moves (h : Keeps n p q) (c : Cursor) : c.Moves (p c).2 := h.guarded.moves c

theorem zero (h : Keeps n p q) (r : Parser α) : Keeps 0 p r :=
  ⟨h.guarded, fun _ _ hn => absurd hn (Nat.not_lt_zero _)⟩

theorem mono {m : Nat} (h : Keeps n p q) (hm : m ≤ n) : Keeps m p q :=
  ⟨h.guarded, fun c hf hn => h.same c hf (Nat.lt_of_lt_of_le hn hm)⟩

theorem finish (h : Keeps n p q) {c d : Cursor} {a : Option α} (hf : c.finish.kind = .eof)
    (hd : p c = (a, d)) : d.finish.kind = .eof := by
  have hr := (h.moves c).readsTo
  rw [hd] at hr
  exact hr.finish ▸ hf

theorem length_le (h : Keeps n p q) {c d : Cursor} {a : Option α} (hd : p c = (a, d)) :
    d.pending.length ≤ c.pending.length := by
  have hr := (h.moves c).readsTo
  rw [hd] at hr
  exact hr.pending.length_le

theorem bind (h : Keeps n p q) (hg : ∀ a, Keeps n (g a) (g' a)) :
    Keeps n (p >>= g) (q >>= g') where
  guarded := h.guarded.bind fun a => (hg a).guarded
  same c hf hn := by
    rw [bind_apply, bind_apply, h.same c hf hn]
    rcases hd : p c with ⟨_ | a, d⟩
    · rfl
    · exact (hg a).same d (h.finish hf hd) (Nat.lt_of_le_of_lt (h.length_le hd) hn)

/-- Behind a token that was read, one level less has to do. -/
theorem after (h : Keeps (n + 1) p q)
    (hs : ∀ (c d : Cursor) (a : α), c.finish.kind = .eof → p c = (some a, d) →
      d.pending.length < c.pending.length) (hg : ∀ a, Keeps n (g a) (g' a)) :
    Keeps (n + 1) (p >>= g) (q >>= g') where
  guarded := h.guarded.bind fun a => (hg a).guarded
  same c hf hn := by
    rw [bind_apply, bind_apply, h.same c hf hn]
    rcases hd : p c with ⟨_ | a, d⟩
    · rfl
    · have hlt := Nat.lt_of_lt_of_le (hs c d a hf hd) (Nat.le_of_lt_succ hn)
      exact (hg a).same d (h.finish hf hd) hlt

/-- The parser may be chosen by the tokens that are left. -/
theorem sized (f f' : Nat → Parser α) (h : ∀ m, Keeps n (f m) (f' m)) :
    Keeps n (fun c => f c.pending.length c) (fun c => f' c.pending.length c) :=
  ⟨.sized fun m => (h m).guarded, fun c => (h _).same c⟩

end Keeps

namespace Harmless

variable {p : Parser α} {g g' : α → Parser β}

theorem of_same (h : Guarded p) (hs : ∀ c : Cursor, ∃ a, p c = (some a, c)) : Harmless p where
  guarded := h
  yields c := by
    obtain ⟨a, ha⟩ := hs c
    exact ⟨a, c, ha, Nat.le_refl _, Nat.le_refl _⟩

theorem pure (a : α) : Harmless (pure a : Parser α) :=
  of_same (.pure a) fun _ => ⟨a, rfl⟩

theorem peek : Harmless Parser.peek := of_same ⟨_, .peek⟩ fun c => ⟨c.peek, rfl⟩

theorem check (kind : TokenKind) : Harmless (Parser.check kind) :=
  of_same ⟨_, .check kind⟩ fun _ => ⟨_, rfl⟩

theorem atEnd : Harmless Parser.atEnd := of_same ⟨_, .atEnd⟩ fun _ => ⟨_, rfl⟩

theorem freshNode : Harmless Parser.freshNode where
  guarded := ⟨_, .freshNode⟩
  yields _ := ⟨_, _, rfl, Nat.le_refl _, Nat.le_refl _⟩

theorem acceptIf? (wanted : TokenKind → Bool) : Harmless (Parser.acceptIf? wanted) where
  guarded := ⟨_, .acceptIf? wanted⟩
  yields c := by
    unfold Parser.acceptIf?
    split
    · rename_i t rest hc
      split
      · refine ⟨_, _, rfl, ?_⟩
        simp only [Cursor.load, Cursor.room, hc, List.length_cons]
        omega
      · exact ⟨_, _, rfl, Nat.le_refl _, Nat.le_refl _⟩
    · exact ⟨_, _, rfl, Nat.le_refl _, Nat.le_refl _⟩

theorem bind (h : Harmless p) (hg : ∀ a, Harmless (g a)) : Harmless (p >>= g) where
  guarded := h.guarded.bind fun a => (hg a).guarded
  yields c := by
    obtain ⟨a, d, hd, hl, hr⟩ := h.yields c
    obtain ⟨b, e, he, hl', hr'⟩ := (hg a).yields d
    refine ⟨b, e, ?_, Nat.le_trans hl' hl, Nat.le_trans hr' hr⟩
    rw [bind_apply, hd]
    exact he

theorem accept (kind : TokenKind) : Harmless (Parser.accept kind) :=
  (acceptIf? _).bind fun _ => pure _

theorem keeps (h : Harmless p) : Keeps n p p := .of_guarded h.guarded

theorem steady (h : Harmless p) (hg : ∀ a, Steady k n (g a) (g' a)) :
    Steady k n (p >>= g) (p >>= g') where
  toKeeps := h.keeps.bind fun a => (hg a).toKeeps
  gains c d b hf hd := by
    obtain ⟨a, e, he, hl, -⟩ := h.yields c
    rw [bind_apply, he] at hd
    have := (hg a).gains e d b (h.keeps.finish (n := 0) hf he) hd
    omega
  owes c d hf hd := by
    obtain ⟨a, e, he, hl, -⟩ := h.yields c
    rw [bind_apply, he] at hd
    have := (hg a).owes e d (h.keeps.finish (n := 0) hf he) hd
    omega

theorem frugal (h : Harmless p) (hg : ∀ a, Frugal n (g a) (g' a)) :
    Frugal n (p >>= g) (p >>= g') where
  toKeeps := h.keeps.bind fun a => (hg a).toKeeps
  gains c d b hf hd := by
    obtain ⟨a, e, he, hl, -⟩ := h.yields c
    rw [bind_apply, he] at hd
    exact Nat.lt_of_lt_of_le ((hg a).gains e d b (h.keeps.finish (n := 0) hf he) hd) hl
  owes c d hf hd := by
    obtain ⟨a, e, he, -, hr⟩ := h.yields c
    rw [bind_apply, he] at hd
    exact Nat.le_trans ((hg a).owes e d (h.keeps.finish (n := 0) hf he) hd) hr

end Harmless

namespace Steady

variable {p q r s : Parser α} {g g' : α → Parser β}

theorem weaken (h : Steady k n p q) (hk : k ≤ j) : Steady j n p q where
  toKeeps := h.toKeeps
  gains c d a hf hd := Nat.le_trans (h.gains c d a hf hd) (Nat.add_le_add_left hk _)
  owes c d hf hd := Nat.le_trans (h.owes c d hf hd) (Nat.add_le_add_left hk _)

theorem pure (a : α) : Steady 0 n (pure a : Parser α) (pure a) where
  toKeeps := .of_guarded (.pure a)
  gains c d b _ hd := by
    obtain ⟨-, rfl⟩ := Prod.mk.inj hd
    exact Nat.le_refl _
  owes c d _ hd := by cases hd

theorem bind (h : Steady j n p q) (hg : ∀ a, Steady k n (g a) (g' a)) :
    Steady (k + j) n (p >>= g) (q >>= g') where
  toKeeps := h.toKeeps.bind fun a => (hg a).toKeeps
  gains c d b hf hd := by
    obtain ⟨a, e, he, hb⟩ := bind_eq_some.mp hd
    have := h.gains c e a hf he
    have := (hg a).gains e d b (h.finish hf he) hb
    omega
  owes c d hf hd := by
    rcases bind_eq_none.mp hd with he | ⟨a, e, he, hb⟩
    · have := h.owes c d hf he
      omega
    · have := h.gains c e a hf he
      have := (hg a).owes e d (h.finish hf he) hb
      omega

theorem ite (b : Prop) [Decidable b] (h : Steady k n p q) (h' : Steady k n r s) :
    Steady k n (if b then p else r) (if b then q else s) := by
  split
  · exact h
  · exact h'

theorem record (t : Token) (fault : ParseFault) :
    Steady 1 n (Parser.record t fault) (Parser.record t fault) where
  toKeeps := .of_guarded ⟨_, .record t fault⟩
  gains c d a _ hd := by
    obtain ⟨-, rfl⟩ := Prod.mk.inj hd
    simp only [Cursor.load, Cursor.record, Array.size_push]
    omega
  owes c d _ hd := by cases hd

theorem iterateUpTo {next next' : α → Parser (Option α)}
    (hn : ∀ a, Steady 0 n (next a) (next' a)) (m : Nat) :
    ∀ a, Steady 0 n (Parser.iterateUpTo m next a) (Parser.iterateUpTo m next' a) := by
  induction m with
  | zero => exact pure
  | succ m ih =>
    refine fun a => (hn a).bind fun b? => ?_
    cases b? with
    | none => exact pure a
    | some b => exact ih b

theorem sized (f f' : Nat → Parser α) (h : ∀ m, Steady k n (f m) (f' m)) :
    Steady k n (fun c => f c.pending.length c) (fun c => f' c.pending.length c) where
  toKeeps := .sized f f' fun m => (h m).toKeeps
  gains c d a := (h _).gains c d a
  owes c d := (h _).owes c d

theorem iterate {next next' : α → Parser (Option α)}
    (hn : ∀ a, Steady 0 n (next a) (next' a)) (a : α) :
    Steady 0 n (Parser.iterate next a) (Parser.iterate next' a) := by
  refine (hn a).bind fun b? => ?_
  cases b? with
  | none => exact pure a
  | some b =>
    exact sized (fun m => Parser.iterateUpTo m next b) (fun m => Parser.iterateUpTo m next' b)
      fun m => iterateUpTo hn m b

/-- The token that is accepted pays. -/
theorem accepted {kind : TokenKind} (h : Steady (k + 1) n p q) (h' : Steady k n r s) :
    Steady k n (do if ← accept kind then p else r) (do if ← accept kind then q else s) where
  toKeeps := (Harmless.accept kind).keeps.bind fun b => (show Steady (k + 1) n _ _ from
    .ite (b = true) h (h'.weaken (Nat.le_succ k))).toKeeps
  gains c d a hf hd := by
    obtain ⟨b, e, he, ha⟩ := bind_eq_some.mp hd
    have hf' := (Harmless.accept kind).keeps.finish (n := 0) hf he
    rcases accept_cases kind c with ⟨t, rest, hc, he'⟩ | he' <;> cases he'.symm.trans he
    · have := h.gains _ d a hf' ha
      simp only [Cursor.load, hc, List.length_cons] at this ⊢
      omega
    · exact h'.gains c d a hf' ha
  owes c d hf hd := by
    obtain ⟨b, e, he, ha⟩ := (bind_eq_none.mp hd).resolve_left (accept_ne_none kind c d)
    have hf' := (Harmless.accept kind).keeps.finish (n := 0) hf he
    rcases accept_cases kind c with ⟨t, rest, hc, he'⟩ | he' <;> cases he'.symm.trans he
    · have := h.owes _ d hf' ha
      simp only [Cursor.load, hc, List.length_cons] at this ⊢
      omega
    · exact h'.owes c d hf' ha

end Steady

namespace Frugal

variable {p q r s : Parser α} {g g' : α → Parser β}

theorem shorter (h : Frugal n p q) {c d : Cursor} {a : α} (hf : c.finish.kind = .eof)
    (hd : p c = (some a, d)) : d.pending.length < c.pending.length := by
  have hl := h.gains c d a hf hd
  have hr := (h.moves c).readsTo
  rw [hd] at hr
  have hs := hr.errors_size
  unfold Cursor.load at hl
  simp only at hs
  omega

theorem zero (h : Frugal n p q) (r : Parser α) : Frugal 0 p r where
  toKeeps := h.toKeeps.zero r
  gains := h.gains
  owes := h.owes

/-- Any parser does the same as itself. -/
theorem self {m : Nat} (h : Frugal n p q) : Frugal m p p where
  toKeeps := .of_guarded h.guarded
  gains := h.gains
  owes := h.owes

theorem mono {m : Nat} (h : Frugal n p q) (hm : m ≤ n) : Frugal m p q where
  toKeeps := h.toKeeps.mono hm
  gains := h.gains
  owes := h.owes

theorem steady (h : Frugal n p q) : Steady 0 n p q where
  toKeeps := h.toKeeps
  gains c d a hf hd := Nat.le_of_lt (h.gains c d a hf hd)
  owes c d hf hd := Nat.le_trans (h.owes c d hf hd) c.room_le

theorem fail_left (fault : ParseFault) (q : Parser α) : Frugal 0 (Parser.fail fault) q where
  guarded := ⟨_, .fail fault⟩
  same _ _ hn := absurd hn (Nat.not_lt_zero _)
  gains c d a _ hd := by cases hd
  owes c d _ hd := by
    obtain ⟨-, rfl⟩ := Prod.mk.inj hd
    exact Nat.le_of_eq (c.debt_record c.peek fault)

theorem fail (fault : ParseFault) :
    Frugal n (Parser.fail (α := α) fault) (Parser.fail fault) where
  toKeeps := .of_guarded (fail_left fault (Parser.fail fault)).guarded
  gains := (fail_left fault (Parser.fail fault)).gains
  owes := (fail_left fault (Parser.fail fault)).owes

/-- What stands behind a token is a level further. -/
theorem bind (h : Frugal (n + 1) p q) (hg : ∀ a, Steady 0 n (g a) (g' a)) :
    Frugal (n + 1) (p >>= g) (q >>= g') where
  toKeeps := h.toKeeps.after (fun _ _ _ => h.shorter) fun a => (hg a).toKeeps
  gains c d b hf hd := by
    obtain ⟨a, e, he, hb⟩ := bind_eq_some.mp hd
    have := h.gains c e a hf he
    have := (hg a).gains e d b (h.finish hf he) hb
    omega
  owes c d hf hd := by
    rcases bind_eq_none.mp hd with he | ⟨a, e, he, hb⟩
    · exact h.owes c d hf he
    · have := h.gains c e a hf he
      have := (hg a).owes e d (h.finish hf he) hb
      have := c.load_le_room
      omega

/-- The token that costs pays for an error reported in passing. -/
theorem pays (h : Frugal n p q) (hg : ∀ a, Steady (k + 1) n (g a) (g' a)) :
    Steady k n (p >>= g) (q >>= g') where
  toKeeps := h.toKeeps.bind fun a => (hg a).toKeeps
  gains c d b hf hd := by
    obtain ⟨a, e, he, hb⟩ := bind_eq_some.mp hd
    have := h.gains c e a hf he
    have := (hg a).gains e d b (h.finish hf he) hb
    omega
  owes c d hf hd := by
    rcases bind_eq_none.mp hd with he | ⟨a, e, he, hb⟩
    · have := h.owes c d hf he
      have := c.room_le
      omega
    · have := h.gains c e a hf he
      have := (hg a).owes e d (h.finish hf he) hb
      omega

theorem expect (e : Expectation) : Frugal n (Parser.expect e) (Parser.expect e) where
  toKeeps := (Harmless.acceptIf? _).keeps.bind fun t => by
    cases t with
    | none => exact (fail _).toKeeps
    | some t => exact (Harmless.pure t).keeps
  gains c d t _ hd := by
    obtain ⟨-, hc, hd⟩ := expect_eq_some hd
    rw [hd]
    simp [Cursor.load, hc]
  owes c d hf hd := by
    obtain ⟨t, e', he, ht⟩ := (bind_eq_none.mp hd).resolve_left fun hn => by
      obtain ⟨_, _, hs, -⟩ := (Harmless.acceptIf? (· == e.kind)).yields c
      exact absurd (hs.symm.trans hn) (by simp)
    cases t with
    | none =>
      obtain ⟨_, _, hs, -, hr⟩ := (Harmless.acceptIf? (· == e.kind)).yields c
      cases hs.symm.trans he
      exact Nat.le_trans ((fail (n := n) _).owes e' d
        ((Harmless.acceptIf? _).keeps.finish (n := 0) hf he) ht) hr
    | some t => cases ht

/-- The parser may be chosen by the tokens that are left. -/
theorem sized (f f' : Nat → Parser α) (h : ∀ m, Frugal n (f m) (f' m)) :
    Frugal n (fun c => f c.pending.length c) (fun c => f' c.pending.length c) where
  toKeeps := .sized f f' fun m => (h m).toKeeps
  gains c d a := (h _).gains c d a
  owes c d := (h _).owes c d

end Frugal

/-- A parser that is chosen by the token ahead: it costs a token by itself, or reads that one. -/
def Chosen (n : Nat) (t : Token) (p q : Parser α) : Prop :=
  Frugal (n + 1) p q ∨ t.kind ≠ .eof ∧ ∃ g g' : Unit → Parser α,
    p = Parser.advance >>= g ∧ q = Parser.advance >>= g' ∧ ∀ u, Steady 0 n (g u) (g' u)

theorem Chosen.advance {t : Token} {g g' : Unit → Parser α} (ht : t.kind ≠ .eof)
    (hg : ∀ u, Steady 0 n (g u) (g' u)) :
    Chosen n t (Parser.advance >>= g) (Parser.advance >>= g') :=
  .inr ⟨ht, g, g', rfl, rfl, hg⟩

theorem pending_ne_nil {c : Cursor} (hf : c.finish.kind = .eof) (ht : c.peek.kind ≠ .eof) :
    c.pending ≠ [] := by
  intro hn
  refine ht ?_
  unfold Cursor.peek
  rw [hn]
  exact hf

theorem Chosen.frugal {f f' : Token → Parser α} (h : ∀ t, Chosen n t (f t) (f' t)) :
    Frugal (n + 1) (Parser.peek >>= f) (Parser.peek >>= f') where
  guarded := by
    refine .bind ⟨_, .peek⟩ fun t => ?_
    rcases h t with hp | ⟨-, g, g', hp, -, hg⟩
    · exact hp.guarded
    · rw [hp]
      exact .bind ⟨_, .advance⟩ fun u => (hg u).guarded
  same c hf hn := by
    show f' c.peek c = f c.peek c
    rcases h c.peek with hp | ⟨ht, g, g', hp, hq, hg⟩
    · exact hp.same c hf hn
    · rw [hp, hq]
      have := List.length_pos_iff.mpr (pending_ne_nil hf ht)
      refine (hg ()).same { c with pending := c.pending.tail } hf ?_
      simp only [List.length_tail]
      omega
  gains c d a hf hd := by
    replace hd : f c.peek c = (some a, d) := hd
    rcases h c.peek with hp | ⟨ht, g, g', hp, -, hg⟩
    · exact hp.gains c d a hf hd
    · rw [hp] at hd
      have := (hg ()).gains { c with pending := c.pending.tail } d a hf hd
      have := Cursor.load_skip (pending_ne_nil hf ht)
      omega
  owes c d hf hd := by
    replace hd : f c.peek c = (none, d) := hd
    rcases h c.peek with hp | ⟨ht, g, g', hp, -, hg⟩
    · exact hp.owes c d hf hd
    · rw [hp] at hd
      have := (hg ()).owes { c with pending := c.pending.tail } d hf hd
      have := Cursor.load_skip (pending_ne_nil hf ht)
      have := c.load_le_room
      omega

end Parser

end Lox
