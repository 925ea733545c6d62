import Mathlib.Data.List.TakeWhile
import Mathlib.Logic.Relation
import Mathlib.Tactic.Choose
import Lox.Grammar.Reader
import Lox.Proofs.Grammar.Lockstep

/-! A cursor is an index into a list of tokens.

A cursor stands at the index that says how many tokens were read before it, and every guard over
the index comes to what the parser does at the cursor: it looks up tokens in range only, and moves
both alike. A parser that is put together from these primitives has a counterpart that is put
together from the guards in the same way, which therefore runs alongside and stays in range. -/

namespace Lox

namespace Cursor

/-- One elementary step of reading: a token is read, a node is drawn or an error is reported. -/
inductive Move : Cursor → Cursor → Prop where
  | read {c : Cursor} {t : Token} {rest : List Token} : c.pending = t :: rest →
    Move c { c with pending := rest }
  | draw (c : Cursor) : Move c { c with nextNode := c.nextNode + 1 }
  | report (c : Cursor) (t : Token) (fault : ParseFault) : Move c (c.record t fault)

abbrev Moves : Cursor → Cursor → Prop := Relation.ReflTransGen Move

theorem Move.readsTo {c d : Cursor} (h : c.Move d) : c.ReadsTo d := by
  cases h with
  | read hc => exact ⟨by simp [hc], rfl, Nat.le_refl _, List.prefix_refl _⟩
  | draw => exact ⟨List.suffix_refl _, rfl, Nat.le_succ _, List.prefix_refl _⟩
  | report t fault => exact ⟨List.suffix_refl _, rfl, Nat.le_refl _, by simp [record]⟩

theorem Moves.readsTo {c d : Cursor} (h : c.Moves d) : c.ReadsTo d := by
  induction h with
  | refl => exact .refl c
  | tail _ hm ih => exact ih.trans hm.readsTo

/-- Skipping tokens is reading them. -/
theorem moves_of_suffix {ts : List Token} (c : Cursor) (h : ts <:+ c.pending) :
    c.Moves { c with pending := ts } := by
  obtain ⟨skipped, hc⟩ := h
  induction skipped generalizing c with
  | nil =>
    obtain rfl : ts = c.pending := hc
    exact .refl
  | cons t rest ih => exact .head (.read hc.symm) (ih { c with pending := rest ++ ts } rfl)

/-- The cursor stands at this index: so many tokens were read, those up to the first end of input
are pending, and that one comes behind them. -/
def At (ts : List Token) (i : Nat) (c : Cursor) : Prop :=
  ∃ before rest, ts = before ++ (c.pending ++ c.finish :: rest) ∧ before.length = i ∧
    (∀ t ∈ before ++ c.pending, t.kind ≠ .eof) ∧ c.finish.kind = .eof

namespace At

variable {ts : List Token} {c d : Cursor} {i : Nat}

theorem peek (h : c.At ts i) : ts[i]? = some c.peek := by
  obtain ⟨before, rest, rfl, rfl, -, -⟩ := h
  rw [List.getElem?_append_right (Nat.le_refl _), Nat.sub_self, Cursor.peek]
  cases c.pending <;> rfl

theorem add_length (h : c.At ts i) : i + c.pending.length = (beforeEnd ts).length := by
  obtain ⟨before, rest, rfl, rfl, hown, hend⟩ := h
  rw [beforeEnd, ← List.append_assoc, List.takeWhile_append_of_pos (by simpa using hown),
    List.takeWhile_cons_of_neg (by simp [hend]), List.append_nil, List.length_append]

theorem read {t : Token} {more : List Token} (h : c.At ts i) (hc : c.pending = t :: more) :
    Cursor.At ts (i + 1) { c with pending := more } := by
  obtain ⟨before, rest, hts, hi, hown, hend⟩ := h
  refine ⟨before ++ [t], rest, ?_, by simp [hi], ?_, hend⟩
  · rw [hts, hc]
    simp
  · rw [hc] at hown
    simpa using hown

theorem move (h : c.At ts i) (hm : c.Move d) : d.At ts i ∨ d.At ts (i + 1) := by
  cases hm with
  | read hc => exact .inr (h.read hc)
  | draw => exact .inl h
  | report => exact .inl h

theorem moves (h : c.At ts i) (hm : c.Moves d) : ∃ j, i ≤ j ∧ d.At ts j := by
  induction hm with
  | refl => exact ⟨i, Nat.le_refl i, h⟩
  | tail _ hm ih =>
    obtain ⟨j, hj, hd⟩ := ih
    rcases hd.move hm with h | h
    · exact ⟨j, hj, h⟩
    · exact ⟨j + 1, Nat.le_succ_of_le hj, h⟩

theorem finish (h : c.At ts i) : c.finish.kind = .eof := by
  obtain ⟨_, _, -, -, -, hend⟩ := h
  exact hend

/-- The tokens that are pending end before the end of input. -/
theorem peek_eof (h : c.At ts i) : (c.peek.kind == .eof) = c.atEnd := by
  obtain ⟨before, rest, -, -, hown, hend⟩ := h
  cases hc : c.pending with
  | nil => simp [Cursor.peek, Cursor.atEnd, hc, hend]
  | cons t more =>
    have ht : t.kind ≠ .eof := hown t (by simp [hc])
    simpa [Cursor.peek, Cursor.atEnd, hc] using ht

end At

end Cursor

namespace Reader

/-- The index stands where the cursor does, and both have drawn and reported the same. -/
structure Stands (r : Reader) (c : Cursor) : Prop where
  index : c.At r.tokens r.current
  nextNode : r.nextNode = c.nextNode
  errors : r.errors = c.errors

/-- Where the index comes to along the tokens, together with a cursor. -/
structure Comes (r : Reader) (next : Reader) (c : Cursor) : Prop extends next.Stands c where
  tokens : next.tokens = r.tokens
  onward : r.current ≤ next.current

variable {r next last : Reader} {c d : Cursor}

theorem Stands.comes (h : r.Stands c) : r.Comes r c := ⟨h, rfl, Nat.le_refl _⟩

theorem Comes.trans (h : r.Comes next c) (h' : next.Comes last d) : r.Comes last d :=
  ⟨h'.toStands, h'.tokens.trans h.tokens, Nat.le_trans h.onward h'.onward⟩

theorem Comes.in_range (h : r.Comes next c) : next.current ≤ (beforeEnd r.tokens).length := by
  have := h.index.add_length
  rw [h.tokens] at this
  omega

namespace Stands

theorem peek? (h : r.Stands c) : r.peek? = some c.peek := h.index.peek

theorem atEnd? (h : r.Stands c) : r.atEnd? = some c.atEnd := by
  simp [Reader.atEnd?, h.peek?, h.index.peek_eof]

theorem checkIf? (h : r.Stands c) (wanted : TokenKind → Bool) :
    r.checkIf? wanted = some (c.pending.head?.any (wanted ·.kind)) := by
  cases hc : c.pending <;> simp [Reader.checkIf?, h.atEnd?, h.peek?, Cursor.atEnd, Cursor.peek, hc]

theorem record (h : r.Stands c) (t : Token) (fault : ParseFault) :
    r.Comes (r.record t fault) (c.record t fault) :=
  ⟨⟨h.index, h.nextNode, by rw [Reader.record, Cursor.record, h.errors]⟩, rfl, Nat.le_refl _⟩

/-- At the end of input the index stays, and there is a token before it or at it. -/
theorem advance?_end (h : r.Stands c) (hc : c.pending = []) : ∃ t, r.advance? = some (t, r) := by
  have hi : r.current - 1 < r.tokens.length :=
    Nat.lt_of_le_of_lt (Nat.sub_le _ 1) (List.getElem?_eq_some_iff.mp h.peek?).1
  exact ⟨r.tokens[r.current - 1], by
    simp [Reader.advance?, h.atEnd?, Cursor.atEnd, hc, previous?, List.getElem?_eq_getElem hi]⟩

theorem advance?_cons {t : Token} {rest : List Token} (h : r.Stands c)
    (hc : c.pending = t :: rest) : ∃ next, r.advance? = some (t, next) ∧ next.previous? = some t ∧
      r.Comes next { c with pending := rest } := by
  have hprevious : previous? { r with current := r.current + 1 } = some t := by
    have hpeek := h.peek?
    rw [Cursor.peek, hc] at hpeek
    exact hpeek
  refine ⟨{ r with current := r.current + 1 }, ?_, hprevious, ⟨h.index.read hc, h.nextNode,
    h.errors⟩, rfl, Nat.le_succ _⟩
  simp [Reader.advance?, h.atEnd?, Cursor.atEnd, hc, hprevious]

theorem advance? (h : r.Stands c) :
    ∃ t next, r.advance? = some (t, next) ∧ r.Comes next { c with pending := c.pending.tail } := by
  cases hc : c.pending with
  | nil =>
    obtain ⟨t, ht⟩ := h.advance?_end hc
    refine ⟨t, r, ht, ?_⟩
    rw [List.tail_nil, ← hc]
    exact h.comes
  | cons t rest =>
    obtain ⟨next, hnext, -, hcomes⟩ := h.advance?_cons hc
    exact ⟨t, next, hnext, hcomes⟩

theorem skipUpTo? (steps : Nat) : ∀ {r : Reader} {c : Cursor} {t : Token}, r.Stands c →
    r.previous? = some t → c.pending.length ≤ steps →
    ∃ next, r.skipUpTo? steps = some next ∧
      r.Comes next { c with pending := Parser.skipToBoundary t.kind c.pending } := by
  induction steps with
  | zero =>
    intro r c t h _ hlen
    have hc : c.pending = [] := List.eq_nil_of_length_eq_zero (Nat.le_zero.mp hlen)
    refine ⟨r, rfl, ?_⟩
    rw [hc, Parser.skipToBoundary, ← hc]
    exact h.comes
  | succ steps ih =>
    intro r c t h ht hlen
    cases hc : c.pending with
    | nil =>
      refine ⟨r, by simp [Reader.skipUpTo?, h.atEnd?, Cursor.atEnd, hc], ?_⟩
      rw [Parser.skipToBoundary, ← hc]
      exact h.comes
    | cons u rest =>
      obtain ⟨moved, hmoved, hu, hcomes⟩ := h.advance?_cons hc
      have hlen' : rest.length ≤ steps := by
        rw [hc, List.length_cons] at hlen
        omega
      obtain ⟨next, hnext, hcomes'⟩ := ih hcomes.toStands hu hlen'
      have hpeek : c.peek = u := by rw [Cursor.peek, hc, List.headD_cons]
      by_cases hstop : t.kind = .semicolon ∨ Parser.beginsStatement u.kind = true
      · refine ⟨r, ?_, ?_⟩
        · rcases hstop with hs | hs
          · simp [Reader.skipUpTo?, h.atEnd?, Cursor.atEnd, hc, ht, hs]
          · simp [Reader.skipUpTo?, h.atEnd?, Cursor.atEnd, hc, ht, h.peek?, hpeek, hs]
        · rw [Parser.skipToBoundary, if_pos hstop, ← hc]
          exact h.comes
      · rw [Parser.skipToBoundary, if_neg hstop]
        refine ⟨next, ?_, hcomes.trans hcomes'⟩
        obtain ⟨hs, hs'⟩ := not_or.mp hstop
        simp [Reader.skipUpTo?, h.atEnd?, Cursor.atEnd, hc, ht, hs, h.peek?, hpeek, hs', hmoved,
          hnext]

theorem synchronize? (h : r.Stands c) : ∃ next, r.synchronize? = some next ∧
    r.Comes next { c with pending := Parser.afterFault c.pending } := by
  cases hc : c.pending with
  | nil =>
    obtain ⟨t, ht⟩ := h.advance?_end hc
    have hstay : r.skipUpTo? r.tokens.length = some r := by
      cases r.tokens.length <;> simp [Reader.skipUpTo?, h.atEnd?, Cursor.atEnd, hc]
    refine ⟨r, by simp [Reader.synchronize?, ht, hstay], ?_⟩
    rw [Parser.afterFault, ← hc]
    exact h.comes
  | cons t rest =>
    obtain ⟨moved, hmoved, ht, hcomes⟩ := h.advance?_cons hc
    have hlen : rest.length ≤ moved.tokens.length := by
      obtain ⟨before, behind, hts, -, -, -⟩ := hcomes.index
      rw [hts]
      simp only [List.length_append]
      omega
    obtain ⟨next, hnext, hcomes'⟩ := hcomes.toStands.skipUpTo? _ ht hlen
    exact ⟨next, by simp [Reader.synchronize?, hmoved, hnext], hcomes.trans hcomes'⟩

end Stands

end Reader

namespace IndexParser

variable {α β : Type}

/-- From wherever the cursor stands, the parser over the index looks up no token out of range, comes
to the same result and to the same place. -/
def Mimics (p' : IndexParser α) (p : Parser α) : Prop :=
  ∀ (r : Reader) (c : Cursor), r.Stands c →
    ∃ next, p' r = some ((p c).1, next) ∧ r.Comes next (p c).2

namespace Mimics

variable {p' : IndexParser α} {p : Parser α}

theorem pure (a : α) : Mimics (Pure.pure a) (Pure.pure a) :=
  fun _ _ hs => ⟨_, rfl, hs.comes⟩

theorem bind {f' : α → IndexParser β} {f : α → Parser β} (h : Mimics p' p)
    (hf : ∀ a, Mimics (f' a) (f a)) : Mimics (p' >>= f') (p >>= f) := by
  intro r c hs
  obtain ⟨next, hnext, hcomes⟩ := h r c hs
  rcases hd : p c with ⟨_ | a, d⟩ <;> rw [hd] at hnext hcomes
  · refine ⟨next, ?_, ?_⟩
    · simp only [Bind.bind, hnext, Parser.andThen, hd]
    · simpa only [Parser.bind_apply, hd] using hcomes
  · obtain ⟨last, hlast, hcomes'⟩ := hf a next d hcomes.toStands
    refine ⟨last, ?_, ?_⟩
    · simp only [Bind.bind, hnext, Parser.andThen, hd]
      exact hlast
    · simp only [Parser.bind_apply, hd]
      exact hcomes.trans hcomes'

theorem peek : Mimics IndexParser.peek Parser.peek := by
  intro r c hs
  exact ⟨r, by simp [IndexParser.peek, hs.peek?, Parser.peek], hs.comes⟩

theorem atEnd : Mimics IndexParser.atEnd Parser.atEnd := by
  intro r c hs
  exact ⟨r, by simp [IndexParser.atEnd, hs.atEnd?, Parser.atEnd], hs.comes⟩

theorem check (kind : TokenKind) : Mimics (checkIf (· == kind)) (Parser.check kind) := by
  intro r c hs
  exact ⟨r, by simp [checkIf, hs.checkIf?, Parser.check, Cursor.check], hs.comes⟩

theorem acceptIf? (wanted : TokenKind → Bool) :
    Mimics (IndexParser.acceptIf? wanted) (Parser.acceptIf? wanted) := by
  intro r c hs
  have hcheck := hs.checkIf? wanted
  have hstays (hno : c.pending.head?.any (wanted ·.kind) = false) :
      IndexParser.acceptIf? wanted r = some (some none, r) := by
    simp [IndexParser.acceptIf?, checkIf, hcheck, hno, Bind.bind, Pure.pure]
  cases hc : c.pending with
  | nil =>
    refine ⟨r, ?_, ?_⟩
    · simp [hstays, hc, Parser.acceptIf?]
    · simpa [Parser.acceptIf?, hc] using hs.comes
  | cons t rest =>
    obtain ⟨next, hnext, -, hcomes⟩ := hs.advance?_cons hc
    by_cases ht : wanted t.kind = true
    · refine ⟨next, ?_, ?_⟩
      · simp [IndexParser.acceptIf?, checkIf, IndexParser.advance, hcheck, hnext, hc, ht,
          Parser.acceptIf?, Bind.bind, Pure.pure]
      · simpa [Parser.acceptIf?, hc, ht] using hcomes
    · refine ⟨r, ?_, ?_⟩
      · simp [hstays, hc, ht, Parser.acceptIf?]
      · simpa [Parser.acceptIf?, hc, ht] using hs.comes

theorem advance : Mimics (IndexParser.advance >>= fun _ => Pure.pure ()) Parser.advance := by
  intro r c hs
  obtain ⟨t, next, hnext, hcomes⟩ := hs.advance?
  exact ⟨next, by simp [IndexParser.advance, hnext, Parser.advance, Bind.bind, Pure.pure], hcomes⟩

theorem freshNode : Mimics IndexParser.freshNode Parser.freshNode := by
  intro r c hs
  refine ⟨{ r with nextNode := r.nextNode + 1 }, ?_, ⟨hs.index, ?_, hs.errors⟩, rfl,
    Nat.le_refl _⟩
  · rw [IndexParser.freshNode, Parser.freshNode, hs.nextNode]
  · exact congrArg (· + 1) hs.nextNode

theorem record (t : Token) (fault : ParseFault) :
    Mimics (IndexParser.record t fault) (Parser.record t fault) :=
  fun _ _ hs => ⟨_, rfl, hs.record t fault⟩

theorem fail (fault : ParseFault) :
    Mimics (IndexParser.fail (α := α) fault) (Parser.fail fault) := by
  intro r c hs
  exact ⟨_, by simp [IndexParser.fail, hs.peek?, Parser.fail], hs.record c.peek fault⟩

theorem recovering (h : Mimics p' p) :
    Mimics (IndexParser.recovering p') (Parser.recovering p) := by
  intro r c hs
  obtain ⟨next, hnext, hcomes⟩ := h r c hs
  rcases hd : p c with ⟨_ | a, d⟩ <;> rw [hd] at hnext hcomes
  · obtain ⟨last, hlast, hcomes'⟩ := hcomes.toStands.synchronize?
    refine ⟨last, by simp [IndexParser.recovering, hnext, hlast, Parser.recovering, hd], ?_⟩
    simpa only [Parser.recovering, hd] using hcomes.trans hcomes'
  · refine ⟨next, by simp [IndexParser.recovering, hnext, Parser.recovering, hd], ?_⟩
    simpa only [Parser.recovering, hd] using hcomes

theorem sized {p' : Nat → IndexParser α} {p : Nat → Parser α} (h : ∀ m, Mimics (p' m) (p m)) :
    Mimics (IndexParser.sized p') fun c => p c.pending.length c := by
  intro r c hs
  have hleft : (beforeEnd r.tokens).length - r.current = c.pending.length := by
    have := hs.index.add_length
    omega
  rw [IndexParser.sized, hleft]
  exact h _ r c hs

end Mimics

end IndexParser

/-- A parser over the index that is put together from the guards as one over the cursor is. -/
inductive Guards : {α : Type} → IndexParser α → Parser α → Prop where
  | pure {α : Type} (a : α) : Guards (Pure.pure a) (Pure.pure a)
  | bind {α β : Type} {p' : IndexParser α} {p : Parser α} {f' : α → IndexParser β}
      {f : α → Parser β} : Guards p' p → (∀ a, Guards (f' a) (f a)) → Guards (p' >>= f') (p >>= f)
  | peek : Guards IndexParser.peek Parser.peek
  | atEnd : Guards IndexParser.atEnd Parser.atEnd
  | check (kind : TokenKind) : Guards (IndexParser.checkIf (· == kind)) (Parser.check kind)
  | acceptIf? (wanted : TokenKind → Bool) :
    Guards (IndexParser.acceptIf? wanted) (Parser.acceptIf? wanted)
  | advance : Guards (IndexParser.advance >>= fun _ => Pure.pure ()) Parser.advance
  | freshNode : Guards IndexParser.freshNode Parser.freshNode
  | record (t : Token) (fault : ParseFault) :
    Guards (IndexParser.record t fault) (Parser.record t fault)
  | fail {α : Type} (fault : ParseFault) :
    Guards (IndexParser.fail (α := α) fault) (Parser.fail fault)
  | recovering {α : Type} {p' : IndexParser α} {p : Parser α} : Guards p' p →
    Guards (IndexParser.recovering p') (Parser.recovering p)
  | sized {α : Type} {p' : Nat → IndexParser α} {p : Nat → Parser α} :
    (∀ m, Guards (p' m) (p m)) → Guards (IndexParser.sized p') fun c => p c.pending.length c

namespace Guards

variable {α : Type} {p' : IndexParser α} {p : Parser α}

theorem mimics (h : Guards p' p) : p'.Mimics p := by
  induction h with
  | pure a => exact .pure a
  | bind _ _ ihp ihf => exact .bind ihp ihf
  | peek => exact .peek
  | atEnd => exact .atEnd
  | check kind => exact .check kind
  | acceptIf? wanted => exact .acceptIf? wanted
  | advance => exact .advance
  | freshNode => exact .freshNode
  | record t fault => exact .record t fault
  | fail fault => exact .fail fault
  | recovering _ ih => exact .recovering ih
  | sized _ ih => exact .sized ih

/-- The cursor moves on by elementary steps. -/
theorem moves (h : Guards p' p) : ∀ c : Cursor, c.Moves (p c).2 := by
  induction h with
  | @bind _ _ _ p _ f _ _ ihp ihf =>
    intro c
    have hm := ihp c
    rw [Parser.bind_apply]
    rcases hd : p c with ⟨_ | a, d⟩ <;> rw [hd] at hm
    · exact hm
    · exact hm.trans (ihf a d)
  | acceptIf? wanted =>
    intro c
    unfold Parser.acceptIf?
    split
    · rename_i t rest hc
      split
      · exact .single (.read hc)
      · exact .refl
    · exact .refl
  | advance => exact fun c => c.moves_of_suffix (List.tail_suffix _)
  | freshNode => exact fun c => .single (.draw c)
  | record t fault => exact fun c => .single (.report c t fault)
  | fail fault => exact fun c => .single (.report c c.peek fault)
  | @recovering _ _ p _ ih =>
    intro c
    have hm := ih c
    unfold Parser.recovering
    rcases hd : p c with ⟨_ | a, d⟩ <;> rw [hd] at hm
    · exact hm.trans (d.moves_of_suffix (Parser.Reads.afterFault_suffix _))
    · exact hm
  | sized _ ih => exact fun c => ih _ c
  | pure | peek | atEnd | check => exact fun _ => .refl

end Guards

/-- A parser that has a counterpart over the index. -/
def Guarded {α : Type} (p : Parser α) : Prop := ∃ p' : IndexParser α, Guards p' p

namespace Guarded

variable {α β : Type} {p : Parser α} {f : α → Parser β}

theorem moves (h : Guarded p) (c : Cursor) : c.Moves (p c).2 := by
  obtain ⟨p', hp⟩ := h
  exact hp.moves c

theorem pure (a : α) : Guarded (Pure.pure a) := ⟨_, .pure a⟩

theorem bind (h : Guarded p) (hf : ∀ a, Guarded (f a)) : Guarded (p >>= f) := by
  obtain ⟨p', hp⟩ := h
  choose f' hf' using hf
  exact ⟨p' >>= f', hp.bind hf'⟩

theorem recovering (h : Guarded p) : Guarded (Parser.recovering p) := by
  obtain ⟨p', hp⟩ := h
  exact ⟨_, hp.recovering⟩

theorem sized {f : Nat → Parser α} (h : ∀ m, Guarded (f m)) :
    Guarded fun c => f c.pending.length c := by
  choose f' hf using h
  exact ⟨_, .sized hf⟩

theorem ite (b : Prop) [Decidable b] {q : Parser α} (hp : Guarded p) (hq : Guarded q) :
    Guarded (if b then p else q) := by
  split
  · exact hp
  · exact hq

end Guarded

end Lox
