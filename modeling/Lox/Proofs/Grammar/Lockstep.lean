import Lox.Grammar.Parser
import Lox.Proofs.Program.Respelling

/-! Parsers side by side.

A parser looks at one token ahead and no further, so what it makes of a list of tokens does not
change when tokens are added behind those that it reads, and does not hang on the lines that they
stand on, on the node identities that it draws or on the errors before. The second parser of a
comparison reads with more tokens behind, further down, from another count of nodes, behind other
errors, and perhaps with more levels of nesting to spare. It does the same as the first, or the
first has come to its end of input or to an error. Where nothing is added behind, that second case
is excluded, for parses with errors too.

Faults that are noticed in passing, of a target or of the length of a list, are mild: they do not
make a parser give up, and here they do not count as errors. -/

namespace Lox

/-- What reading can make of a cursor. -/
structure Cursor.ReadsTo (c d : Cursor) : Prop where
  pending : d.pending <:+ c.pending
  finish : d.finish = c.finish
  nextNode : c.nextNode ≤ d.nextNode
  errors : c.errors.toList <+: d.errors.toList

theorem Cursor.ReadsTo.refl (c : Cursor) : c.ReadsTo c :=
  ⟨List.suffix_refl _, rfl, Nat.le_refl _, List.prefix_refl _⟩

theorem Cursor.ReadsTo.trans {c d e : Cursor} (h : c.ReadsTo d) (k : d.ReadsTo e) : c.ReadsTo e :=
  ⟨k.pending.trans h.pending, k.finish.trans h.finish, Nat.le_trans h.nextNode k.nextNode,
    h.errors.trans k.errors⟩

theorem Cursor.ReadsTo.errors_size {c d : Cursor} (h : c.ReadsTo d) :
    c.errors.size ≤ d.errors.size := by
  simpa using h.errors.length_le

theorem Cursor.ReadsTo.pending_nil {c d : Cursor} (h : c.ReadsTo d) (hc : c.pending = []) :
    d.pending = [] := by
  have hp := h.pending
  rw [hc] at hp
  exact List.suffix_nil.mp hp

/-- Noticed in passing, without giving anything up. -/
def ParseFault.isMild : ParseFault → Bool
  | .invalidAssignmentTarget | .tooManyParameters | .tooManyArguments => true
  | .expected _ | .expectedExpression => false

/-- The errors that are not mild. -/
def grave (errors : List ParseError) : List ParseError := errors.filter fun e => !e.fault.isMild

def Cursor.graves (c : Cursor) : List ParseError := grave c.errors.toList

theorem Cursor.graves_nil {c : Cursor} (h : c.errors = #[]) : c.graves = [] := by
  simp [Cursor.graves, grave, h]

theorem Cursor.graves_record_mild {c : Cursor} {t : Token} {fault : ParseFault}
    (h : fault.isMild = true) : (c.record t fault).graves = c.graves := by
  simp [Cursor.graves, grave, Cursor.record, h]

theorem Cursor.graves_record {c : Cursor} {t : Token} {fault : ParseFault}
    (h : fault.isMild = false) : (c.record t fault).graves = c.graves ++ [⟨t, fault⟩] := by
  simp [Cursor.graves, grave, Cursor.record, h]

theorem Cursor.ReadsTo.graves {c d : Cursor} (h : c.ReadsTo d) : c.graves <+: d.graves :=
  h.errors.filter _

theorem Cursor.ReadsTo.graves_length {c d : Cursor} (h : c.ReadsTo d) :
    c.graves.length ≤ d.graves.length := h.graves.length_le

theorem Cursor.ReadsTo.errors_lt {c d : Cursor} (h : c.ReadsTo d)
    (hlt : c.graves.length < d.graves.length) : c.errors.size < d.errors.size := by
  refine Nat.lt_of_le_of_ne h.errors_size fun hsize => ?_
  have hsame : c.errors.toList = d.errors.toList := h.errors.eq_of_length (by simpa using hsize)
  rw [Cursor.graves, Cursor.graves, hsame] at hlt
  exact Nat.lt_irrefl _ hlt

/-- A parser that got here looked past the end of its input or met an error. -/
def Cursor.Lost (c d : Cursor) : Prop := d.pending = [] ∨ c.graves.length < d.graves.length

theorem Cursor.Lost.before {c d e : Cursor} (h : d.Lost e) (hr : c.ReadsTo d) : c.Lost e :=
  h.imp id fun he => Nat.lt_of_le_of_lt hr.graves_length he

theorem Cursor.Lost.after {c d e : Cursor} (h : c.Lost d) (hr : d.ReadsTo e) : c.Lost e :=
  h.imp hr.pending_nil fun he => Nat.lt_of_lt_of_le he hr.graves_length

def ParseError.respell (f : Respelling) (e : ParseError) : ParseError := ⟨f.token e.token, e.fault⟩

def ParseError.relabel (f : Relabelling) (e : ParseError) : ParseError :=
  ⟨e.token.relabel f, e.fault⟩

theorem ParseError.map_relabel_ofNodes (g : NodeId → NodeId) (es : List ParseError) :
    es.map (ParseError.relabel (.ofNodes g)) = es := List.map_id' es

/-- How the second parse differs from the first: its node identities and tokens, the tokens behind
those of the first, the errors before, and whether anything may differ besides these. -/
structure Comparison where
  respell : Respelling
  more : List Token
  earlier : Array ParseError
  exact : Prop
  more_nil : exact → more = []
  no_else : ∀ t ∈ more.head?, t.kind ≠ .kwElse

/-- A parse next to itself. -/
def Comparison.same : Comparison := ⟨.same, [], #[], True, fun _ => rfl, by simp⟩

structure Cursor.Along (k : Comparison) (c d : Cursor) : Prop where
  pending : d.pending = c.pending.map k.respell.token ++ k.more
  errors : d.errors = k.earlier ++ c.errors.map (ParseError.respell k.respell)
  nodes : ∀ i, k.respell.node ⟨c.nextNode + i⟩ = ⟨d.nextNode + i⟩
  finish : k.exact → d.finish = k.respell.token c.finish

namespace Parser

variable {α β γ δ : Type} {k : Comparison}

/-- A parser moves on in its cursor, and gives up only with an error. -/
structure Reads (p : Parser α) : Prop where
  reads : ∀ c : Cursor, c.ReadsTo (p c).2
  faults : ∀ c : Cursor, (p c).1 = none → c.graves.length < (p c).2.graves.length

namespace Reads

theorem of_some {p : Parser α} (h : ∀ c : Cursor, c.ReadsTo (p c).2 ∧ (p c).1.isSome) :
    Reads p where
  reads c := (h c).1
  faults c hn := by
    have hs := (h c).2
    rw [hn] at hs
    cases hs

theorem pure (a : α) : Reads (pure a : Parser α) := of_some fun c => ⟨.refl c, rfl⟩

theorem bind {p : Parser α} {g : α → Parser γ} (h : Reads p) (hg : ∀ a, Reads (g a)) :
    Reads (p >>= g) where
  reads c := by
    rw [bind_apply]
    have hr := h.reads c
    generalize p c = r at hr ⊢
    rcases r with ⟨_ | a, e⟩
    · exact hr
    · exact hr.trans ((hg a).reads e)
  faults c := by
    rw [bind_apply]
    have hr := h.reads c
    have hf := h.faults c
    generalize p c = r at hr hf ⊢
    rcases r with ⟨_ | a, e⟩
    · exact fun _ => hf rfl
    · exact fun hn => Nat.lt_of_le_of_lt hr.graves_length ((hg a).faults e hn)

theorem ite {p q : Parser α} (b : Prop) [Decidable b] (hp : Reads p) (hq : Reads q) :
    Reads (if b then p else q) := by
  split
  · exact hp
  · exact hq

theorem peek : Reads Parser.peek := of_some fun c => ⟨.refl c, rfl⟩

theorem check (kind : TokenKind) : Reads (Parser.check kind) := of_some fun c => ⟨.refl c, rfl⟩

theorem atEnd : Reads Parser.atEnd := of_some fun c => ⟨.refl c, rfl⟩

theorem acceptIf? (wanted : TokenKind → Bool) : Reads (Parser.acceptIf? wanted) :=
  of_some fun c => by
    unfold Parser.acceptIf?
    split
    · rename_i t rest hc
      split
      · exact ⟨⟨by simp [hc], rfl, Nat.le_refl _, List.prefix_refl _⟩, rfl⟩
      · exact ⟨.refl c, rfl⟩
    · exact ⟨.refl c, rfl⟩

theorem accept (kind : TokenKind) : Reads (Parser.accept kind) := (acceptIf? _).bind fun _ => pure _

theorem advance : Reads Parser.advance :=
  of_some fun _ => ⟨⟨List.tail_suffix _, rfl, Nat.le_refl _, List.prefix_refl _⟩, rfl⟩

theorem freshNode : Reads Parser.freshNode :=
  of_some fun _ => ⟨⟨List.suffix_refl _, rfl, Nat.le_succ _, List.prefix_refl _⟩, rfl⟩

theorem record (t : Token) (fault : ParseFault) : Reads (Parser.record t fault) :=
  of_some fun _ => ⟨⟨List.suffix_refl _, rfl, Nat.le_refl _,
    by simp [Parser.record, Cursor.record]⟩, rfl⟩

theorem fail {fault : ParseFault} (h : fault.isMild = false) :
    Reads (Parser.fail (α := α) fault) where
  reads _ := ⟨List.suffix_refl _, rfl, Nat.le_refl _, by simp [Parser.fail, Cursor.record]⟩
  faults _ _ := by simp [Parser.fail, Cursor.graves_record h]

theorem expect (e : Expectation) : Reads (Parser.expect e) := by
  refine (acceptIf? _).bind fun t => ?_
  cases t with
  | none => exact fail rfl
  | some t => exact pure t

theorem iterateUpTo {next : α → Parser (Option α)} (hn : ∀ a, Reads (next a)) (n : Nat) :
    ∀ a : α, Reads (Parser.iterateUpTo n next a) := by
  induction n with
  | zero => exact pure
  | succ n ih =>
    intro a
    refine (hn a).bind fun b? => ?_
    cases b? with
    | none => exact pure a
    | some b => exact ih b

theorem skipToBoundary_suffix (ts : List Token) : ∀ last : TokenKind,
    skipToBoundary last ts <:+ ts := by
  induction ts with
  | nil => exact fun _ => List.suffix_refl _
  | cons t rest ih =>
    intro last
    rw [skipToBoundary]
    split
    · exact List.suffix_refl _
    · exact (ih t.kind).trans (List.suffix_cons t rest)

theorem afterFault_suffix (ts : List Token) : afterFault ts <:+ ts := by
  cases ts with
  | nil => exact List.suffix_refl _
  | cons t rest => exact (skipToBoundary_suffix rest t.kind).trans (List.suffix_cons t rest)

theorem recovering {p : Parser α} (h : Reads p) : Reads (Parser.recovering p) :=
  of_some fun c => by
    unfold Parser.recovering
    have hr := h.reads c
    generalize p c = r at hr ⊢
    rcases r with ⟨_ | a, e⟩
    · exact ⟨hr.trans ⟨afterFault_suffix _, rfl, Nat.le_refl _, List.prefix_refl _⟩, rfl⟩
    · exact ⟨hr, rfl⟩

end Reads

/-- `q` gives the results of `p` up to `φ`, wherever `p` does not get lost. -/
structure Follows (k : Comparison) (φ : α → β) (p : Parser α) (q : Parser β) : Prop
    extends Reads p where
  along : ∀ c d : Cursor, c.Along k d →
    ((q d).1 = (p c).1.map φ ∧ (p c).2.Along k (q d).2) ∨ (¬k.exact ∧ c.Lost (p c).2)

theorem bind_eq_some {p : Parser α} {g : α → Parser β} {c d : Cursor} {b : β} :
    (p >>= g) c = (some b, d) ↔ ∃ a e, p c = (some a, e) ∧ g a e = (some b, d) := by
  rw [bind_apply]
  rcases p c with ⟨a?, e⟩
  cases a? with
  | none => simp
  | some a =>
    constructor
    · exact fun h => ⟨a, e, rfl, h⟩
    · rintro ⟨_, _, ⟨rfl, rfl⟩, h⟩
      exact h

namespace Follows

theorem pure (φ : α → β) (a : α) : Follows k φ (pure a) (pure (φ a)) where
  toReads := .pure a
  along _ _ h := .inl ⟨rfl, h⟩

theorem bind {φ : α → β} {ψ : γ → δ} {p : Parser α} {q : Parser β} {g : α → Parser γ}
    {g' : β → Parser δ} (h : Follows k φ p q) (hg : ∀ a, Follows k ψ (g a) (g' (φ a))) :
    Follows k ψ (p >>= g) (q >>= g') where
  toReads := h.toReads.bind fun a => (hg a).toReads
  along c d hd := by
    rw [bind_apply, bind_apply]
    have hr := h.reads c
    have ha := h.along c d hd
    generalize p c = r at hr ha ⊢
    generalize q d = r' at ha ⊢
    rcases r with ⟨_ | a, e⟩ <;> rcases r' with ⟨b?, e'⟩
    · rcases ha with ⟨rfl, he⟩ | hl
      · exact .inl ⟨rfl, he⟩
      · exact .inr hl
    · rcases ha with ⟨rfl, he⟩ | ⟨hx, hl⟩
      · rcases (hg a).along e e' he with hs | ⟨hx, hl⟩
        · exact .inl hs
        · exact .inr ⟨hx, hl.before hr⟩
      · exact .inr ⟨hx, hl.after ((hg a).reads e)⟩

theorem map {φ : α → β} {ψ : γ → δ} {p : Parser α} {q : Parser β} {g : α → γ} {g' : β → δ}
    (h : Follows k φ p q) (hg : ∀ a, g' (φ a) = ψ (g a)) : Follows k ψ (g <$> p) (g' <$> q) := by
  refine h.bind fun a => ?_
  simp only [Function.comp_apply, hg]
  exact pure ψ (g a)

theorem ite {φ : α → β} {p p' : Parser α} {q q' : Parser β} (b : Prop) [Decidable b]
    (h : Follows k φ p q) (h' : Follows k φ p' q') :
    Follows k φ (if b then p else p') (if b then q else q') := by
  split
  · exact h
  · exact h'

/-- Looking ahead sees the same token unless the first parser has none left. -/
theorem look {φ : α → β} {l : Cursor → α} {l' : Cursor → β}
    (hl : ∀ c d : Cursor, d.pending.head? = c.pending.head?.map k.respell.token →
      (c.pending = [] → d.finish = k.respell.token c.finish) → l' d = φ (l c)) :
    Follows k φ (fun c => (some (l c), c)) (fun c => (some (l' c), c)) where
  toReads := .of_some fun c => ⟨.refl c, rfl⟩
  along c d h := by
    by_cases hx : k.exact
    · have hp := h.pending
      rw [k.more_nil hx, List.append_nil] at hp
      refine .inl ⟨?_, h⟩
      simp [hl c d (by rw [hp, List.head?_map]) fun _ => h.finish hx]
    · cases hc : c.pending with
      | nil => exact .inr ⟨hx, .inl hc⟩
      | cons t rest =>
        refine .inl ⟨?_, h⟩
        have hh : d.pending.head? = c.pending.head?.map k.respell.token := by
          rw [h.pending, hc]
          rfl
        simp [hl c d hh fun hn => absurd (hc.symm.trans hn) (List.cons_ne_nil t rest)]

theorem peek : Follows k k.respell.token Parser.peek Parser.peek :=
  look fun c d hh hf => by
    unfold Cursor.peek
    cases hc : c.pending with
    | nil =>
      rw [hc] at hh
      simp [List.head?_eq_none_iff.mp hh, hf hc]
    | cons t rest =>
      rw [hc] at hh
      obtain ⟨rest', hd⟩ := List.head?_eq_some_iff.mp hh
      simp [hd]

theorem check (kind : TokenKind) : Follows k id (Parser.check kind) (Parser.check kind) :=
  look fun c d hh _ => by
    rw [Cursor.check, hh, id, Cursor.check]
    cases c.pending.head? <;> simp

theorem atEnd : Follows k id Parser.atEnd Parser.atEnd :=
  look fun c d hh _ => by
    unfold Cursor.atEnd
    cases hc : c.pending <;> cases hd : d.pending <;> simp_all

/-- At the end of the input, the tokens behind it must not begin with a wanted one. -/
theorem acceptIf?_along {wanted : TokenKind → Bool} {c d : Cursor} (h : c.Along k d)
    (hn : c.pending = [] → ∀ t ∈ k.more.head?, wanted t.kind = false) :
    (Parser.acceptIf? wanted d).1 =
        (Parser.acceptIf? wanted c).1.map (Option.map k.respell.token) ∧
      (Parser.acceptIf? wanted c).2.Along k (Parser.acceptIf? wanted d).2 := by
  unfold Parser.acceptIf?
  cases hc : c.pending with
  | nil =>
    have hd : d.pending = k.more := by rw [h.pending, hc]; rfl
    cases hm : k.more with
    | nil => simp [hd, hm, h]
    | cons t rest => simp [hd, hm, hn hc t (by simp [hm]), h]
  | cons t rest =>
    have hd : d.pending =
        k.respell.token t :: (rest.map k.respell.token ++ k.more) := by
      rw [h.pending, hc]
      rfl
    by_cases hw : wanted t.kind = true
    · have hw' : wanted (k.respell.token t).kind = true := by rwa [k.respell.kind]
      simp only [hd, if_pos hw, if_pos hw']
      exact ⟨rfl, rfl, h.errors, h.nodes, h.finish⟩
    · have hw' : ¬wanted (k.respell.token t).kind = true := by rwa [k.respell.kind]
      simp only [hd, if_neg hw, if_neg hw']
      exact ⟨rfl, h⟩

theorem acceptIf? (wanted : TokenKind → Bool) :
    Follows k (Option.map k.respell.token) (Parser.acceptIf? wanted)
      (Parser.acceptIf? wanted) where
  toReads := .acceptIf? wanted
  along c d h := by
    by_cases hx : k.exact
    · exact .inl (acceptIf?_along h fun _ => by simp [k.more_nil hx])
    · by_cases hc : c.pending = []
      · exact .inr ⟨hx, .inl (((Reads.acceptIf? wanted).reads c).pending_nil hc)⟩
      · exact .inl (acceptIf?_along h fun hn => absurd hn hc)

theorem accept? (kind : TokenKind) : Follows k (Option.map k.respell.token)
    (Parser.accept? kind) (Parser.accept? kind) := acceptIf? _

theorem accept (kind : TokenKind) : Follows k id (Parser.accept kind) (Parser.accept kind) :=
  (accept? kind).bind fun t => by
    rw [Option.isSome_map]
    exact pure id t.isSome

theorem advance : Follows k id Parser.advance Parser.advance where
  toReads := .advance
  along c d h := by
    unfold Parser.advance
    cases hc : c.pending with
    | nil =>
      by_cases hx : k.exact
      · refine .inl ⟨rfl, ?_, h.errors, h.nodes, h.finish⟩
        simp [h.pending, hc, k.more_nil hx]
      · exact .inr ⟨hx, .inl rfl⟩
    | cons t rest =>
      refine .inl ⟨rfl, ?_, h.errors, h.nodes, h.finish⟩
      simp [h.pending, hc]

theorem freshNode : Follows k k.respell.node Parser.freshNode Parser.freshNode where
  toReads := .freshNode
  along c d h := by
    refine .inl ⟨?_, h.pending, h.errors, fun i => ?_, h.finish⟩
    · exact congrArg some (h.nodes 0).symm
    · have := h.nodes (i + 1)
      rwa [← Nat.add_assoc, ← Nat.add_assoc, Nat.add_right_comm, Nat.add_right_comm _ i 1] at this

theorem record (t : Token) (fault : ParseFault) :
    Follows k id (Parser.record t fault) (Parser.record (k.respell.token t) fault) where
  toReads := .record t fault
  along c d h := .inl ⟨rfl, h.pending,
    by simp [Parser.record, Cursor.record, h.errors, ParseError.respell], h.nodes, h.finish⟩

theorem fail_lost {fault : ParseFault} (hfault : fault.isMild = false) (c : Cursor) :
    c.Lost (Parser.fail (α := α) fault c).2 :=
  .inr (by simp [Parser.fail, Cursor.graves_record hfault])

theorem fail (φ : α → β) {fault : ParseFault} (hfault : fault.isMild = false) :
    Follows k φ (Parser.fail fault) (Parser.fail fault) where
  toReads := .fail hfault
  along c d h := by
    by_cases hx : k.exact
    · refine .inl ⟨rfl, h.pending, ?_, h.nodes, h.finish⟩
      have hpeek : d.peek = k.respell.token c.peek := by
        have hp : d.pending = c.pending.map k.respell.token := by
          rw [h.pending, k.more_nil hx, List.append_nil]
        unfold Cursor.peek
        rw [hp, h.finish hx]
        cases c.pending <;> rfl
      simp [Parser.fail, Cursor.record, ParseError.respell, h.errors, hpeek]
    · exact .inr ⟨hx, fail_lost hfault c⟩

/-- Where levels run out anything may follow, but not in an exact comparison. -/
theorem fail_left (φ : α → β) {fault : ParseFault} (hfault : fault.isMild = false) (q : Parser β)
    (hx : ¬k.exact) : Follows k φ (Parser.fail fault) q where
  toReads := .fail hfault
  along c _ _ := .inr ⟨hx, fail_lost hfault c⟩

theorem expect (e : Expectation) :
    Follows k k.respell.token (Parser.expect e) (Parser.expect e) := by
  refine (accept? e.kind).bind fun t => ?_
  cases t with
  | none => exact fail _ rfl
  | some t => exact pure _ t

end Follows

theorem acceptIf?_eq_some {wanted : TokenKind → Bool} {c d : Cursor} {t : Token}
    (h : acceptIf? wanted c = (some (some t), d)) :
    wanted t.kind = true ∧ c.pending = t :: d.pending ∧ d = { c with pending := d.pending } := by
  unfold acceptIf? at h
  split at h
  · rename_i u rest hc
    split at h
    · rename_i hw
      simp only [Prod.mk.injEq, Option.some.injEq] at h
      obtain ⟨rfl, rfl⟩ := h
      exact ⟨hw, hc, rfl⟩
    · cases h
  · cases h

theorem expect_eq_some {e : Expectation} {c d : Cursor} {t : Token}
    (h : expect e c = (some t, d)) :
    t.kind = e.kind ∧ c.pending = t :: d.pending ∧ d = { c with pending := d.pending } := by
  obtain ⟨a, c', ha, hd⟩ := bind_eq_some.mp h
  cases a with
  | none => cases hd
  | some u =>
    obtain ⟨ht, rfl⟩ := Prod.mk.inj hd
    obtain rfl := Option.some.inj ht
    obtain ⟨hk, hc⟩ := acceptIf?_eq_some ha
    exact ⟨by simpa using hk, hc⟩

/-- A result of this kind costs a token, unless the parser is lost. -/
def Shortens (P : α → Prop) (p : Parser α) : Prop :=
  ∀ c a d, p c = (some a, d) → P a → d.pending.length < c.pending.length ∨ c.Lost d

namespace Shortens

variable {P : α → Prop} {Q : β → Prop} {p : Parser α} {g : α → Parser β}

theorem bind (h : Shortens P p) (hp : Reads p) (hg : ∀ a, Reads (g a))
    (hq : ∀ a, ¬P a → Shortens Q (g a)) : Shortens Q (p >>= g) := by
  intro c b d hb hqb
  obtain ⟨a, e, he, hd⟩ := bind_eq_some.mp hb
  have hrp := hp.reads c
  have hrg := (hg a).reads e
  rw [he] at hrp
  rw [hd] at hrg
  by_cases ha : P a
  · rcases h c a e he ha with hl | hl
    · exact .inl (Nat.lt_of_le_of_lt hrg.pending.length_le hl)
    · exact .inr (hl.after hrg)
  · rcases hq a ha e b d hd hqb with hl | hl
    · exact .inl (Nat.lt_of_lt_of_le hl hrp.pending.length_le)
    · exact .inr (hl.before hrp)

/-- A token is read at the start. -/
theorem first (h : Shortens (fun _ => True) p) (hg : ∀ a, Reads (g a)) :
    Shortens Q (p >>= g) := by
  intro c b d hb _
  obtain ⟨a, e, he, hd⟩ := bind_eq_some.mp hb
  have hrg := (hg a).reads e
  rw [hd] at hrg
  rcases h c a e he trivial with hl | hl
  · exact .inl (Nat.lt_of_le_of_lt hrg.pending.length_le hl)
  · exact .inr (hl.after hrg)

theorem later (hp : Reads p) (hq : ∀ a, Shortens Q (g a)) :
    Shortens Q (p >>= g) := by
  intro c b d hb hqb
  obtain ⟨a, e, he, hd⟩ := bind_eq_some.mp hb
  have hrp := hp.reads c
  rw [he] at hrp
  rcases hq a e b d hd hqb with hl | hl
  · exact .inl (Nat.lt_of_lt_of_le hl hrp.pending.length_le)
  · exact .inr (hl.before hrp)

theorem pure_none : Shortens (fun a => a.isSome) (pure none : Parser (Option α)) := by
  intro c a d h ha
  obtain ⟨hn, -⟩ := Prod.mk.inj h
  rw [← Option.some.inj hn] at ha
  cases ha

theorem fail (fault : ParseFault) : Shortens P (Parser.fail fault) := by
  intro c a d h _
  cases h

theorem acceptIf? (wanted : TokenKind → Bool) :
    Shortens (fun t => t.isSome) (Parser.acceptIf? wanted) := by
  intro c t d h ht
  obtain ⟨t, rfl⟩ := Option.isSome_iff_exists.mp ht
  obtain ⟨-, hc, -⟩ := acceptIf?_eq_some h
  exact .inl (by simp [hc])

theorem accept (kind : TokenKind) : Shortens (fun b => b = true) (Parser.accept kind) := by
  intro c b d h hb
  obtain ⟨t, e, ht, hd⟩ := bind_eq_some.mp h
  obtain ⟨hs, rfl⟩ := Prod.mk.inj hd
  exact acceptIf? _ c t e ht ((Option.some.inj hs).trans hb)

theorem recovering (h : Shortens (fun _ => True) p) (hp : Reads p) :
    Shortens (fun _ => True) (Parser.recovering p) := by
  intro c a d hr _
  unfold Parser.recovering at hr
  have hc := h c
  have hn := hp.faults c
  generalize p c = r at hr hc hn
  rcases r with ⟨_ | b, e⟩
  · obtain ⟨-, rfl⟩ := Prod.mk.inj hr
    exact .inr (.inr (hn rfl))
  · obtain ⟨-, rfl⟩ := Prod.mk.inj hr
    exact hc b e rfl trivial

end Shortens

namespace Follows

variable {φ : α → β} {next : α → Parser (Option α)} {next' : β → Parser (Option β)}

/-- Both loops have turns enough for the tokens before them, or as many turns as each other. -/
theorem iterateUpTo_along (hn : ∀ a, Follows k (Option.map φ) (next a) (next' (φ a)))
    (hp : ∀ a, Shortens (fun b => b.isSome) (next a)) (n : Nat) :
    ∀ (m : Nat) (a : α) (c d : Cursor), c.Along k d → (k.exact → n = m) →
    (¬k.exact → c.pending.length ≤ n ∧ d.pending.length ≤ m) →
    (((Parser.iterateUpTo m next' (φ a) d).1 = (Parser.iterateUpTo n next a c).1.map φ ∧
      (Parser.iterateUpTo n next a c).2.Along k (Parser.iterateUpTo m next' (φ a) d).2) ∨
    (¬k.exact ∧ c.Lost (Parser.iterateUpTo n next a c).2)) := by
  induction n with
  | zero =>
    intro m a c d h hx hl
    by_cases he : k.exact
    · obtain rfl := hx he
      exact .inl ⟨rfl, h⟩
    · exact .inr ⟨he, .inl (List.eq_nil_of_length_eq_zero (Nat.le_zero.mp (hl he).1))⟩
  | succ n ih =>
    intro m a c d h hx hl
    cases m with
    | zero =>
      have he : ¬k.exact := fun he => Nat.succ_ne_zero n (hx he)
      have hd : d.pending = [] := List.eq_nil_of_length_eq_zero (Nat.le_zero.mp (hl he).2)
      have hc : c.pending = [] := by
        have := h.pending
        rw [hd] at this
        exact List.map_eq_nil_iff.mp (List.append_eq_nil_iff.mp this.symm).1
      -- The second loop has no turn left, so nothing stood before it, nor before the first one.
      have hr := (Reads.iterateUpTo (fun a => (hn a).toReads) (n + 1) a).reads c
      exact .inr ⟨he, .inl (hr.pending_nil hc)⟩
    | succ m =>
      rw [Parser.iterateUpTo, Parser.iterateUpTo, bind_apply, bind_apply]
      have hr := (hn a).reads c
      have ha := (hn a).along c d h
      have hs := hp a c
      generalize next a c = r at hr ha hs ⊢
      generalize next' (φ a) d = r' at ha ⊢
      rcases r with ⟨_ | _ | b, e⟩ <;> rcases r' with ⟨b?, e'⟩
      · rcases ha with ⟨rfl, he⟩ | hl
        · exact .inl ⟨rfl, he⟩
        · exact .inr hl
      · rcases ha with ⟨rfl, he⟩ | hl
        · exact .inl ⟨rfl, he⟩
        · exact .inr hl
      · have hb := (Reads.iterateUpTo (fun a => (hn a).toReads) n b).reads e
        rcases ha with ⟨rfl, he⟩ | ⟨hx, hl⟩
        · -- A turn that goes on costs a token, unless the first parse is lost anyway.
          rcases hs (some b) e rfl rfl with hlt | hlost
          · refine (ih m b e e' he (fun hx' => Nat.succ.inj (hx hx')) fun hx' => ?_).imp id
              fun ⟨hx', hlost⟩ => ⟨hx', hlost.before hr⟩
            have := hl hx'
            have hc := congrArg List.length h.pending
            have he' := congrArg List.length he.pending
            simp only [List.length_append, List.length_map] at hc he'
            omega
          · by_cases hx' : k.exact
            · exact (ih m b e e' he (fun hx' => Nat.succ.inj (hx hx'))
                fun hn => absurd hx' hn).imp id fun ⟨hx', hlost⟩ => ⟨hx', hlost.before hr⟩
            · exact .inr ⟨hx', hlost.after hb⟩
        · exact .inr ⟨hx, hl.after hb⟩

theorem iterate (hn : ∀ a, Follows k (Option.map φ) (next a) (next' (φ a)))
    (hp : ∀ a, Shortens (fun b => b.isSome) (next a)) {a : α} {b : β} (hab : φ a = b) :
    Follows k φ (Parser.iterate next a) (Parser.iterate next' b) := by
  obtain rfl := hab
  refine (hn a).bind fun b? => ?_
  cases b? with
  | none => exact pure φ a
  | some b =>
    refine ⟨⟨fun c => ?_, fun c => ?_⟩, fun c d h => ?_⟩
    · exact (Reads.iterateUpTo (fun a => (hn a).toReads) _ b).reads c
    · exact (Reads.iterateUpTo (fun a => (hn a).toReads) _ b).faults c
    · exact iterateUpTo_along hn hp c.pending.length d.pending.length b c d h
        (fun he => by rw [h.pending, k.more_nil he, List.append_nil, List.length_map])
        fun _ => ⟨Nat.le_refl _, Nat.le_refl _⟩

/-- A loop that goes on only after it has read a token. -/
theorem iterate_after {τ : Type} {P : τ → Prop} {θ : τ → τ} {test : Parser τ}
    {g : α → τ → Parser (Option α)} {g' : β → τ → Parser (Option β)}
    (ht : Follows k θ test test) (hs : Shortens P test)
    (hg : ∀ a t, Follows k (Option.map φ) (g a t) (g' (φ a) (θ t)))
    (hstop : ∀ a t, ¬P t → Shortens (fun b => b.isSome) (g a t))
    {a : α} {b : β} (hab : φ a = b) : Follows k φ (Parser.iterate (fun a => test >>= g a) a)
      (Parser.iterate (fun b => test >>= g' b) b) :=
  iterate (fun a => ht.bind (hg a))
    (fun a => hs.bind ht.toReads (fun t => (hg a t).toReads) (hstop a)) hab

theorem skipToBoundary_append (f : Respelling) (more : List Token) (ts : List Token) :
    ∀ last : TokenKind, skipToBoundary last (ts.map (f.token) ++ more) =
        (skipToBoundary last ts).map (f.token) ++ more ∨ skipToBoundary last ts = [] := by
  induction ts with
  | nil => exact fun _ => .inr rfl
  | cons t rest ih =>
    intro last
    rw [List.map_cons, List.cons_append, skipToBoundary, skipToBoundary, Respelling.kind]
    split
    · exact .inl rfl
    · exact ih t.kind

theorem skipToBoundary_map (f : Respelling) (ts : List Token) : ∀ last : TokenKind,
    skipToBoundary last (ts.map (f.token)) =
      (skipToBoundary last ts).map (f.token) := by
  induction ts with
  | nil => exact fun _ => rfl
  | cons t rest ih =>
    intro last
    rw [List.map_cons, skipToBoundary, skipToBoundary, Respelling.kind]
    split
    · rfl
    · exact ih t.kind

theorem afterFault_map (f : Respelling) (ts : List Token) :
    afterFault (ts.map (f.token)) = (afterFault ts).map (f.token) := by
  cases ts with
  | nil => rfl
  | cons t rest =>
    rw [List.map_cons, afterFault, afterFault, Respelling.kind]
    exact skipToBoundary_map f rest t.kind

theorem afterFault_append (f : Respelling) (more ts : List Token) :
    afterFault (ts.map (f.token) ++ more) = (afterFault ts).map (f.token) ++ more ∨
      afterFault ts = [] := by
  cases ts with
  | nil => exact .inr rfl
  | cons t rest =>
    rw [List.map_cons, List.cons_append, afterFault, afterFault, Respelling.kind]
    exact skipToBoundary_append f more rest t.kind

theorem recovering {p : Parser α} {q : Parser β} (h : Follows k φ p q) :
    Follows k (Option.map φ) (Parser.recovering p) (Parser.recovering q) where
  toReads := h.toReads.recovering
  along c d hd := by
    unfold Parser.recovering
    have ha := h.along c d hd
    generalize p c = r at ha ⊢
    generalize q d = r' at ha ⊢
    rcases r with ⟨_ | a, e⟩ <;> rcases r' with ⟨b?, e'⟩
    · rcases ha with ⟨rfl, he⟩ | ⟨hx, hl⟩
      · have hp : e'.pending = e.pending.map k.respell.token ++ k.more := he.pending
        by_cases hx : k.exact
        · refine .inl ⟨rfl, ?_, he.errors, he.nodes, he.finish⟩
          simp [hp, k.more_nil hx, afterFault_map]
        · rcases afterFault_append k.respell k.more e.pending with hf | hf
          · exact .inl ⟨rfl, (congrArg afterFault hp).trans hf, he.errors, he.nodes, he.finish⟩
          · exact .inr ⟨hx, .inl hf⟩
      · refine .inr ⟨hx, hl.imp (fun hn => ?_) id⟩
        exact (congrArg afterFault hn : afterFault e.pending = afterFault [])
    · rcases ha with ⟨rfl, he⟩ | hl
      · exact .inl ⟨rfl, he⟩
      · exact .inr hl

end Follows

end Parser

end Lox
