import Lox.Proofs.Grammar.Bounds
import Lox.Proofs.Grammar.Relaxed

/-! Parsers that see at the next token what can still be read.

A parser predicts the words of a language if it goes on just as long as what was read begins such a
word, whatever comes behind. What may come behind is a language too, the continuation, and a parser
that reads as far as it can relies on what continuations do not begin with. Where it meets no error,
the tokens that were read are a word, and no other word with a continuation behind it agrees with
them and with the next token. Where it meets one, the tokens before it begin a word, and no word
with a continuation goes on with the token at fault. Mild faults are left aside. -/

namespace Lox

open scoped Computability

namespace Grammar

/-- Continuations that begin with tokens of some kinds only. -/
def Heads (wanted : TokenKind → Prop) (K : Language Token) : Prop :=
  ∀ w ∈ K, ∃ t ∈ w.head?, wanted t.kind

section Heads

variable {wanted other : TokenKind → Prop} {X K : Language Token}

theorem Heads.mono (h : Heads wanted K) (hw : ∀ k, wanted k → other k) : Heads other K := by
  intro w hk
  obtain ⟨t, ht, hkind⟩ := h w hk
  exact ⟨t, ht, hw _ hkind⟩

theorem Heads.add (h : Heads wanted X) (h' : Heads wanted K) : Heads wanted (X + K) := by
  rintro w (hw | hw)
  · exact h w hw
  · exact h' w hw

theorem Heads.mul (h : Heads wanted X) (K : Language Token) : Heads wanted (X * K) := by
  intro w hw
  obtain ⟨us, hus, vs, -, rfl⟩ := Language.mem_mul.mp hw
  obtain ⟨t, ht, hk⟩ := h us hus
  obtain ⟨rest, rfl⟩ := List.head?_eq_some_iff.mp ht
  exact ⟨t, rfl, hk⟩

/-- Reading a word that begins with something leaves less. -/
theorem Heads.shorter (h : Heads wanted X) {c d : Cursor} {us : List Token} (hus : us ∈ X)
    (hc : c.pending = us ++ d.pending) : d.pending.length < c.pending.length := by
  obtain ⟨t, ht, -⟩ := h us hus
  obtain ⟨rest, rfl⟩ := List.head?_eq_some_iff.mp ht
  rw [hc, List.length_append, List.length_cons]
  omega

theorem Heads.optional (h : Heads wanted X) (hK : Heads wanted K) :
    Heads wanted ((1 + X) * K) := by
  rw [add_mul, one_mul]
  exact hK.add (h.mul K)

theorem Heads.kstar (h : Heads wanted X) (hK : Heads wanted K) : Heads wanted (X∗ * K) := by
  rw [← Language.one_add_self_mul_kstar_eq_kstar, add_mul, one_mul, mul_assoc]
  exact hK.add (h.mul _)

theorem heads_lang {x : Ebnf} (hx : nullable x = false) :
    Heads (fun k => headsOf x k = true) (lang x) := by
  intro w hw
  obtain ⟨hnil, hcons⟩ := begins_of_derives hw
  cases w with
  | nil => simp [hnil rfl] at hx
  | cons t rest => exact ⟨t, rfl, hcons t rest rfl⟩

theorem heads_rule (n : Nonterminal) : Heads (fun k => heads n k = true) (lang (.rule n)) :=
  heads_lang rfl

/-- One token of some kinds. -/
def single (wanted : TokenKind → Prop) : Language Token :=
  {ts | ∃ t : Token, wanted t.kind ∧ ts = [t]}

theorem mem_single {ts : List Token} :
    ts ∈ single wanted ↔ ∃ t : Token, wanted t.kind ∧ ts = [t] := Iff.rfl

theorem lang_token (k : TokenKind) : lang (.token k) = single (· = k) := by
  ext ts
  exact mem_token

theorem single_add : single wanted + single other = single fun k => wanted k ∨ other k := by
  ext ts
  simp only [Language.mem_add, mem_single, or_and_right, exists_or]

theorem heads_single (wanted : TokenKind → Prop) : Heads wanted (single wanted) := by
  rintro w ⟨t, ht, rfl⟩
  exact ⟨t, rfl, ht⟩

theorem heads_token {k : TokenKind} (h : wanted k) (X : Language Token) :
    Heads wanted (single (· = k) * X) :=
  ((heads_single _).mul X).mono fun _ hk => hk ▸ h

theorem heads_ne {n : Nonterminal} {k : TokenKind} (h : heads n k = false) :
    Heads (· ≠ k) (lang (.rule n)) := by
  refine (heads_rule n).mono ?_
  rintro _ hk rfl
  cases h.symm.trans hk

/-- A word that begins otherwise is none of these. -/
theorem Heads.not_mem (h : Heads wanted K) {w : List Token} {t : Token} (ht : w.head? = some t)
    (hk : ¬wanted t.kind) : w ∉ K := by
  intro hw
  obtain ⟨u, hu, hk'⟩ := h w hw
  obtain rfl : t = u := Option.some.inj (ht.symm.trans hu)
  exact hk hk'

end Heads

/-- A language with a word. -/
class HasWord (X : Language Token) : Prop where
  exists_word : ∃ us, us ∈ X

section HasWord

variable {X Y : Language Token}

instance (x : Ebnf) : HasWord (lang x) := ⟨exists_word x⟩

instance (k : TokenKind) : HasWord (single (· = k)) := ⟨[⟨k, "", none, 0⟩], _, rfl, rfl⟩

instance : HasWord 1 := ⟨[], rfl⟩

instance : HasWord X∗ := ⟨[], Language.nil_mem_kstar X⟩

instance [h : HasWord X] : HasWord (X + Y) := ⟨h.exists_word.imp fun _ => .inl⟩

instance [hX : HasWord X] [hY : HasWord Y] : HasWord (X * Y) := by
  obtain ⟨us, hus⟩ := hX.exists_word
  obtain ⟨vs, hvs⟩ := hY.exists_word
  exact ⟨us ++ vs, Language.mem_mul.mpr ⟨us, hus, vs, hvs, rfl⟩⟩

end HasWord

/-- What a run from a cursor is to be in order to predict the words of `X` before the continuations
that are admitted. A run that is sharp gives up at its first fault. -/
inductive Predicted {α : Type} (sharp : Prop) (Admits : Language Token → Prop)
    (X : Language Token) (c : Cursor) : Option α × Cursor → Prop where
  /-- What was read is a word. No other one goes on with the next token, behind it or in it. -/
  | quiet {a : α} {d : Cursor} (us : List Token) (read : c.pending = us ++ d.pending)
      (finish : d.finish = c.finish) (graves : d.graves = c.graves) (word : us ∈ X)
      (longest : ∀ K, Admits K → ∀ w, w.head? = some d.peek → us ++ w ∈ X * K → w ∈ K) :
    Predicted sharp Admits X c (some a, d)
  /-- What was read begins a word, and none goes on with the token at fault. -/
  | faulty {a : Option α} {d : Cursor} (us rest : List Token) (e : ParseError)
      (more : List ParseError) (read : c.pending = us ++ rest)
      (token : e.token = rest.headD c.finish) (graves : d.graves = c.graves ++ e :: more)
      (begun : ∃ ws, us ++ ws ∈ X)
      (stuck : ∀ K, Admits K → ∀ w, w.head? = some e.token → us ++ w ∉ X * K)
      (gives_up : sharp → a = none ∧ d.pending = rest ∧ more = []) :
    Predicted sharp Admits X c (a, d)

/-- A parser whose run from a cursor does so. -/
abbrev PredictsAt {α : Type} (sharp : Prop) (Admits : Language Token → Prop) (X : Language Token)
    (p : Parser α) (c : Cursor) : Prop := Predicted sharp Admits X c (p c)

/-- Any continuation. -/
def Any (_ : Language Token) : Prop := True

/-- Yields a result and leaves the tokens and the grave errors as they are. -/
def Silent {α : Type} (p : Parser α) : Prop :=
  ∀ c : Cursor, ∃ a d, p c = (some a, d) ∧ d.pending = c.pending ∧ d.finish = c.finish ∧
    d.graves = c.graves

open Lox.Parser

/-- Whatever it yields is a result to go on with. -/
def GoesOn {α : Type} (p : Parser (Option α)) : Prop := ∀ c : Cursor, (p c).1 ≠ some none

theorem GoesOn.pure {α : Type} (a : α) : GoesOn (pure (some a)) := fun _ => by simp

theorem GoesOn.bind {α β : Type} {p : Parser α} {g : α → Parser (Option β)}
    (h : ∀ a, GoesOn (g a)) : GoesOn (p >>= g) := by
  intro c
  rw [bind_apply]
  rcases p c with ⟨_ | a, d⟩
  · simp
  · exact h a d

section Silent

variable {α β : Type} {p : Parser α} {g : α → Parser β}

theorem Silent.pure (a : α) : Silent (pure a : Parser α) := fun c => ⟨a, c, rfl, rfl, rfl, rfl⟩

theorem Silent.freshNode : Silent Parser.freshNode := fun _ => ⟨_, _, rfl, rfl, rfl, rfl⟩

theorem Silent.peek : Silent Parser.peek := fun _ => ⟨_, _, rfl, rfl, rfl, rfl⟩

theorem Silent.record (t : Token) {fault : ParseFault} (h : fault.isMild = true) :
    Silent (Parser.record t fault) :=
  fun _ => ⟨_, _, rfl, rfl, rfl, Cursor.graves_record_mild h⟩

theorem Silent.bind (h : Silent p) (hg : ∀ a, Silent (g a)) : Silent (p >>= g) := by
  intro c
  obtain ⟨a, d, hd, hp, hf, hgraves⟩ := h c
  obtain ⟨b, e, he, hp', hf', hgraves'⟩ := hg a d
  refine ⟨b, e, ?_, hp'.trans hp, hf'.trans hf, hgraves'.trans hgraves⟩
  rw [bind_apply, hd]
  exact he

end Silent

namespace Predicted

variable {α β : Type} {s s' : Prop} {A B : Language Token → Prop}
  {X Y Z : Language Token} {c d : Cursor} {r : Option α × Cursor}

/-- What is read and the next token behind it begin as the cursor does. -/
theorem head_append {us rest w : List Token} (hc : c.pending = us ++ rest)
    (hw : w.head? = some (rest.headD c.finish)) : (us ++ w).head? = some c.peek := by
  unfold Cursor.peek
  rw [hc]
  cases us with
  | nil => exact hw
  | cons u vs => rfl

theorem peek_eq (hf : d.finish = c.finish) : d.peek = d.pending.headD c.finish := by
  rw [Cursor.peek, hf]

theorem loose (h : Predicted True A X c r) : Predicted s A X c r := by
  cases h with
  | quiet us hc hf hg hus hK => exact .quiet us hc hf hg hus hK
  | faulty us rest e more hc ht hg hus hK hs =>
    exact .faulty us rest e more hc ht hg hus hK fun _ => hs trivial

/-- Fewer continuations may be admitted. -/
theorem fewer (h : Predicted s A X c r) (hA : ∀ K, B K → A K) :
    Predicted s B X c r := by
  cases h with
  | quiet us hc hf hg hus hK => exact .quiet us hc hf hg hus fun K hA' => hK K (hA K hA')
  | faulty us rest e more hc ht hg hus hK hs =>
    exact .faulty us rest e more hc ht hg hus (fun K hA' => hK K (hA K hA')) hs

/-- The next token leaves only some of the words. -/
theorem among (h : Predicted s A X c r) (hsub : ∀ us ∈ X, us ∈ Y)
    (hY : ∀ K, A K → ∀ w, w.head? = some c.peek → w ∈ Y * K → w ∈ X * K) :
    Predicted s A Y c r := by
  cases h with
  | quiet us hc hf hg hus hK =>
    refine .quiet us hc hf hg (hsub _ hus) fun K hA w hw hmem => hK K hA w hw (hY K hA _ ?_ hmem)
    exact head_append hc (peek_eq hf ▸ hw)
  | faulty us rest e more hc ht hg hus hK hs =>
    obtain ⟨ws, hws⟩ := hus
    refine .faulty us rest e more hc ht hg ⟨ws, hsub _ hws⟩ (fun K hA w hw hmem => ?_) hs
    exact hK K hA w hw (hY K hA _ (head_append hc (ht ▸ hw)) hmem)

/-- A word of the language is read whole, if the rest can come behind it. -/
theorem quiet_of_word (h : Predicted s A X c r) {us rest : List Token}
    (hc : c.pending = us ++ rest) (hus : us ∈ X) (hA : A {rest ++ [c.finish]}) :
    ∃ a d, r = (some a, d) ∧ d.pending = rest ∧ d.finish = c.finish ∧ d.graves = c.graves := by
  have hword {vs more : List Token} (hpending : c.pending = vs ++ more) :
      vs ++ (more ++ [c.finish]) ∈ X * {rest ++ [c.finish]} := by
    rw [← List.append_assoc, ← hpending, hc, List.append_assoc]
    exact Language.mem_mul.mpr ⟨us, hus, _, rfl, rfl⟩
  cases h with
  | @quiet a d vs hpending hf hg hvs hK =>
    refine ⟨a, d, rfl, ?_, hf, hg⟩
    have hw : d.pending ++ [c.finish] ∈ ({rest ++ [c.finish]} : Language Token) := by
      refine hK _ hA _ ?_ (hword hpending)
      rw [Cursor.peek, hf]
      cases d.pending <;> rfl
    exact List.append_cancel_right hw
  | faulty vs more e later hpending ht hg hvs hK _ =>
    refine absurd (hword hpending) (hK _ hA _ ?_)
    rw [ht]
    cases more <;> rfl

/-- A run from a cursor before the same tokens. -/
theorem start (h : Predicted s A X d r) (hp : d.pending = c.pending)
    (hf : d.finish = c.finish) (hg : d.graves = c.graves) : Predicted s A X c r := by
  cases h with
  | quiet us hc hf' hg' hus hK =>
    exact .quiet us (hp ▸ hc) (hf'.trans hf) (hg'.trans hg) hus hK
  | faulty us rest e more hc ht hg' hus hK hs =>
    exact .faulty us rest e more (hp ▸ hc) (hf ▸ ht) (hg ▸ hg') hus hK hs

/-- Nothing is read where the next token tells that nothing is to be read. -/
theorem absent {a : α} (hX : [] ∈ X)
    (hK : ∀ K, A K → ∀ w, w.head? = some c.peek → w ∈ X * K → w ∈ K) :
    Predicted s A X c (some a, c) :=
  .quiet [] rfl rfl rfl hX hK

theorem pure (a : α) : Predicted s A 1 c (some a, c) :=
  absent (Language.mem_one [] |>.mpr rfl) fun K _ w _ hw => by rwa [one_mul] at hw

theorem fail [HasWord X] {fault : ParseFault} (hfault : fault.isMild = false)
    (hK : ∀ K, A K → ∀ w, w.head? = some c.peek → w ∉ X * K) :
    Predicted s A X c (Parser.fail (α := α) fault c) :=
  .faulty [] c.pending ⟨c.peek, fault⟩ [] rfl rfl
    (Cursor.graves_record hfault) HasWord.exists_word hK fun _ => ⟨rfl, rfl, rfl⟩

/-- The next token is read. -/
theorem token {t : Token} {rest : List Token} {wanted : TokenKind → Prop}
    (hc : c.pending = t :: rest) (hk : wanted t.kind)
    (h : Predicted s A Y { c with pending := rest } r) :
    Predicted s A (single wanted * Y) c r := by
  have hword : [t] ∈ single wanted := ⟨t, hk, rfl⟩
  have hcut (K : Language Token) (w : List Token) (hw : t :: w ∈ single wanted * Y * K) :
      w ∈ Y * K := by
    rw [mul_assoc] at hw
    obtain ⟨us, ⟨u, -, rfl⟩, vs, hvs, heq⟩ := Language.mem_mul.mp hw
    obtain ⟨-, rfl⟩ := List.cons.inj heq
    exact hvs
  cases h with
  | @quiet a d us hp hf hg hus hK =>
    replace hp : rest = us ++ d.pending := hp
    refine .quiet (t :: us) (by rw [hc, hp]; rfl) hf hg
      (Language.mem_mul.mpr ⟨[t], hword, us, hus, rfl⟩) fun K hA w hw hmem => ?_
    exact hK K hA w hw (hcut K _ hmem)
  | @faulty a d us rest' e more hp ht hg hus hK hs =>
    replace hp : rest = us ++ rest' := hp
    obtain ⟨ws, hws⟩ := hus
    refine .faulty (t :: us) rest' e more (by rw [hc, hp]; rfl) ht hg
      ⟨ws, Language.mem_mul.mpr ⟨[t], hword, us ++ ws, hws, rfl⟩⟩ (fun K hA w hw hmem => ?_) hs
    exact hK K hA w hw (hcut K _ hmem)

/-- One parser after another. Behind a fault the second one is not run, or it does not matter. -/
theorem bind {p : Parser α} {g : α → Parser β} (h : Predicted s A X c (p c))
    (hs : s ∨ ∀ a, Reads (g a)) (hs' : s' → s) [HasWord Y] (hA : ∀ K, B K → A (Y * K))
    (hg : ∀ (a : α) (d : Cursor) (us : List Token), p c = (some a, d) →
      c.pending = us ++ d.pending → us ∈ X → d.finish = c.finish →
      Predicted s' B Y d (g a d)) :
    Predicted s' B (X * Y) c ((p >>= g) c) := by
  rw [bind_apply]
  generalize p c = r at h hg
  cases h with
  | @quiet a d us hc hf hgraves hus hK =>
    replace hg := hg a d us rfl hc hus hf
    show Predicted s' B (X * Y) c (g a d)
    generalize g a d = r at hg
    cases hg with
    | @quiet b d' vs hc' hf' hgraves' hvs hK' =>
      refine .quiet (us ++ vs) (by rw [hc, hc', List.append_assoc]) (hf'.trans hf)
        (hgraves'.trans hgraves) (Language.mem_mul.mpr ⟨us, hus, vs, hvs, rfl⟩)
        fun K hA' w hw hmem => hK' K hA' w hw ?_
      rw [mul_assoc, List.append_assoc] at hmem
      refine hK _ (hA K hA') _ ?_ hmem
      rw [peek_eq hf'] at hw
      exact head_append hc' hw
    | @faulty b d' vs rest e more hc' ht hgraves' hvs hK' hs =>
      obtain ⟨ws, hws⟩ := hvs
      refine .faulty (us ++ vs) rest e more (by rw [hc, hc', List.append_assoc]) (hf ▸ ht)
        (hgraves ▸ hgraves')
        ⟨ws, Language.mem_mul.mpr ⟨us, hus, vs ++ ws, hws, (List.append_assoc ..).symm⟩⟩
        (fun K hA' w hw hmem => hK' K hA' w hw ?_) hs
      rw [mul_assoc, List.append_assoc] at hmem
      refine hK _ (hA K hA') _ ?_ hmem
      rw [ht] at hw
      exact head_append hc' hw
  | @faulty a d us rest e more hc ht hgraves hus hK hsharp =>
    -- The word that the first parser was in goes on with any word of the second one.
    obtain ⟨ws, hws⟩ := hus
    obtain ⟨ys, hys⟩ := HasWord.exists_word (X := Y)
    have hword : us ++ (ws ++ ys) ∈ X * Y :=
      Language.mem_mul.mpr ⟨us ++ ws, hws, ys, hys, List.append_assoc ..⟩
    have hno (K : Language Token) (hA' : B K) (w : List Token)
        (hw : w.head? = some e.token) : us ++ w ∉ X * Y * K := by
      rw [mul_assoc]
      exact hK _ (hA K hA') w hw
    cases a with
    | none =>
      refine .faulty us rest e more hc ht hgraves ⟨_, hword⟩ hno fun h => ?_
      exact ⟨rfl, (hsharp (hs' h)).2⟩
    | some a =>
      have hloose : ¬s := fun h => by cases (hsharp h).1
      obtain ⟨later, hlater⟩ := ((hs.resolve_left hloose a).reads d).graves
      refine .faulty us rest e (more ++ later) hc ht ?_ ⟨_, hword⟩ hno fun h =>
        absurd (hs' h) hloose
      rw [← hlater, hgraves, List.append_assoc, List.cons_append]

/-- One parser after another that gives up at its fault. -/
theorem before {p : Parser α} {g : α → Parser β} (h : Predicted True A X c (p c)) [HasWord Y]
    (hA : ∀ K, B K → A (Y * K))
    (hg : ∀ (a : α) (d : Cursor) (us : List Token), c.pending = us ++ d.pending → us ∈ X →
      d.finish = c.finish → Predicted s B Y d (g a d)) :
    Predicted s B (X * Y) c ((p >>= g) c) :=
  h.bind (.inl trivial) (fun _ => trivial) hA fun a d us _ => hg a d us

/-- The second parser only makes something of the result. -/
theorem silently {p : Parser α} {g : α → Parser β} (h : Predicted s A X c (p c))
    (hg : ∀ a, Silent (g a)) : Predicted s A X c ((p >>= g) c) := by
  rw [bind_apply]
  generalize p c = r at h
  cases h with
  | @quiet a d us hc hf hgraves hus hK =>
    obtain ⟨b, e, he, hp, hf', hgraves'⟩ := hg a d
    show Predicted s A X c (g a d)
    rw [he]
    refine .quiet us (hp ▸ hc) (hf'.trans hf) (hgraves'.trans hgraves) hus fun K hA w hw hmem => ?_
    refine hK K hA w ?_ hmem
    rw [hw, Cursor.peek, Cursor.peek, hp, hf']
  | @faulty a d us rest e more hc ht hgraves hus hK hs =>
    cases a with
    | none => exact .faulty us rest e more hc ht hgraves hus hK fun h => ⟨rfl, (hs h).2⟩
    | some a =>
      obtain ⟨b, d', hd', -, -, hgraves'⟩ := hg a d
      show Predicted s A X c (g a d)
      rw [hd']
      exact .faulty us rest e more hc ht (hgraves'.trans hgraves) hus hK fun h => by cases (hs h).1

/-- The first parser only looks or takes a note. -/
theorem behind {p : Parser α} {g : α → Parser β} (hp : Silent p)
    (hg : ∀ (a : α) (d : Cursor), d.pending = c.pending → d.finish = c.finish →
      Predicted s A X d (g a d)) : Predicted s A X c ((p >>= g) c) := by
  obtain ⟨a, d, hd, hpending, hf, hgraves⟩ := hp c
  rw [bind_apply, hd]
  exact (hg a d hpending hf).start hpending hf hgraves

theorem pending_of_peek (hf : c.finish.kind = .eof) (hk : c.peek.kind ≠ .eof) :
    ∃ rest, c.pending = c.peek :: rest := by
  unfold Cursor.peek at hk ⊢
  cases hc : c.pending with
  | nil =>
    rw [hc] at hk
    exact absurd hf hk
  | cons t rest => exact ⟨rest, rfl⟩

theorem peek_of_pending {t : Token} {rest : List Token} (hc : c.pending = t :: rest) :
    c.peek = t := by
  rw [Cursor.peek, hc]
  rfl

theorem acceptIf?_read {wanted : TokenKind → Bool} {g : Option Token → Parser β} {t : Token}
    {rest : List Token} (hc : c.pending = t :: rest) (hk : wanted t.kind = true) :
    (acceptIf? wanted >>= g) c = g (some t) { c with pending := rest } := by
  simp [bind_apply, acceptIf?, hc, hk]

theorem acceptIf?_skip {wanted : TokenKind → Bool} {g : Option Token → Parser β}
    (hk : wanted c.peek.kind = false) : (acceptIf? wanted >>= g) c = g none c := by
  rw [bind_apply, acceptIf?]
  cases hc : c.pending with
  | nil => rfl
  | cons t rest =>
    rw [peek_of_pending hc] at hk
    simp [hk]

theorem accept_read {kind : TokenKind} {p q : Parser α} {t : Token} {rest : List Token}
    (hc : c.pending = t :: rest) (hk : t.kind = kind) :
    (do if ← Parser.accept kind then p else q) c = p { c with pending := rest } := by
  simp [Parser.accept, accept?, bind_apply, acceptIf?, hc, hk]

theorem accept_skip {kind : TokenKind} {p q : Parser α} (hk : c.peek.kind ≠ kind) :
    (do if ← Parser.accept kind then p else q) c = q c := by
  have haccept : Parser.accept kind c = (some false, c) := by
    unfold Parser.accept accept?
    rw [acceptIf?_skip (by simpa using hk)]
    rfl
  rw [bind_apply, haccept]
  rfl

/-- The next token is looked at. -/
theorem peek {f : Token → Parser β} (h : PredictsAt s A X (f c.peek) c) :
    Predicted s A X c ((Parser.peek >>= f) c) := h

/-- What is expected here is the only thing that can stand here. -/
theorem expect {e : Expectation} {k : TokenKind} {g : Token → Parser β} [HasWord Y]
    (he : e.kind = k) (hf : c.finish.kind = .eof)
    (h : ∀ (t : Token) (rest : List Token), c.pending = t :: rest →
      Predicted s A Y { c with pending := rest } (g t { c with pending := rest })) :
    Predicted s A (single (· = k) * Y) c ((Parser.expect e >>= g) c) := by
  subst he
  have heof : e.kind ≠ .eof := by cases e <;> simp [Expectation.kind]
  by_cases hk : c.peek.kind = e.kind
  · obtain ⟨rest, hc⟩ := pending_of_peek hf (hk ▸ heof)
    rw [bind_apply, expect_cons hk hc]
    exact token hc hk (h _ rest hc)
  · have hfail : Parser.expect e c = Parser.fail (.expected e) c :=
      acceptIf?_skip (by simpa using hk)
    rw [bind_apply, hfail]
    show Predicted s A _ c (Parser.fail (.expected e) c)
    refine fail rfl fun K _ w hw => ?_
    rw [mul_assoc]
    exact ((heads_single _).mul _).not_mem hw hk

theorem of_silent {p : Parser α} (h : Silent p) : Predicted s A 1 c (p c) := by
  obtain ⟨a, d, hd, hp, hf, hg⟩ := h c
  rw [hd]
  exact (pure a).start hp hf hg

/-- What is expected is the last thing that is read. -/
theorem expected {e : Expectation} {k : TokenKind} {g : Token → Parser β} (he : e.kind = k)
    (hf : c.finish.kind = .eof) (hg : ∀ t, Silent (g t)) :
    Predicted s A (single (· = k)) c ((Parser.expect e >>= g) c) := by
  rw [← mul_one (single _)]
  exact expect he hf fun t _ _ => of_silent (hg t)

/-- The token that was looked at is read. -/
theorem advance {g : Unit → Parser β} {wanted : TokenKind → Prop} (hf : c.finish.kind = .eof)
    (hk : wanted c.peek.kind) (hend : c.peek.kind ≠ .eof)
    (h : ∀ rest, c.pending = c.peek :: rest →
      Predicted s A Y { c with pending := rest } (g () { c with pending := rest })) :
    Predicted s A (single wanted * Y) c ((Parser.advance >>= g) c) := by
  obtain ⟨rest, hc⟩ := pending_of_peek hf hend
  have hadvance : (Parser.advance >>= g) c = g () { c with pending := rest } := by
    simp [bind_apply, Parser.advance, hc]
  rw [hadvance]
  exact token hc hk (h rest hc)

/-- The next token belongs to the first part. -/
theorem left (h : Predicted s A X c r) (hY : Heads (· ≠ c.peek.kind) Y) :
    Predicted s A (X + Y) c r := by
  refine h.among (fun us hus => .inl hus) fun K _ w hw hmem => ?_
  rw [add_mul] at hmem
  exact hmem.resolve_right ((hY.mul K).not_mem hw (not_not_intro rfl))

theorem right (h : Predicted s A Y c r) (hX : Heads (· ≠ c.peek.kind) X) :
    Predicted s A (X + Y) c r := by
  rw [add_comm]
  exact h.left hX

/-- One of two parts, told apart by the next token. -/
theorem accept {kind : TokenKind} {p q : Parser α} (hf : c.finish.kind = .eof)
    (hkind : kind ≠ .eof) (hY : ∀ K, A K → Heads (· ≠ kind) (Y * K))
    (hp : ∀ (t : Token) (rest : List Token), c.pending = t :: rest → t.kind = kind →
      Predicted s A X { c with pending := rest } (p { c with pending := rest }))
    (hq : c.peek.kind ≠ kind → Predicted s A Y c (q c)) :
    Predicted s A (single (· = kind) * X + Y) c
      ((do if ← Parser.accept kind then p else q) c) := by
  by_cases hk : c.peek.kind = kind
  · obtain ⟨rest, hc⟩ := pending_of_peek hf (hk ▸ hkind)
    rw [accept_read hc hk]
    refine (token hc hk (hp _ rest hc hk)).among (fun us hus => .inl hus) fun K hA w hw hmem => ?_
    rw [add_mul] at hmem
    exact hmem.resolve_right ((hY K hA).not_mem hw (not_not_intro hk))
  · rw [accept_skip hk]
    refine (hq hk).among (fun us hus => .inr hus) fun K _ w hw hmem => ?_
    rw [add_mul, mul_assoc] at hmem
    exact hmem.resolve_left (((heads_single _).mul _).not_mem hw hk)

theorem check {kind : TokenKind} {p q : Parser α} (hf : c.finish.kind = .eof)
    (hkind : kind ≠ .eof) (hp : c.peek.kind = kind → Predicted s A X c (p c))
    (hq : c.peek.kind ≠ kind → Predicted s A X c (q c)) :
    Predicted s A X c ((do if ← Parser.check kind then p else q) c) := by
  by_cases hk : c.peek.kind = kind
  · obtain ⟨rest, hc⟩ := pending_of_peek hf (hk ▸ hkind)
    have hcheck : Parser.check kind c = (some true, c) := by
      simp [Parser.check, Cursor.check, hc, hk]
    rw [bind_apply, hcheck]
    exact hp hk
  · have hcheck : Parser.check kind c = (some false, c) := by
      cases hc : c.pending with
      | nil => simp [Parser.check, Cursor.check, hc]
      | cons t rest =>
        rw [peek_of_pending hc] at hk
        simp [Parser.check, Cursor.check, hc, hk]
    rw [bind_apply, hcheck]
    exact hq hk

/-- A loop that goes on as long as an item can begin. -/
theorem repeated {next : α → Parser (Option α)} {P S : Cursor → Prop} {n : Nat}
    (hproper : ∀ (c d : Cursor) (us : List Token), P c → c.pending = us ++ d.pending →
      d.finish = c.finish → P d)
    (hend : ∀ c, P c → c.pending = [] → S c) (hne : Heads (fun _ => True) Z)
    (hZ : ∀ c, P c → S c → Heads (· ≠ c.peek.kind) Z)
    (hK : ∀ c, P c → ¬S c → ∀ K, A K → Heads (· ≠ c.peek.kind) K)
    (hA : ∀ K, A K → B (Z∗ * K)) (hs : s ∨ ∀ a, Reads (next a))
    (hstop : ∀ (a : α) (c : Cursor), P c → S c → next a c = (some none, c))
    (hgo : ∀ (a : α) (c : Cursor), P c → c.pending.length < n → ¬S c →
      Predicted s B Z c (next a c) ∧ (next a c).1 ≠ some none) (m : Nat) :
    ∀ (a : α) (c : Cursor), P c → c.pending.length ≤ m → c.pending.length < n →
    Predicted s A Z∗ c (Parser.iterateUpTo m next a c) := by
  have hsplit (K : Language Token) {w : List Token} (hw : w ∈ Z∗ * K) :
      w ∈ K ∨ w ∈ Z * (Z∗ * K) := by
    rw [← Language.one_add_self_mul_kstar_eq_kstar, add_mul, one_mul, mul_assoc] at hw
    exact hw
  have hstopped (a : α) (c : Cursor) (hc : P c) (hs : S c) :
      Predicted s A Z∗ c (some a, c) := by
    refine absent (Language.nil_mem_kstar Z) fun K _ w hw hmem => (hsplit K hmem).resolve_right ?_
    exact ((hZ c hc hs).mul _).not_mem hw (not_not_intro rfl)
  -- By induction on the turns. What comes behind a turn is the rest of the loop, so the language
  -- of the continuations grows by the items that are still to come.
  induction m with
  | zero =>
    intro a c hc hm _
    exact hstopped a c hc (hend c hc (List.eq_nil_of_length_eq_zero (Nat.le_zero.mp hm)))
  | succ m ih =>
    intro a c hc hm hn
    rw [Parser.iterateUpTo]
    by_cases hat : S c
    · rw [bind_apply, hstop a c hc hat]
      exact hstopped a c hc hat
    · obtain ⟨hturn, hsome⟩ := hgo a c hc hn hat
      refine (hturn.bind (hs.imp id fun hr b? => ?_) id hA
        fun b? d us hd hpending hus hfinish => ?_).among (fun us hus => ?_) fun K hA w hw hmem => ?_
      · cases b? with
        | none => exact .pure a
        | some b => exact .iterateUpTo hr m b
      · cases b? with
        | none => exact absurd (congrArg Prod.fst hd) hsome
        | some b =>
          have hlt := hne.shorter hus hpending
          exact ih b d (hproper c d us hc hpending hfinish) (by omega) (by omega)
      · rw [← Language.one_add_self_mul_kstar_eq_kstar]
        exact .inr hus
      · rw [mul_assoc]
        exact (hsplit K hmem).resolve_left ((hK c hc hat K hA).not_mem hw (not_not_intro rfl))

end Predicted

/-- A parser that predicts a language before the continuations that are admitted, from cursors with
less than `n` tokens left. -/
def Predicts {α : Type} (sharp : Prop) (n : Nat) (Admits : Language Token → Prop)
    (X : Language Token) (p : Parser α) : Prop :=
  ∀ c : Cursor, c.finish.kind = .eof → c.pending.length < n → Predicted sharp Admits X c (p c)

namespace Predicts

variable {α β : Type} {s : Prop} {A B : Language Token → Prop} {X Y Z : Language Token}
  {n : Nat} {p q : Parser α} {g : α → Parser β}

theorem fewer (h : Predicts s n A X p) (hA : ∀ K, B K → A K) : Predicts s n B X p :=
  fun c hf hn => (h c hf hn).fewer hA

theorem loose (h : Predicts True n A X p) : Predicts s n A X p := fun c hf hn => (h c hf hn).loose

theorem pure (a : α) : Predicts s n A 1 (pure a) := fun _ _ _ => .pure a

theorem silently (h : Predicts s n A X p) (hg : ∀ a, Silent (g a)) : Predicts s n A X (p >>= g) :=
  fun c hf hn => (h c hf hn).silently hg

theorem before (h : Predicts True n A X p) [HasWord Y] (hA : ∀ K, B K → A (Y * K))
    (hg : ∀ a, Predicts s n B Y (g a)) : Predicts s n B (X * Y) (p >>= g) := by
  intro c hf hn
  refine (h c hf hn).before hA fun a d us hpending _ hfinish => hg a d (hfinish ▸ hf) ?_
  rw [hpending, List.length_append] at hn
  omega

/-- A fault of the first parser may be left behind before the second one runs. -/
theorem followed (h : Predicts False n A X p) (hreads : ∀ a, Reads (g a)) [HasWord Y]
    (hA : ∀ K, B K → A (Y * K)) (hg : ∀ a, Predicts False n B Y (g a)) :
    Predicts False n B (X * Y) (p >>= g) := by
  intro c hf hn
  refine (h c hf hn).bind (.inr hreads) id hA fun a d us _ hpending _ hfinish =>
    hg a d (hfinish ▸ hf) ?_
  rw [hpending, List.length_append] at hn
  omega

/-- What is read first leaves less for the second parser. -/
theorem beyond (h : Predicts True (n + 1) A X p) [HasWord Y] (hX : Heads (fun _ => True) X)
    (hA : ∀ K, B K → A (Y * K)) (hg : ∀ a, Predicts s n B Y (g a)) :
    Predicts s (n + 1) B (X * Y) (p >>= g) := by
  intro c hf hn
  refine (h c hf hn).before hA fun a d us hpending hus hfinish => hg a d (hfinish ▸ hf) ?_
  have := hX.shorter hus hpending
  omega

theorem expect {e : Expectation} {k : TokenKind} {g : Token → Parser β} [HasWord Y]
    (he : e.kind = k) (hg : ∀ t, Predicts s n A Y (g t)) :
    Predicts s n A (single (· = k) * Y) (Parser.expect e >>= g) := by
  intro c hf hn
  refine .expect he hf fun t rest hc => hg t _ hf ?_
  rw [hc, List.length_cons] at hn
  exact Nat.lt_of_succ_lt hn

theorem expected {e : Expectation} {k : TokenKind} {g : Token → Parser β} (he : e.kind = k)
    (hg : ∀ t, Silent (g t)) : Predicts s n A (single (· = k)) (Parser.expect e >>= g) :=
  fun _ hf _ => .expected he hf hg

theorem accept {kind : TokenKind} (hkind : kind ≠ .eof)
    (hY : ∀ K, A K → Heads (· ≠ kind) (Y * K)) (hp : Predicts s n A X p)
    (hq : Predicts s n A Y q) :
    Predicts s n A (single (· = kind) * X + Y) (do if ← Parser.accept kind then p else q) := by
  intro c hf hn
  refine .accept hf hkind hY (fun t rest hc _ => hp _ hf ?_) fun _ => hq c hf hn
  rw [hc, List.length_cons] at hn
  exact Nat.lt_of_succ_lt hn

/-- Nothing is read where what is behind it comes next. -/
theorem or_nothing {kind : TokenKind} (hkind : kind ≠ .eof) (hX : Heads (· ≠ kind) X)
    (h : Predicts s n (Heads (· = kind)) X p) (a : α) :
    Predicts s n (Heads (· = kind)) (1 + X)
      (do if ← Parser.check kind then return a else p) := by
  intro c hf hn
  refine .check hf hkind (fun hk => ?_) fun hk => ?_
  · exact (Predicted.pure a).left (hX.mono fun k h => by rwa [hk])
  · refine (h c hf hn).among (fun us hus => .inr hus) fun K hK w hw hmem => ?_
    rw [add_mul, one_mul] at hmem
    exact hmem.resolve_left (hK.not_mem hw hk)

/-- A loop that is told by the kind of the next token where to stop. -/
theorem iterate {next : α → Parser (Option α)} {S : TokenKind → Prop} (hloop : Exhausts next)
    (hend : S .eof) (hZ : Heads (fun k => ¬S k) Z) (hK : ∀ K, A K → Heads S K)
    (hA : ∀ K, A K → B (Z∗ * K))
    (hstop : ∀ (a : α) (c : Cursor), S c.peek.kind → next a c = (some none, c))
    (hgo : ∀ (a : α) (c : Cursor), c.finish.kind = .eof → c.pending.length < n →
      ¬S c.peek.kind → Predicted True B Z c (next a c) ∧ (next a c).1 ≠ some none) (a : α) :
    Predicts True n A Z∗ (Parser.iterate next a) := by
  intro c hf hn
  rw [hloop.iterate_eq hf (Nat.le_refl _)]
  refine Predicted.repeated (P := fun c => c.finish.kind = .eof) (S := fun c => S c.peek.kind)
    (fun c d us hf _ hfinish => hfinish ▸ hf) (fun c hf hc => ?_) (hZ.mono fun _ _ => trivial)
    (fun c _ hc => hZ.mono fun k hk he => hk (he ▸ hc))
    (fun c _ hc K hA => (hK K hA).mono fun k hk he => hc (he ▸ hk)) hA (.inl trivial)
    (fun a c _ => hstop a c) hgo _ a c hf (Nat.le_refl _) hn
  rw [Cursor.peek, hc, List.headD_nil, hf]
  exact hend

end Predicts

end Grammar

end Lox
