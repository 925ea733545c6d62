import Lox.Proofs.Token.Items

/-! Texts in which some words are spelled otherwise.

A word ends where the text goes on with something that cannot continue a word, and that is so of any
other word in its place; nothing before it can have been longer either. So the text is cut where it
was, and its tokens are what they were, but for the lexemes of the words that were changed. -/

namespace Lox

/-- Two texts that are the same up to their ends, or up to where a word begins in each of them. -/
inductive SameUpToWord : List Char → List Char → Prop where
  | nil : SameUpToWord [] []
  | word {c d : Char} {xs ys : List Char} :
    startsWord c = true → startsWord d = true → SameUpToWord (c :: xs) (d :: ys)
  | same {c : Char} {xs ys : List Char} : SameUpToWord xs ys → SameUpToWord (c :: xs) (c :: ys)

/-- A segment of a text and the one that takes its place. -/
inductive Segment.Respelled (y : List Char) : Segment → Segment → Prop where
  | kept {s : Segment} : Respelled y s s
  | word {x : List Char} : Respelled y ⟨.word, x⟩ ⟨.word, y⟩

theorem SameUpToWord.append {xs ys : List Char} (h : SameUpToWord xs ys) (own : List Char) :
    SameUpToWord (own ++ xs) (own ++ ys) := by
  induction own with
  | nil => exact h
  | cons c own ih => exact .same ih

/-- What one of the texts begins with, the other does as well, if not up to the word. -/
theorem SameUpToWord.isPrefix {xs ys : List Char} (h : SameUpToWord xs ys) :
    ∀ {z : List Char}, z <+: ys → z <+: xs ∨ ∃ p c d w, z = p ++ d :: w ∧
      startsWord c = true ∧ startsWord d = true ∧ p ++ [c] <+: xs := by
  induction h with
  | nil => exact fun hz => .inl hz
  | @word c d xs ys hc hd =>
    intro z hz
    cases z with
    | nil => exact .inl List.nil_prefix
    | cons e w =>
      obtain ⟨rfl, -⟩ := List.cons_prefix_cons.mp hz
      exact .inr ⟨[], c, e, w, rfl, hc, hd, by simp⟩
  | @same c xs ys _ ih =>
    intro z hz
    cases z with
    | nil => exact .inl List.nil_prefix
    | cons e z =>
      obtain ⟨rfl, htail⟩ := List.cons_prefix_cons.mp hz
      rcases ih htail with hz | ⟨p, c, d, w, rfl, hc, hd, hp⟩
      · exact .inl (List.cons_prefix_cons.mpr ⟨rfl, hz⟩)
      · exact .inr ⟨e :: p, c, d, w, rfl, hc, hd, List.cons_prefix_cons.mpr ⟨rfl, hp⟩⟩

theorem not_startsWord_of_mem_operators : ∀ p ∈ operators, ∀ c ∈ p.1, startsWord c = false := by
  have hall : (operators.all fun p => p.1.all fun c => !startsWord c) = true := by decide
  intro p hp c hc
  have hmarks := List.all_eq_true.mp hall p hp
  simpa using List.all_eq_true.mp hmarks c hc

theorem continuesWord_of_startsWord {c : Char} (h : startsWord c = true) :
    continuesWord c = true := by
  simp [continuesWord, h]

namespace Lexeme

variable {shape : Shape} {own q w : List Char} {c d : Char}

theorem not_startsWord_of_numeral (h : Lexeme .numeral own) : ∀ c ∈ own, startsWord c = false := by
  have hdot : startsWord '.' = false := by decide
  intro e he
  cases h with
  | @integer c digits hc hdigits =>
    rcases List.mem_cons.mp he with rfl | he
    · exact startsWord_of_isDigit hc
    · exact startsWord_of_isDigit (hdigits e he)
  | @decimal c d digits decimals hc hdigits hd hdecimals =>
    rcases List.mem_cons.mp he with rfl | he
    · exact startsWord_of_isDigit hc
    rcases List.mem_append.mp he with he | he
    · exact startsWord_of_isDigit (hdigits e he)
    rcases List.mem_cons.mp he with rfl | he
    · exact hdot
    rcases List.mem_cons.mp he with rfl | he
    · exact startsWord_of_isDigit hd
    · exact startsWord_of_isDigit (hdecimals e he)

/-- A lexeme that takes in the beginning of a word can end with the beginning of another, unless it
has to be closed. -/
theorem upToWord (h : Lexeme shape (q ++ d :: w)) (hq : q ≠ []) (hd : startsWord d = true)
    (hc : startsWord c = true) : shape = .string ∨ Lexeme shape (q ++ [c]) := by
  have hmem : d ∈ q ++ d :: w := by simp
  obtain ⟨e, q, rfl⟩ := List.exists_cons_of_ne_nil hq
  generalize hown : e :: q ++ d :: w = own at h hmem
  cases h with
  | operator hop =>
    exact absurd (hd.symm.trans (not_startsWord_of_mem_operators _ hop d hmem)) (by decide)
  | integer hdigit hdigits =>
    exact absurd (hd.symm.trans (not_startsWord_of_numeral (.integer hdigit hdigits) d hmem))
      (by decide)
  | decimal h₁ h₂ h₃ h₄ =>
    exact absurd (hd.symm.trans (not_startsWord_of_numeral (.decimal h₁ h₂ h₃ h₄) d hmem))
      (by decide)
  | string => exact .inl rfl
  | @comment body hbody =>
    obtain ⟨rfl, htail⟩ := List.cons.inj hown
    cases q with
    | nil =>
      obtain ⟨rfl, -⟩ := List.cons.inj htail
      exact absurd hd (by decide)
    | cons e q =>
      obtain ⟨rfl, rfl⟩ := List.cons.inj htail
      refine .inr (.comment fun hend => ?_)
      rcases List.mem_append.mp hend with hend | hend
      · exact hbody (List.mem_append_left _ hend)
      · obtain rfl := List.mem_singleton.mp hend
        exact absurd hc (by decide)
  | @word c' rest hfirst hrest =>
    obtain ⟨rfl, rfl⟩ := List.cons.inj hown
    refine .inr (.word hfirst fun x hx => ?_)
    rcases List.mem_append.mp hx with hx | hx
    · exact hrest x (List.mem_append_left _ hx)
    · obtain rfl := List.mem_singleton.mp hx
      exact continuesWord_of_startsWord hc

end Lexeme

namespace Longest

variable {shape : Shape} {own rest rest' : List Char}

/-- A lexeme stays the longest one if a word behind it becomes another word. -/
theorem upToWord (h : Longest shape own (own ++ rest)) (hs : shape ≠ .string)
    (hrest : SameUpToWord rest rest') : Longest shape own (own ++ rest') := by
  refine ⟨h.lexeme, List.prefix_append _ _, fun shape' other hother hp => ?_⟩
  rcases List.prefix_or_prefix_of_prefix hp (List.prefix_append own rest') with hle | ⟨z, rfl⟩
  · exact hle.length_le
  have hz : z <+: rest' := (List.prefix_append_right_inj own).mp hp
  rcases hrest.isPrefix hz with hz | ⟨p, c, d, w, rfl, hc, hd, hp⟩
  · exact h.longest shape' _ hother ((List.prefix_append_right_inj own).mpr hz)
  rw [← List.append_assoc] at hother
  rcases hother.upToWord (by simp [h.lexeme.ne_nil]) hd hc with rfl | hshorter
  · -- A string is opened by a quote, and so is what it is longer than.
    obtain ⟨e, tail, rfl, -⟩ := h.lexeme.opens
    obtain rfl : e = '"' := hother.opens_of_isPrefix (List.prefix_refl _)
    exact absurd (h.lexeme.opens_of_isPrefix (List.prefix_refl _)).of_quote hs
  · have hlonger := h.longest shape' _ hshorter (by
      rw [List.append_assoc]
      exact (List.prefix_append_right_inj own).mpr hp)
    simp only [List.length_append, List.length_cons, List.length_nil] at hlonger
    omega

/-- Where one word ends, another one in its place ends as well. -/
theorem otherWord (h : Longest .word own (own ++ rest)) {y : List Char} (hy : Lexeme .word y)
    (hrest : SameUpToWord rest rest') : Longest .word y (y ++ rest') := by
  have hstop {c : Char} (hc : continuesWord c = true) : ¬[c] <+: rest := fun hp => by
    have hlonger : Lexeme .word (own ++ [c]) := by
      cases h.lexeme with
      | word hfirst htail =>
        refine .word hfirst fun x hx => ?_
        rcases List.mem_append.mp hx with hx | hx
        · exact htail x hx
        · obtain rfl := List.mem_singleton.mp hx
          exact hc
    have hle := h.longest _ _ hlonger ((List.prefix_append_right_inj own).mpr hp)
    simp only [List.length_append, List.length_cons, List.length_nil] at hle
    omega
  refine ⟨hy, List.prefix_append _ _, fun shape' other hother hp => ?_⟩
  rcases List.prefix_or_prefix_of_prefix hp (List.prefix_append y rest') with hle | ⟨z, rfl⟩
  · exact hle.length_le
  have hz : z <+: rest' := (List.prefix_append_right_inj y).mp hp
  cases z with
  | nil => simp
  | cons e z =>
    have he : continuesWord e = true := by
      cases hy with
      | word hfirst _ =>
        obtain rfl := (hother.opens_of_isPrefix (List.prefix_refl _)).of_startsWord hfirst
        cases hother with
        | word _ htail => exact htail e (by simp)
    cases hrest with
    | nil => exact absurd hz (by simp)
    | word hc _ => exact absurd (by simp) (hstop (continuesWord_of_startsWord hc))
    | same =>
      obtain ⟨rfl, -⟩ := List.cons_prefix_cons.mp hz
      exact absurd (by simp) (hstop he)

end Longest

/-- A segment of which no error is reported. -/
def Segment.Readable (s : Segment) : Prop := ∀ line e, s.item? line ≠ some (.error e)

section Cuts

variable {y : List Char}

theorem First.respelled {s s' : Segment} {rest rest' : List Char} (h : First s (s.text ++ rest))
    (hread : s.Readable) (hs : s.Respelled y s') (hy : Lexeme .word y)
    (hrest : SameUpToWord rest rest') : First s' (s'.text ++ rest') := by
  generalize htext : s.text ++ rest = text at h
  cases h with
  | @lexeme shape own text hlongest =>
    subst htext
    cases hs with
    | word => exact .lexeme (hlongest.otherWord hy hrest)
    | kept =>
      by_cases hstring : shape = .string
      · subst hstring
        cases hlongest.lexeme with
        | @string body hbody =>
          have hfirst : First ⟨.string, '"' :: (body ++ ['"'])⟩ ('"' :: (body ++ '"' :: rest')) :=
            Segment.first_string hbody
          simpa using hfirst
      · exact .lexeme (hlongest.upToWord hstring hrest)
  | blank hblank =>
    cases hs with
    | kept => exact .blank hblank
  | unexpected => exact absurd rfl (hread 0 _)
  | unterminated => exact absurd rfl (hread 0 _)

theorem First.word {s : Segment} {text : List Char} (h : First s text) (hs : s.shape = .word) :
    Lexeme .word s.text := by
  cases h with
  | lexeme hlongest => exact hs ▸ hlongest.lexeme
  | _ => cases hs

theorem Cut.words {text : List Char} {ss : List Segment} (h : Cut text ss) :
    ∀ s ∈ ss, s.shape = .word → Lexeme .word s.text := by
  induction h with
  | nil => exact List.forall_mem_nil _
  | cons _ hfirst _ ih => exact List.forall_mem_cons.mpr ⟨hfirst.word, ih⟩

theorem SameUpToWord.of_respelled {ss ss' : List Segment}
    (h : List.Forall₂ (Segment.Respelled y) ss ss') (hy : Lexeme .word y)
    (hwords : ∀ s ∈ ss, s.shape = .word → Lexeme .word s.text) :
    SameUpToWord (ss.flatMap (·.text)) (ss'.flatMap (·.text)) := by
  induction h with
  | nil => exact .nil
  | @cons s s' ss ss' hs _ ih =>
    obtain ⟨hword, hwords⟩ := List.forall_mem_cons.mp hwords
    cases hs with
    | kept => exact (ih hwords).append _
    | word =>
      cases hword rfl with
      | word hc =>
        cases hy with
        | word hd => exact .word hc hd

/-- The changed text is cut into the changed segments. -/
theorem Cut.respelled {text : List Char} {ss : List Segment} (h : Cut text ss)
    (hread : ∀ s ∈ ss, s.Readable) (hy : Lexeme .word y) : ∀ {ss' : List Segment},
    List.Forall₂ (Segment.Respelled y) ss ss' → Cut (ss'.flatMap (·.text)) ss' := by
  induction h with
  | nil =>
    intro ss' hss
    cases hss
    exact .nil
  | @cons s rest ss hne hfirst hcut ih =>
    rintro _ (_ | ⟨hs, hss⟩)
    obtain ⟨hs', hread⟩ := List.forall_mem_cons.mp hread
    have hrest := SameUpToWord.of_respelled hss hy hcut.words
    rw [hcut.text_eq] at hrest
    refine .cons ?_ (hfirst.respelled hs' hs hy hrest) (ih hread hss)
    cases hs with
    | kept => exact hne
    | word => exact hy.ne_nil

end Cuts

/-- The segments of a text, some of which are spelled `y`: those of the tokens that are picked by
their places among the tokens. -/
def respelledFrom (picked : Nat → Bool) (y : List Char) : Nat → List Segment → List Segment
  | _, [] => []
  | i, s :: rest =>
    if s.isSilent then s :: respelledFrom picked y i rest
    else (if picked i then ⟨s.shape, y⟩ else s) :: respelledFrom picked y (i + 1) rest

/-- A text with other spellings for some of its tokens. -/
def respelled (picked : Nat → Bool) (y source : String) : String :=
  String.ofList ((respelledFrom picked y.toList 0 (segments source.toList)).flatMap (·.text))

namespace Segment

/-- What is known of the segments of a text that is scanned without an error. -/
structure Regular (s : Segment) : Prop where
  readable : s.Readable
  mark : ∀ kind, s.shape = .mark kind → kind.isPlain = true

theorem item?_of_isSilent {s : Segment} (h : s.isSilent = true) (line : Nat) :
    s.item? line = none := by
  obtain ⟨shape, text⟩ := s
  cases shape with
  | blank => rfl
  | comment => rfl
  | _ => cases h

theorem item?_of_readable {s : Segment} (h : s.Readable) (hs : s.isSilent = false) (line : Nat) :
    ∃ t, s.item? line = some (.token t) := by
  cases hitem : s.item? line with
  | none =>
    obtain ⟨shape, text⟩ := s
    cases shape with
    | blank => cases hs
    | comment => cases hs
    | _ => cases hitem
  | some item =>
    cases item with
    | token t => exact ⟨t, rfl⟩
    | error e => exact absurd hitem (h line e)

/-- Whether an error is reported does not depend on the line. -/
theorem readable_of_line {s : Segment} {line : Nat} (h : ∀ e, s.item? line ≠ some (.error e)) :
    s.Readable := by
  intro line' e he
  obtain ⟨shape, text⟩ := s
  cases shape with
  | unexpected c => exact h _ rfl
  | unterminated => exact h _ rfl
  | _ => cases he

theorem shape_of_identifier {s : Segment} (hs : s.Regular) {line : Nat} {t : Token}
    (h : s.item? line = some (.token t)) (ht : t.kind = .identifier) : s.shape = .word := by
  obtain ⟨shape, text⟩ := s
  cases shape with
  | word => rfl
  | mark kind =>
    obtain rfl := ScanItem.token.inj (Option.some.inj h)
    obtain rfl : kind = .identifier := ht
    exact absurd (hs.mark _ rfl) (by decide)
  | string =>
    obtain rfl := ScanItem.token.inj (Option.some.inj h)
    cases ht
  | numeral =>
    obtain rfl := ScanItem.token.inj (Option.some.inj h)
    cases ht
  | _ => cases h

theorem lineEnds_of_word {s : Segment} (h : s.shape = .word) : s.lineEnds = 0 := by
  rw [lineEnds, h]

end Segment

/-- The tokens of segments of which the first starts on the given line. -/
def tokensFrom (line : Nat) (ss : List Segment) : List Token :=
  (itemsFrom line ss).filterMap ScanItem.token?

theorem tokensFrom_of_isSilent {s : Segment} (h : s.isSilent = true) (line : Nat)
    (rest : List Segment) : tokensFrom line (s :: rest) = tokensFrom (line + s.lineEnds) rest := by
  rw [tokensFrom, itemsFrom, Segment.item?_of_isSilent h]
  rfl

theorem tokensFrom_of_item? {s : Segment} {line : Nat} {t : Token}
    (h : s.item? (line + s.lineEnds) = some (.token t)) (rest : List Segment) :
    tokensFrom line (s :: rest) = t :: tokensFrom (line + s.lineEnds) rest := by
  rw [tokensFrom, itemsFrom, h]
  rfl

theorem errors_of_readable (ss : List Segment) (h : ∀ s ∈ ss, s.Readable) : ∀ line : Nat,
    (itemsFrom line ss).filterMap ScanItem.error? = [] := by
  induction ss with
  | nil => exact fun _ => rfl
  | cons s rest ih =>
    intro line
    obtain ⟨hs, hrest⟩ := List.forall_mem_cons.mp h
    rw [itemsFrom]
    cases hitem : s.item? (line + s.lineEnds) with
    | none => exact ih hrest _
    | some item =>
      cases item with
      | token t => exact ih hrest _
      | error e => exact absurd hitem (hs _ e)

section Respelled

variable {picked : Nat → Bool} {y : String}

/-- The token with the other lexeme, if it is picked. -/
def Token.respelledAt (picked : Nat → Bool) (y : String) (i : Nat) (t : Token) : Token :=
  if picked i then { t with lexeme := y } else t

/-- The segment of an identifier holds nothing but its word, and another word in its place gives the
token with the other lexeme. -/
theorem Segment.item?_respelled (hk : wordKind y = .identifier) {s : Segment} (hs : s.Regular)
    {line : Nat} {t : Token} (ht : s.item? (line + s.lineEnds) = some (.token t))
    (hkind : t.kind = .identifier) :
    s.shape = .word ∧ Segment.Respelled y.toList s ⟨s.shape, y.toList⟩ ∧
      Segment.item? ⟨s.shape, y.toList⟩ line = some (.token { t with lexeme := y }) := by
  have hshape := Segment.shape_of_identifier hs ht hkind
  rw [Segment.lineEnds_of_word hshape, Nat.add_zero] at ht
  obtain ⟨shape, x⟩ := s
  obtain rfl : shape = .word := hshape
  obtain rfl := ScanItem.token.inj (Option.some.inj ht)
  have hword : wordKind (String.ofList x) = wordKind y := hkind.trans hk.symm
  exact ⟨rfl, .word, by simp [Segment.item?, hword]⟩

theorem respelledFrom_spec (hk : wordKind y = .identifier)
    (ss : List Segment) : ∀ i line : Nat, (∀ s ∈ ss, s.Regular) →
    (∀ j t, (tokensFrom line ss)[j]? = some t → picked (i + j) = true → t.kind = .identifier) →
    List.Forall₂ (Segment.Respelled y.toList) ss (respelledFrom picked y.toList i ss) ∧
      (∀ s ∈ respelledFrom picked y.toList i ss, s.Readable) ∧
      tokensFrom line (respelledFrom picked y.toList i ss) =
        (tokensFrom line ss).mapIdx fun j => Token.respelledAt picked y (i + j) := by
  induction ss with
  | nil =>
    intro i line _ hpicked
    refine ⟨.nil, List.forall_mem_nil _, ?_⟩
    have hlast : picked i = false := by
      rw [Bool.eq_false_iff]
      intro hp
      cases hpicked 0 (Token.endOfInput line) rfl hp
    simp [tokensFrom, respelledFrom, itemsFrom, ScanItem.token?, Token.respelledAt, hlast]
  | cons s rest ih =>
    intro i line hregular hpicked
    obtain ⟨hs, hregular⟩ := List.forall_mem_cons.mp hregular
    by_cases hsilent : s.isSilent = true
    · rw [tokensFrom_of_isSilent hsilent] at hpicked ⊢
      obtain ⟨hss, hread, htokens⟩ := ih i (line + s.lineEnds) hregular hpicked
      rw [respelledFrom, if_pos hsilent, tokensFrom_of_isSilent hsilent, htokens]
      exact ⟨.cons .kept hss, List.forall_mem_cons.mpr ⟨hs.readable, hread⟩, rfl⟩
    · obtain ⟨t, ht⟩ := Segment.item?_of_readable hs.readable (Bool.eq_false_iff.mpr hsilent)
        (line + s.lineEnds)
      rw [tokensFrom_of_item? ht] at hpicked ⊢
      have hindex (j : Nat) : i + 1 + j = i + (j + 1) := by omega
      obtain ⟨hss, hread, htokens⟩ := ih (i + 1) (line + s.lineEnds) hregular fun j u hu hp =>
        hpicked (j + 1) u hu (hindex j ▸ hp)
      rw [respelledFrom, if_neg hsilent, List.mapIdx_cons]
      simp only [hindex] at htokens
      by_cases hp : picked i = true
      · obtain ⟨hshape, hrespelled, hitem⟩ := Segment.item?_respelled hk hs ht (hpicked 0 t rfl hp)
        have hends : s.lineEnds = 0 := Segment.lineEnds_of_word hshape
        have hends' : (⟨s.shape, y.toList⟩ : Segment).lineEnds = 0 :=
          Segment.lineEnds_of_word hshape
        have hreadable : Segment.Readable ⟨s.shape, y.toList⟩ :=
          Segment.readable_of_line fun e he => by cases hitem.symm.trans he
        rw [hends] at htokens ⊢
        rw [if_pos hp, tokensFrom_of_item? (by rwa [hends']), hends', htokens]
        refine ⟨.cons hrespelled hss, List.forall_mem_cons.mpr ⟨hreadable, hread⟩, ?_⟩
        simp [Token.respelledAt, hp]
      · rw [if_neg hp, tokensFrom_of_item? ht, htokens]
        refine ⟨.cons .kept hss, List.forall_mem_cons.mpr ⟨hs.readable, hread⟩, ?_⟩
        simp [Token.respelledAt, hp]

/-- The changed text has the tokens of the text, with the other lexeme where it was changed. -/
theorem tokensOf_respelled {source : String} (hquiet : lexicalErrors source = [])
    (hy : Lexeme .word y.toList) (hk : wordKind y = .identifier)
    (hpicked : ∀ i t, (tokensOf source)[i]? = some t → picked i = true → t.kind = .identifier) :
    lexicalErrors (respelled picked y source) = [] ∧
      tokensOf (respelled picked y source) =
        (tokensOf source).mapIdx (Token.respelledAt picked y) := by
  have hcut := cut_segments source.toList
  have hregular : ∀ s ∈ segments source.toList, s.Regular := by
    refine fun s hs => ⟨?_, segmentsUpTo_plain _ _ s hs⟩
    obtain ⟨line, hitem⟩ := mem_itemsOf hs 1
    rw [lexicalErrors, scan, itemsFrom_eq, List.filterMap_eq_nil_iff] at hquiet
    have hline (e : LexicalError) : s.item? line ≠ some (.error e) := fun he => by
      cases hquiet _ (List.mem_append_left _ (hitem _ he))
    exact Segment.readable_of_line hline
  obtain ⟨hss, hread, htokens⟩ := respelledFrom_spec hk (segments source.toList) 0 1 hregular
    fun j t ht hp => hpicked j t ht (by simpa using hp)
  have hcut' := hcut.respelled (fun s hs => (hregular s hs).readable) hy hss
  have hsegments : segments (respelled picked y source).toList =
      respelledFrom picked y.toList 0 (segments source.toList) := by
    rw [respelled, String.toList_ofList, ← cut_iff.mp hcut']
  constructor
  · rw [lexicalErrors, scan, hsegments]
    exact errors_of_readable _ hread 1
  · simp only [Nat.zero_add] at htokens
    rw [tokensOf, scan, hsegments]
    exact htokens

end Respelled

end Lox
