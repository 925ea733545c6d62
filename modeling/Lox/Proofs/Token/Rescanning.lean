import Lox.Proofs.Token.Positions
import Lox.Proofs.Token.Renaming

/-! Lexemes that stand apart.

Where a space follows, every lexeme but a comment ends, since nothing that is read on beyond the
lexeme has a space there. So the lexemes of a text's tokens, written with spaces between them, are
cut where they were written, whatever stood between them in the text. -/

namespace Lox

/-- A character that no operator, numeral or word goes on with, and that opens no comment behind a
slash. -/
def separates (c : Char) : Bool := !continuesWord c && c != '.' && c != '=' && c != '/'

/-- A text that no lexeme goes on into. -/
def Separated (text : List Char) : Prop := ∀ c ∈ text.head?, separates c = true

theorem separated_nil : Separated [] := by
  intro c hc
  cases hc

theorem separated_cons {c : Char} {text : List Char} (hc : separates c = true) :
    Separated (c :: text) := by
  intro d hd
  cases hd
  exact hc

namespace Lexeme

variable {shape shape' : Shape} {own : List Char} {c : Char}

theorem isDigit_or_point (h : Lexeme .numeral own) : ∀ c ∈ own, isDigit c = true ∨ c = '.' := by
  intro e he
  cases h with
  | integer hc hdigits =>
    rcases List.mem_cons.mp he with rfl | he
    · exact .inl hc
    · exact .inl (hdigits e he)
  | decimal hc hdigits hd hdecimals =>
    rcases List.mem_cons.mp he with rfl | he
    · exact .inl hc
    rcases List.mem_append.mp he with he | he
    · exact .inl (hdigits e he)
    rcases List.mem_cons.mp he with rfl | he
    · exact .inr rfl
    rcases List.mem_cons.mp he with rfl | he
    · exact .inl hd
    · exact .inl (hdecimals e he)

theorem continuesWord_of_word (h : Lexeme .word own) : ∀ c ∈ own, continuesWord c = true := by
  cases h with
  | word hc hrest => exact List.forall_mem_cons.mpr ⟨continuesWord_of_startsWord hc, hrest⟩

/-- What begins with an operator and goes on has `=` or a slash behind it. -/
theorem second_of_operator {kind : TokenKind} {more : List Char} (hop : (own, kind) ∈ operators)
    (h : Lexeme shape' (own ++ c :: more)) : c = '=' ∨ c = '/' := by
  obtain ⟨a, short, long, hm, hown⟩ := of_mem_operators hop
  have hprefix : own ++ c :: more <+: a :: (own.tail ++ c :: more) := by
    rcases hown with ⟨rfl, -⟩ | ⟨rfl, -⟩ <;> simp
  rcases (h.opens_of_isPrefix hprefix).of_markOf hm with ⟨kind', rfl⟩ | ⟨rfl, rfl⟩
  · generalize hlonger : own ++ c :: more = longer at h
    cases h with
    | operator hop' =>
      obtain ⟨a', short', long', -, ⟨rfl, -⟩ | ⟨rfl, -⟩⟩ := of_mem_operators hop'
      · rcases hown with ⟨rfl, -⟩ | ⟨rfl, -⟩ <;> simp at hlonger
      · rcases hown with ⟨rfl, -⟩ | ⟨rfl, -⟩
        · simp only [List.cons_append, List.nil_append, List.cons.injEq] at hlonger
          exact .inl hlonger.2.1
        · simp at hlonger
  · generalize hlonger : own ++ c :: more = longer at h
    cases h with
    | comment =>
      rcases hown with ⟨rfl, -⟩ | ⟨rfl, -⟩
      · simp only [List.cons_append, List.nil_append, List.cons.injEq] at hlonger
        exact .inr hlonger.2.1
      · simp at hlonger

/-- No lexeme goes on behind another one with a character that separates. -/
theorem not_extended (h : Lexeme shape own) (hcomment : shape ≠ .comment)
    (hc : separates c = true) {more : List Char} : ¬Lexeme shape' (own ++ c :: more) := by
  intro h'
  have hplain : ((continuesWord c = false ∧ c ≠ '.') ∧ c ≠ '=') ∧ c ≠ '/' := by
    simpa [separates] using hc
  obtain ⟨⟨⟨hword, hpoint⟩, hequal⟩, hslash⟩ := hplain
  have hdigit : isDigit c = false := by
    rw [continuesWord, Bool.or_eq_false_iff] at hword
    exact hword.2
  have hmem : c ∈ own ++ c :: more := by simp
  cases h with
  | operator hop =>
    rcases second_of_operator hop h' with he | he
    · exact hequal he
    · exact hslash he
  | comment => exact hcomment rfl
  | @string body =>
    -- A string ends at its second quote, so it has none further on.
    obtain rfl := (h'.opens_of_isPrefix (List.prefix_refl _)).of_quote
    generalize hlonger : '"' :: (body ++ ['"']) ++ c :: more = longer at h'
    cases h' with
    | @string body' hbody' =>
      have htail : body ++ ['"'] ++ c :: more = body' ++ ['"'] := (List.cons.inj hlonger).2
      have hinner : body ++ ['"'] ++ (c :: more).dropLast = body' := by
        rw [← List.dropLast_append_of_ne_nil (List.cons_ne_nil c more), htail, List.dropLast_concat]
      apply hbody'
      simp [← hinner]
  | integer hfirst =>
    obtain rfl := (h'.opens_of_isPrefix (List.prefix_refl _)).of_isDigit hfirst
    rcases h'.isDigit_or_point c hmem with he | he
    · exact absurd (he.symm.trans hdigit) (by decide)
    · exact hpoint he
  | decimal hfirst =>
    obtain rfl := (h'.opens_of_isPrefix (List.prefix_refl _)).of_isDigit hfirst
    rcases h'.isDigit_or_point c hmem with he | he
    · exact absurd (he.symm.trans hdigit) (by decide)
    · exact hpoint he
  | word hfirst =>
    obtain rfl := (h'.opens_of_isPrefix (List.prefix_refl _)).of_startsWord hfirst
    exact absurd ((h'.continuesWord_of_word c hmem).symm.trans hword) (by decide)

/-- A lexeme before what separates is cut off as it is. -/
theorem first (h : Lexeme shape own) (hcomment : shape ≠ .comment) {rest : List Char}
    (hrest : Separated rest) : First ⟨shape, own⟩ (own ++ rest) := by
  refine .lexeme ⟨h, List.prefix_append _ _, ?_⟩
  intro shape' other hother hp
  rcases List.prefix_or_prefix_of_prefix hp (List.prefix_append own rest) with hle | ⟨z, rfl⟩
  · exact hle.length_le
  cases z with
  | nil => simp
  | cons c z =>
    have hz : c :: z <+: rest := (List.prefix_append_right_inj own).mp hp
    obtain ⟨tail, rfl⟩ := hz
    exact absurd hother (h.not_extended hcomment (hrest c rfl))

theorem segments_append (h : Lexeme shape own) (hcomment : shape ≠ .comment) {rest : List Char}
    (hrest : Separated rest) : segments (own ++ rest) = ⟨shape, own⟩ :: segments rest := by
  have hcut : Cut (own ++ rest) (⟨shape, own⟩ :: segments rest) :=
    .cons h.ne_nil (h.first hcomment hrest) (cut_segments rest)
  exact (cut_iff.mp hcut).symm

end Lexeme

/-- The space between two lexemes. -/
def gap : Segment := ⟨.blank, [' ']⟩

namespace Segment

/-- The token that a segment is, but for its line. -/
def token? (s : Segment) : Option Token := (s.item? 0).bind ScanItem.token?

def isToken (s : Segment) : Bool := s.token?.isSome

theorem item?_eq_down (s : Segment) (line : Nat) :
    s.item? line = (s.item? 0).map (ScanItem.relabel (.down line)) := by
  rw [← s.item?_down, Nat.zero_add]

theorem token?_lexeme {s : Segment} {t : Token} (h : s.token? = some t) :
    t.lexeme.toList = s.text := by
  obtain ⟨item, hitem, htoken⟩ := Option.bind_eq_some_iff.mp h
  cases item with
  | token u =>
    obtain rfl := Option.some.inj htoken
    exact (item?_token hitem).2
  | error e => cases htoken

/-- Segments that are no tokens add none. -/
theorem filterMap_isToken (ss : List Segment) :
    (ss.filter isToken).filterMap token? = ss.filterMap token? := by
  rw [List.filterMap_filter]
  apply List.filterMap_congr
  intro s _
  cases htoken : s.token? <;> simp [isToken, htoken]

theorem readable_of_isToken {s : Segment} (h : s.isToken = true) : s.Readable := by
  have hline : ∀ e, s.item? 0 ≠ some (.error e) := by
    intro e he
    simp [isToken, token?, he, ScanItem.token?] at h
  exact readable_of_line hline

theorem readable_gap : gap.Readable := by
  intro line e he
  cases he

end Segment

/-- The tokens of a text are its segments that are tokens, on whatever lines. -/
theorem tokens_blank (ss : List Segment) : ∀ line : Nat,
    ((itemsOf line ss).filterMap ScanItem.token?).map (Token.relabel .blank) =
      (ss.filterMap Segment.token?).map (Token.relabel .blank) := by
  induction ss with
  | nil => exact fun _ => rfl
  | cons s rest ih =>
    intro line
    have htoken : s.token? = (s.item? 0).bind ScanItem.token? := rfl
    rw [itemsOf, List.filterMap_append, List.map_append, ih, Segment.item?_eq_down,
      List.filterMap_cons, htoken]
    cases s.item? 0 with
    | none => rfl
    | some item =>
      cases item with
      | token t => rfl
      | error e => rfl

/-- What is read of a text as tokens are lexemes, and none of them is a comment. -/
theorem Cut.lexemes {text : List Char} {ss : List Segment} (h : Cut text ss) :
    ∀ s ∈ ss.filter Segment.isToken, Lexeme s.shape s.text ∧ s.shape ≠ .comment := by
  induction h with
  | nil => simp
  | @cons s rest ss _ hfirst _ ih =>
    rw [List.filter_cons]
    split
    · rename_i htoken
      refine List.forall_mem_cons.mpr ⟨?_, ih⟩
      generalize s.text ++ rest = text at hfirst
      cases hfirst with
      | lexeme hlongest =>
        refine ⟨hlongest.lexeme, ?_⟩
        rintro rfl
        cases htoken
      | blank => cases htoken
      | unexpected => cases htoken
      | unterminated => cases htoken
    · exact ih

/-- Lexemes with a space between each two are cut into these. -/
theorem cut_intersperse (ss : List Segment)
    (h : ∀ s ∈ ss, Lexeme s.shape s.text ∧ s.shape ≠ .comment) :
    Cut ([' '].intercalate (ss.map (·.text))) (ss.intersperse gap) := by
  have hgap : separates ' ' = true := by decide
  induction ss with
  | nil => exact .nil
  | cons s rest ih =>
    obtain ⟨⟨hs, hcomment⟩, hrest⟩ := List.forall_mem_cons.mp h
    cases rest with
    | nil =>
      have hcut := Cut.cons hs.ne_nil (hs.first hcomment separated_nil) .nil
      simpa using hcut
    | cons s' rest =>
      have hspace : Cut (' ' :: [' '].intercalate ((s' :: rest).map (·.text)))
          (gap :: (s' :: rest).intersperse gap) :=
        .cons (s := gap) (List.cons_ne_nil _ _) (.blank rfl) (ih hrest)
      have hcut := Cut.cons hs.ne_nil (hs.first hcomment (separated_cons hgap)) hspace
      simpa using hcut

theorem mem_intersperse_gap {s : Segment} {ss : List Segment} (h : s ∈ ss.intersperse gap) :
    s ∈ ss ∨ s = gap := by
  fun_induction List.intersperse gap ss with
  | case1 => cases h
  | case2 x => exact .inl h
  | case3 x y zs ih =>
    rcases List.mem_cons.mp h with rfl | h
    · exact .inl (.head _)
    rcases List.mem_cons.mp h with rfl | h
    · exact .inr rfl
    rcases ih h with h | h
    · exact .inl (.tail _ h)
    · exact .inr h

theorem filterMap_intersperse_gap (ss : List Segment) :
    (ss.intersperse gap).filterMap Segment.token? = ss.filterMap Segment.token? := by
  have hgap : gap.token? = none := rfl
  fun_induction List.intersperse gap ss with
  | case1 => rfl
  | case2 x => rfl
  | case3 x y zs ih => rw [List.filterMap_cons, List.filterMap_cons, hgap, ih, List.filterMap_cons]

section Rescanned

/-- The tokens of a text without the end of input. -/
def ownTokens (source : String) : List Token := (tokensOf source).filter (·.kind != .eof)

/-- The lexemes of a text's tokens, with a space between each two. -/
def respaced (source : String) : String :=
  String.intercalate " " ((ownTokens source).map (·.lexeme))

variable (source : String)

theorem tokensOf_eq : tokensOf source = (itemsOf 1 (segments source.toList)).filterMap
    ScanItem.token? ++ [Token.endOfInput (1 + source.toList.count '\n')] := by
  rw [tokensOf, scan, itemsFrom_eq, List.filterMap_append, lineEndsOf_segments]
  rfl

theorem ownTokens_eq : ownTokens source =
    (itemsOf 1 (segments source.toList)).filterMap ScanItem.token? := by
  have hown : ∀ t ∈ (itemsOf 1 (segments source.toList)).filterMap ScanItem.token?,
      (t.kind != .eof) = true := by
    intro t ht
    obtain ⟨item, hitem, htoken⟩ := List.mem_filterMap.mp ht
    cases item with
    | token u =>
      obtain rfl := Option.some.inj htoken
      simpa using itemsOf_ne_eof (segmentsUpTo_plain _ _) 1 hitem
    | error e => cases htoken
  rw [ownTokens, tokensOf_eq, List.filter_append, List.filter_eq_self.mpr hown]
  simp [Token.endOfInput]

theorem lexemes_ownTokens : (ownTokens source).map (·.lexeme.toList) =
    ((segments source.toList).filter Segment.isToken).map (·.text) := by
  have hblank : ∀ ts : List Token,
      (ts.map (Token.relabel .blank)).map (·.lexeme.toList) = ts.map (·.lexeme.toList) := by
    intro ts
    simp [Function.comp_def]
  rw [ownTokens_eq, ← hblank, tokens_blank, hblank]
  induction segments source.toList with
  | nil => rfl
  | cons s rest ih =>
    cases htoken : s.token? with
    | none => simp [htoken, Segment.isToken, ih]
    | some t => simp [htoken, Segment.isToken, ih, Segment.token?_lexeme htoken]

theorem segments_respaced : segments (respaced source).toList =
    ((segments source.toList).filter Segment.isToken).intersperse gap := by
  have hcut := cut_intersperse _ (cut_segments source.toList).lexemes
  rw [← lexemes_ownTokens] at hcut
  rw [respaced, String.toList_intercalate, List.map_map]
  exact (cut_iff.mp hcut).symm

/-- The lexemes of a text's tokens, written with single spaces between them, are scanned without an
error, as tokens of the same kinds with the same lexemes and literals. The text itself may have
errors. -/
theorem rescanning_gives_tokens_back : lexicalErrors (respaced source) = [] ∧
    (tokensOf (respaced source)).map (Token.relabel .blank) =
      (tokensOf source).map (Token.relabel .blank) := by
  let ss := segments source.toList
  have hsegments : segments (respaced source).toList = (ss.filter Segment.isToken).intersperse gap :=
    segments_respaced source
  constructor
  · rw [lexicalErrors, scan, hsegments]
    apply errors_of_readable
    intro s hs
    rcases mem_intersperse_gap hs with hs | rfl
    · exact Segment.readable_of_isToken (List.mem_filter.mp hs).2
    · exact Segment.readable_gap
  · have hend : ∀ line, [Token.endOfInput line].map (Token.relabel .blank) =
        [Token.endOfInput 0] := fun _ => rfl
    rw [tokensOf_eq, tokensOf_eq, List.map_append, List.map_append, tokens_blank, tokens_blank,
      hsegments, filterMap_intersperse_gap, Segment.filterMap_isToken, hend, hend]

end Rescanned

end Lox
