import Lox.Proofs.Token.Concatenation

/-! Where in its text an item of the scanner comes from.

An item was cut from some part of the text and carries the line on which that part ends. Only the
token for the end of input was cut from nothing; its line is the last one. -/

namespace Lox

/-- The line on which a text ends. -/
def lastLine (text : List Char) : Nat := 1 + text.count '\n'

theorem lastLine_append (text more : List Char) :
    lastLine (text ++ more) = lastLine text + more.count '\n' := by
  rw [lastLine, List.count_append, lastLine]
  omega

/-- A part of a text ends on a line of the text. -/
theorem lastLine_le {text part more : List Char} (h : text = part ++ more) :
    1 ≤ lastLine part ∧ lastLine part ≤ lastLine text := by
  rw [h, lastLine_append, lastLine]
  omega

/-- Some part of a text ends on a line. -/
def EndsOn (text own : List Char) (line : Nat) : Prop :=
  ∃ before after, text = before ++ own ++ after ∧ line = lastLine (before ++ own)

theorem EndsOn.line_le {text own : List Char} {line : Nat} (h : EndsOn text own line) :
    1 ≤ line ∧ line ≤ lastLine text := by
  obtain ⟨before, after, htext, rfl⟩ := h
  exact lastLine_le htext

/-- An item that is not the end of input is that of a segment, on the line where the segment ends. -/
theorem mem_itemsOf_iff {item : ScanItem} (ss : List Segment) : ∀ line : Nat,
    item ∈ itemsOf line ss ↔ ∃ before s after, ss = before ++ s :: after ∧
      s.item? (line + lineEndsOf (before ++ [s])) = some item := by
  induction ss with
  | nil => simp [itemsOf]
  | cons s rest ih =>
    intro line
    rw [itemsOf, List.mem_append, ih]
    constructor
    · rintro (hfirst | ⟨before, s', after, rfl, hitem⟩)
      · refine ⟨[], s, rest, rfl, ?_⟩
        simpa [lineEndsOf] using hfirst
      · refine ⟨s :: before, s', after, rfl, ?_⟩
        rwa [List.cons_append, lineEndsOf, ← Nat.add_assoc]
    · rintro ⟨before, s', after, heq, hitem⟩
      cases before with
      | nil =>
        obtain ⟨rfl, rfl⟩ := List.cons.inj heq
        exact .inl (by simpa [lineEndsOf] using hitem)
      | cons s'' before =>
        obtain ⟨rfl, rfl⟩ := List.cons.inj heq
        rw [List.cons_append, lineEndsOf, ← Nat.add_assoc] at hitem
        exact .inr ⟨before, s', after, rfl, hitem⟩

/-- Every item was cut from a part of the text that ends on its line, but for the end of input. -/
theorem mem_scan {source : String} {item : ScanItem} (h : item ∈ scan source) :
    item = .token (Token.endOfInput (lastLine source.toList)) ∨
      ∃ (s : Segment) (line : Nat), s.item? line = some item ∧ EndsOn source.toList s.text line := by
  rw [scan, itemsFrom_eq, List.mem_append, List.mem_singleton, lineEndsOf_segments] at h
  rcases h with h | h
  · obtain ⟨before, s, after, hss, hitem⟩ := (mem_itemsOf_iff _ 1).mp h
    refine .inr ⟨s, _, hitem, before.flatMap (·.text), after.flatMap (·.text), ?_, ?_⟩
    · rw [← segments_text source.toList, hss]
      simp
    · have hown : ∀ s' ∈ before ++ [s], s'.lineEnds = s'.text.count '\n' := by
        rw [List.append_cons] at hss
        exact fun s' hs' => lineEnds_of_mem (hss ▸ List.mem_append_left _ hs')
      simp [lastLine, lineEndsOf_eq hown]
  · exact .inl h

/-- A token that the scanner has made of a text. -/
structure Token.WrittenIn (t : Token) (source : String) : Prop where
  scanned : t ∈ tokensOf source
  line_pos : 1 ≤ t.line
  line_le : t.line ≤ 1 + source.toList.count '\n'
  /-- It is the end of input, or the text has its lexeme in a place that ends on its line. -/
  place : t = Token.endOfInput (1 + source.toList.count '\n') ∨
    ∃ before after, source.toList = before ++ t.lexeme.toList ++ after ∧
      t.line = 1 + (before ++ t.lexeme.toList).count '\n'

theorem Segment.item?_token {s : Segment} {line : Nat} {t : Token}
    (h : s.item? line = some (.token t)) : t.line = line ∧ t.lexeme.toList = s.text := by
  obtain ⟨shape, text⟩ := s
  cases shape <;> cases h <;> exact ⟨rfl, by simp⟩

theorem Segment.item?_error {s : Segment} {line : Nat} {e : LexicalError}
    (h : s.item? line = some (.error e)) : e.line = line := by
  obtain ⟨shape, text⟩ := s
  cases shape <;> cases h <;> rfl

/-- Every token of the scanner is written in its text. -/
theorem writtenIn_of_mem {source : String} {t : Token} (h : t ∈ tokensOf source) :
    t.WrittenIn source := by
  obtain ⟨item, hitem, htoken⟩ := List.mem_filterMap.mp h
  obtain rfl : item = .token t := by
    cases item with
    | token t' => exact congrArg ScanItem.token (Option.some.inj htoken)
    | error e => cases htoken
  rcases mem_scan hitem with heof | ⟨s, line, hs, hends⟩
  · obtain rfl : t = _ := ScanItem.token.inj heof
    exact ⟨h, Nat.le_add_right 1 _, Nat.le_refl _, .inl rfl⟩
  · obtain ⟨rfl, hlexeme⟩ := Segment.item?_token hs
    obtain ⟨hpos, hle⟩ := hends.line_le
    obtain ⟨before, after, htext, hline⟩ := hends
    exact ⟨h, hpos, hle, .inr ⟨before, after, hlexeme ▸ htext, hlexeme ▸ hline⟩⟩

/-- Every lexical error is on a line of its text. -/
theorem line_of_lexicalError {source : String} {e : LexicalError} (h : e ∈ lexicalErrors source) :
    1 ≤ e.line ∧ e.line ≤ 1 + source.toList.count '\n' := by
  obtain ⟨item, hitem, herror⟩ := List.mem_filterMap.mp h
  obtain rfl : item = .error e := by
    cases item with
    | token t => cases herror
    | error e' => exact congrArg ScanItem.error (Option.some.inj herror)
  rcases mem_scan hitem with heof | ⟨s, line, hs, hends⟩
  · cases heof
  · exact Segment.item?_error hs ▸ hends.line_le

end Lox
