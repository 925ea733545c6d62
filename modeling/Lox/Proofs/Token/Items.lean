import Lox.Proofs.Token.LongestMatch
import Mathlib.Data.List.Forall2

/-! What a cut text is emitted as.

Each segment but blanks and comments is one item, in the order of the text: a token whose lexeme is
the segment, or an error. One token for the end of input comes last. -/

namespace Lox

namespace Segment

def isSilent (s : Segment) : Bool := s.shape == .blank || s.shape == .comment

/-- The item for a segment, whatever its line. A word is a keyword where it is reserved, and the
literal of a string is what stands between its quotes. -/
inductive Emits : Segment → ScanItem → Prop where
  | mark {kind : TokenKind} {text : List Char} {line : Nat} :
    Emits ⟨.mark kind, text⟩ (.token ⟨kind, String.ofList text, none, line⟩)
  | keyword {kind : TokenKind} {text : List Char} {line : Nat} :
    (String.ofList text, kind) ∈ reserved →
    Emits ⟨.word, text⟩ (.token ⟨kind, String.ofList text, none, line⟩)
  | identifier {text : List Char} {line : Nat} :
    (∀ kind, (String.ofList text, kind) ∉ reserved) →
    Emits ⟨.word, text⟩ (.token ⟨.identifier, String.ofList text, none, line⟩)
  | string {body : List Char} {line : Nat} :
    Emits ⟨.string, '"' :: (body ++ ['"'])⟩
      (.token ⟨.string, String.ofList ('"' :: (body ++ ['"'])),
        some (.string (String.ofList body)), line⟩)
  | numeral {text : List Char} {line : Nat} :
    Emits ⟨.numeral, text⟩
      (.token ⟨.number, String.ofList text, some (.number (Number.ofNumeral text)), line⟩)
  | unexpected {c : Char} {text : List Char} {line : Nat} :
    Emits ⟨.unexpected c, text⟩ (.error ⟨line, .unexpectedCharacter c⟩)
  | unterminated {text : List Char} {line : Nat} :
    Emits ⟨.unterminated, text⟩ (.error ⟨line, .unterminatedString⟩)

theorem kind_ne_of_reserved : ∀ p ∈ reserved, p.2 ≠ .identifier := by
  decide

theorem wordKind_of_reserved : ∀ p ∈ reserved, wordKind p.1 = p.2 := by
  decide

theorem Emits.word (text : List Char) (line : Nat) : Emits ⟨.word, text⟩
    (.token ⟨wordKind (String.ofList text), String.ofList text, none, line⟩) := by
  by_cases hkind : wordKind (String.ofList text) = .identifier
  · rw [hkind]
    refine .identifier fun kind hmem => ?_
    exact kind_ne_of_reserved _ hmem ((wordKind_of_reserved _ hmem).symm.trans hkind)
  · exact .keyword (reserved_of_wordKind rfl hkind)

/-- A segment is silent or emits the item that the scanner gives it. -/
theorem item?_emits {s : Segment}
    (hs : s.shape = .string → ∃ body, s.text = '"' :: (body ++ ['"'])) (line : Nat) :
    (s.isSilent = true ∧ s.item? line = none) ∨
      (s.isSilent = false ∧ ∃ item, s.item? line = some item ∧ s.Emits item) := by
  obtain ⟨shape, text⟩ := s
  cases shape with
  | blank => exact .inl ⟨rfl, rfl⟩
  | comment => exact .inl ⟨rfl, rfl⟩
  | mark kind => exact .inr ⟨rfl, _, rfl, .mark⟩
  | word => exact .inr ⟨rfl, _, rfl, .word text line⟩
  | numeral => exact .inr ⟨rfl, _, rfl, .numeral⟩
  | unexpected c => exact .inr ⟨rfl, _, rfl, .unexpected⟩
  | unterminated => exact .inr ⟨rfl, _, rfl, .unterminated⟩
  | string =>
    obtain ⟨body, rfl⟩ := hs rfl
    have hbody : stringBody ('"' :: (body ++ ['"'])) = body := by simp [stringBody]
    refine .inr ⟨rfl, _, rfl, ?_⟩
    simp only [hbody]
    exact .string

end Segment

/-- A closed string has its quotes. -/
theorem First.quoted {s : Segment} {text : List Char} (h : First s text)
    (hs : s.shape = .string) : ∃ body, s.text = '"' :: (body ++ ['"']) := by
  cases h with
  | lexeme hlongest =>
    obtain rfl := hs
    cases hlongest.lexeme with
    | string => exact ⟨_, rfl⟩
  | _ => cases hs

namespace Cut

variable {text : List Char} {ss : List Segment}

theorem ne_nil (h : Cut text ss) : ∀ s ∈ ss, s.text ≠ [] := by
  induction h with
  | nil => simp
  | cons hne _ _ ih => exact List.forall_mem_cons.mpr ⟨hne, ih⟩

theorem text_eq (h : Cut text ss) : ss.flatMap (·.text) = text := by
  induction h with
  | nil => rfl
  | cons _ _ _ ih => rw [List.flatMap_cons, ih]

theorem emits (h : Cut text ss) : ∀ line : Nat,
    List.Forall₂ Segment.Emits (ss.filter (!·.isSilent)) (itemsOf line ss) := by
  induction h with
  | nil => exact fun _ => .nil
  | @cons s rest ss _ hfirst _ ih =>
    intro line
    rcases Segment.item?_emits hfirst.quoted (line + s.lineEnds) with
      ⟨hsilent, hitem⟩ | ⟨hsilent, item, hitem, hemits⟩
    · simpa [itemsOf, hsilent, hitem] using ih _
    · simpa [itemsOf, hsilent, hitem] using ⟨hemits, ih _⟩

end Cut

/-- Scanning partitions its text by longest match, and emits the segments that are not blanks or
comments, in order and closed by the end of input. -/
theorem scanner_cuts_by_longest_match (source : String) :
    (∀ ss, Cut source.toList ss ↔ ss = segments source.toList) ∧
      (∀ s ∈ segments source.toList, s.text ≠ []) ∧
      String.join ((segments source.toList).map fun s => String.ofList s.text) = source ∧
      ∃ items line, scan source = items ++ [.token (Token.endOfInput line)] ∧
        (∀ t, .token t ∈ items → t.kind ≠ .eof) ∧
        List.Forall₂ Segment.Emits ((segments source.toList).filter (!·.isSilent)) items := by
  have hcut := cut_segments source.toList
  refine ⟨fun ss => cut_iff, hcut.ne_nil, ?_, itemsOf 1 (segments source.toList), _,
    itemsFrom_eq _ 1, fun t => itemsOf_ne_eof (segmentsUpTo_plain _ _) 1, hcut.emits 1⟩
  apply String.toList_injective
  rw [String.toList_join, List.flatMap_map]
  simp only [String.toList_ofList]
  exact hcut.text_eq

end Lox
