import Lox.Proofs.Program.WellFormed
import Lox.Token.Stream

/-! The kinds of the tokens that scanning yields.

Reserved words are told from identifiers by their text alone, so an identifier is never spelled
`this` or `super`, and the two keywords always are. -/

namespace Lox

theorem wordKind_this : wordKind "this" = .kwThis := by decide

theorem wordKind_super : wordKind "super" = .kwSuper := by decide

theorem reserved_of_wordKind {word : String} {kind : TokenKind} (h : wordKind word = kind)
    (hk : kind ≠ .identifier) : (word, kind) ∈ reserved := by
  unfold wordKind at h
  cases hl : reserved.lookup word with
  | none => exact absurd (by simpa [hl] using h.symm) hk
  | some found =>
    obtain rfl : found = kind := by simpa [hl] using h
    obtain ⟨before, after, hr, -⟩ := List.lookup_eq_some_iff.mp hl
    rw [hr]
    simp

theorem word_sound (lexeme : String) (line : Nat) :
    Token.Sound ⟨wordKind lexeme, lexeme, none, line⟩ where
  name h := by
    refine ⟨?_, ?_⟩ <;> rintro rfl
    · exact absurd (wordKind_this.symm.trans h) (by decide)
    · exact absurd (wordKind_super.symm.trans h) (by decide)
  receiver h := by simpa [reserved] using reserved_of_wordKind h (by decide)
  superclass h := by simpa [reserved] using reserved_of_wordKind h (by decide)

/-- A kind that no word has, and that is not the end of input. -/
def TokenKind.isPlain (k : TokenKind) : Bool :=
  k != .identifier && k != .kwThis && k != .kwSuper && k != .eof

theorem Token.sound_of_isPlain {t : Token} (h : t.kind.isPlain = true) : t.Sound := by
  have hk : ((t.kind ≠ .identifier ∧ t.kind ≠ .kwThis) ∧ t.kind ≠ .kwSuper) ∧ t.kind ≠ .eof := by
    simpa [TokenKind.isPlain] using h
  exact ⟨fun h => absurd h hk.1.1.1, fun h => absurd h hk.1.1.2, fun h => absurd h hk.1.2⟩

theorem isPlain_of_markOf {c : Char} {kind : TokenKind} {long : Option TokenKind}
    (h : markOf c = some (kind, long)) : kind.isPlain = true ∧ ∀ k ∈ long, k.isPlain = true := by
  unfold markOf at h
  split at h <;> cases h <;> decide

theorem Segment.isPlain_of_head {c : Char} {rest : List Char} {kind : TokenKind}
    (h : (Segment.head c rest).shape = .mark kind) : kind.isPlain = true := by
  unfold Segment.head at h
  split at h
  · cases h
  split at h
  · split at h <;> cases h
  split at h
  · cases h
  split at h
  · cases h
  split at h
  · cases h
  cases hm : markOf c with
  | none =>
    rw [hm] at h
    cases h
  | some kinds =>
    obtain ⟨short, long⟩ := kinds
    obtain ⟨hshort, hlong⟩ := isPlain_of_markOf hm
    rw [hm] at h
    split at h <;> cases h
    · rename_i heq
      obtain ⟨-, rfl⟩ := Prod.mk.inj (Option.some.inj heq)
      exact hlong _ rfl
    · rename_i heq
      obtain ⟨rfl, -⟩ := Prod.mk.inj (Option.some.inj heq)
      exact hshort

theorem Segment.item?_sound {s : Segment} {line : Nat} {t : Token}
    (hs : ∀ kind, s.shape = .mark kind → kind.isPlain = true)
    (h : s.item? line = some (.token t)) : t.Sound := by
  unfold Segment.item? at h
  simp only at h
  split at h <;> cases h
  · rename_i kind hk
    exact Token.sound_of_isPlain (hs kind hk)
  · exact word_sound _ _
  · exact Token.sound_of_isPlain rfl
  · exact Token.sound_of_isPlain rfl

theorem segmentsUpTo_plain (count : Nat) : ∀ (text : List Char) (s : Segment),
    s ∈ segmentsUpTo count text → ∀ kind, s.shape = .mark kind → kind.isPlain = true := by
  induction count with
  | zero => intro text s hs; cases hs
  | succ count ih =>
    intro text s hs
    cases text with
    | nil => cases hs
    | cons c rest =>
      rcases List.mem_cons.mp hs with rfl | hs
      · exact fun kind => Segment.isPlain_of_head
      · exact ih _ s hs

/-- Only the last token of a text is the end of input. -/
theorem Segment.item?_ne_eof {s : Segment} {line : Nat} {t : Token}
    (hs : ∀ kind, s.shape = .mark kind → kind.isPlain = true)
    (h : s.item? line = some (.token t)) : t.kind ≠ .eof := by
  unfold Segment.item? at h
  simp only at h
  split at h <;> cases h
  · rename_i kind hk
    have hp := hs kind hk
    rintro rfl
    cases hp
  · intro he
    simpa [reserved] using reserved_of_wordKind he (by decide)
  · exact fun he => by cases he
  · exact fun he => by cases he

theorem itemsFrom_sound {segments : List Segment} : ∀ {line : Nat} {t : Token},
    (∀ s ∈ segments, ∀ kind, s.shape = .mark kind → kind.isPlain = true) →
    .token t ∈ itemsFrom line segments → t.Sound := by
  induction segments with
  | nil =>
    intro line t _ ht
    obtain rfl := ScanItem.token.inj (List.mem_singleton.mp ht)
    refine ⟨fun h => ?_, fun h => ?_, fun h => ?_⟩ <;> cases h
  | cons s rest ih =>
    intro line t hs ht
    have hrest := fun s' hs' => hs s' (.tail _ hs')
    rw [itemsFrom] at ht
    split at ht
    · rename_i item hitem
      rcases List.mem_cons.mp ht with rfl | ht
      · exact Segment.item?_sound (hs s (.head _)) hitem
      · exact ih hrest ht
    · exact ih hrest ht

theorem scan_sound {source : String} {t : Token} (h : t ∈ (scan source).filterMap ScanItem.token?) :
    t.Sound := by
  obtain ⟨item, hitem, ht⟩ := List.mem_filterMap.mp h
  cases item with
  | token u =>
    obtain rfl := Option.some.inj ht
    exact itemsFrom_sound (segmentsUpTo_plain _ _) hitem
  | error e => cases ht

end Lox
