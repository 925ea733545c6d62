import Lox.Proofs.Token.Rescanning

/-! Lines of a text.

An item of the scanner is on the line on which the text that it covers ends, so its number is one
more than the line ends up to there. Line ends stand by themselves and within strings, and nowhere
else in a segment. A text whose strings are all closed is scanned up to its end as it is before a
line end and more text, and the other text as it is by itself, so many lines further down. -/

namespace Lox

def ScanItem.line : ScanItem → Nat
  | .token t => t.line
  | .error e => e.line

/-- The items of a text with another text before it. A segment that is not silent is covered by an
item, on the line on which the segment ends; the end of input covers nothing. -/
inductive Numbered : List Char → List Char → List ScanItem → Prop where
  | finish {before : List Char} :
    Numbered before [] [.token (Token.endOfInput (1 + before.count '\n'))]
  | silent {before rest : List Char} {s : Segment} {items : List ScanItem} :
    s.text ≠ [] → First s (s.text ++ rest) → s.isSilent = true →
    Numbered (before ++ s.text) rest items → Numbered before (s.text ++ rest) items
  | item {before rest : List Char} {s : Segment} {item : ScanItem} {items : List ScanItem} :
    s.text ≠ [] → First s (s.text ++ rest) → s.Emits item →
    item.line = 1 + (before ++ s.text).count '\n' →
    Numbered (before ++ s.text) rest items → Numbered before (s.text ++ rest) (item :: items)

namespace Segment

variable {s : Segment} {a b : ScanItem}

theorem item?_line {line : Nat} (h : s.item? line = some a) : a.line = line := by
  cases a with
  | token t => exact (item?_token h).1
  | error e => exact item?_error h

theorem Emits.not_silent (h : s.Emits a) : s.isSilent = false := by
  cases h <;> rfl

/-- A segment is emitted as one item on each line. -/
theorem Emits.unique (ha : s.Emits a) (hb : s.Emits b) (hline : a.line = b.line) : a = b := by
  cases ha with
  | mark =>
    cases hb with
    | mark =>
      obtain rfl := hline
      rfl
  | @keyword kind text _ hmem =>
    have hkind : wordKind (String.ofList text) = kind := wordKind_of_reserved _ hmem
    cases hb with
    | @keyword kind' _ _ hmem' =>
      have hkind' : wordKind (String.ofList text) = kind' := wordKind_of_reserved _ hmem'
      obtain rfl := hkind.symm.trans hkind'
      obtain rfl := hline
      rfl
    | identifier hnone => exact absurd hmem (hnone _)
  | identifier hnone =>
    cases hb with
    | keyword hmem => exact absurd hmem (hnone _)
    | identifier =>
      obtain rfl := hline
      rfl
  | @string body =>
    generalize htext : ('"' :: (body ++ ['"'])) = text at hb
    cases hb with
    | string =>
      obtain rfl := hline
      obtain rfl := List.append_cancel_right (List.cons.inj htext).2
      rfl
  | numeral =>
    cases hb with
    | numeral =>
      obtain rfl := hline
      rfl
  | unexpected =>
    cases hb with
    | unexpected =>
      obtain rfl := hline
      rfl
  | unterminated =>
    cases hb with
    | unterminated =>
      obtain rfl := hline
      rfl

end Segment

theorem Cut.first {text : List Char} {ss : List Segment} (h : Cut text ss) :
    ∀ s ∈ ss, ∃ rest, First s rest := by
  induction h with
  | nil => exact List.forall_mem_nil _
  | cons _ hfirst _ ih => exact List.forall_mem_cons.mpr ⟨⟨_, hfirst⟩, ih⟩

/-- The first segment of a text has no line ends but those that are counted. -/
theorem First.lineEnds {s : Segment} {text : List Char} (h : First s text) (hne : text ≠ []) :
    s.lineEnds = s.text.count '\n' := by
  obtain ⟨c, rest, rfl⟩ := List.exists_cons_of_ne_nil hne
  rw [(Segment.first_head c rest).unique h]
  exact Segment.lineEnds_head c rest

namespace Numbered

variable {before text : List Char} {items items' : List ScanItem}

/-- A cut text is numbered by counting the line ends of its segments. -/
theorem of_cut {ss : List Segment} (h : Cut text ss) : ∀ before : List Char,
    Numbered before text (itemsFrom (1 + before.count '\n') ss) := by
  induction h with
  | nil => exact fun _ => .finish
  | @cons s rest ss hne hfirst _ ih =>
    intro before
    have hline : 1 + before.count '\n' + s.lineEnds = 1 + (before ++ s.text).count '\n' := by
      rw [List.count_append, hfirst.lineEnds (by simp [hne]), Nat.add_assoc]
    rw [itemsFrom, hline]
    rcases Segment.item?_emits hfirst.quoted (1 + (before ++ s.text).count '\n') with
      ⟨hsilent, hitem⟩ | ⟨-, item, hitem, hemits⟩
    · rw [hitem]
      exact .silent hne hfirst hsilent (ih _)
    · rw [hitem]
      exact .item hne hfirst hemits (Segment.item?_line hitem) (ih _)

/-- There is one way to number a text, since there is one way to cut it. -/
theorem unique (h : Numbered before text items) (h' : Numbered before text items') :
    items' = items := by
  induction h generalizing items' with
  | finish =>
    generalize htext : ([] : List Char) = text at h'
    cases h' with
    | finish => rfl
    | silent hne => exact absurd (List.append_eq_nil_iff.mp htext.symm).1 hne
    | item hne => exact absurd (List.append_eq_nil_iff.mp htext.symm).1 hne
  | @silent before rest s items hne hfirst hsilent _ ih =>
    generalize htext : s.text ++ rest = text at h'
    cases h' with
    | finish => exact absurd (List.append_eq_nil_iff.mp htext).1 hne
    | silent _ hfirst' _ hrest =>
      rw [htext] at hfirst
      obtain rfl := hfirst'.unique hfirst
      obtain rfl := List.append_cancel_left htext
      exact ih hrest
    | item _ hfirst' hemits =>
      rw [htext] at hfirst
      obtain rfl := hfirst'.unique hfirst
      exact absurd (hsilent.symm.trans hemits.not_silent) (by decide)
  | @item before rest s item items hne hfirst hemits hline _ ih =>
    generalize htext : s.text ++ rest = text at h'
    cases h' with
    | finish => exact absurd (List.append_eq_nil_iff.mp htext).1 hne
    | silent _ hfirst' hsilent =>
      rw [htext] at hfirst
      obtain rfl := hfirst'.unique hfirst
      exact absurd (hsilent.symm.trans hemits.not_silent) (by decide)
    | item _ hfirst' hemits' hline' hrest =>
      rw [htext] at hfirst
      obtain rfl := hfirst'.unique hfirst
      obtain rfl := List.append_cancel_left htext
      rw [hemits'.unique hemits (hline'.trans hline.symm), ih hrest]

end Numbered

/-- The scanner's items are those of its text by longest match, each on the line that is one more
than the line ends up to where the text that it covers ends; the end of input is on the line after
all of them. Where the scanner counts, in a segment by itself and within strings, it counts every
line end of the text once. -/
theorem lines_are_exact (source : String) :
    (∀ items, Numbered [] source.toList items ↔ items = scan source) ∧
      ∀ s ∈ segments source.toList, s.lineEnds = s.text.count '\n' := by
  have hcut := cut_segments source.toList
  have hscan : Numbered [] source.toList (scan source) := Numbered.of_cut hcut []
  constructor
  · intro items
    constructor
    · exact hscan.unique
    · rintro rfl
      exact hscan
  · exact fun s => lineEnds_of_mem

section Appended

variable {first : String}

/-- A string that is never closed is reported. -/
theorem not_unterminated_of_reported
    (h : ∀ e ∈ lexicalErrors first, e.fault ≠ .unterminatedString) :
    ∀ s ∈ segments first.toList, s.shape ≠ .unterminated := by
  rintro ⟨shape, text⟩ hs rfl
  obtain ⟨line, hitem⟩ := mem_itemsOf hs 1
  have hmem : .error ⟨line, .unterminatedString⟩ ∈ scan first := by
    rw [scan, itemsFrom_eq]
    exact List.mem_append_left _ (hitem _ rfl)
  exact h _ (List.mem_filterMap.mpr ⟨_, hmem, rfl⟩) rfl

/-- Where no string is left open, a line end and more text behind a text leave its items as they
are, up to the end of input, and in its place come the items of the other text, as many lines
further down as there are line ends before it. -/
theorem scanning_composes_at_line_ends
    (h : ∀ e ∈ lexicalErrors first, e.fault ≠ .unterminatedString) (second : String) :
    ∃ items, scan first = items ++ [.token (Token.endOfInput (1 + first.toList.count '\n'))] ∧
      scan (first ++ "\n" ++ second) =
        items ++ (scan second).map (ScanItem.relabel (.down (1 + first.toList.count '\n'))) := by
  let line := 1 + first.toList.count '\n'
  have hlines : 1 + lineEndsOf (segments first.toList) = line := by rw [lineEndsOf_segments]
  refine ⟨itemsOf 1 (segments first.toList), ?_, ?_⟩
  · rw [scan, itemsFrom_eq, hlines]
  · have htext : (first ++ "\n" ++ second).toList = first.toList ++ '\n' :: second.toList := by
      simp
    have hblank : itemsFrom line (⟨.blank, ['\n']⟩ :: segments second.toList) =
        itemsFrom (line + 1) (segments second.toList) := rfl
    rw [scan, htext, segments_append _ _ (not_unterminated_of_reported h), itemsFrom_append, hlines,
      hblank, Nat.add_comm, itemsFrom_down, scan]

/-- Half an operator at the end of a line stays half an operator. -/
theorem scanning_composes_behind_half_an_operator : ∃ items,
    (∀ e ∈ lexicalErrors "@ \"a\nb\" 1. !", e.fault ≠ .unterminatedString) ∧
    scan "@ \"a\nb\" 1. !" = items ++ [.token (Token.endOfInput 2)] ∧
    scan "@ \"a\nb\" 1. !\n= 2" = items ++ [.token ⟨.equal, "=", none, 3⟩,
      .token ⟨.number, "2", some (.number ⟨4611686018427387904⟩), 3⟩,
      .token (Token.endOfInput 3)] := by
  have h : ∀ e ∈ lexicalErrors "@ \"a\nb\" 1. !", e.fault ≠ .unterminatedString := by
    decide +kernel
  have hsecond : (scan "= 2").map (ScanItem.relabel (.down (1 + 1))) =
      [.token ⟨.equal, "=", none, 3⟩,
        .token ⟨.number, "2", some (.number ⟨4611686018427387904⟩), 3⟩,
        .token (Token.endOfInput 3)] := by
    decide +kernel
  obtain ⟨items, hfirst, hboth⟩ := scanning_composes_at_line_ends h "= 2"
  exact ⟨items, h, hfirst, hboth.trans (congrArg (items ++ ·) hsecond)⟩

end Appended

end Lox
