import Lox.Proofs.Program.Relabelling
import Lox.Proofs.Token.Words
import Mathlib.Data.List.TakeWhile

/-! Scanning one text after another.

A segment ends before a line end or with it, except for a string that is never closed. So a text
that scans without an error is cut the same way with a line end and another text behind it, and the
other text is cut as it is by itself, further down. -/

namespace Lox

theorem takeWhile_append_of_stop {α : Type} {p : α → Bool} {x : α} (h : p x = false)
    (xs more : List α) : (xs ++ x :: more).takeWhile p = xs.takeWhile p ∧
      (xs ++ x :: more).dropWhile p = xs.dropWhile p ++ x :: more := by
  induction xs with
  | nil => simp [h]
  | cons y rest ih =>
    cases hy : p y with
    | true => simp [hy, ih]
    | false => simp [hy]

theorem fraction_append (text more : List Char) : fraction (text ++ '\n' :: more) = fraction text := by
  have hdigit : isDigit '\n' = false := by decide
  match text with
  | [] => rfl
  | [c] =>
    by_cases hc : c = '.'
    · subst hc
      simp [fraction, hdigit]
    · unfold fraction
      split <;> simp_all
  | c :: d :: rest =>
    by_cases hc : c = '.'
    · subst hc
      simp [fraction, takeWhile_append_of_stop hdigit]
    · unfold fraction
      split <;> simp_all

theorem numeral_append (text more : List Char) :
    numeral (text ++ '\n' :: more) = numeral text := by
  have hstop := takeWhile_append_of_stop (p := isDigit) (x := '\n') (by decide) text more
  rw [numeral, hstop.1, hstop.2, fraction_append, numeral]

theorem closedString?_append {text body : List Char} (more : List Char)
    (h : closedString? text = some body) : closedString? (text ++ more) = some body := by
  induction text generalizing body with
  | nil => cases h
  | cons c rest ih =>
    rw [List.cons_append, closedString?]
    rw [closedString?] at h
    split at h
    · rename_i hc
      rw [if_pos hc, h]
    · rename_i hc
      obtain ⟨inner, hi, rfl⟩ := Option.map_eq_some_iff.mp h
      rw [if_neg hc, ih hi]
      rfl

/-- A segment does not reach over a line end, unless it is a string. -/
theorem Segment.head_append {c : Char} {rest : List Char} (more : List Char)
    (h : (Segment.head c rest).shape ≠ .unterminated) :
    Segment.head c (rest ++ '\n' :: more) = Segment.head c rest := by
  have hhead : ((rest ++ '\n' :: more).head? = some '/') ↔ rest.head? = some '/' := by
    cases rest <;> simp
  unfold Segment.head at h ⊢
  simp only [hhead]
  split
  · rw [(takeWhile_append_of_stop (by decide) rest more).1]
  rename_i hcomment
  rw [if_neg hcomment] at h
  split
  · rename_i hstring
    rw [if_pos hstring] at h
    cases hb : closedString? rest with
    | none =>
      rw [hb] at h
      exact absurd rfl h
    | some body => rw [closedString?_append _ hb]
  split
  · rfl
  split
  · rw [← List.cons_append, numeral_append]
  split
  · rw [(takeWhile_append_of_stop (by decide) rest more).1]
  cases rest with
  | nil =>
    cases markOf c with
    | none => rfl
    | some kinds => rcases kinds with ⟨kind, _ | long⟩ <;> rfl
  | cons d rest =>
    rw [List.cons_append]
    cases markOf c with
    | none => rfl
    | some kinds =>
      rcases kinds with ⟨kind, _ | long⟩
      · rfl
      · by_cases hd : d = '='
        · subst hd
          rfl
        · simp [hd]

theorem isPrefix_fraction (text : List Char) : fraction text <+: text := by
  unfold fraction
  split
  · split
    · simp [List.takeWhile_prefix]
    · exact List.nil_prefix
  · exact List.nil_prefix

theorem isPrefix_closedString? {text body : List Char} (h : closedString? text = some body) :
    body <+: text := by
  induction text generalizing body with
  | nil => cases h
  | cons c rest ih =>
    rw [closedString?] at h
    split at h
    · cases h
      simp
    · obtain ⟨inner, hi, rfl⟩ := Option.map_eq_some_iff.mp h
      simp [ih hi]

theorem isPrefix_numeral (text : List Char) : numeral text <+: text := by
  rw [numeral]
  conv => rhs; rw [← List.takeWhile_append_dropWhile (p := isDigit) (l := text)]
  exact List.prefix_append_right_inj _ |>.mpr (isPrefix_fraction _)

/-- A segment is a piece of the text that it is cut from, and never empty. -/
theorem Segment.head_text (c : Char) (rest : List Char) :
    ∃ tail, (Segment.head c rest).text = c :: tail ∧ tail <+: rest := by
  unfold Segment.head
  split
  · exact ⟨_, rfl, List.takeWhile_prefix _⟩
  split
  · split
    · rename_i body hb
      exact ⟨body, rfl, isPrefix_closedString? hb⟩
    · exact ⟨rest, rfl, List.prefix_refl rest⟩
  split
  · exact ⟨[], rfl, List.nil_prefix⟩
  split
  · rename_i hdigit
    have hp := isPrefix_numeral (c :: rest)
    have hn : numeral (c :: rest) = c :: (numeral (c :: rest)).tail := by
      simp [numeral, hdigit]
    rw [hn] at hp
    exact ⟨_, hn, (List.cons_prefix_cons.mp hp).2⟩
  split
  · exact ⟨_, rfl, List.takeWhile_prefix _⟩
  split
  · exact ⟨['='], rfl, by simp⟩
  · exact ⟨[], rfl, List.nil_prefix⟩
  · exact ⟨[], rfl, List.nil_prefix⟩

/-- What is left of a text after its first segment. -/
def afterHead (c : Char) (rest : List Char) : List Char :=
  (c :: rest).drop (Segment.head c rest).text.length

theorem afterHead_spec (c : Char) (rest : List Char) :
    (Segment.head c rest).text ++ afterHead c rest = c :: rest ∧
      (afterHead c rest).length ≤ rest.length := by
  obtain ⟨tail, ht, more, rfl⟩ := Segment.head_text c rest
  rw [afterHead, ht]
  simp

theorem segmentsUpTo_eq (n : Nat) : ∀ (m : Nat) (text : List Char), text.length ≤ n →
    text.length ≤ m → segmentsUpTo n text = segmentsUpTo m text := by
  induction n with
  | zero =>
    intro m text hn _
    obtain rfl := List.eq_nil_of_length_eq_zero (Nat.le_zero.mp hn)
    cases m <;> rfl
  | succ n ih =>
    intro m text hn hm
    cases text with
    | nil => cases m <;> rfl
    | cons c rest =>
      cases m with
      | zero => exact absurd hm (Nat.not_succ_le_zero _)
      | succ m =>
        have hle := (afterHead_spec c rest).2
        rw [List.length_cons] at hn hm
        exact congrArg (Segment.head c rest :: ·)
          (ih m (afterHead c rest) (by omega) (by omega))

theorem segments_cons (c : Char) (rest : List Char) :
    segments (c :: rest) = Segment.head c rest :: segments (afterHead c rest) :=
  congrArg (Segment.head c rest :: ·)
    (segmentsUpTo_eq _ _ _ (afterHead_spec c rest).2 (Nat.le_refl _))

/-- Induction on what is left of a text, segment by segment. -/
theorem segments_induction {P : List Char → Prop} (nil : P [])
    (cons : ∀ c rest, P (afterHead c rest) → P (c :: rest)) (text : List Char) : P text := by
  induction hn : text.length using Nat.strongRecOn generalizing text with
  | ind n ih =>
    cases text with
    | nil => exact nil
    | cons c rest =>
      refine cons c rest (ih (afterHead c rest).length ?_ _ rfl)
      have := (afterHead_spec c rest).2
      simp only [List.length_cons] at hn
      omega

theorem segments_append (text more : List Char)
    (h : ∀ s ∈ segments text, s.shape ≠ .unterminated) :
    segments (text ++ '\n' :: more) = segments text ++ ⟨.blank, ['\n']⟩ :: segments more := by
  induction text using segments_induction with
  | nil =>
    have hblank : Segment.head '\n' more = ⟨.blank, ['\n']⟩ := by simp [Segment.head, isBlank]
    have hafter : afterHead '\n' more = more := by simp [afterHead, hblank]
    rw [List.nil_append, segments_cons, hblank, hafter]
    rfl
  | cons c rest ih =>
    rw [segments_cons] at h ⊢
    have hhead := Segment.head_append more (h _ (.head _))
    have hafter : afterHead c (rest ++ '\n' :: more) = afterHead c rest ++ '\n' :: more := by
      have hle : (Segment.head c rest).text.length ≤ (c :: rest).length := by
        rw [← (afterHead_spec c rest).1]
        simp
      rw [afterHead, hhead, ← List.cons_append, List.drop_append_of_le_length hle, afterHead]
    rw [List.cons_append, segments_cons, hhead, hafter, ih fun s hs => h s (.tail _ hs),
      List.cons_append]

/-- Nothing is left out between segments. -/
theorem segments_text (text : List Char) : (segments text).flatMap (·.text) = text := by
  induction text using segments_induction with
  | nil => rfl
  | cons c rest ih => rw [segments_cons, List.flatMap_cons, ih, (afterHead_spec c rest).1]

section LineEnds

theorem closedString?_ends {text body : List Char} (h : closedString? text = some body) :
    ∃ own, body = own ++ ['"'] := by
  induction text generalizing body with
  | nil => cases h
  | cons c rest ih =>
    rw [closedString?] at h
    split at h
    · rename_i hc
      obtain rfl := Option.some.inj h
      exact ⟨[], by rw [hc, List.nil_append]⟩
    · obtain ⟨inner, hi, rfl⟩ := Option.map_eq_some_iff.mp h
      obtain ⟨own, rfl⟩ := ih hi
      exact ⟨c :: own, rfl⟩

theorem not_mem_numeral (text : List Char) : '\n' ∉ numeral text := by
  have hdigits (text : List Char) : '\n' ∉ text.takeWhile isDigit := fun h =>
    absurd (List.mem_takeWhile_imp h) (by decide)
  intro h
  rcases List.mem_append.mp h with h | h
  · exact hdigits _ h
  · unfold fraction at h
    split at h
    · rename_i d rest _
      split at h
      · rename_i hd
        have hne : '\n' ≠ d := by
          rintro rfl
          exact absurd hd (by decide)
        simp [hne, hdigits rest] at h
      · cases h
    · cases h

/-- Counting a line end by itself and those in strings counts all of them. -/
theorem Segment.lineEnds_head (c : Char) (rest : List Char) :
    (Segment.head c rest).lineEnds = (Segment.head c rest).text.count '\n' := by
  have hmark : markOf '\n' = none := rfl
  unfold Segment.head
  split
  · rename_i hc
    have hbody : '\n' ∉ rest.takeWhile (· != '\n') := fun h =>
      absurd (List.mem_takeWhile_imp h) (by decide)
    simp [lineEnds, hc.1, List.count_eq_zero.mpr hbody]
  split
  · rename_i hc
    split
    · rename_i body hb
      obtain ⟨own, rfl⟩ := closedString?_ends hb
      simp [lineEnds, stringBody, hc]
    · simp [lineEnds, hc]
  split
  · by_cases hc : c = '\n' <;> simp [lineEnds, hc]
  rename_i hblank
  have hc : c ≠ '\n' := by
    rintro rfl
    exact hblank rfl
  split
  · exact (List.count_eq_zero.mpr (not_mem_numeral _)).symm
  split
  · have hword : '\n' ∉ rest.takeWhile continuesWord := fun h =>
      absurd (List.mem_takeWhile_imp h) (by decide)
    simp [lineEnds, hc, List.count_eq_zero.mpr hword]
  split <;> simp [lineEnds, hc]

theorem lineEnds_of_mem {text : List Char} {s : Segment} (h : s ∈ segments text) :
    s.lineEnds = s.text.count '\n' := by
  induction text using segments_induction with
  | nil => cases h
  | cons c rest ih =>
    rw [segments_cons] at h
    rcases List.mem_cons.mp h with rfl | h
    · exact Segment.lineEnds_head c rest
    · exact ih h

/-- How many lines further down some segments end. -/
def lineEndsOf : List Segment → Nat
  | [] => 0
  | s :: rest => s.lineEnds + lineEndsOf rest

theorem lineEndsOf_eq {ss : List Segment} (h : ∀ s ∈ ss, s.lineEnds = s.text.count '\n') :
    lineEndsOf ss = (ss.flatMap (·.text)).count '\n' := by
  induction ss with
  | nil => rfl
  | cons s rest ih =>
    obtain ⟨hs, hrest⟩ := List.forall_mem_cons.mp h
    rw [lineEndsOf, hs, ih hrest, List.flatMap_cons, List.count_append]

theorem lineEndsOf_segments (text : List Char) :
    lineEndsOf (segments text) = text.count '\n' := by
  rw [lineEndsOf_eq fun _ => lineEnds_of_mem, segments_text]

end LineEnds

/-- The items of segments before the end of input. -/
def itemsOf (line : Nat) : List Segment → List ScanItem
  | [] => []
  | s :: rest => (s.item? (line + s.lineEnds)).toList ++ itemsOf (line + s.lineEnds) rest

theorem itemsFrom_append (xs ys : List Segment) : ∀ line : Nat,
    itemsFrom line (xs ++ ys) = itemsOf line xs ++ itemsFrom (line + lineEndsOf xs) ys := by
  induction xs with
  | nil => exact fun line => rfl
  | cons s rest ih =>
    intro line
    have hlines : line + lineEndsOf (s :: rest) = line + s.lineEnds + lineEndsOf rest := by
      rw [lineEndsOf, Nat.add_assoc]
    rw [List.cons_append, itemsFrom, itemsOf, hlines]
    cases s.item? (line + s.lineEnds) with
    | none => simp [ih]
    | some item => simp [ih]

theorem itemsFrom_eq (xs : List Segment) (line : Nat) :
    itemsFrom line xs = itemsOf line xs ++ [.token (Token.endOfInput (line + lineEndsOf xs))] := by
  simpa [itemsFrom] using itemsFrom_append xs [] line

theorem mem_itemsOf {xs : List Segment} {s : Segment} (hs : s ∈ xs) : ∀ line : Nat,
    ∃ line', ∀ item, s.item? line' = some item → item ∈ itemsOf line xs := by
  induction xs with
  | nil => cases hs
  | cons x rest ih =>
    intro line
    rcases List.mem_cons.mp hs with rfl | hs
    · exact ⟨line + s.lineEnds, fun item hi => by simp [itemsOf, hi]⟩
    · obtain ⟨line', h⟩ := ih hs (line + x.lineEnds)
      exact ⟨line', fun item hi => List.mem_append_right _ (h item hi)⟩

theorem itemsOf_ne_eof {xs : List Segment}
    (hs : ∀ s ∈ xs, ∀ kind, s.shape = .mark kind → kind.isPlain = true) {t : Token} :
    ∀ line : Nat, .token t ∈ itemsOf line xs → t.kind ≠ .eof := by
  induction xs with
  | nil => intro line ht; cases ht
  | cons x rest ih =>
    intro line ht
    rcases List.mem_append.mp ht with ht | ht
    · exact Segment.item?_ne_eof (hs x (.head _)) (Option.mem_toList.mp ht)
    · exact ih (fun s h => hs s (.tail _ h)) _ ht

/-- The same identities on lines further down. -/
def Relabelling.down (count : Nat) : Relabelling := ⟨id, (· + count)⟩

def ScanItem.relabel (f : Relabelling) : ScanItem → ScanItem
  | .token t => .token (t.relabel f)
  | .error e => .error ⟨f.line e.line, e.fault⟩

theorem Segment.item?_down (s : Segment) (line count : Nat) :
    s.item? (line + count) = (s.item? line).map (ScanItem.relabel (.down count)) := by
  unfold Segment.item?
  simp only
  cases s.shape <;> rfl

theorem itemsFrom_down (count : Nat) (xs : List Segment) : ∀ line : Nat,
    itemsFrom (line + count) xs = (itemsFrom line xs).map (ScanItem.relabel (.down count)) := by
  induction xs with
  | nil => exact fun line => rfl
  | cons s rest ih =>
    intro line
    rw [itemsFrom, itemsFrom, Nat.add_right_comm, Segment.item?_down]
    cases s.item? (line + s.lineEnds) with
    | none => exact ih _
    | some item => simp [ih]

/-- A text with empty lines above it. -/
def lowered (count : Nat) (source : String) : String :=
  String.ofList (List.replicate count '\n') ++ source

theorem segments_lowered (count : Nat) (text : List Char) :
    segments (List.replicate count '\n' ++ text) =
      List.replicate count ⟨.blank, ['\n']⟩ ++ segments text := by
  induction count with
  | zero => rfl
  | succ count ih =>
    have hfirst := segments_append [] (List.replicate count '\n' ++ text)
      (by simp [segments, segmentsUpTo])
    rw [List.replicate_succ, List.cons_append, List.replicate_succ, List.cons_append, ← ih]
    exact hfirst

theorem itemsFrom_lowered (count : Nat) (xs : List Segment) : ∀ line : Nat,
    itemsFrom line (List.replicate count ⟨.blank, ['\n']⟩ ++ xs) = itemsFrom (line + count) xs := by
  induction count with
  | zero => exact fun line => rfl
  | succ count ih =>
    intro line
    have hblank : (⟨.blank, ['\n']⟩ : Segment).lineEnds = 1 := rfl
    rw [List.replicate_succ, List.cons_append, itemsFrom, hblank, Nat.add_comm count 1,
      ← Nat.add_assoc, ← ih]
    rfl

theorem scan_lowered (count : Nat) (source : String) :
    scan (lowered count source) = (scan source).map (ScanItem.relabel (.down count)) := by
  rw [scan, lowered, String.toList_append, String.toList_ofList, segments_lowered,
    itemsFrom_lowered, itemsFrom_down, scan]

/-- The tokens of a text. -/
def tokensOf (source : String) : List Token := (scan source).filterMap ScanItem.token?

def lexicalErrors (source : String) : List LexicalError := (scan source).filterMap ScanItem.error?

/-- Every text has a last token, also one with errors. -/
theorem tokensOf_eof (source : String) : ∃ t ∈ tokensOf source, t.kind = .eof := by
  let last := Token.endOfInput (1 + lineEndsOf (segments source.toList))
  have hlast : .token last ∈ scan source := by
    rw [scan, itemsFrom_eq]
    exact List.mem_append_right _ (.head _)
  exact ⟨last, List.mem_filterMap.mpr ⟨.token last, hlast, rfl⟩, rfl⟩

theorem tokensOf_lowered (count : Nat) (source : String) :
    tokensOf (lowered count source) = (tokensOf source).map (Token.relabel (.down count)) := by
  rw [tokensOf, scan_lowered, tokensOf, List.filterMap_map, List.map_filterMap]
  congr 1
  funext item
  cases item <;> rfl

theorem lexicalErrors_lowered {count : Nat} {source : String} (h : lexicalErrors source = []) :
    lexicalErrors (lowered count source) = [] := by
  rw [lexicalErrors, List.filterMap_eq_nil_iff] at h ⊢
  rw [scan_lowered]
  intro lower hlower
  obtain ⟨item, hi, rfl⟩ := List.mem_map.mp hlower
  have hn := h item hi
  cases item with
  | token t => rfl
  | error e => cases hn

/-- A text that scans without an error is a list of tokens and the end of input. -/
theorem scan_quiet {source : String} (h : lexicalErrors source = []) :
    ∃ (own : List Token) (line : Nat), (∀ t ∈ own, t.kind ≠ .eof) ∧
      scan source = own.map .token ++ [.token (Token.endOfInput line)] := by
  let xs := segments source.toList
  have hscan : scan source = itemsOf 1 xs ++ [.token (Token.endOfInput (1 + lineEndsOf xs))] :=
    itemsFrom_eq xs 1
  have hitems : ∀ items : List ScanItem, (∀ item ∈ items, item.error? = none) →
      ∃ own : List Token, items = own.map .token := by
    intro items hitems
    induction items with
    | nil => exact ⟨[], rfl⟩
    | cons item rest ih =>
      obtain ⟨hitem, hrest⟩ := List.forall_mem_cons.mp hitems
      obtain ⟨own, rfl⟩ := ih hrest
      cases item with
      | token t => exact ⟨t :: own, rfl⟩
      | error e => cases hitem
  rw [lexicalErrors, hscan, List.filterMap_eq_nil_iff] at h
  obtain ⟨own, hown⟩ := hitems _ fun item hi => h item (List.mem_append_left _ hi)
  refine ⟨own, _, fun t ht => ?_, by rw [hscan, hown]⟩
  exact itemsOf_ne_eof (segmentsUpTo_plain _ _) 1 (hown ▸ List.mem_map_of_mem ht)

/-- The line that the text after a given one and a line end begins on, less the first. -/
def linesAbove (source : String) : Nat := source.toList.count '\n' + 1

/-- Behind a text that scans without an error, another is scanned as it is by itself. -/
theorem tokensOf_append {first : String} (h : lexicalErrors first = []) (second : String) :
    ∃ (own : List Token) (line : Nat), (∀ t ∈ own, t.kind ≠ .eof) ∧
      tokensOf first = own ++ [Token.endOfInput line] ∧
      tokensOf (first ++ "\n" ++ second) = own ++ tokensOf (lowered (linesAbove first) second) ∧
      lexicalErrors (first ++ "\n" ++ second) =
        lexicalErrors (lowered (linesAbove first) second) := by
  let xs := segments first.toList
  have hscan : scan first = itemsOf 1 xs ++ [.token (Token.endOfInput (1 + lineEndsOf xs))] :=
    itemsFrom_eq xs 1
  have herrors : ∀ item ∈ itemsOf 1 xs, item.error? = none := by
    rw [lexicalErrors, hscan, List.filterMap_eq_nil_iff] at h
    exact fun item hi => h item (List.mem_append_left _ hi)
  have hclosed : ∀ s ∈ xs, s.shape ≠ .unterminated := by
    intro s hs hshape
    obtain ⟨line, hmem⟩ := mem_itemsOf hs 1
    have hitem : s.item? line = some (.error ⟨line, .unterminatedString⟩) := by
      unfold Segment.item?
      rw [hshape]
    cases herrors _ (hmem _ hitem)
  have htext : (first ++ "\n" ++ second).toList = first.toList ++ '\n' :: second.toList := by
    simp
  have happend : scan (first ++ "\n" ++ second) =
      itemsOf 1 xs ++ scan (lowered (linesAbove first) second) := by
    have hline : (1 + lineEndsOf xs) + (⟨.blank, ['\n']⟩ : Segment).lineEnds =
        1 + linesAbove first := by
      rw [lineEndsOf_segments, linesAbove, Nat.add_assoc]
      rfl
    rw [scan, htext, segments_append _ _ hclosed, itemsFrom_append, itemsFrom, hline,
      scan_lowered, scan, ← itemsFrom_down]
    rfl
  refine ⟨(itemsOf 1 xs).filterMap ScanItem.token?, 1 + lineEndsOf xs, fun t ht => ?_, ?_, ?_, ?_⟩
  · obtain ⟨item, hi, ht⟩ := List.mem_filterMap.mp ht
    cases item with
    | error e => cases ht
    | token u =>
      obtain rfl := Option.some.inj ht
      exact itemsOf_ne_eof (segmentsUpTo_plain _ _) 1 hi
  · rw [tokensOf, hscan, List.filterMap_append]
    rfl
  · rw [tokensOf, happend, List.filterMap_append, tokensOf]
  · rw [lexicalErrors, happend, List.filterMap_append, List.filterMap_eq_nil_iff.mpr herrors,
      List.nil_append, lexicalErrors]

end Lox
