import Lox.Proofs.Token.Concatenation
import Mathlib.Data.List.TakeWhile

/-! Scanning is longest match.

What a lexeme of each shape is, is said here without reference to the scanner. A text is then cut by
a rule: its first segment is the longest lexeme that it begins with, or else a blank, or else what
cannot be read. The scanner's cut is the one that the rule allows. -/

namespace Lox

/-- The spellings of the operators and of the punctuation. -/
def operators : List (List Char × TokenKind) :=
  [(['('], .leftParen), ([')'], .rightParen), (['\x7b'], .leftBrace), (['\x7d'], .rightBrace),
    ([','], .comma), (['.'], .dot), (['-'], .minus), (['+'], .plus), ([';'], .semicolon),
    (['/'], .slash), (['*'], .star), (['!'], .bang), (['!', '='], .bangEqual), (['='], .equal),
    (['=', '='], .equalEqual), (['>'], .greater), (['>', '='], .greaterEqual), (['<'], .less),
    (['<', '='], .lessEqual)]

inductive Lexeme : Shape → List Char → Prop where
  | operator {text : List Char} {kind : TokenKind} :
    (text, kind) ∈ operators → Lexeme (.mark kind) text
  | comment {body : List Char} : '\n' ∉ body → Lexeme .comment ('/' :: '/' :: body)
  | string {body : List Char} : '"' ∉ body → Lexeme .string ('"' :: (body ++ ['"']))
  | integer {c : Char} {digits : List Char} :
    isDigit c = true → (∀ d ∈ digits, isDigit d = true) → Lexeme .numeral (c :: digits)
  | decimal {c d : Char} {digits decimals : List Char} :
    isDigit c = true → (∀ d ∈ digits, isDigit d = true) →
    isDigit d = true → (∀ d ∈ decimals, isDigit d = true) →
    Lexeme .numeral (c :: (digits ++ '.' :: d :: decimals))
  | word {c : Char} {rest : List Char} :
    startsWord c = true → (∀ d ∈ rest, continuesWord d = true) → Lexeme .word (c :: rest)

/-- The longest lexeme that a text begins with, whatever their shapes. -/
structure Longest (shape : Shape) (own text : List Char) : Prop where
  lexeme : Lexeme shape own
  begins : own <+: text
  longest : ∀ shape' other, Lexeme shape' other → other <+: text → other.length ≤ own.length

/-- The first segment of a text. -/
inductive First : Segment → List Char → Prop where
  | lexeme {shape : Shape} {own text : List Char} :
    Longest shape own text → First ⟨shape, own⟩ text
  | blank {c : Char} {rest : List Char} : isBlank c = true → First ⟨.blank, [c]⟩ (c :: rest)
  | unexpected {c : Char} {rest : List Char} :
    (∀ shape own, Lexeme shape own → ¬own <+: c :: rest) → isBlank c = false → c ≠ '"' →
    First ⟨.unexpected c, [c]⟩ (c :: rest)
  | unterminated {rest : List Char} :
    (∀ shape own, Lexeme shape own → ¬own <+: '"' :: rest) →
    First ⟨.unterminated, '"' :: rest⟩ ('"' :: rest)

/-- A cut of a text into segments, from its beginning to its end. -/
inductive Cut : List Char → List Segment → Prop where
  | nil : Cut [] []
  | cons {s : Segment} {rest : List Char} {ss : List Segment} :
    s.text ≠ [] → First s (s.text ++ rest) → Cut rest ss → Cut (s.text ++ rest) (s :: ss)

section Characters

variable {c : Char}

theorem isDigit_iff : isDigit c = true ↔ 48 ≤ c.toNat ∧ c.toNat ≤ 57 := by
  simp only [isDigit, Bool.and_eq_true, decide_eq_true_eq, Char.le_def, UInt32.le_iff_toNat_le]
  exact Iff.rfl

theorem startsWord_iff : startsWord c = true ↔
    (97 ≤ c.toNat ∧ c.toNat ≤ 122) ∨ (65 ≤ c.toNat ∧ c.toNat ≤ 90) ∨ c = '_' := by
  simp only [startsWord, Bool.or_eq_true, Bool.and_eq_true, decide_eq_true_eq, beq_iff_eq,
    Char.le_def, UInt32.le_iff_toNat_le, or_assoc]
  exact Iff.rfl

theorem startsWord_of_isDigit (h : isDigit c = true) : startsWord c = false := by
  rw [Bool.eq_false_iff, Ne, startsWord_iff]
  have hdigit := isDigit_iff.mp h
  rintro (hlower | hupper | rfl)
  · omega
  · omega
  · exact absurd h (by decide)

/-- Marks are told from all else by their first character, but for the one that opens a comment. -/
theorem plain_of_markOf {kinds : TokenKind × Option TokenKind} (h : markOf c = some kinds) :
    isDigit c = false ∧ startsWord c = false ∧ isBlank c = false ∧ c ≠ '"' := by
  unfold markOf at h
  split at h <;> first | decide | cases h

theorem plain_of_isBlank (h : isBlank c = true) : markOf c = none ∧ isDigit c = false ∧
    startsWord c = false ∧ c ≠ '"' := by
  simp only [isBlank, Bool.or_eq_true, beq_iff_eq] at h
  rcases h with ((rfl | rfl) | rfl) | rfl <;> decide

theorem ne_quote_of_isDigit (h : isDigit c = true) : c ≠ '"' := by
  rintro rfl
  exact absurd h (by decide)

theorem ne_quote_of_startsWord (h : startsWord c = true) : c ≠ '"' := by
  rintro rfl
  exact absurd h (by decide)

theorem markOf_of_isDigit (h : isDigit c = true) : markOf c = none := by
  cases hm : markOf c with
  | none => rfl
  | some kinds => exact absurd (h.symm.trans (plain_of_markOf hm).1) (by decide)

theorem markOf_of_startsWord (h : startsWord c = true) : markOf c = none := by
  cases hm : markOf c with
  | none => rfl
  | some kinds => exact absurd (h.symm.trans (plain_of_markOf hm).2.1) (by decide)

end Characters

/-- What one character spells by itself, or with `=` behind it. -/
def spelledBy? : List Char → Option TokenKind
  | [c] => (markOf c).map (·.1)
  | [c, '='] => (markOf c).bind (·.2)
  | _ => none

theorem spelledBy?_of_mem : ∀ p ∈ operators, spelledBy? p.1 = some p.2 := by
  decide

theorem mem_operators_of_markOf {c : Char} {short : TokenKind} {long : Option TokenKind}
    (h : markOf c = some (short, long)) :
    ([c], short) ∈ operators ∧ ∀ kind ∈ long, ([c, '='], kind) ∈ operators := by
  unfold markOf at h
  split at h <;> cases h <;> decide

theorem of_mem_operators {own : List Char} {kind : TokenKind} (h : (own, kind) ∈ operators) :
    ∃ c short long, markOf c = some (short, long) ∧
      ((own = [c] ∧ kind = short) ∨ (own = [c, '='] ∧ long = some kind)) := by
  have hspelled := spelledBy?_of_mem _ h
  unfold spelledBy? at hspelled
  split at hspelled
  · rename_i c hown
    obtain ⟨⟨short, long⟩, hm, rfl⟩ := Option.map_eq_some_iff.mp hspelled
    exact ⟨c, short, long, hm, .inl ⟨hown, rfl⟩⟩
  · rename_i c hown
    obtain ⟨⟨short, long⟩, hm, hlong⟩ := Option.bind_eq_some_iff.mp hspelled
    exact ⟨c, short, long, hm, .inr ⟨hown, hlong⟩⟩
  · cases hspelled

/-- The shapes that a lexeme with the given first character can have. -/
def Shape.Opens : Shape → Char → Prop
  | .mark _, c => (markOf c).isSome = true
  | .comment, c => c = '/'
  | .string, c => c = '"'
  | .numeral, c => isDigit c = true
  | .word, c => startsWord c = true
  | _, _ => False

namespace Lexeme

variable {shape : Shape} {own rest : List Char} {c : Char}

theorem opens (h : Lexeme shape own) : ∃ c tail, own = c :: tail ∧ shape.Opens c := by
  cases h with
  | operator hmem =>
    obtain ⟨c, short, long, hm, ⟨rfl, -⟩ | ⟨rfl, -⟩⟩ := of_mem_operators hmem
    · exact ⟨c, _, rfl, by simp [Shape.Opens, hm]⟩
    · exact ⟨c, _, rfl, by simp [Shape.Opens, hm]⟩
  | comment => exact ⟨_, _, rfl, rfl⟩
  | string => exact ⟨_, _, rfl, rfl⟩
  | integer hc => exact ⟨_, _, rfl, hc⟩
  | decimal hc => exact ⟨_, _, rfl, hc⟩
  | word hc => exact ⟨_, _, rfl, hc⟩

theorem ne_nil (h : Lexeme shape own) : own ≠ [] := by
  obtain ⟨c, tail, rfl, -⟩ := h.opens
  exact List.cons_ne_nil _ _

theorem opens_of_isPrefix (h : Lexeme shape own) (hp : own <+: c :: rest) : shape.Opens c := by
  obtain ⟨d, tail, rfl, hd⟩ := h.opens
  obtain ⟨rfl, -⟩ := List.cons_prefix_cons.mp hp
  exact hd

end Lexeme

namespace Shape.Opens

variable {shape : Shape} {c : Char}

theorem of_isDigit (h : shape.Opens c) (hc : isDigit c = true) : shape = .numeral := by
  cases shape with
  | numeral => rfl
  | mark kind => simp [Opens, markOf_of_isDigit hc] at h
  | comment => exact absurd (h ▸ hc) (by decide)
  | string => exact absurd h (ne_quote_of_isDigit hc)
  | word => exact absurd (h.symm.trans (startsWord_of_isDigit hc)) (by decide)
  | _ => exact h.elim

theorem of_startsWord (h : shape.Opens c) (hc : startsWord c = true) : shape = .word := by
  cases shape with
  | word => rfl
  | mark kind => simp [Opens, markOf_of_startsWord hc] at h
  | comment => exact absurd (h ▸ hc) (by decide)
  | string => exact absurd h (ne_quote_of_startsWord hc)
  | numeral => exact absurd (hc.symm.trans (startsWord_of_isDigit h)) (by decide)
  | _ => exact h.elim

theorem of_quote (h : shape.Opens '"') : shape = .string := by
  cases shape with
  | string => rfl
  | mark kind => simp [Opens, markOf] at h
  | comment => exact absurd h (show '"' ≠ '/' by decide)
  | numeral => exact absurd h (show ¬isDigit '"' = true by decide)
  | word => exact absurd h (show ¬startsWord '"' = true by decide)
  | _ => exact h.elim

theorem of_markOf (h : shape.Opens c) {kinds : TokenKind × Option TokenKind}
    (hc : markOf c = some kinds) : (∃ kind, shape = .mark kind) ∨ (shape = .comment ∧ c = '/') := by
  obtain ⟨hdigit, hword, -, hquote⟩ := plain_of_markOf hc
  cases shape with
  | mark kind => exact .inl ⟨kind, rfl⟩
  | comment => exact .inr ⟨rfl, h⟩
  | string => exact absurd h hquote
  | numeral => exact absurd (h.symm.trans hdigit) (by decide)
  | word => exact absurd (h.symm.trans hword) (by decide)
  | _ => exact h.elim

/-- No lexeme begins with a blank, or with a character that nothing is spelled with. -/
theorem not_of_plain (hmark : markOf c = none) (hdigit : isDigit c = false)
    (hword : startsWord c = false) (hquote : c ≠ '"') : ¬shape.Opens c := by
  intro h
  cases shape with
  | mark kind => simp [Opens, hmark] at h
  | comment =>
    obtain rfl : c = '/' := h
    exact absurd hmark (by decide)
  | string => exact hquote h
  | numeral => exact absurd (h.symm.trans hdigit) (by decide)
  | word => exact absurd (h.symm.trans hword) (by decide)
  | _ => exact h.elim

end Shape.Opens

section Lengths

/-- A prefix of elements with a property is no longer than the longest such prefix. -/
theorem length_le_takeWhile {α : Type} {p : α → Bool} {own text : List α} (h : own <+: text)
    (hp : ∀ x ∈ own, p x = true) : own.length ≤ (text.takeWhile p).length := by
  obtain ⟨rest, rfl⟩ := h
  rw [List.takeWhile_append_of_pos hp]
  simp

theorem numeral_of_fraction {digits : List Char} {d : Char} (decimals more : List Char)
    (hdigits : ∀ x ∈ digits, isDigit x = true) (hd : isDigit d = true) :
    numeral (digits ++ '.' :: d :: (decimals ++ more)) =
      digits ++ '.' :: d :: (decimals ++ more).takeWhile isDigit := by
  have hstop := takeWhile_append_of_stop (x := '.') (show isDigit '.' = false by decide) digits
    (d :: (decimals ++ more))
  rw [numeral, hstop.1, hstop.2, List.takeWhile_eq_self_iff.mpr hdigits,
    List.dropWhile_eq_nil_iff.mpr hdigits]
  simp [fraction, hd]

theorem length_le_numeral {own text : List Char} (h : Lexeme .numeral own) (hp : own <+: text) :
    own.length ≤ (numeral text).length := by
  cases h with
  | @integer c digits hc hdigits =>
    have hall : ∀ x ∈ c :: digits, isDigit x = true := List.forall_mem_cons.mpr ⟨hc, hdigits⟩
    have hle := length_le_takeWhile hp hall
    rw [numeral, List.length_append]
    omega
  | @decimal c d digits decimals hc hdigits hd hdecimals =>
    obtain ⟨more, rfl⟩ := hp
    have hall : ∀ x ∈ c :: digits, isDigit x = true := List.forall_mem_cons.mpr ⟨hc, hdigits⟩
    have hnumeral := numeral_of_fraction decimals more hall hd
    have hle := length_le_takeWhile (List.prefix_append decimals more) hdecimals
    have htext : c :: (digits ++ '.' :: d :: decimals) ++ more =
        (c :: digits) ++ '.' :: d :: (decimals ++ more) := by simp
    rw [htext, hnumeral]
    simp only [List.length_cons, List.length_append]
    omega

theorem lexeme_numeral {c : Char} (hc : isDigit c = true) (rest : List Char) :
    Lexeme .numeral (numeral (c :: rest)) := by
  have hdigits : ∀ x ∈ rest.takeWhile isDigit, isDigit x = true := fun x hx => List.mem_takeWhile_imp hx
  have hnumeral : numeral (c :: rest) =
      c :: (rest.takeWhile isDigit ++ fraction (rest.dropWhile isDigit)) := by
    simp [numeral, hc]
  rw [hnumeral]
  unfold fraction
  split
  · rename_i d tail _
    split
    · rename_i hd
      exact .decimal hc hdigits hd fun x hx => List.mem_takeWhile_imp hx
    · simpa using .integer hc hdigits
  · simpa using .integer hc hdigits

/-- The first closing quote ends a string. -/
theorem closedString?_append_quote {inner : List Char} (h : '"' ∉ inner) (more : List Char) :
    closedString? (inner ++ '"' :: more) = some (inner ++ ['"']) := by
  induction inner with
  | nil => simp [closedString?]
  | cons c inner ih =>
    obtain ⟨hc, hinner⟩ := not_or.mp (mt List.mem_cons.mpr h)
    rw [List.cons_append, closedString?, if_neg (Ne.symm hc), ih hinner]
    rfl

theorem closedString?_eq_none {rest : List Char} (h : closedString? rest = none) :
    '"' ∉ rest := by
  intro hmem
  obtain ⟨inner, more, rfl, hinner⟩ := List.eq_append_cons_of_mem hmem
  rw [closedString?_append_quote hinner] at h
  cases h

theorem closedString?_eq_some {rest body : List Char} (h : closedString? rest = some body) :
    ∃ inner more, '"' ∉ inner ∧ body = inner ++ ['"'] ∧ rest = inner ++ '"' :: more := by
  have hmem : '"' ∈ rest := by
    by_contra hnone
    induction rest generalizing body with
    | nil => cases h
    | cons c rest ih =>
      obtain ⟨hc, hrest⟩ := not_or.mp (mt List.mem_cons.mpr hnone)
      rw [closedString?, if_neg (Ne.symm hc)] at h
      obtain ⟨inner, hinner, -⟩ := Option.map_eq_some_iff.mp h
      exact ih hinner hrest
  obtain ⟨inner, more, rfl, hinner⟩ := List.eq_append_cons_of_mem hmem
  rw [closedString?_append_quote hinner] at h
  exact ⟨inner, more, hinner, (Option.some.inj h).symm, rfl⟩

end Lengths

namespace Segment

variable {c : Char} {rest : List Char}

theorem first_comment : First ⟨.comment, '/' :: '/' :: rest.takeWhile (· != '\n')⟩
    ('/' :: '/' :: rest) := by
  refine .lexeme ⟨.comment fun h => ?_, ?_, ?_⟩
  · simpa using List.mem_takeWhile_imp h
  · simp [List.takeWhile_prefix]
  · intro shape own hown hp
    rcases (hown.opens_of_isPrefix hp).of_markOf (c := '/') rfl with ⟨kind, rfl⟩ | ⟨rfl, -⟩
    · cases hown with
      | operator hmem =>
        obtain ⟨c, short, long, -, ⟨rfl, -⟩ | ⟨rfl, -⟩⟩ := of_mem_operators hmem <;> simp
    · cases hown with
      | comment hbody =>
        simp only [List.cons_prefix_cons, true_and] at hp
        have hline : ∀ x ∈ _, (x != '\n') = true := fun x hx =>
          bne_iff_ne.mpr fun he => hbody (he ▸ hx)
        simpa using length_le_takeWhile hp hline

theorem first_string {inner more : List Char} (h : '"' ∉ inner) :
    First ⟨.string, '"' :: (inner ++ ['"'])⟩ ('"' :: (inner ++ '"' :: more)) := by
  refine .lexeme ⟨.string h, by simp, ?_⟩
  intro shape own hown hp
  obtain rfl := (hown.opens_of_isPrefix hp).of_quote
  cases hown with
  | @string body hbody =>
    obtain ⟨-, hp⟩ := List.cons_prefix_cons.mp hp
    obtain ⟨tail, htail⟩ := hp
    have hclosed := closedString?_append_quote hbody tail
    rw [← List.singleton_append, ← List.append_assoc, htail, closedString?_append_quote h] at hclosed
    simp [← Option.some.inj hclosed]

theorem first_unterminated (h : '"' ∉ rest) : First ⟨.unterminated, '"' :: rest⟩ ('"' :: rest) := by
  refine .unterminated fun shape own hown hp => ?_
  obtain rfl := (hown.opens_of_isPrefix hp).of_quote
  cases hown with
  | string =>
    obtain ⟨-, hp⟩ := List.cons_prefix_cons.mp hp
    exact h (hp.subset (by simp))

theorem first_numeral (hc : isDigit c = true) :
    First ⟨.numeral, numeral (c :: rest)⟩ (c :: rest) := by
  refine .lexeme ⟨lexeme_numeral hc rest, isPrefix_numeral _, ?_⟩
  intro shape own hown hp
  obtain rfl := (hown.opens_of_isPrefix hp).of_isDigit hc
  exact length_le_numeral hown hp

theorem first_word (hc : startsWord c = true) :
    First ⟨.word, c :: rest.takeWhile continuesWord⟩ (c :: rest) := by
  refine .lexeme ⟨.word hc fun d hd => List.mem_takeWhile_imp hd, ?_, ?_⟩
  · simp [List.takeWhile_prefix]
  · intro shape own hown hp
    obtain rfl := (hown.opens_of_isPrefix hp).of_startsWord hc
    cases hown with
    | word _ hrest =>
      obtain ⟨-, hp⟩ := List.cons_prefix_cons.mp hp
      simpa using length_le_takeWhile hp hrest

/-- What is spelled with a mark at the beginning of a text, other than a comment. -/
theorem mark_of_isPrefix {short : TokenKind} {long : Option TokenKind}
    (hm : markOf c = some (short, long)) (hcomment : ¬(c = '/' ∧ rest.head? = some '/'))
    {shape : Shape} {own : List Char} (h : Lexeme shape own) (hp : own <+: c :: rest) :
    own = [c] ∨ (own = [c, '='] ∧ long.isSome = true ∧ rest.head? = some '=') := by
  rcases (h.opens_of_isPrefix hp).of_markOf hm with ⟨kind, rfl⟩ | ⟨rfl, rfl⟩
  · cases h with
    | operator hmem =>
      obtain ⟨d, short', long', hm', ⟨rfl, -⟩ | ⟨rfl, hlong⟩⟩ := of_mem_operators hmem
      · obtain ⟨rfl, -⟩ := List.cons_prefix_cons.mp hp
        exact .inl rfl
      · obtain ⟨rfl, tail, rfl⟩ := List.cons_prefix_cons.mp hp
        obtain ⟨-, rfl⟩ := Prod.mk.inj (Option.some.inj (hm'.symm.trans hm))
        exact .inr ⟨rfl, by simp [hlong], rfl⟩
  · cases h with
    | comment =>
      obtain ⟨-, tail, rfl⟩ := List.cons_prefix_cons.mp hp
      exact absurd ⟨rfl, rfl⟩ hcomment

theorem first_mark {short : TokenKind} {long : Option TokenKind}
    (hm : markOf c = some (short, long)) (hcomment : ¬(c = '/' ∧ rest.head? = some '/'))
    (hshort : long = none ∨ rest.head? ≠ some '=') : First ⟨.mark short, [c]⟩ (c :: rest) := by
  refine .lexeme ⟨.operator (mem_operators_of_markOf hm).1, by simp, ?_⟩
  intro shape own hown hp
  rcases mark_of_isPrefix hm hcomment hown hp with rfl | ⟨rfl, hlong, hequal⟩
  · simp
  · rcases hshort with rfl | hne
    · cases hlong
    · exact absurd hequal hne

theorem first_longMark {short long : TokenKind} (hm : markOf c = some (short, some long)) :
    First ⟨.mark long, [c, '=']⟩ (c :: '=' :: rest) := by
  have hcomment : ¬(c = '/' ∧ ('=' :: rest).head? = some '/') := by simp
  refine .lexeme ⟨.operator ((mem_operators_of_markOf hm).2 long rfl), by simp, ?_⟩
  intro shape own hown hp
  rcases mark_of_isPrefix hm hcomment hown hp with rfl | ⟨rfl, -⟩ <;> simp

/-- The scanner cuts off the segment that the rule asks for. -/
theorem first_head (c : Char) (rest : List Char) : First (Segment.head c rest) (c :: rest) := by
  unfold Segment.head
  split
  · rename_i hc
    obtain ⟨rfl, hrest⟩ := hc
    obtain ⟨tail, rfl⟩ := List.head?_eq_some_iff.mp hrest
    exact first_comment
  rename_i hcomment
  split
  · rename_i hc
    obtain rfl := hc
    split
    · rename_i body hbody
      obtain ⟨inner, more, hinner, rfl, rfl⟩ := closedString?_eq_some hbody
      exact first_string hinner
    · rename_i hnone
      exact first_unterminated (closedString?_eq_none hnone)
  rename_i hquote
  split
  · rename_i hblank
    exact .blank hblank
  rename_i hblank
  split
  · rename_i hdigit
    exact first_numeral hdigit
  rename_i hdigit
  split
  · rename_i hword
    exact first_word hword
  rename_i hword
  split
  · rename_i hm
    exact first_longMark hm
  · rename_i short long hm hlong
    refine first_mark hm hcomment ?_
    by_contra hboth
    obtain ⟨hsome, hequal⟩ := not_or.mp hboth
    obtain ⟨kind, rfl⟩ := Option.ne_none_iff_exists'.mp hsome
    obtain ⟨tail, rfl⟩ := List.head?_eq_some_iff.mp (not_not.mp hequal)
    exact hlong kind tail rfl rfl
  · rename_i hm
    refine .unexpected (fun shape own hown hp => ?_) (Bool.eq_false_iff.mpr hblank) hquote
    exact Shape.Opens.not_of_plain hm (Bool.eq_false_iff.mpr hdigit) (Bool.eq_false_iff.mpr hword)
      hquote (hown.opens_of_isPrefix hp)

end Segment

namespace Lexeme

variable {shape shape' : Shape} {own : List Char}

theorem not_mark_of_comment {kind : TokenKind} {body : List Char} :
    ¬Lexeme (.mark kind) ('/' :: '/' :: body) := by
  intro h
  cases h with
  | operator hmem =>
    obtain ⟨c, short, long, -, ⟨hown, -⟩ | ⟨hown, -⟩⟩ := of_mem_operators hmem <;> simp at hown

/-- A lexeme has one shape. -/
theorem unique (h : Lexeme shape own) (h' : Lexeme shape' own) : shape' = shape := by
  obtain ⟨c, tail, rfl, hopens⟩ := h.opens
  have hopens' := h'.opens_of_isPrefix (List.prefix_refl _)
  cases h with
  | @operator _ kind hmem =>
    obtain ⟨kinds, hm⟩ := Option.isSome_iff_exists.mp hopens
    rcases hopens'.of_markOf hm with ⟨kind', rfl⟩ | ⟨rfl, rfl⟩
    · cases h' with
      | operator hmem' =>
        have hkind : spelledBy? (c :: tail) = some kind := spelledBy?_of_mem _ hmem
        have hkind' : spelledBy? (c :: tail) = some kind' := spelledBy?_of_mem _ hmem'
        rw [Option.some.inj (hkind'.symm.trans hkind)]
    · cases h' with
      | comment => exact absurd (.operator hmem) not_mark_of_comment
  | comment =>
    rcases hopens'.of_markOf (c := '/') rfl with ⟨kind', rfl⟩ | ⟨rfl, -⟩
    · exact absurd h' not_mark_of_comment
    · rfl
  | string => exact hopens'.of_quote
  | integer hc => exact hopens'.of_isDigit hc
  | decimal hc => exact hopens'.of_isDigit hc
  | word hc => exact hopens'.of_startsWord hc

theorem not_of_isBlank {c : Char} {rest : List Char} (h : Lexeme shape own)
    (hp : own <+: c :: rest) : isBlank c = false := by
  rw [Bool.eq_false_iff]
  intro hblank
  obtain ⟨hmark, hdigit, hword, hquote⟩ := plain_of_isBlank hblank
  exact Shape.Opens.not_of_plain hmark hdigit hword hquote (h.opens_of_isPrefix hp)

end Lexeme

theorem Longest.unique {shape shape' : Shape} {own own' text : List Char}
    (h : Longest shape own text) (h' : Longest shape' own' text) :
    (⟨shape', own'⟩ : Segment) = ⟨shape, own⟩ := by
  have hlength : own'.length = own.length :=
    Nat.le_antisymm (h.longest _ _ h'.lexeme h'.begins) (h'.longest _ _ h.lexeme h.begins)
  obtain rfl : own' = own :=
    List.IsPrefix.eq_of_length (List.prefix_of_prefix_length_le h'.begins h.begins hlength.le) hlength
  rw [h.lexeme.unique h'.lexeme]

/-- The rule leaves no choice. -/
theorem First.unique {s s' : Segment} {text : List Char} (h : First s text) (h' : First s' text) :
    s' = s := by
  cases h with
  | lexeme hlongest =>
    cases h' with
    | lexeme hlongest' => exact hlongest.unique hlongest'
    | blank hblank =>
      exact absurd (hlongest.lexeme.not_of_isBlank hlongest.begins) (by simp [hblank])
    | unexpected hnone => exact absurd hlongest.begins (hnone _ _ hlongest.lexeme)
    | unterminated hnone => exact absurd hlongest.begins (hnone _ _ hlongest.lexeme)
  | blank hblank =>
    cases h' with
    | lexeme hlongest' =>
      exact absurd (hlongest'.lexeme.not_of_isBlank hlongest'.begins) (by simp [hblank])
    | blank => rfl
    | unexpected _ hblank' => exact absurd (hblank.symm.trans hblank') (by decide)
    | unterminated => exact absurd hblank (by decide)
  | unexpected hnone hblank hquote =>
    cases h' with
    | lexeme hlongest' => exact absurd hlongest'.begins (hnone _ _ hlongest'.lexeme)
    | blank hblank' => exact absurd (hblank'.symm.trans hblank) (by decide)
    | unexpected => rfl
    | unterminated => exact absurd rfl hquote
  | unterminated hnone =>
    cases h' with
    | lexeme hlongest' => exact absurd hlongest'.begins (hnone _ _ hlongest'.lexeme)
    | blank hblank' => exact absurd hblank' (by decide)
    | unexpected _ _ hquote => exact absurd rfl hquote
    | unterminated => rfl

theorem cut_segments (text : List Char) : Cut text (segments text) := by
  induction text using segments_induction with
  | nil => exact .nil
  | cons c rest ih =>
    have htext := (afterHead_spec c rest).1
    have hfirst := Segment.first_head c rest
    have hne : (Segment.head c rest).text ≠ [] := by
      obtain ⟨tail, htail, -⟩ := Segment.head_text c rest
      simp [htail]
    rw [← htext] at hfirst
    have hcut := Cut.cons hne hfirst ih
    rwa [htext, ← segments_cons] at hcut

/-- The rule cuts a text in one way, the scanner's. -/
theorem cut_iff {text : List Char} {ss : List Segment} : Cut text ss ↔ ss = segments text := by
  constructor
  · intro h
    induction h with
    | nil => rfl
    | @cons s rest ss hne hfirst hcut ih =>
      obtain ⟨c, tail, hs⟩ := List.exists_cons_of_ne_nil hne
      have htext : s.text ++ rest = c :: (tail ++ rest) := by rw [hs, List.cons_append]
      rw [htext] at hfirst ⊢
      obtain rfl := (Segment.first_head c (tail ++ rest)).unique hfirst
      have hafter := (afterHead_spec c (tail ++ rest)).1
      rw [← htext] at hafter
      rw [segments_cons, ih, List.append_cancel_left hafter]
  · rintro rfl
    exact cut_segments text

end Lox
