import Lox.Proofs.Number.Numeral
import Lox.Proofs.Session.Stages

/-! Numbers that are displayed and read again.

What is displayed of a finite number, with a semicolon behind it, is a program of one statement. It
is read without a fault, its value is that number and no other, and to run it does nothing else. A
numeral that is listed as a token is listed with a text of its literal, and that is a numeral with
the same literal. -/

namespace Lox

section Scanning

variable {cs : List Char} {x : Number}

/-- A character that is a mark only by itself is cut off, unless it begins a comment. -/
theorem segments_mark {c : Char} {kind : TokenKind} {rest : List Char}
    (hm : markOf c = some (kind, none)) (hslash : c ≠ '/') :
    segments (c :: rest) = ⟨.mark kind, [c]⟩ :: segments rest := by
  have hcomment : ¬(c = '/' ∧ rest.head? = some '/') := fun h => hslash h.1
  have hcut : Cut ([c] ++ rest) (⟨.mark kind, [c]⟩ :: segments rest) :=
    .cons (List.cons_ne_nil _ _) (Segment.first_mark hm hcomment (.inl rfl)) (cut_segments rest)
  exact (cut_iff.mp hcut).symm

/-- The token that a numeral is on the first line of a text. -/
def numberToken (cs : List Char) (x : Number) : Token :=
  ⟨.number, String.ofList cs, some (.number x), 1⟩

def minusToken : Token := ⟨.minus, "-", none, 1⟩

def semicolonToken : Token := ⟨.semicolon, ";", none, 1⟩

theorem itemsFrom_numeral (h : Number.ReadAs cs x) (ss : List Segment) :
    itemsFrom 1 (⟨.numeral, cs⟩ :: ss) = .token (numberToken cs x) :: itemsFrom 1 ss := by
  have hends : Segment.lineEnds ⟨.numeral, cs⟩ = 0 := rfl
  simp only [itemsFrom, hends, Segment.item?, h.read, numberToken]

/-- A numeral by itself is one token. -/
theorem scan_numeral (h : Number.ReadAs cs x) : scan (String.ofList cs) =
    [.token (numberToken cs x), .token (Token.endOfInput 1)] := by
  have hsegments := h.lexeme.segments_append (by simp) separated_nil
  rw [List.append_nil] at hsegments
  rw [scan, String.toList_ofList, hsegments, itemsFrom_numeral h]
  rfl

theorem itemsFrom_numeral_semicolon (h : Number.ReadAs cs x) :
    itemsFrom 1 (segments (cs ++ [';'])) = [.token (numberToken cs x), .token semicolonToken,
      .token (Token.endOfInput 1)] := by
  have hseparated : Separated [';'] := separated_cons (by decide)
  rw [h.lexeme.segments_append (by simp) hseparated, itemsFrom_numeral h]
  rfl

theorem scan_statement (h : Number.ReadAs cs x) : scan (String.ofList cs ++ ";") =
    [.token (numberToken cs x), .token semicolonToken, .token (Token.endOfInput 1)] := by
  have htext : (String.ofList cs ++ ";").toList = cs ++ [';'] := by simp
  rw [scan, htext, itemsFrom_numeral_semicolon h]

theorem scan_negative_statement (h : Number.ReadAs cs x) :
    scan ("-" ++ String.ofList cs ++ ";") =
      [.token minusToken, .token (numberToken cs x), .token semicolonToken,
        .token (Token.endOfInput 1)] := by
  have htext : ("-" ++ String.ofList cs ++ ";").toList = '-' :: (cs ++ [';']) := by simp
  rw [scan, htext, segments_mark rfl (by decide), ← itemsFrom_numeral_semicolon h]
  rfl

end Scanning

/-- A text is one expression, without a fault, of which the value is always the same; nothing else
becomes of it in any session. -/
structure Yields (source : String) (value : Value) : Prop where
  scanned : lexicalErrors source = []
  read : ∃ e : Expr, (∀ next, parse (tokensOf source) next = ⟨[.expression e], [], next⟩) ∧
    analyse [.expression e] = [] ∧
    ∀ (m : Machine) (steps : ℕ), m.eval? (steps + 4) e = some (.value value, m)
  silent : ∀ (s : Session) (steps : ℕ), s.run? (steps + 6) source = some s

namespace Yields

variable {source : String} {value : Value}

/-- A statement that is an expression runs as long as the expression and one step before and
behind. -/
theorem of_expression {e : Expr} (hscan : lexicalErrors source = [])
    (hparse : ∀ next, parse (tokensOf source) next = ⟨[.expression e], [], next⟩)
    (hnotes : analyse [.expression e] = [])
    (heval : ∀ (m : Machine) (steps : ℕ), m.eval? (steps + 4) e = some (.value value, m))
    (hexec : ∀ (m : Machine) (steps : ℕ), m.exec? (steps + 6) (.expression e) = some (.normal, m)) :
    Yields source value := by
  refine ⟨hscan, ⟨e, hparse, hnotes, heval⟩, ?_⟩
  intro s steps
  have hread : s.read source = ([.expression e], s) := by
    rw [Session.read_eq, hscan, hparse]
    rfl
  have hresolve : s.resolve [.expression e] = s := by
    rw [Session.resolve_eq, hnotes]
    rfl
  have hexecute : s.execute? (steps + 6) [.expression e] = some s := by
    simp only [Session.execute?, hexec]
  rw [Session.run?_eq, hread, hresolve, hexecute]
  simp

end Yields

section Displaying

variable {x : Number}

/-- What is displayed of a finite number has that number for its value. -/
theorem yields_text (hfinite : x.isFinite = true) : Yields (x.text ++ ";") (.number x) := by
  obtain ⟨cs, htext, hcs⟩ := Number.text_reads hfinite
  cases hsign : x.negative with
  | false =>
    rw [Number.unsigned_of_positive hsign] at hcs
    have hscan : scan (x.text ++ ";") = [.token (numberToken cs x), .token semicolonToken,
        .token (Token.endOfInput 1)] := by
      rw [htext, Number.signText, hsign]
      exact scan_statement hcs
    refine .of_expression (e := .constant (.number x)) ?_ ?_ rfl ?_ ?_
    · rw [lexicalErrors, hscan]
      rfl
    · intro next
      rw [tokensOf, hscan]
      rfl
    · intro m steps
      rfl
    · intro m steps
      rfl
  | true =>
    have hscan : scan (x.text ++ ";") = [.token minusToken, .token (numberToken cs x.unsigned),
        .token semicolonToken, .token (Token.endOfInput 1)] := by
      rw [htext, Number.signText, hsign]
      exact scan_negative_statement hcs
    refine .of_expression (e := .unary minusToken (.constant (.number x.unsigned))) ?_ ?_ rfl ?_ ?_
    · rw [lexicalErrors, hscan]
      rfl
    · intro next
      rw [tokensOf, hscan]
      rfl
    · intro m steps
      have hvalue : m.eval? (steps + 4) (.unary minusToken (.constant (.number x.unsigned))) =
        some (.value (.number x.unsigned.negate), m) := rfl
      rw [hvalue, Number.negate_unsigned hsign]
    · intro m steps
      rfl

end Displaying

section Listing

theorem kind_of_operators : ∀ p ∈ operators, p.2 ≠ .number := by
  decide

theorem kind_of_reserved : ∀ p ∈ reserved, p.2 ≠ .number := by
  decide

/-- Only a numeral is scanned as a number. -/
theorem First.numeral_of_number {s : Segment} {text : List Char} (h : First s text) {line : ℕ}
    {t : Token} (hitem : s.item? line = some (.token t)) (hkind : t.kind = .number) :
    Lexeme .numeral s.text ∧ t.lexeme = String.ofList s.text ∧
      t.literal = some (.number (Number.ofNumeral s.text)) := by
  obtain ⟨shape, own⟩ := s
  cases shape with
  | mark kind =>
    cases hitem
    cases h with
    | lexeme hlongest =>
      cases hlongest.lexeme with
      | operator hop => exact absurd hkind (kind_of_operators _ hop)
  | word =>
    cases hitem
    have hreserved := reserved_of_wordKind hkind (by decide)
    exact absurd rfl (kind_of_reserved _ hreserved)
  | numeral =>
    cases hitem
    cases h with
    | lexeme hlongest => exact ⟨hlongest.lexeme, rfl, rfl⟩
  | _ => cases hitem <;> cases hkind

/-- A number in a text is spelled by a numeral, and its literal is that of the numeral. -/
theorem numeral_of_number {source : String} {t : Token} (ht : t ∈ tokensOf source)
    (hkind : t.kind = .number) : ∃ cs, Lexeme .numeral cs ∧ t.lexeme = String.ofList cs ∧
      t.literal = some (.number (Number.ofNumeral cs)) := by
  rw [tokensOf_eq, List.mem_append, List.mem_singleton] at ht
  rcases ht with hmem | rfl
  · obtain ⟨item, hitem, htoken⟩ := List.mem_filterMap.mp hmem
    cases item with
    | token u =>
      obtain rfl := Option.some.inj htoken
      obtain ⟨before, s, after, hss, hs⟩ := (mem_itemsOf_iff _ 1).mp hitem
      have hmem : s ∈ segments source.toList := by rw [hss]; simp
      obtain ⟨rest, hfirst⟩ := (cut_segments source.toList).first s hmem
      exact ⟨s.text, hfirst.numeral_of_number hs hkind⟩
    | error e => cases htoken
  · cases hkind

theorem literal_of_number {source : String} {t : Token} (ht : t ∈ tokensOf source)
    (hkind : t.kind = .number) : ∃ cs, t.literal = some (.number (Number.ofNumeral cs)) := by
  obtain ⟨cs, -, -, hliteral⟩ := numeral_of_number ht hkind
  exact ⟨cs, hliteral⟩

/-- What a listing shows of a literal is a numeral with that literal. -/
theorem scan_literalText {n : Number} (hfinite : n.isFinite = true) (hsign : n.negative = false) :
    scan n.literalText =
      [.token ⟨.number, n.literalText, some (.number n), 1⟩, .token (Token.endOfInput 1)] := by
  obtain ⟨cs, htext, hcs⟩ := Number.literalText_reads hfinite hsign
  rw [Number.unsigned_of_positive hsign] at hcs
  rw [htext]
  exact scan_numeral hcs

end Listing

/-- Every finite number is the value of what is displayed of it, bit for bit and without a
diagnostic. Every token of a number is listed with its literal last, and where that is finite, the
text of it is scanned as one number, with the same literal. -/
theorem displayed_numbers_read_back :
    (∀ (h : Heap) (x : Number), x.isFinite = true →
      Yields (h.textOf (.number x) ++ ";") (.number x)) ∧
    ∀ (source : String), ∀ t ∈ tokensOf source, t.kind = .number →
      ∃ n part, t.literal = some (.number n) ∧
        t.listing = t.kind.name ++ " " ++ t.lexeme ++ " " ++ part ∧
        (n.isFinite = true → scan part =
          [.token ⟨.number, part, some (.number n), 1⟩, .token (Token.endOfInput 1)]) := by
  constructor
  · intro h x hfinite
    exact yields_text hfinite
  · intro source t ht hkind
    obtain ⟨cs, hliteral⟩ := literal_of_number ht hkind
    have hsign := Number.negative_ofNumeral cs
    refine ⟨_, (Number.ofNumeral cs).literalText, hliteral, ?_, ?_⟩
    · rw [Token.listing, hliteral]
    · intro hfinite
      exact scan_literalText hfinite hsign

/-- Negative zero keeps its sign, and what is listed of a numeral need not be spelled like it. -/
theorem negative_zero_and_two_read_back :
    Yields "-0;" (.number ⟨0x8000000000000000⟩) ∧
    ∃ t ∈ tokensOf "2", ∃ part, t.listing = "NUMBER 2 " ++ part ∧ part = "2.0" ∧
      scan part = [.token ⟨.number, part, some (.number ⟨0x4000000000000000⟩), 1⟩,
        .token (Token.endOfInput 1)] := by
  obtain ⟨hdisplayed, hlisted⟩ := displayed_numbers_read_back
  constructor
  · have htext : (Machine.initial (⟨0⟩ : Number)).heap.textOf (.number ⟨0x8000000000000000⟩) = "-0" := by
      decide +kernel
    have h := hdisplayed (Machine.initial (⟨0⟩ : Number)).heap ⟨0x8000000000000000⟩ (by decide)
    rwa [htext] at h
  · have ht : ⟨.number, "2", some (.number ⟨0x4000000000000000⟩), 1⟩ ∈ tokensOf "2" := by
      decide +kernel
    obtain ⟨n, part, hliteral, hlisting, hscan⟩ := hlisted "2" _ ht rfl
    cases hliteral
    have hpart : part = "2.0" := by
      have hlisted : Token.listing ⟨.number, "2", some (.number ⟨0x4000000000000000⟩), 1⟩ =
          "NUMBER 2 " ++ "2.0" := by
        decide +kernel
      exact String.append_right_inj _ |>.mp (hlisting.symm.trans hlisted)
    exact ⟨_, ht, part, hlisting, hpart, hscan (by decide)⟩

end Lox
