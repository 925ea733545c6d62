import Lox.Proofs.Grammar.Budget

/-! Parsing ends, stays in range and bounds its errors.

The cursor of a parse stands at an index of the list of tokens, at most that of the first end of
input, and moves on by one index at a time. All rules are put together from the guards, which look
up tokens at the index and never out of range. Every turn of a loop and every declaration moves it
on, so that neither the turns nor the levels that the parser allows itself are ever used up. The
errors are at most as many as the tokens, since every one of them is paid by a token that is
read. -/

namespace Lox

namespace Parser

variable {α : Type}

/-- A loop that reads a token in every turn that goes on, and goes on before the end only. -/
structure Exhausts (next : α → Parser (Option α)) : Prop where
  shorter : ∀ (a : α) (c d : Cursor) (b : α), c.finish.kind = .eof →
    next a c = (some (some b), d) → d.finish.kind = .eof ∧ d.pending.length < c.pending.length
  stops : ∀ (a : α) (c : Cursor), c.pending = [] → next a c = (some none, c)

/-- Turns beyond the number of tokens are not taken. -/
theorem Exhausts.iterateUpTo_eq {next : α → Parser (Option α)} (h : Exhausts next) (m : Nat) :
    ∀ (k : Nat) (a : α) (c : Cursor), c.finish.kind = .eof → c.pending.length ≤ m →
    c.pending.length ≤ k → iterateUpTo m next a c = iterateUpTo k next a c := by
  induction m with
  | zero =>
    intro k a c _ hm _
    have hc : c.pending = [] := List.eq_nil_of_length_eq_zero (Nat.le_zero.mp hm)
    cases k with
    | zero => rfl
    | succ k =>
      rw [iterateUpTo, iterateUpTo, bind_apply, h.stops a c hc]
  | succ m ih =>
    intro k a c hf hm hk
    cases k with
    | zero =>
      have hc : c.pending = [] := List.eq_nil_of_length_eq_zero (Nat.le_zero.mp hk)
      rw [iterateUpTo, iterateUpTo, bind_apply, h.stops a c hc]
    | succ k =>
      rw [iterateUpTo, iterateUpTo, bind_apply, bind_apply]
      rcases hd : next a c with ⟨_ | _ | b, d⟩
      · rfl
      · rfl
      · obtain ⟨hf', hlt⟩ := h.shorter a c d b hf hd
        exact ih k b d hf' (by omega) (by omega)

theorem Exhausts.iterate_eq {next : α → Parser (Option α)} (h : Exhausts next) {a : α} {c : Cursor}
    (hf : c.finish.kind = .eof) {m : Nat} (hm : c.pending.length ≤ m) :
    iterate next a c = iterateUpTo m next a c := by
  rw [h.iterateUpTo_eq m (c.pending.length + 1) a c hf hm (Nat.le_succ _), iterate, iterateUpTo,
    bind_apply, bind_apply]
  rcases hd : next a c with ⟨_ | _ | b, d⟩
  · rfl
  · rfl
  · obtain ⟨hf', hlt⟩ := h.shorter a c d b hf hd
    exact h.iterateUpTo_eq d.pending.length c.pending.length b d hf' (Nat.le_refl _)
      (Nat.le_of_lt hlt)

/-- A loop that goes on only after it has read a wanted token. -/
theorem Exhausts.of_acceptIf? {wanted : α → TokenKind → Bool}
    {g : α → Option Token → Parser (Option α)} {n : Nat}
    (hg : ∀ a t, Keeps n (g a (some t)) (g a (some t))) (hn : ∀ a, g a none = pure none) :
    Exhausts fun a => acceptIf? (wanted a) >>= g a where
  shorter a c d b hf hd := by
    obtain ⟨t, e, he, hb⟩ := bind_eq_some.mp hd
    cases t with
    | none =>
      rw [hn] at hb
      cases hb
    | some t =>
      obtain ⟨-, hc, hsame⟩ := acceptIf?_eq_some he
      have hf' : e.finish.kind = .eof := by
        rw [hsame]
        exact hf
      have := (hg a t).length_le hb
      refine ⟨(hg a t).finish hf' hb, ?_⟩
      rw [hc, List.length_cons]
      omega
  stops a c hc := by
    simp [bind_apply, acceptIf?, hc, hn]

theorem Exhausts.stop : Exhausts fun _ : α => (pure none : Parser (Option α)) where
  shorter a c d b _ hd := by cases hd
  stops a c _ := rfl

/-- A loop that goes on after a token of one kind, or goes on as another does. -/
theorem Exhausts.accept {kind : TokenKind} {p q : α → Parser (Option α)} {n : Nat}
    (hp : ∀ a, Keeps n (p a) (p a)) (hq : Exhausts q) :
    Exhausts fun a => do if ← Parser.accept kind then p a else q a where
  shorter a c d b hf hd := by
    obtain ⟨accepted, e, he, hb⟩ := bind_eq_some.mp hd
    rcases accept_cases kind c with ⟨t, rest, hc, he'⟩ | he' <;> cases he'.symm.trans he
    · rw [if_pos rfl] at hb
      have := (hp a).length_le hb
      refine ⟨(hp a).finish (c := { c with pending := rest }) hf hb, ?_⟩
      rw [hc, List.length_cons]
      exact Nat.lt_succ_of_le this
    · exact hq.shorter a c d b hf hb
  stops a c hc := by
    rcases accept_cases kind c with ⟨t, rest, hc', -⟩ | he
    · rw [hc] at hc'
      cases hc'
    · rw [bind_apply, he]
      exact hq.stops a c hc

end Parser

namespace Grammar

open Lox.Parser

section Loops

theorem exhausts_unaryNext : Exhausts unaryNext :=
  .of_acceptIf? (n := 0) (fun _ _ => (Harmless.pure _).keeps) fun _ => rfl

theorem exhausts_listNext {α : Type} {item : Parser α} {n : Nat} (h : Frugal n item item)
    (tooMany : ParseFault) : Exhausts (listNext item tooMany) := by
  refine .accept (n := n) (fun items => (Steady.ite (k := 1) _ ?_ ?_).toKeeps) .stop
  · exact Harmless.peek.steady fun t => (Steady.record t tooMany).bind fun _ =>
      h.steady.bind fun _ => .pure _
  · exact (h.steady.bind fun _ => .pure _).weaken (Nat.zero_le 1)

theorem exhausts_levelNext {nested : Parser Expr} {n : Nat} (h : Frugal n nested nested)
    (k : Nat) : Exhausts (levelNext nested k) := by
  by_cases hk : k = 8
  · subst hk
    refine .accept (n := n) (fun object => ?_) (.accept (n := n) (fun object => ?_) .stop)
    · exact ((steady_arguments h).bind fun _ => (Frugal.expect _).steady.bind fun _ =>
        .pure _).toKeeps
    · exact ((Frugal.expect _).steady.bind fun _ => .pure _).toKeeps
  · have hnext : levelNext nested k = fun left => acceptIf? (joinsAt k) >>= _ :=
      funext fun _ => if_neg hk
    rw [hnext]
    exact .of_acceptIf? (fun _ _ => (frugal_atLevel h (k + 1) (by omega)).toKeeps.bind
      fun _ => (Harmless.pure _).keeps) fun _ => rfl

variable {n : Nat} {declared : Parser (Option Stmt)} {stops : Cursor → Bool}
  {next : Array Stmt → Parser (Option (Array Stmt))}

theorem Forward.exhausts (h : Forward n declared declared) (hg : Gathers stops declared next)
    (hend : ∀ c : Cursor, c.pending = [] → stops c = true) : Exhausts next where
  shorter a c d b hf hd := by
    rw [hg.turn] at hd
    split at hd
    · cases hd
    · rename_i hs
      obtain ⟨-, rfl⟩ := Prod.mk.inj hd
      exact ⟨h.finish hf rfl, h.shorter c hf (hg.before_end c (by simpa using hs))⟩
  stops a c hc := by rw [hg.turn, if_pos (hend c hc)]

/-- The loop over declarations comes to where it is to stop. -/
theorem Forward.comes_to_stop (h : Forward n declared declared) (hg : Gathers stops declared next)
    (hend : ∀ c : Cursor, c.pending = [] → stops c = true) (m : Nat) :
    ∀ (body : Array Stmt) (c : Cursor), c.finish.kind = .eof → c.pending.length ≤ m →
    ∃ body' d, iterateUpTo m next body c = (some body', d) ∧ stops d = true := by
  induction m with
  | zero =>
    intro body c _ hm
    exact ⟨body, c, rfl, hend c (List.eq_nil_of_length_eq_zero (Nat.le_zero.mp hm))⟩
  | succ m ih =>
    intro body c hf hm
    rw [iterateUpTo, bind_apply, hg.turn]
    by_cases hs : stops c = true
    · rw [if_pos hs]
      exact ⟨body, c, rfl, hs⟩
    · rw [if_neg hs]
      obtain ⟨s?, hs?⟩ := Option.isSome_iff_exists.mp (h.yields c)
      have hshort := h.shorter c hf (hg.before_end c (by simpa using hs))
      rw [hs?]
      exact ih _ _ (h.finish hf rfl) (by omega)

theorem exhausts_methodNext {block : Parser (List Stmt)} (h : Steady 0 n block block) :
    Exhausts (methodNext block) where
  shorter methods c d b hf hd := by
    obtain ⟨goesOn, e, he, hb⟩ := bind_eq_some.mp hd
    obtain ⟨-, rfl⟩ := Prod.mk.inj ((bodyGoesOn_eq c).symm.trans he)
    cases goesOn with
    | false => cases hb
    | true =>
      obtain ⟨f, e, hfun, hb⟩ := bind_eq_some.mp hb
      obtain ⟨-, rfl⟩ := Prod.mk.inj hb
      have hmethod := frugal_function .method h
      exact ⟨hmethod.finish hf hfun, hmethod.shorter hf hfun⟩
  stops methods c hc := by
    simp [methodNext, bodyGoesOn, bind_apply, Parser.check, Cursor.check, atEnd, Cursor.atEnd,
      hc]

/-- Every loop of the parser at some number of levels: over the operators, calls and properties of
an expression, over arguments and parameters, methods and declarations. -/
structure LoopsEnd (depth : Nat) : Prop where
  level : ∀ k, Exhausts (levelNext (expressionUpTo depth) k)
  unary : Exhausts unaryNext
  arguments : Exhausts (listNext (expressionUpTo depth) .tooManyArguments)
  parameters : Exhausts (listNext (expect .parameterName) .tooManyParameters)
  methods : Exhausts (methodNext (block (declarationUpTo depth)))
  block : Exhausts (blockNext (declarationUpTo depth))
  program : Exhausts (declareNext depth)

theorem loopsEnd (depth : Nat) : LoopsEnd depth := by
  have hexpression := frugal_expressionUpTo depth depth 0 (Nat.zero_le _) (Nat.zero_le _)
  have hdeclaration := forward_declarationUpTo depth
  constructor
  · exact exhausts_levelNext hexpression
  · exact exhausts_unaryNext
  · exact exhausts_listNext hexpression _
  · exact exhausts_listNext (.expect (n := 0) _) _
  · exact exhausts_methodNext hdeclaration.steady_block
  · exact hdeclaration.exhausts (gathers_blockNext _) fun c hc => by
      simp [Cursor.closes, Cursor.atEnd, hc]
  · exact hdeclaration.exhausts (gathers_declareNext depth) fun c hc => by
      simp [Cursor.atEnd, hc]

/-- A program is read to the end of input. -/
theorem program_ends (depth : Nat) {c : Cursor} (hf : c.finish.kind = .eof) :
    ∃ body d, program depth c = (some body, d) ∧ d.pending = [] := by
  obtain ⟨body, d, hd, hstop⟩ := (forward_declarationUpTo depth).comes_to_stop
    (gathers_declareNext depth) (fun c hc => by simp [Cursor.atEnd, hc]) c.pending.length #[] c hf
    (Nat.le_refl _)
  refine ⟨body.toList, d, ?_, by simpa [Cursor.atEnd] using hstop⟩
  rw [program_eq, bind_apply, (loopsEnd depth).program.iterate_eq hf (Nat.le_refl _), hd]
  rfl

end Loops

end Grammar

section Lists

theorem ofTokens_append {before rest : List Token} {t : Token} (next : Nat)
    (hown : ∀ t ∈ before, t.kind ≠ .eof) (ht : t.kind = .eof) :
    Cursor.ofTokens (before ++ t :: rest) next = ⟨before, t, next, #[]⟩ := by
  have hpending : (before ++ t :: rest).takeWhile (·.kind != .eof) = before := by
    rw [List.takeWhile_append_of_pos (by simpa using hown),
      List.takeWhile_cons_of_neg (by simp [ht]), List.append_nil]
  have hfinish : (before ++ t :: rest).find? (·.kind == .eof) = some t := by
    have hnone : before.find? (·.kind == .eof) = none := by simpa using hown
    simp [List.find?_append, hnone, ht]
  rw [Cursor.ofTokens, hpending, hfinish, Option.getD_some]

theorem ofTokens_of_no_end {tokens : List Token} (next : Nat)
    (hown : ∀ t ∈ tokens, t.kind ≠ .eof) : Cursor.ofTokens tokens next =
      ⟨tokens, Token.endOfInput ((tokens.getLast?.map (·.line)).getD 1), next, #[]⟩ := by
  have hpending : tokens.takeWhile (·.kind != .eof) = tokens := by
    simpa using hown
  have hfinish : tokens.find? (·.kind == .eof) = none := by simpa using hown
  rw [Cursor.ofTokens, hpending, hfinish, Option.getD_none]

theorem split_at_end (tokens : List Token) :
    (∃ before t rest, tokens = before ++ t :: rest ∧ (∀ u ∈ before, u.kind ≠ .eof) ∧
      t.kind = .eof) ∨ ∀ t ∈ tokens, t.kind ≠ .eof := by
  cases hf : tokens.find? (·.kind == .eof) with
  | none => exact .inr (by simpa using hf)
  | some t =>
    obtain ⟨hk, before, rest, hts, hown⟩ := List.find?_eq_some_iff_append.mp hf
    exact .inl ⟨before, t, rest, hts, by simpa using hown, by simpa using hk⟩

theorem ofTokens_at (tokens : List Token) (next : Nat) :
    (Cursor.ofTokens tokens next).At (closed tokens) 0 := by
  rcases split_at_end tokens with ⟨before, t, rest, rfl, hown, ht⟩ | hown
  · rw [ofTokens_append next hown ht, closed]
    split
    · exact ⟨[], rest, rfl, rfl, hown, ht⟩
    · exact ⟨[], _, List.append_assoc .., rfl, hown, ht⟩
  · rw [ofTokens_of_no_end next hown, closed, if_neg]
    · exact ⟨[], [], rfl, rfl, hown, rfl⟩
    · cases hl : tokens.getLast? with
      | none => simp
      | some t => simpa using hown t (List.mem_of_getLast? hl)

/-- Tokens behind the first end of input are not looked at. -/
theorem ofTokens_closed (tokens : List Token) (next : Nat) :
    Cursor.ofTokens (closed tokens) next = Cursor.ofTokens tokens next := by
  obtain ⟨before, rest, hts, hnil, hown, hend⟩ := ofTokens_at tokens next
  obtain rfl := List.eq_nil_of_length_eq_zero hnil
  rw [hts, List.nil_append, ofTokens_append next (by simpa using hown) hend]
  rfl

theorem closed_eof (tokens : List Token) : ∃ t ∈ closed tokens, t.kind = .eof := by
  unfold closed
  split
  · rename_i hlast
    obtain ⟨t, ht, hk⟩ := (Option.any_eq_true _ _).mp hlast
    exact ⟨t, List.mem_of_getLast? ht, LawfulBEq.eq_of_beq hk⟩
  · exact ⟨_, List.mem_append_right _ (List.mem_singleton_self _), rfl⟩

theorem parse_closed (tokens : List Token) (next : Nat) :
    parse (closed tokens) next = parse tokens next := by
  unfold parse
  rw [ofTokens_closed]

theorem beforeEnd_closed (tokens : List Token) : beforeEnd (closed tokens) = beforeEnd tokens :=
  congrArg Cursor.pending (ofTokens_closed tokens 0)

/-- What stands behind an end of input has no part in the parse. -/
theorem parse_beyond_end (before rest rest' : List Token) {t : Token} (next : Nat)
    (ht : t.kind = .eof) :
    parse (before ++ t :: rest') next = parse (before ++ t :: rest) next := by
  have hsame : Cursor.ofTokens (before ++ t :: rest') next =
      Cursor.ofTokens (before ++ t :: rest) next := by
    rcases split_at_end before with ⟨first, u, more, rfl, hown, hu⟩ | hown
    · rw [List.append_assoc, List.append_assoc, List.cons_append, List.cons_append,
        ofTokens_append next hown hu, ofTokens_append next hown hu]
    · rw [ofTokens_append next hown ht, ofTokens_append next hown ht]
  unfold parse
  rw [hsame]

end Lists

theorem parse_of_program {tokens : List Token} {next : Nat} {body : List Stmt} {d : Cursor}
    (hd : Grammar.program (2 * (Cursor.ofTokens tokens next).pending.length + 2)
      (Cursor.ofTokens tokens next) = (some body, d)) :
    parse tokens next = ⟨body, d.errors.toList, d.nextNode⟩ := by
  unfold parse
  simp only [hd, Option.getD_some]

/-- A parse that stays in range, ends and bounds its errors. -/
structure Orderly (tokens : List Token) (next : Nat) : Prop where
  /-- Reading starts at the first token. -/
  starts : (Cursor.ofTokens tokens next).At (closed tokens) 0
  /-- Wherever the cursor stands there is a token, up to the first end of input and no further. -/
  in_range : ∀ (c : Cursor) (i : Nat), c.At (closed tokens) i →
    (closed tokens)[i]? = some c.peek ∧ i ≤ (beforeEnd tokens).length
  /-- The index of the guards starts where the cursor does. -/
  index_starts : (Reader.start tokens next).Stands (Cursor.ofTokens tokens next)
  /-- What is put together from the guards looks up no token out of range: from the same place it
  comes to what the parser comes to, and its index goes on to the first end of input at most. -/
  guards_in_range : ∀ {α : Type} (p' : IndexParser α) (p : Parser α) (r : Reader) (c : Cursor),
    Guards p' p → r.tokens = closed tokens → r.Stands c →
    ∃ r', p' r = some ((p c).1, r') ∧ r.Comes r' (p c).2 ∧ r'.current ≤ (beforeEnd tokens).length
  /-- All rules are put together from the guards, at any number of levels. -/
  by_guards : ∀ depth : Nat, Guarded (Grammar.expressionUpTo depth) ∧
    Guarded (Grammar.statementUpTo depth) ∧ Guarded (Grammar.declarationUpTo depth) ∧
    Guarded (Grammar.program depth)
  /-- A move leaves the cursor in its place or takes it to the next index. -/
  moves_on : ∀ (c d : Cursor) (i : Nat), c.At (closed tokens) i → c.Move d →
    d.At (closed tokens) i ∨ d.At (closed tokens) (i + 1)
  /-- All rules read by moves, from any cursor and at any number of levels. -/
  by_moves : ∀ (depth : Nat) (c : Cursor), c.Moves (Grammar.expressionUpTo depth c).2 ∧
    c.Moves (Grammar.statementUpTo depth c).2 ∧ c.Moves (Grammar.declarationUpTo depth c).2 ∧
    c.Moves (Grammar.program depth c).2
  /-- A declaration that begins before the end moves the cursor on, read or given up. -/
  progresses : ∀ (depth : Nat) (c : Cursor) (i : Nat), c.At (closed tokens) i →
    i < (beforeEnd tokens).length → ∃ j, i < j ∧
      (Grammar.declarationUpTo depth c).2.At (closed tokens) j
  /-- Every turn of a loop reads a token. -/
  loops_end : ∀ depth : Nat, Grammar.LoopsEnd depth
  /-- Levels beyond one for a token of an expression, or two for one of a declaration, are not come
  to. -/
  levels_end : ∀ (depth depth' : Nat) (c : Cursor), c.finish.kind = .eof →
    (c.pending.length < depth → Grammar.expressionUpTo depth c = Grammar.expression c) ∧
    (2 * c.pending.length + 2 ≤ depth → 2 * c.pending.length + 2 ≤ depth' →
      Grammar.declarationUpTo depth c = Grammar.declarationUpTo depth' c ∧
        Grammar.program depth c = Grammar.program depth' c)
  /-- The parse ends at the first end of input. -/
  ends : ∃ d : Cursor, (Cursor.ofTokens tokens next).Moves d ∧
    d.At (closed tokens) (beforeEnd tokens).length ∧
    Grammar.program (2 * (beforeEnd tokens).length + 2) (Cursor.ofTokens tokens next) =
      (some (parse tokens next).statements, d) ∧ d.errors.toList = (parse tokens next).errors
  /-- The parse over the index ends there as well, with the same result. -/
  index_ends : ∀ p' : IndexParser (List Stmt),
    Guards p' (Grammar.program (2 * (beforeEnd tokens).length + 2)) → ∃ r,
    p' (Reader.start tokens next) = some (some (parse tokens next).statements, r) ∧
    r.current = (beforeEnd tokens).length ∧ r.nextNode = (parse tokens next).nextNode ∧
    r.errors.toList = (parse tokens next).errors
  /-- What stands behind the first end of input has no part in the parse. -/
  unseen : ∀ (before rest rest' : List Token) (t : Token), tokens = before ++ t :: rest →
    t.kind = .eof → parse (before ++ t :: rest') next = parse tokens next
  /-- A missing end of input is made up for. -/
  tolerant : parse (closed tokens) next = parse tokens next
  /-- Every error is paid by a token. -/
  bounded : (parse tokens next).errors.length ≤ (beforeEnd tokens).length

/-- The program is read to the first end of input. -/
theorem parse_ends (tokens : List Token) (next : Nat) : ∃ d : Cursor,
    (Cursor.ofTokens tokens next).Moves d ∧ d.At (closed tokens) (beforeEnd tokens).length ∧
    Grammar.program (2 * (beforeEnd tokens).length + 2) (Cursor.ofTokens tokens next) =
      (some (parse tokens next).statements, d) ∧
    (parse tokens next).errors = d.errors.toList ∧ (parse tokens next).nextNode = d.nextNode := by
  have hstart := ofTokens_at tokens next
  obtain ⟨body, d, hd, hp⟩ := Grammar.program_ends (2 * (beforeEnd tokens).length + 2) hstart.finish
  have hparse := parse_of_program hd
  have hmoves := (Grammar.steady_program_self (2 * (beforeEnd tokens).length + 2)).moves
    (Cursor.ofTokens tokens next)
  rw [hd] at hmoves
  obtain ⟨j, -, hj⟩ := hstart.moves hmoves
  obtain rfl : j = (beforeEnd tokens).length := by
    have := hj.add_length
    rw [beforeEnd_closed, hp] at this
    exact this
  rw [hparse]
  exact ⟨d, hmoves, hj, hd, rfl, rfl⟩

theorem parse_orderly (tokens : List Token) (next : Nat) : Orderly tokens next := by
  have hstart := ofTokens_at tokens next
  have hindex : (Reader.start tokens next).Stands (Cursor.ofTokens tokens next) :=
    ⟨hstart, rfl, rfl⟩
  have hlength {c : Cursor} {i : Nat} (h : c.At (closed tokens) i) :
      i + c.pending.length = (beforeEnd tokens).length := beforeEnd_closed tokens ▸ h.add_length
  have hguarded (depth : Nat) : Guarded (Grammar.expressionUpTo depth) ∧
      Guarded (Grammar.statementUpTo depth) ∧ Guarded (Grammar.declarationUpTo depth) ∧
      Guarded (Grammar.program depth) := by
    have hexpression := Grammar.frugal_expressionUpTo depth depth 0 (Nat.zero_le _) (Nat.zero_le _)
    have hlevels := Grammar.levels_suffice depth depth 0
    exact ⟨hexpression.guarded, (hlevels.1 (Nat.zero_le _) (Nat.zero_le _)).guarded,
      (Grammar.forward_declarationUpTo depth).guarded, (Grammar.steady_program_self depth).guarded⟩
  constructor
  case starts => exact hstart
  case in_range =>
    intro c i hc
    have := hlength hc
    exact ⟨hc.peek, by omega⟩
  case index_starts => exact hindex
  case guards_in_range =>
    intro α p' p r c hp hr hs
    obtain ⟨r', hr', hcomes⟩ := hp.mimics r c hs
    have hle := hcomes.in_range
    rw [hr, beforeEnd_closed] at hle
    exact ⟨r', hr', hcomes, hle⟩
  case by_guards => exact hguarded
  case moves_on => exact fun c d i hc hm => hc.move hm
  case by_moves =>
    intro depth c
    obtain ⟨hexpression, hstatement, hdeclaration, hprogram⟩ := hguarded depth
    exact ⟨hexpression.moves c, hstatement.moves c, hdeclaration.moves c, hprogram.moves c⟩
  case progresses =>
    intro depth c i hc hi
    have hforward := Grammar.forward_declarationUpTo depth
    obtain ⟨j, -, hj⟩ := hc.moves (hforward.moves c)
    have hlen := hlength hc
    have hlen' := hlength hj
    have hp : c.pending ≠ [] := List.length_pos_iff.mp (by omega)
    have := hforward.shorter c hc.finish hp
    exact ⟨j, by omega, hj⟩
  case loops_end => exact Grammar.loopsEnd
  case levels_end =>
    intro depth depth' c hf
    constructor
    · intro hd
      exact (Grammar.frugal_expressionUpTo (c.pending.length + 1) depth (c.pending.length + 1)
        (Nat.le_refl _) hd).same c hf (Nat.lt_succ_self _)
    · intro hd hd'
      have hlt := Nat.lt_succ_self c.pending.length
      exact ⟨((Grammar.levels_suffice depth' depth (c.pending.length + 1)).2 hd' hd).same c hf hlt,
        (Grammar.steady_program depth' depth hd' hd).same c hf hlt⟩
  case ends =>
    obtain ⟨d, hmoves, hat, hd, herrors, -⟩ := parse_ends tokens next
    exact ⟨d, hmoves, hat, hd, herrors.symm⟩
  case index_ends =>
    intro p' hp
    obtain ⟨d, -, hat, hd, herrors, hnode⟩ := parse_ends tokens next
    obtain ⟨r, hr, hcomes⟩ := hp.mimics _ _ hindex
    simp only [hd] at hr hcomes
    have hrest := hlength hat
    have htokens : r.tokens = closed tokens := hcomes.tokens
    have hlen := hlength (htokens ▸ hcomes.index)
    exact ⟨r, hr, by omega, hcomes.nextNode.trans hnode.symm, by rw [hcomes.errors, herrors]⟩
  case unseen =>
    rintro before rest rest' t rfl ht
    exact parse_beyond_end before rest rest' next ht
  case tolerant =>
    unfold parse
    rw [ofTokens_closed]
  case bounded =>
    obtain ⟨d, -, -, hd, herrors, -⟩ := parse_ends tokens next
    have hload := (Grammar.steady_program_self _).gains _ d _ hstart.finish hd
    have hload' : d.errors.size + d.pending.length ≤ 0 + (beforeEnd tokens).length := hload
    rw [herrors, Array.length_toList]
    omega

end Lox
