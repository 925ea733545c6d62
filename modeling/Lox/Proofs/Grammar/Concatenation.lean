import Lox.Proofs.Grammar.Productions

/-! Reading one program after another.

The declarations of a program that is read without an error are read the same way with the tokens
of another program behind them, which is then read as it is by itself. What the first program must
be sure of is that the second does not begin with an `else`, and no program does. -/

namespace Lox

namespace Parser

variable {α β : Type}

theorem bind_none {p : Parser α} {c : Cursor} (h : (p c).1 = none) (g : α → Parser β) :
    ((p >>= g) c).1 = none := by
  rw [bind_apply]
  rcases hp : p c with ⟨a?, d⟩
  rw [hp] at h
  obtain rfl := h
  rfl

end Parser

namespace Grammar

open Lox.Parser

theorem leftAssociative_none {isOperator : TokenKind → Bool} {node : Expr → Token → Expr → Expr}
    {operand : Parser Expr} {c : Cursor} (h : (operand c).1 = none) :
    (leftAssociative isOperator node operand c).1 = none :=
  bind_none h _

/-- An `else` comes next. -/
def AtElse (c : Cursor) : Prop := ∃ t rest, c.pending = t :: rest ∧ t.kind = .kwElse

section Else

variable {c : Cursor} (h : AtElse c)

include h

theorem primary_else (nested : Parser Expr) : (primary nested c).1 = none := by
  obtain ⟨t, rest, hc, hk⟩ := h
  simp [primary, bind_apply, peek, Cursor.peek, hc, hk, fail]

theorem unaryOperators_else : unaryOperators c = (some [], c) := by
  obtain ⟨t, rest, hc, hk⟩ := h
  simp [unaryOperators, iterate, acceptIf?, bind_apply, hc, hk, isUnaryOperator]

theorem unary_else (nested : Parser Expr) : (unary nested c).1 = none := by
  rw [unary, bind_apply, unaryOperators_else h]
  exact bind_none (bind_none (primary_else h nested) _) _

theorem expressionUpTo_else (depth : Nat) : (expressionUpTo depth c).1 = none := by
  cases depth with
  | zero => rfl
  | succ depth =>
    have hfactor : (factor (expressionUpTo depth) c).1 = none :=
      leftAssociative_none (unary_else h _)
    have hterm : (term (expressionUpTo depth) c).1 = none := leftAssociative_none hfactor
    have hcomparison : (comparison (expressionUpTo depth) c).1 = none := leftAssociative_none hterm
    have hequality : (equality (expressionUpTo depth) c).1 = none :=
      leftAssociative_none hcomparison
    have hconjunction : (conjunction (expressionUpTo depth) c).1 = none :=
      leftAssociative_none hequality
    have hdisjunction : (disjunction (expressionUpTo depth) c).1 = none :=
      leftAssociative_none hconjunction
    exact bind_none hdisjunction _

theorem expression_else : (expression c).1 = none := expressionUpTo_else h _

theorem expressionStatement_else : (expressionStatement c).1 = none :=
  bind_none (expression_else h) _

theorem statementUpTo_else (depth : Nat) : (statementUpTo depth c).1 = none := by
  cases depth with
  | zero => rfl
  | succ depth =>
    have hexpression := expressionStatement_else h
    obtain ⟨t, rest, hc, hk⟩ := h
    simp only [statementUpTo, statement, bind_apply, peek, Cursor.peek, hc, List.headD_cons, hk]
    exact hexpression

/-- No declaration begins with an `else`. -/
theorem declarationUpTo_else (depth : Nat) : (declarationUpTo depth c).1 = some none := by
  cases depth with
  | zero => rfl
  | succ depth =>
    have hstatement := statementUpTo_else h depth
    obtain ⟨t, rest, hc, hk⟩ := h
    simp only [declarationUpTo, declaration, recovering, bind_apply, peek, Cursor.peek, hc,
      List.headD_cons, hk]
    rcases hs : statementUpTo depth c with ⟨s?, d⟩
    rw [hs] at hstatement
    obtain rfl := hstatement
    rfl

end Else

/-- Declarations read one after another, none of them in error. -/
inductive Declares (depth : Nat) : Cursor → List Stmt → Cursor → Prop where
  | nil (c : Cursor) : Declares depth c [] c
  | cons {c d e : Cursor} {s : Stmt} {rest : List Stmt} : c.pending ≠ [] →
    declarationUpTo depth c = (some (some s), d) → Declares depth d rest e →
    Declares depth c (s :: rest) e

theorem reads_declarationUpTo (depth : Nat) : Reads (declarationUpTo depth) :=
  (levelsFollow (k := .same) depth depth (Nat.le_refl _) fun _ => rfl).declaration.toReads

theorem shortens_declarationUpTo (depth : Nat) :
    Shortens (fun _ => True) (declarationUpTo depth) :=
  (levelsFollow (k := .same) depth depth (Nat.le_refl _) fun _ => rfl).shortens

/-- A declaration that is missing has left an error. -/
theorem declarationUpTo_none {depth : Nat} {c d : Cursor}
    (h : declarationUpTo depth c = (some none, d)) : c.graves.length < d.graves.length := by
  have hrecover {p : Parser Stmt} (hp : Reads p) (hr : recovering p c = (some none, d)) :
      c.graves.length < d.graves.length := by
    have hf := hp.faults c
    unfold recovering at hr
    generalize p c = r at hr hf
    rcases r with ⟨_ | s, e⟩
    · obtain ⟨-, rfl⟩ := Prod.mk.inj hr
      exact hf rfl
    · cases hr
  cases depth with
  | zero => exact hrecover (.fail rfl) h
  | succ depth =>
    have hlevels := levelsFollow (k := .same) depth depth (Nat.le_refl _) fun _ => rfl
    exact hrecover (closes_declared hlevels.statement hlevels.declaration.toFollows
      hlevels.shortens).toReads h

namespace Declares

variable {depth : Nat} {c d e : Cursor} {ss ts : List Stmt}

theorem reads (h : Declares depth c ss e) : c.ReadsTo e := by
  induction h with
  | nil c => exact .refl c
  | @cons c d e s rest _ hd _ ih =>
    have hr := (reads_declarationUpTo depth).reads c
    rw [hd] at hr
    exact hr.trans ih

theorem append (h : Declares depth c ss d) (k : Declares depth d ts e) :
    Declares depth c (ss ++ ts) e := by
  induction h with
  | nil c => exact k
  | cons hp hd _ ih => exact .cons hp hd (ih k)

/-- Declarations that take all there is do not begin with an `else`. -/
theorem not_else (h : Declares depth c ss e) (hend : e.pending = []) :
    ∀ t ∈ c.pending.head?, t.kind ≠ .kwElse := by
  intro t ht hk
  obtain ⟨more, hc⟩ := List.head?_eq_some_iff.mp ht
  cases h with
  | nil => exact absurd (hc.symm.trans hend) (List.cons_ne_nil t more)
  | cons _ hdecl _ =>
    have hnone := declarationUpTo_else ⟨t, more, hc, hk⟩ depth
    rw [hdecl] at hnone
    cases hnone

/-- With other tokens behind and levels to spare the same declarations are read. -/
theorem along {k : Comparison} (h : Declares depth c ss e) {depth' : Nat} (hdepth : depth ≤ depth')
    (hx : k.exact → depth = depth') (hquiet : e.graves.length ≤ c.graves.length)
    (hd : c.Along k d) :
    ∃ f, Declares depth' d (ss.map (Stmt.respell k.respell)) f ∧ e.Along k f := by
  induction h generalizing d with
  | nil c => exact ⟨d, .nil d, hd⟩
  | @cons c c' e s rest hp hdecl hrest ih =>
    have hr := (reads_declarationUpTo depth).reads c
    rw [hdecl] at hr
    have hsize := hr.graves_length
    have hsize' := hrest.reads.graves_length
    simp only at hsize
    have hsettles := (levelsFollow depth depth' hdepth hx).declaration.settles c d c' (some s) hd
      hdecl
    rcases hsettles with ⟨hq, ha⟩ | hlt
    · obtain ⟨f, hf, hef⟩ := ih (by omega) ha
      refine ⟨f, .cons ?_ (Prod.ext hq rfl) hf, hef⟩
      simp [hd.pending, hp]
    · omega

end Declares

/-- One turn of the loop over the declarations of a program. -/
def declareNext (depth : Nat) (body : Array Stmt) : Parser (Option (Array Stmt)) := do
  if ← atEnd then return none
  else
    match ← declarationUpTo depth with
    | some s => return some (body.push s)
    | none => return some body

theorem program_eq (depth : Nat) :
    program depth = (do return (← iterate (declareNext depth) #[]).toList) := rfl

theorem declareNext_nil {depth : Nat} {body : Array Stmt} {c : Cursor} (h : c.pending = []) :
    declareNext depth body c = (some none, c) := by
  simp [declareNext, bind_apply, atEnd, Cursor.atEnd, h]

theorem declareNext_cons {depth : Nat} {body : Array Stmt} {c : Cursor} (h : c.pending ≠ []) :
    declareNext depth body c =
      match declarationUpTo depth c with
      | (some (some s), d) => (some (some (body.push s)), d)
      | (some none, d) => (some (some body), d)
      | (none, d) => (none, d) := by
  have hend : c.pending.isEmpty = false := by simpa using h
  simp only [declareNext, bind_apply, atEnd, Cursor.atEnd, hend]
  rw [if_neg Bool.false_ne_true, bind_apply]
  rcases declarationUpTo depth c with ⟨_ | _ | s, d⟩ <;> rfl

theorem reads_declareNext (depth : Nat) (body : Array Stmt) : Reads (declareNext depth body) := by
  refine Reads.atEnd.bind fun _ => .ite _ (.pure _) ((reads_declarationUpTo depth).bind fun s => ?_)
  cases s <;> exact .pure _

/-- A turn that leaves no error adds a declaration and costs tokens. -/
theorem declareNext_quiet {depth : Nat} {body : Array Stmt} {c d : Cursor}
    {next : Option (Option (Array Stmt))} (h : declareNext depth body c = (next, d))
    (hp : c.pending ≠ []) (hquiet : d.graves.length ≤ c.graves.length) :
    ∃ s, next = some (some (body.push s)) ∧ declarationUpTo depth c = (some (some s), d) ∧
      d.pending.length < c.pending.length := by
  rw [declareNext_cons hp] at h
  have hfaults := (reads_declarationUpTo depth).faults c
  rcases hd : declarationUpTo depth c with ⟨s?, e⟩
  rw [hd] at h hfaults
  rcases s? with _ | _ | s
  · obtain ⟨-, rfl⟩ := Prod.mk.inj h
    exact absurd (hfaults rfl) (Nat.not_lt.mpr hquiet)
  · obtain ⟨-, rfl⟩ := Prod.mk.inj h
    exact absurd (declarationUpTo_none hd) (Nat.not_lt.mpr hquiet)
  · obtain ⟨rfl, rfl⟩ := Prod.mk.inj h
    refine ⟨s, rfl, rfl, ?_⟩
    rcases shortens_declarationUpTo depth c (some s) e hd trivial with hlt | hnil | hlt
    · exact hlt
    · rw [show e.pending = [] from hnil]
      exact List.length_pos_iff.mpr hp
    · exact absurd hlt (Nat.not_lt.mpr hquiet)

/-- A loop over declarations that leaves no error stops at the end or goes on behind one. -/
theorem declares_turn {depth : Nat} {go : Array Stmt → Parser (Array Stmt)}
    (hgo : ∀ body, Reads (go body)) {next : Option (Array Stmt)} {body body' : Array Stmt}
    {c d e : Cursor} (hnext : declareNext depth body c = (some next, d))
    (hrest : next.elim (pure body) go d = (some body', e))
    (hquiet : e.graves.length ≤ c.graves.length) :
    (c.pending = [] ∧ e = c ∧ body' = body) ∨
      c.pending ≠ [] ∧ ∃ s, declarationUpTo depth c = (some (some s), d) ∧
        go (body.push s) d = (some body', e) ∧ d.pending.length < c.pending.length ∧
        e.graves.length ≤ d.graves.length := by
  by_cases hp : c.pending = []
  · rw [declareNext_nil hp] at hnext
    obtain ⟨hb, rfl⟩ := Prod.mk.inj hnext
    obtain rfl := Option.some.inj hb
    obtain ⟨hb, rfl⟩ := Prod.mk.inj hrest
    exact .inl ⟨hp, rfl, (Option.some.inj hb).symm⟩
  · have hr : d.ReadsTo e := by
      cases next with
      | none =>
        obtain ⟨-, rfl⟩ := Prod.mk.inj hrest
        exact .refl d
      | some b =>
        have hr := (hgo b).reads d
        rwa [show go b d = _ from hrest] at hr
    obtain ⟨s, hs, hdecl, hlt⟩ := declareNext_quiet hnext hp (Nat.le_trans hr.graves_length hquiet)
    obtain rfl := Option.some.inj hs
    have hrd := (reads_declarationUpTo depth).reads c
    rw [hdecl] at hrd
    exact .inr ⟨hp, s, hdecl, hrest, hlt, Nat.le_trans hquiet hrd.graves_length⟩

theorem declares_of_iterateUpTo {depth : Nat} {body' : Array Stmt} {e : Cursor} (n : Nat) :
    ∀ (body : Array Stmt) (c : Cursor),
    iterateUpTo n (declareNext depth) body c = (some body', e) → c.pending.length ≤ n →
    e.graves.length ≤ c.graves.length →
    ∃ ss, Declares depth c ss e ∧ body'.toList = body.toList ++ ss ∧ e.pending = [] := by
  induction n with
  | zero =>
    intro body c h hn _
    obtain ⟨hb, rfl⟩ := Prod.mk.inj h
    obtain rfl := Option.some.inj hb
    exact ⟨[], .nil c, by simp, List.eq_nil_of_length_eq_zero (Nat.le_zero.mp hn)⟩
  | succ n ih =>
    intro body c h hn hquiet
    rw [iterateUpTo] at h
    obtain ⟨next, d, hnext, hrest⟩ := bind_eq_some.mp h
    have hturn : next.elim (pure body) (iterateUpTo n (declareNext depth)) d = (some body', e) := by
      cases next <;> exact hrest
    rcases declares_turn (Reads.iterateUpTo (reads_declareNext depth) n) hnext hturn hquiet with
      ⟨hp, rfl, rfl⟩ | ⟨hp, s, hdecl, hgo, hlt, hquiet⟩
    · exact ⟨[], .nil _, by simp, hp⟩
    · obtain ⟨ss, hss, hbody, hend⟩ := ih (body.push s) d hgo (by omega) hquiet
      exact ⟨s :: ss, .cons hp hdecl hss, by simp [hbody], hend⟩

theorem iterateUpTo_of_declares {depth : Nat} {c e : Cursor} {ss : List Stmt}
    (h : Declares depth c ss e) (hend : e.pending = [])
    (hquiet : e.graves.length ≤ c.graves.length) :
    ∀ (n : Nat) (body : Array Stmt), c.pending.length ≤ n →
    ∃ body', iterateUpTo n (declareNext depth) body c = (some body', e) ∧
      body'.toList = body.toList ++ ss := by
  induction h with
  | nil c =>
    intro n body _
    refine ⟨body, ?_, by simp⟩
    cases n with
    | zero => rfl
    | succ n => rw [iterateUpTo, bind_apply, declareNext_nil hend]; rfl
  | @cons c d e s rest hp hdecl hrest ih =>
    intro n body hn
    have hnext : declareNext depth body c = (some (some (body.push s)), d) := by
      rw [declareNext_cons hp, hdecl]
    have hr := hrest.reads.graves_length
    have hrd := (reads_declarationUpTo depth).reads c
    rw [hdecl] at hrd
    obtain ⟨-, -, -, hlt⟩ := declareNext_quiet hnext hp (Nat.le_trans hr hquiet)
    cases n with
    | zero => omega
    | succ n =>
      obtain ⟨body', hb, hl⟩ := ih hend (Nat.le_trans hquiet hrd.graves_length) n (body.push s)
        (by omega)
      refine ⟨body', ?_, by simp [hl]⟩
      rw [iterateUpTo, bind_apply, hnext]
      exact hb

/-- What a program is that is read without an error. -/
theorem declares_of_program {depth : Nat} {c e : Cursor} {ss : List Stmt}
    (h : program depth c = (some ss, e)) (hquiet : e.graves.length ≤ c.graves.length) :
    Declares depth c ss e ∧ e.pending = [] := by
  rw [program_eq] at h
  obtain ⟨body, e', hloop, hbody⟩ := bind_eq_some.mp h
  obtain ⟨hss, rfl⟩ := Prod.mk.inj hbody
  obtain rfl := Option.some.inj hss
  obtain ⟨next, d, hnext, hrest⟩ := bind_eq_some.mp hloop
  let go (body : Array Stmt) : Parser (Array Stmt) := fun c =>
    iterateUpTo c.pending.length (declareNext depth) body c
  have hgo (body : Array Stmt) : Reads (go body) :=
    ⟨fun c => (Reads.iterateUpTo (reads_declareNext depth) _ body).reads c,
      fun c => (Reads.iterateUpTo (reads_declareNext depth) _ body).faults c⟩
  have hturn : next.elim (pure #[]) go d = (some body, e') := by
    cases next <;> exact hrest
  rcases declares_turn hgo hnext hturn hquiet with ⟨hp, rfl, rfl⟩ | ⟨hp, s, hdecl, hgo, -, hquiet⟩
  · exact ⟨.nil _, hp⟩
  · obtain ⟨ss, hss, hl, hend⟩ := declares_of_iterateUpTo _ _ d hgo (Nat.le_refl _) hquiet
    rw [hl]
    exact ⟨.cons hp hdecl hss, hend⟩

theorem program_of_declares {depth : Nat} {c e : Cursor} {ss : List Stmt}
    (h : Declares depth c ss e) (hend : e.pending = [])
    (hquiet : e.graves.length ≤ c.graves.length) : program depth c = (some ss, e) := by
  rw [program_eq, bind_eq_some]
  cases h with
  | nil =>
    refine ⟨#[], c, ?_, rfl⟩
    rw [iterate, bind_apply, declareNext_nil hend]
    rfl
  | @cons _ d _ s rest hp hdecl hrest =>
    have hnext : declareNext depth #[] c = (some (some (#[].push s)), d) := by
      rw [declareNext_cons hp, hdecl]
    have hrd := (reads_declarationUpTo depth).reads c
    rw [hdecl] at hrd
    obtain ⟨body, hb, hl⟩ := iterateUpTo_of_declares hrest hend
      (Nat.le_trans hquiet hrd.graves_length) d.pending.length (#[].push s) (Nat.le_refl _)
    refine ⟨body, e, ?_, ?_⟩
    · rw [iterate, bind_apply, hnext]
      exact hb
    · rw [hl]
      rfl

end Grammar

/-- Other tokens of the same kinds and literals are read the same way, from another count of
nodes. -/
theorem parse_respell {f : Respelling} {tokens : List Token} {next next' : Nat}
    (hn : ∀ i, f.node ⟨next + i⟩ = ⟨next' + i⟩) (hend : ∃ t ∈ tokens, t.kind = .eof) :
    ∃ used, (parse tokens next).nextNode = next + used ∧
      parse (tokens.map f.token) next' =
        ⟨(parse tokens next).statements.map (Stmt.respell f),
          (parse tokens next).errors.map (ParseError.respell f), next' + used⟩ := by
  let k : Comparison := ⟨f, [], #[], True, fun _ => rfl, by simp⟩
  have hpending : (Cursor.ofTokens (tokens.map f.token) next').pending =
      (Cursor.ofTokens tokens next).pending.map f.token := by
    simp [Cursor.ofTokens, List.takeWhile_map, Function.comp_def]
  have hstart : (Cursor.ofTokens tokens next).Along k
      (Cursor.ofTokens (tokens.map f.token) next') := by
    refine ⟨by rw [hpending, List.append_nil], by simp [Cursor.ofTokens, k], hn, fun _ => ?_⟩
    obtain ⟨t, ht, hk⟩ := hend
    have hk' : (t.kind == .eof) = true := by simp [hk]
    obtain ⟨u, hu⟩ := Option.isSome_iff_exists.mp
      (List.find?_isSome (p := fun t : Token => t.kind == .eof) |>.mpr ⟨t, ht, hk'⟩)
    have hkind : (fun t : Token => t.kind == .eof) ∘ f.token = fun t => t.kind == .eof :=
      funext fun t => congrArg (· == TokenKind.eof) (f.kind t)
    have hu' : (tokens.map f.token).find? (·.kind == .eof) = some (f.token u) := by
      rw [List.find?_map, hkind, hu, Option.map_some]
    simp [Cursor.ofTokens, hu, hu', k]
  unfold parse
  simp only [hpending, List.length_map]
  have hfollows := Grammar.follows_program (k := k)
    (2 * (Cursor.ofTokens tokens next).pending.length + 2)
  have hr := hfollows.reads (Cursor.ofTokens tokens next)
  rcases hfollows.along _ _ hstart with ⟨hq, ha⟩ | ⟨hx, -⟩
  · generalize Grammar.program (2 * (Cursor.ofTokens tokens next).pending.length + 2)
      (Cursor.ofTokens tokens next) = r at hq ha hr ⊢
    generalize Grammar.program (2 * (Cursor.ofTokens tokens next).pending.length + 2)
      (Cursor.ofTokens (tokens.map f.token) next') = r' at hq ha ⊢
    rcases r with ⟨b?, e⟩
    rcases r' with ⟨b'?, e'⟩
    obtain rfl := hq
    obtain ⟨used, hused⟩ := Nat.exists_eq_add_of_le hr.nextNode
    have hnode := (ha.nodes 0).symm.trans ((congrArg (fun n => f.node ⟨n⟩) hused).trans (hn used))
    refine ⟨used, hused, ?_⟩
    have hnext : e'.nextNode = next' + used := by simpa using hnode
    have herrors : e'.errors = e.errors.map (ParseError.respell f) :=
      ha.errors.trans (Array.empty_append ..)
    rw [hnext, herrors]
    cases b? <;> simp [k]
  · exact absurd trivial hx

/-- A text is read the same way from another count of nodes and on other lines. -/
theorem parse_relabel {f : Relabelling} {tokens : List Token} {next next' : Nat}
    (hn : ∀ i, f.node ⟨next + i⟩ = ⟨next' + i⟩) (hend : ∃ t ∈ tokens, t.kind = .eof) :
    ∃ used, (parse tokens next).nextNode = next + used ∧
      parse (tokens.map (Token.relabel f)) next' =
        ⟨(parse tokens next).statements.map (Stmt.relabel f),
          (parse tokens next).errors.map (ParseError.relabel f), next' + used⟩ := by
  rw [Stmt.relabel_eq]
  exact parse_respell (f := f.respelling) hn hend

theorem parse_quiet {tokens : List Token} {next : Nat} (h : (parse tokens next).errors = []) :
    ∃ e : Cursor, e.errors = #[] ∧ e.pending = [] ∧
      e.nextNode = (parse tokens next).nextNode ∧
      Grammar.Declares (2 * (Cursor.ofTokens tokens next).pending.length + 2)
        (Cursor.ofTokens tokens next) (parse tokens next).statements e := by
  have hfaults := (Grammar.follows_program (k := .same)
    (2 * (Cursor.ofTokens tokens next).pending.length + 2)).faults (Cursor.ofTokens tokens next)
  unfold parse at h ⊢
  rcases hp : Grammar.program (2 * (Cursor.ofTokens tokens next).pending.length + 2)
    (Cursor.ofTokens tokens next) with ⟨body?, e⟩
  simp only [hp] at h hfaults ⊢
  have herrors : e.errors = #[] := Array.toList_eq_nil_iff.mp h
  cases body? with
  | none =>
    have hlt := hfaults rfl
    rw [e.graves_nil herrors] at hlt
    exact absurd hlt (Nat.not_lt_zero _)
  | some body =>
    obtain ⟨hbody, hend⟩ := Grammar.declares_of_program hp (by simp [e.graves_nil herrors])
    exact ⟨e, herrors, hend, rfl, hbody⟩

/-- A program behind another one that is read without an error is read as it is by itself. -/
theorem parse_append {own second : List Token} {line next : Nat}
    (hown : ∀ t ∈ own, t.kind ≠ .eof)
    (hfirst : (parse (own ++ [Token.endOfInput line]) next).errors = [])
    (hsecond : (parse second (parse (own ++ [Token.endOfInput line]) next).nextNode).errors = []) :
    parse (own ++ second) next =
      let first := parse (own ++ [Token.endOfInput line]) next
      let rest := parse second first.nextNode
      ⟨first.statements ++ rest.statements, [], rest.nextNode⟩ := by
  dsimp only
  obtain ⟨e, herrors, hend, hnext, hdeclares⟩ := parse_quiet hfirst
  obtain ⟨e', herrors', hend', hnext', hdeclares'⟩ := parse_quiet hsecond
  generalize parse (own ++ [Token.endOfInput line]) next = first at *
  generalize parse second first.nextNode = rest at *
  have htake (more : List Token) : (own ++ more).takeWhile (·.kind != .eof) =
      own ++ more.takeWhile (·.kind != .eof) :=
    List.takeWhile_append_of_pos fun t ht => by simpa using hown t ht
  have hpending : (Cursor.ofTokens (own ++ [Token.endOfInput line]) next).pending = own :=
    (htake _).trans (by simp [Token.endOfInput])
  have hall : (Cursor.ofTokens (own ++ second) next).pending =
    own ++ (Cursor.ofTokens second first.nextNode).pending := htake second
  generalize hc : Cursor.ofTokens second first.nextNode = c at *
  have hc' : c.nextNode = first.nextNode ∧ c.errors = #[] := by simp [← hc, Cursor.ofTokens]
  have hlong : 2 * own.length + 2 ≤ 2 * (own ++ c.pending).length + 2 := by
    rw [List.length_append]
    omega
  rw [hpending] at hdeclares
  have hstart : (Cursor.ofTokens (own ++ [Token.endOfInput line]) next).Along
      ⟨.same, c.pending, #[], False, False.elim, hdeclares'.not_else hend'⟩
      (Cursor.ofTokens (own ++ second) next) :=
    ⟨by rw [hall, hpending, Respelling.map_same_token], by simp [Cursor.ofTokens], fun _ => rfl,
      False.elim⟩
  obtain ⟨f, hf, hef⟩ := hdeclares.along hlong False.elim (by simp [e.graves_nil herrors]) hstart
  have hf' : f.pending = c.pending ∧ f.nextNode = c.nextNode ∧ f.errors = #[] := by
    refine ⟨by rw [hef.pending, hend]; rfl, ?_, by simp [hef.errors, herrors]⟩
    simpa [hnext, hc'.1] using (hef.nodes 0).symm
  have hbehind : c.Along ⟨.same, [], #[], False, False.elim, by simp⟩ f :=
    ⟨by simp [hf'.1], by simp [hf'.2.2, hc'.2], fun i => by simp [hf'.2.1], False.elim⟩
  obtain ⟨g, hg, heg⟩ := hdeclares'.along (Nat.add_le_add_right (Nat.mul_le_mul_left 2
    (List.length_append ▸ Nat.le_add_left ..)) 2) False.elim
    (by simp [e'.graves_nil herrors']) hbehind
  have hboth := hf.append hg
  rw [Stmt.map_respell_same, Stmt.map_respell_same] at hboth
  have hg' : g.pending = [] ∧ g.errors = #[] := by simp [heg.pending, heg.errors, hend', herrors']
  have hread := Grammar.program_of_declares hboth hg'.1 (by simp [g.graves_nil hg'.2])
  have hnode : g.nextNode = e'.nextNode := by simpa using (heg.nodes 0).symm
  unfold parse
  simp only [hall]
  rw [hread]
  simp [hg'.2, hnode, hnext']

end Lox
