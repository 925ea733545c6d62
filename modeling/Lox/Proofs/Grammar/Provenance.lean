import Lox.Proofs.Grammar.Concatenation

/-! Where the tokens of a program come from.

Reading copies tokens: a program and the errors met in reading it have no token that its text has
not. For it is read the same way from respelled tokens, and a respelling that spares the tokens of
the text but no other token leaves the program as it is. -/

namespace Lox

namespace Respelling

/-- Moves every other token to the next line. -/
def sparing (ts : List Token) : Respelling where
  node := id
  token t := if t ∈ ts then t else { t with line := t.line + 1 }
  kind t := by split <;> rfl
  literal t := by split <;> rfl

variable {ts : List Token}

theorem mem_of_sparing {t : Token} (h : (sparing ts).token t = t) : t ∈ ts := by
  refine Decidable.byContradiction fun hnot => ?_
  have hmoved : (sparing ts).token t = { t with line := t.line + 1 } := if_neg hnot
  have hline := congrArg Token.line (hmoved.symm.trans h)
  exact absurd hline (Nat.succ_ne_self _)

theorem map_sparing (ts : List Token) : ts.map (sparing ts).token = ts :=
  (List.map_congr_left fun _ ht => if_pos ht).trans (List.map_id _)

variable {f : Respelling}

theorem fixes_nil (hn : ∀ n, f.node n = n) : f.Fixes [] := ⟨hn, List.forall_mem_nil _⟩

end Respelling

open Respelling (fixes_cons fixes_append fixes_nil)

section Trees

variable {f : Respelling}

theorem Reference.fixes_of_respell {r : Reference} {ts : List Token} (h : r.respell f = r)
    (hts : f.Fixes ts) : f.Fixes (r.name :: ts) :=
  fixes_cons.mpr ⟨congrArg Reference.name h, hts⟩

variable (hn : ∀ n, f.node n = n)

include hn

mutual

/-- A tree that stays as it is has its tokens spared. -/
theorem Expr.fixes_of_respell : ∀ e : Expr, e.respell f = e → f.Fixes e.tokens
  | .constant _, _ => fixes_nil hn
  | .group e, h => e.fixes_of_respell (Expr.group.inj h)
  | .unary _ e, h =>
    let ⟨ht, he⟩ := Expr.unary.inj h
    fixes_cons.mpr ⟨ht, e.fixes_of_respell he⟩
  | .binary l _ r, h =>
    let ⟨hl, ht, hr⟩ := Expr.binary.inj h
    fixes_append.mpr ⟨l.fixes_of_respell hl, fixes_cons.mpr ⟨ht, r.fixes_of_respell hr⟩⟩
  | .logical l _ r, h =>
    let ⟨hl, ht, hr⟩ := Expr.logical.inj h
    fixes_append.mpr ⟨l.fixes_of_respell hl, fixes_cons.mpr ⟨ht, r.fixes_of_respell hr⟩⟩
  | .variable _, h => Reference.fixes_of_respell (Expr.variable.inj h) (fixes_nil hn)
  | .assign _ e, h =>
    let ⟨hr, he⟩ := Expr.assign.inj h
    Reference.fixes_of_respell hr (e.fixes_of_respell he)
  | .call e _ es, h =>
    let ⟨he, ht, hes⟩ := Expr.call.inj h
    fixes_append.mpr ⟨e.fixes_of_respell he,
      fixes_cons.mpr ⟨ht, Expr.fixes_of_respellAll es hes⟩⟩
  | .get e _, h =>
    let ⟨he, ht⟩ := Expr.get.inj h
    fixes_append.mpr ⟨e.fixes_of_respell he, fixes_cons.mpr ⟨ht, fixes_nil hn⟩⟩
  | .set e _ v, h =>
    let ⟨he, ht, hv⟩ := Expr.set.inj h
    fixes_append.mpr ⟨e.fixes_of_respell he, fixes_cons.mpr ⟨ht, v.fixes_of_respell hv⟩⟩
  | .receiver _, h => Reference.fixes_of_respell (Expr.receiver.inj h) (fixes_nil hn)
  | .inherited _ _, h =>
    let ⟨hr, ht⟩ := Expr.inherited.inj h
    Reference.fixes_of_respell hr (fixes_cons.mpr ⟨ht, fixes_nil hn⟩)

theorem Expr.fixes_of_respellAll : ∀ es : List Expr, Expr.respellAll f es = es →
    f.Fixes (Expr.tokensOfAll es)
  | [], _ => fixes_nil hn
  | e :: rest, h =>
    let ⟨he, hrest⟩ := List.cons.inj h
    fixes_append.mpr ⟨e.fixes_of_respell he, Expr.fixes_of_respellAll rest hrest⟩

end

theorem Expr.fixes_of_respell? (e : Option Expr) (h : e.map (Expr.respell f) = e) :
    f.Fixes (Expr.tokensOf? e) := by
  cases e with
  | none => exact fixes_nil hn
  | some e => exact e.fixes_of_respell hn (Option.some.inj h)

mutual

theorem Stmt.fixes_of_respell : ∀ s : Stmt, s.respell f = s → f.Fixes s.tokens
  | .expression e, h => e.fixes_of_respell hn (Stmt.expression.inj h)
  | .print e, h => e.fixes_of_respell hn (Stmt.print.inj h)
  | .varDecl _ e, h =>
    let ⟨ht, he⟩ := Stmt.varDecl.inj h
    fixes_cons.mpr ⟨ht, Expr.fixes_of_respell? hn e he⟩
  | .block body, h => Stmt.fixes_of_respellAll body (Stmt.block.inj h)
  | .ifThen e s, h =>
    let ⟨he, hs⟩ := Stmt.ifThen.inj h
    fixes_append.mpr ⟨e.fixes_of_respell hn he, s.fixes_of_respell hs⟩
  | .ifElse e s t, h =>
    let ⟨he, hs, ht⟩ := Stmt.ifElse.inj h
    fixes_append.mpr ⟨fixes_append.mpr ⟨e.fixes_of_respell hn he, s.fixes_of_respell hs⟩,
      t.fixes_of_respell ht⟩
  | .loop e s i, h =>
    let ⟨he, hs, hi⟩ := Stmt.loop.inj h
    fixes_append.mpr ⟨fixes_append.mpr ⟨e.fixes_of_respell hn he, s.fixes_of_respell hs⟩,
      Expr.fixes_of_respell? hn i hi⟩
  | .function d, h => d.fixes_of_respell (Stmt.function.inj h)
  | .classDecl _ r methods, h => by
    obtain ⟨ht, hr, hmethods⟩ := Stmt.classDecl.inj h
    refine fixes_append.mpr ⟨fixes_cons.mpr ⟨ht, ?_⟩,
      FunctionDecl.fixes_of_respellAll methods hmethods⟩
    cases r with
    | none => exact fixes_nil hn
    | some r => exact Reference.fixes_of_respell (Option.some.inj hr) (fixes_nil hn)
  | .returning _ e, h =>
    let ⟨ht, he⟩ := Stmt.returning.inj h
    fixes_cons.mpr ⟨ht, Expr.fixes_of_respell? hn e he⟩
  | .breaking _, h => fixes_cons.mpr ⟨Stmt.breaking.inj h, fixes_nil hn⟩
  | .continuing _, h => fixes_cons.mpr ⟨Stmt.continuing.inj h, fixes_nil hn⟩

theorem Stmt.fixes_of_respellAll : ∀ ss : List Stmt, Stmt.respellAll f ss = ss →
    f.Fixes (Stmt.tokensOfAll ss)
  | [], _ => fixes_nil hn
  | s :: rest, h =>
    let ⟨hs, hrest⟩ := List.cons.inj h
    fixes_append.mpr ⟨s.fixes_of_respell hs, Stmt.fixes_of_respellAll rest hrest⟩

theorem FunctionDecl.fixes_of_respell : ∀ d : FunctionDecl, d.respell f = d → f.Fixes d.tokens
  | .mk _ _ body, h =>
    let ⟨hname, hparams, hbody⟩ := FunctionDecl.mk.inj h
    fixes_append.mpr ⟨fixes_cons.mpr ⟨hname, hn, List.map_inj_left.mp (hparams.trans (List.map_id _).symm)⟩,
      Stmt.fixes_of_respellAll body hbody⟩

theorem FunctionDecl.fixes_of_respellAll : ∀ ds : List FunctionDecl,
    FunctionDecl.respellAll f ds = ds → f.Fixes (FunctionDecl.tokensOfAll ds)
  | [], _ => fixes_nil hn
  | d :: rest, h =>
    let ⟨hd, hrest⟩ := List.cons.inj h
    fixes_append.mpr ⟨d.fixes_of_respell hd, FunctionDecl.fixes_of_respellAll rest hrest⟩

end

end Trees

section Texts

variable {ts : List Token}

/-- Sparing its tokens leaves a program as it was read. -/
theorem parse_sparing (hend : ∃ t ∈ ts, t.kind = .eof) (next : Nat) :
    (parse ts next).statements.map (Stmt.respell (.sparing ts)) = (parse ts next).statements ∧
      (parse ts next).errors.map (ParseError.respell (.sparing ts)) = (parse ts next).errors := by
  have hnode : ∀ i, (Respelling.sparing ts).node ⟨next + i⟩ = ⟨next + i⟩ := fun _ => rfl
  obtain ⟨used, -, hp⟩ := parse_respell hnode hend
  rw [Respelling.map_sparing] at hp
  exact ⟨(congrArg Parsed.statements hp).symm, (congrArg Parsed.errors hp).symm⟩

/-- Every token of a program is one of those that it was read from. -/
theorem parse_tokens_subset (hend : ∃ t ∈ ts, t.kind = .eof) (next : Nat) :
    Stmt.tokensOfAll (parse ts next).statements ⊆ ts := by
  have hsame := (Stmt.respellAll_eq_map _).trans (parse_sparing hend next).1
  have hfixed := Stmt.fixes_of_respellAll (fun _ => rfl) _ hsame
  exact fun t ht => Respelling.mem_of_sparing (hfixed.token t ht)

/-- Every error met in reading is at a token that was read. -/
theorem parse_error_token_mem (hend : ∃ t ∈ ts, t.kind = .eof) (next : Nat) :
    ∀ e ∈ (parse ts next).errors, e.token ∈ ts := by
  have hsame := (parse_sparing hend next).2.trans (List.map_id _).symm
  exact fun e he => Respelling.mem_of_sparing
    (congrArg ParseError.token (List.map_inj_left.mp hsame e he))

end Texts

end Lox
