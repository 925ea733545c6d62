import Lox.Proofs.Grammar.Prediction.Program

/-! Recovery keeps a fault to its statement.

A statement that ends in its only semicolon is at fault within its tokens, since nothing behind the
semicolon belongs to it. What is skipped then ends behind that semicolon, so that the declarations
around it are read as if it were not there. -/

namespace Lox

open scoped Computability

namespace Grammar

open Lox.Parser Ebnf

section Unlimited

variable {us vs : List Token}

theorem levelWords_mono {k : Nat} (h1 : 1 ≤ k) (h6 : k ≤ 6) (h : us ∈ levelWords (k + 1)) :
    us ∈ levelWords k := by
  rw [levelWords_join h1 h6, Language.mem_mul]
  exact ⟨us, h, [], Language.nil_mem_kstar _, List.append_nil us⟩

theorem mem_operand_of_call (h : us ∈ levelWords 8) : us ∈ levelWords 1 := by
  have hunary : us ∈ levelWords 7 := by
    rw [levelWords_unary, Language.mem_mul]
    exact ⟨[], Language.nil_mem_kstar _, us, h, rfl⟩
  have hlevels (d : Nat) (hd : d ≤ 6) : us ∈ levelWords (7 - d) := by
    induction d with
    | zero => exact hunary
    | succ d ih =>
      refine levelWords_mono (by omega) (by omega) ?_
      rw [show 7 - (d + 1) + 1 = 7 - d by omega]
      exact ih (by omega)
  exact hlevels 6 (Nat.le_refl 6)

theorem mem_call_of_name (h : us ∈ single (· = .identifier)) : us ∈ levelWords 8 := by
  obtain ⟨t, ht, rfl⟩ := h
  have hatom : [t] ∈ levelWords 9 := by
    rw [levelWords_primary, add_assoc]
    exact .inl ⟨t, by rw [ht]; rfl, rfl⟩
  rw [levelWords_call, Language.mem_mul]
  exact ⟨[t], hatom, [], Language.nil_mem_kstar _, rfl⟩

theorem mem_call_of_property (h : us ∈ levelWords 8)
    (hvs : vs ∈ single (· = .dot) * single (· = .identifier)) : us ++ vs ∈ levelWords 8 := by
  rw [levelWords_call] at h ⊢
  obtain ⟨callee, hcallee, suffixes, hsuffixes, rfl⟩ := Language.mem_mul.mp h
  rw [← kstar_mul_kstar, List.append_assoc]
  refine Language.mem_mul.mpr ⟨callee, hcallee, _, ?_, rfl⟩
  refine Language.mem_mul.mpr ⟨suffixes, hsuffixes, vs, ?_, rfl⟩
  exact Language.mem_kstar.mpr ⟨[vs], by simp, by rintro _ (_ | ⟨_, ⟨⟩⟩); exact .inr hvs⟩

/-- What can be assigned to is an expression. -/
theorem mem_operand_of_target
    (h : us ∈ (1 + lang (.rule .call) * single (· = .dot)) * single (· = .identifier)) :
    us ∈ levelWords 1 := by
  rw [add_mul, one_mul, mul_assoc] at h
  rcases h with h | h
  · exact mem_operand_of_call (mem_call_of_name h)
  · obtain ⟨call, hcall, rest, hrest, rfl⟩ := Language.mem_mul.mp h
    exact mem_operand_of_call (mem_call_of_property hcall hrest)

theorem relaxed_of_unlimited {x : Ebnf} (h : DerivesBy unlimited x us) :
    DerivesBy relaxed x us := by
  refine h.of_rules fun n ts h => ?_
  cases n with
  | assignment =>
    show ts ∈ levelWords 0
    replace h : ts ∈ lang (rules .assignment) := h
    simp only [rules, lang_or, lang_append, lang_token, lang_optional] at h
    rw [levelWords_assignment, mul_add, mul_one, ← mul_assoc]
    rcases h with h | h
    · obtain ⟨_, hfront, value, hvalue, rfl⟩ := Language.mem_mul.mp h
      obtain ⟨target, htarget, equals, hequals, rfl⟩ := Language.mem_mul.mp hfront
      refine .inr (Language.mem_mul.mpr ⟨_, ?_, value, hvalue, rfl⟩)
      exact Language.mem_mul.mpr ⟨target, mem_operand_of_target htarget, equals, hequals, rfl⟩
    · exact .inl h
  | _ => exact .rule h

end Unlimited

section Kinds

/-- Whether no token of a phrase is of this kind, if none is in the words of the marked rules. -/
def avoids (P : Nonterminal → Bool) (k : TokenKind) : Ebnf → Bool
  | .token l => l != k
  | .rule n => P n
  | .seq x y | .either x y => avoids P k x && avoids P k y
  | .optional x | .many x | .upTo _ x => avoids P k x

theorem DerivesBy.avoids {P : Nonterminal → Bool} {k : TokenKind}
    (hP : ∀ n, P n = true → avoids P k (relaxed n) = true) {x : Ebnf} {ts : List Token}
    (h : DerivesBy relaxed x ts) (hx : avoids P k x = true) : ∀ t ∈ ts, t.kind ≠ k := by
  induction h with
  | token hk =>
    rintro _ (_ | ⟨_, ⟨⟩⟩)
    simpa [hk, Grammar.avoids] using hx
  | rule _ ih => exact ih (hP _ hx)
  | seq _ _ ih ih' =>
    obtain ⟨hx, hy⟩ := Bool.and_eq_true_iff.mp hx
    intro t ht
    exact (List.mem_append.mp ht).elim (ih hx t) (ih' hy t)
  | left _ ih => exact ih (Bool.and_eq_true_iff.mp hx).1
  | right _ ih => exact ih (Bool.and_eq_true_iff.mp hx).2
  | absent | done | enough => exact List.forall_mem_nil _
  | present _ ih => exact ih hx
  | more _ _ ih ih' | another _ _ ih ih' =>
    intro t ht
    exact (List.mem_append.mp ht).elim (ih hx t) (ih' hx t)

/-- The rules of expressions. -/
def isExpressionRule : Nonterminal → Bool
  | .expression | .assignment | .logicOr | .logicAnd | .equality | .comparison | .term | .factor
  | .unary | .call | .arguments | .primary => true
  | _ => false

theorem avoids_semicolon {n : Nonterminal} (h : isExpressionRule n = true) :
    avoids isExpressionRule .semicolon (relaxed n) = true := by
  cases n <;> first | rfl | cases h

theorem avoids_eof {n : Nonterminal} (h : (n != .program) = true) :
    avoids (· != .program) .eof (relaxed n) = true := by
  cases n <;> first | rfl | cases h

theorem not_eof_of_declaration {ts : List Token} (h : ts ∈ declarationWords) :
    ∀ t ∈ ts, t.kind ≠ .eof :=
  DerivesBy.avoids (fun _ => avoids_eof) h rfl

/-- Ends in its only semicolon. -/
inductive Terminated : List Token → Prop where
  | last {t : Token} : t.kind = .semicolon → Terminated [t]
  | more {t : Token} {ts : List Token} :
    t.kind ≠ .semicolon → Terminated ts → Terminated (t :: ts)

theorem Terminated.of_append {ts : List Token} {last : Token}
    (hts : ∀ t ∈ ts, t.kind ≠ .semicolon) (hlast : last.kind = .semicolon) :
    Terminated (ts ++ [last]) := by
  induction ts with
  | nil => exact .last hlast
  | cons t ts ih =>
    obtain ⟨ht, hts⟩ := List.forall_mem_cons.mp hts
    exact .more ht (ih hts)

theorem Terminated.eq_of_prefix {ts us : List Token} (hts : Terminated ts) (hus : Terminated us)
    (h : ts <+: us) : ts = us := by
  induction hts generalizing us with
  | last hk =>
    cases hus with
    | last _ => rw [(List.cons_prefix_cons.mp h).1]
    | more hk' _ => exact absurd ((List.cons_prefix_cons.mp h).1 ▸ hk) hk'
  | more hk _ ih =>
    cases hus with
    | last hk' => exact absurd ((List.cons_prefix_cons.mp h).1 ▸ hk') hk
    | more _ hus =>
      obtain ⟨rfl, hrest⟩ := List.cons_prefix_cons.mp h
      rw [ih hus hrest]

theorem Terminated.of_append_cons {us ts : List Token} {t : Token}
    (h : Terminated (us ++ t :: ts)) : Terminated (t :: ts) := by
  induction us with
  | nil => exact h
  | cons u us ih =>
    cases hus : us ++ t :: ts with
    | nil => simp at hus
    | cons v vs =>
      rw [List.cons_append, hus] at h
      cases h with
      | more _ h => exact ih (hus ▸ h)

/-- The rules of declarations without others in them. -/
def simpleRules : List Nonterminal :=
  [.varDecl, .exprStmt, .printStmt, .returnStmt, .breakStmt, .continueStmt]

theorem terminated_of_simple {n : Nonterminal} (hn : n ∈ simpleRules) {ts : List Token}
    (h : ts ∈ lang (.rule n)) : Terminated ts := by
  have hclosed {x : Ebnf} (hx : avoids isExpressionRule .semicolon x = true)
      (h : ts ∈ lang (x ++ token .semicolon)) : Terminated ts := by
    rw [lang_append] at h
    obtain ⟨init, hinit, _, hlast, rfl⟩ := Language.mem_mul.mp h
    obtain ⟨last, hk, rfl⟩ := mem_token.mp hlast
    exact .of_append (DerivesBy.avoids (fun _ => avoids_semicolon) hinit hx) hk
  rw [lang_rule] at h
  simp only [simpleRules, List.mem_cons, List.not_mem_nil, or_false] at hn
  rcases hn with rfl | rfl | rfl | rfl | rfl | rfl
  all_goals exact hclosed rfl h

/-- The kinds that a faulty statement can begin with. -/
def isSimple : TokenKind → Bool
  | .kwClass | .kwFun | .kwFor | .kwIf | .kwWhile | .leftBrace => false
  | _ => true

theorem terminated_of_declaration {t : Token} {ts : List Token} (ht : isSimple t.kind = true)
    (h : t :: ts ∈ declarationWords) : Terminated (t :: ts) := by
  have hheads {n : Nonterminal} (h : t :: ts ∈ lang (.rule n)) : heads n t.kind = true := by
    by_contra hk
    exact (heads_rule n).not_mem rfl hk h
  have hkind {n : Nonterminal} {k : TokenKind} (h : t :: ts ∈ lang (.rule n))
      (hn : heads n = (· == k)) (hk : isSimple k = false) : False := by
    have hhead := hheads h
    rw [hn] at hhead
    rw [beq_iff_eq.mp hhead, hk] at ht
    cases ht
  obtain ⟨n, hn, hword⟩ := mem_declarationWords.mp h
  simp only [declarationRules, List.mem_cons, List.not_mem_nil, or_false] at hn
  rcases hn with rfl | rfl | rfl | rfl
  · exact (hkind hword rfl rfl).elim
  · exact (hkind hword rfl rfl).elim
  · exact terminated_of_simple (by decide) hword
  · obtain ⟨m, hm, hword⟩ := mem_statementWords.mp hword
    simp only [statementRules, List.mem_cons, List.not_mem_nil, or_false] at hm
    rcases hm with rfl | rfl | rfl | rfl | rfl | rfl | rfl | rfl | rfl
    all_goals first
      | exact terminated_of_simple (by decide) hword
      | exact (hkind hword rfl rfl).elim

end Kinds

/-- What is skipped from a token of a statement on ends behind its semicolon. -/
theorem afterFault_terminated {t : Token} {ts : List Token} (h : Terminated (t :: ts))
    (hlater : ∀ u ∈ ts, beginsStatement u.kind = false) (rest : List Token) :
    afterFault (t :: (ts ++ rest)) = rest := by
  induction ts generalizing t with
  | nil =>
    cases h with
    | last hk =>
      rw [List.nil_append, afterFault]
      cases rest with
      | nil => rfl
      | cons u rest => rw [skipToBoundary, if_pos (.inl hk)]
    | more _ h => cases h
  | cons u ts ih =>
    obtain ⟨hu, hlater⟩ := List.forall_mem_cons.mp hlater
    cases h with
    | more hk h =>
      rw [afterFault, List.cons_append, skipToBoundary, if_neg (by simp [hk, hu])]
      exact ih h hlater

end Grammar

/-- A declaration of the grammar, with lists of any length. -/
def WellFormed (ts : List Token) : Prop :=
  Grammar.DerivesBy Grammar.unlimited (.rule .declaration) ts

/-- Lists that keep to the limit are as good as any. -/
theorem WellFormed.of_derives {ts : List Token}
    (h : Grammar.Ebnf.Derives (.rule .declaration) ts) : WellFormed ts := by
  refine (Grammar.derivesBy_rules.mpr h).of_rules fun n ts h => .rule ?_
  cases n with
  | parameters | arguments =>
    cases h with
    | seq hfirst hrest => exact .seq hfirst hrest.many_of_upTo
  | _ => exact h

/-- Tokens up to their only semicolon, without a brace or another beginning of a statement, that are
no declaration even with any expression left of an equals sign. -/
structure FaultyStatement (ts : List Token) : Prop where
  terminated : Grammar.Terminated ts
  plain : ∀ t ∈ ts, t.kind ≠ .leftBrace ∧ t.kind ≠ .rightBrace ∧ t.kind ≠ .kwElse ∧ t.kind ≠ .eof
  first : ∀ t ∈ ts.head?, Parser.beginsStatement t.kind = true →
    t.kind ∈ [.kwVar, .kwPrint, .kwReturn, .kwBreak, .kwContinue]
  later : ∀ t ∈ ts.tail, Parser.beginsStatement t.kind = false
  underivable : ¬Grammar.DerivesBy Grammar.relaxed (.rule .declaration) ts

/-- The declaration that tokens say, as they are read by themselves from some count of nodes. -/
structure Says (ts : List Token) (s : Stmt) : Prop where
  alone : ∃ next, (parse ts next).statements = [s] ∧ grave (parse ts next).errors = []
  spelled : Grammar.Ebnf.Derives (.rule .declaration) ts → Grammar.Spells (.declarations [s]) ts []

/-- What is read of pieces of a program, and the errors that are left: those that are well-formed
say the declarations, and each of the others has an error at one of its tokens. -/
inductive Recovered : List (List Token) → List Stmt → List ParseError → Prop where
  | nil : Recovered [] [] []
  | read {ts : List Token} {s : Stmt} {rest : List (List Token)} {ss : List Stmt}
      {es : List ParseError} : WellFormed ts → Says ts s → Recovered rest ss es →
    Recovered (ts :: rest) (s :: ss) es
  | skipped {ts : List Token} {e : ParseError} {rest : List (List Token)} {ss : List Stmt}
      {es : List ParseError} : FaultyStatement ts → e.token ∈ ts → Recovered rest ss es →
    Recovered (ts :: rest) ss (e :: es)

namespace FaultyStatement

variable {ts us : List Token}

theorem isSimple (h : FaultyStatement ts) {t : Token} (ht : t ∈ ts.head?) :
    Grammar.isSimple t.kind = true := by
  have hbrace := (h.plain t (List.mem_of_mem_head? ht)).1
  have hfirst := h.first t ht
  revert hbrace hfirst
  cases t.kind <;> simp [Grammar.isSimple, Parser.beginsStatement]

/-- No declaration begins with all of a faulty statement, or is where one stands. -/
theorem not_declaration (h : FaultyStatement ts) (hus : us ∈ Grammar.declarationWords)
    (more rest : List Token) : us ++ more ≠ ts ++ rest := by
  intro heq
  obtain ⟨u, hu, -⟩ := Grammar.heads_rule .declaration us hus
  obtain ⟨us, rfl⟩ := List.head?_eq_some_iff.mp hu
  have hhead : u ∈ ts.head? := by
    cases ts with
    | nil => cases h.terminated
    | cons t ts => exact congrArg some (List.cons.inj heq).1.symm
  have hterminated := Grammar.terminated_of_declaration (h.isSimple hhead) hus
  have hsame : u :: us = ts := by
    rcases List.prefix_or_prefix_of_prefix ⟨more, heq⟩ (List.prefix_append ts rest) with hp | hp
    · exact hterminated.eq_of_prefix h.terminated hp
    · exact (h.terminated.eq_of_prefix hterminated hp).symm
  exact h.underivable (hsame ▸ hus)

/-- What begins a declaration leaves something of a faulty statement behind. -/
theorem split {more rest : List Token} (h : FaultyStatement ts)
    (hus : ∃ ws, us ++ ws ∈ Grammar.declarationWords) (heq : us ++ more = ts ++ rest) :
    ∃ t later, ts = us ++ t :: later ∧ more = t :: (later ++ rest) := by
  obtain ⟨ws, hws⟩ := hus
  rcases List.append_eq_append_iff.mp heq with ⟨later, rfl, rfl⟩ | ⟨behind, rfl, -⟩
  · cases later with
    | nil =>
      rw [List.append_nil] at h
      exact absurd (List.append_nil (us ++ ws)) (h.not_declaration hws [] ws)
    | cons t later => exact ⟨t, later, rfl, rfl⟩
  · refine absurd ?_ (h.not_declaration hws [] (behind ++ ws))
    rw [List.append_nil, List.append_assoc]

end FaultyStatement

namespace Grammar

open Lox.Parser Ebnf

theorem grave_map_respell (f : Respelling) (es : List ParseError) :
    grave (es.map (ParseError.respell f)) = (grave es).map (ParseError.respell f) := by
  simp [grave, List.filter_map, Function.comp_def, ParseError.respell]

section Pieces

variable {ts rest : List Token} {c : Cursor} {depth : Nat}

/-- A faulty statement is skipped, with one error at one of its tokens. -/
theorem skips_faulty (h : FaultyStatement ts) (hc : c.pending = ts ++ rest)
    (hf : c.finish.kind = .eof) (hdepth : 2 ≤ depth) :
    ∃ e d, declarationUpTo depth c = (some none, d) ∧ d.pending = rest ∧
      d.graves = c.graves ++ [e] ∧ e.token ∈ ts := by
  obtain ⟨depth, rfl⟩ : ∃ k, depth = k + 2 := ⟨depth - 2, by omega⟩
  have hsimple : isSimple c.peek.kind = true := by
    cases ts with
    | nil => cases h.terminated
    | cons t ts => exact Predicted.peek_of_pending hc ▸ h.isSimple rfl
  have hpredicted : Predicted True Any declarationWords c
      (plainDeclaration (statementUpTo (depth + 1)) (declarationUpTo (depth + 1)) c) := by
    refine predicted_declaration (fun hk => ?_) (fun hk => ?_) hf (predicts_simple hf ?_)
    · rw [hk] at hsimple
      cases hsimple
    · rw [hk] at hsimple
      cases hsimple
    · revert hsimple
      cases c.peek.kind <;> decide
  rw [declarationUpTo_succ]
  unfold recovering
  generalize plainDeclaration (statementUpTo (depth + 1)) (declarationUpTo (depth + 1)) c = r
    at hpredicted
  cases hpredicted with
  | quiet us hpending _ _ hus _ =>
    exact absurd (hpending.symm.trans hc) (h.not_declaration hus _ _)
  | @faulty a d us more e _ hpending ht hgraves hus _ hsharp =>
    obtain ⟨rfl, hd, rfl⟩ := hsharp trivial
    obtain ⟨t, later, rfl, rfl⟩ := h.split hus (hpending.symm.trans hc)
    refine ⟨e, _, rfl, ?_, hgraves, ?_⟩
    · -- The tokens from the one at fault on still end in their only semicolon.
      show afterFault d.pending = rest
      rw [hd]
      refine afterFault_terminated h.terminated.of_append_cons (fun u hu => h.later u ?_) rest
      cases us with
      | nil => exact hu
      | cons _ us => exact List.mem_append_right us (List.mem_cons_of_mem t hu)
    · rw [ht]
      exact List.mem_append_right us List.mem_cons_self

/-- A declaration by itself is read without an error but mild ones. -/
theorem reads_alone (h : WellFormed ts) (next : Nat) :
    ∃ s d, declarationUpTo (2 * ts.length + 2) (Cursor.ofTokens ts next) = (some (some s), d) ∧
      d.pending = [] ∧ d.graves = [] ∧ Says ts s := by
  have hword : ts ∈ declarationWords := relaxed_of_unlimited h
  have hown := not_eof_of_declaration hword
  have hstart := ofTokens_of_no_end next hown
  generalize hc : Cursor.ofTokens ts next = c at hstart ⊢
  have hpending : c.pending = ts ++ [] := by rw [hstart, List.append_nil]
  have hend : c.finish.kind = .eof := by rw [hstart]; rfl
  have hlength : c.pending.length = ts.length := by rw [hpending, List.append_nil]
  have hpredicted := predicts_plainUpTo (2 * ts.length + 1) (n := ts.length + 1) (by omega)
    c hend (hlength ▸ Nat.lt_succ_self _)
  have hbehind : ElseClosed {[] ++ [c.finish]} := .of_heads fun w hw =>
    ⟨c.finish, by rw [show w = [c.finish] from hw]; rfl, by simp [hend]⟩
  obtain ⟨s, d, hd, hdone, -, hgraves⟩ := hpredicted.quiet_of_word hpending hword hbehind
  have hrun : declarationUpTo (2 * ts.length + 2) c = (some (some s), d) := by
    rw [declarationUpTo_succ, recovering, hd]
  have hstartGraves : c.graves = [] := c.graves_nil (by rw [hstart])
  rw [hstartGraves] at hgraves
  obtain ⟨t, ht, -⟩ := heads_rule .declaration ts hword
  have hne : c.pending ≠ [] := by
    rintro hnil
    rw [List.append_nil] at hpending
    rw [← hpending, hnil] at ht
    cases ht
  have hprogram : program (2 * ts.length + 2) c = (some [s], d) :=
    program_of_declares (.cons hne hrun (.nil d)) hdone (by rw [hgraves]; exact Nat.zero_le _)
  have hparse : parse ts next = ⟨[s], d.errors.toList, d.nextNode⟩ :=
    parse_of_program (by rw [hc, hlength, hprogram])
  refine ⟨s, d, hrun, hdone, hgraves, ⟨⟨next, ?_, ?_⟩, fun hderives => ?_⟩⟩
  · rw [hparse]
  · rw [hparse]
    exact hgraves
  · have htokens : ts.takeWhile (·.kind != .eof) = ts := by simpa using hown
    obtain ⟨ss, hss⟩ := spells_of_derives (.more hderives .done)
    rw [List.append_nil] at hss
    have hquiet := (parse_of_spells (htokens.symm ▸ hss) next).1
    have hspells := spells_of_parse hquiet
    rw [htokens, hparse] at hspells
    exact hspells

/-- A declaration is read behind other tokens and before others as it is by itself. -/
theorem reads_wellFormed (h : WellFormed ts) (hc : c.pending = ts ++ rest)
    (helse : ∀ t ∈ rest.head?, t.kind ≠ .kwElse) (hdepth : 2 * ts.length + 2 ≤ depth) :
    ∃ s d, declarationUpTo depth c = (some (some s), d) ∧ d.pending = rest ∧
      d.graves = c.graves ∧ Says ts s := by
  -- The same number of nodes is drawn before both readings, so they give the same tree.
  obtain ⟨s, e, he, hdone, hquiet, hsays⟩ := reads_alone h c.nextNode
  let k : Comparison := ⟨.same, rest, c.errors, False, False.elim, helse⟩
  have hstart := ofTokens_of_no_end c.nextNode (not_eof_of_declaration (relaxed_of_unlimited h))
  have halong : (Cursor.ofTokens ts c.nextNode).Along k c := by
    rw [hstart]
    exact ⟨by rw [hc, Respelling.map_same_token], by simp [k], fun _ => rfl, False.elim⟩
  have hlevels := levelsFollow (k := k) (2 * ts.length + 2) depth hdepth False.elim
  rcases hlevels.declaration.settles _ c e (some s) halong he with ⟨hs, ha⟩ | hlt
  · refine ⟨s, (declarationUpTo depth c).2, Prod.ext ?_ rfl, ?_, ?_, hsays⟩
    · have hsame : s.respell .same = s := by simpa using Stmt.map_respell_same [s]
      rw [hs, Option.map_some, hsame]
    · rw [ha.pending, hdone]
      rfl
    · have hmild : grave (e.errors.toList.map (ParseError.respell k.respell)) = [] := by
        rw [grave_map_respell, show grave e.errors.toList = [] from hquiet, List.map_nil]
      rw [Cursor.graves, ha.errors, Array.toList_append, Array.toList_map, grave,
        List.filter_append]
      exact (congrArg (c.graves ++ ·) hmild).trans (List.append_nil _)
  · rw [hquiet] at hlt
    exact absurd hlt (Nat.not_lt_zero _)

/-- A piece begins with a token that neither closes a body nor continues a statement. -/
theorem begins_of_piece (h : WellFormed ts ∨ FaultyStatement ts) :
    ∃ t more, ts = t :: more ∧ t.kind ≠ .rightBrace ∧ t.kind ≠ .kwElse := by
  rcases h with h | h
  · obtain ⟨t, ht, hk⟩ := heads_rule .declaration ts (relaxed_of_unlimited h)
    obtain ⟨more, rfl⟩ := List.head?_eq_some_iff.mp ht
    refine ⟨t, more, rfl, ?_, ?_⟩
    · intro he
      rw [he] at hk
      cases hk
    · intro he
      rw [he] at hk
      cases hk
  · cases ts with
    | nil => cases h.terminated
    | cons t more =>
      obtain ⟨-, hbrace, helse, -⟩ := h.plain t List.mem_cons_self
      exact ⟨t, more, rfl, hbrace, helse⟩

/-- A piece is read as the declaration that it says, or skipped with an error at one of its
tokens. -/
theorem reads_piece (h : WellFormed ts ∨ FaultyStatement ts) (hc : c.pending = ts ++ rest)
    (hf : c.finish.kind = .eof) (helse : ∀ t ∈ rest.head?, t.kind ≠ .kwElse)
    (hdepth : 2 * c.pending.length + 2 ≤ depth) :
    ∃ s? es d, declarationUpTo depth c = (some s?, d) ∧ d.pending = rest ∧
      d.graves = c.graves ++ es ∧ ∀ pieces ss es', Recovered pieces ss es' →
        Recovered (ts :: pieces) (s?.toList ++ ss) (es ++ es') := by
  have hlength := congrArg List.length hc
  rw [List.length_append] at hlength
  rcases h with h | h
  · obtain ⟨s, d, hd, hrest, hgraves, hsays⟩ :=
      reads_wellFormed h hc helse (show 2 * ts.length + 2 ≤ depth by omega)
    exact ⟨some s, [], d, hd, hrest, by rw [hgraves, List.append_nil],
      fun _ _ _ hrec => .read h hsays hrec⟩
  · obtain ⟨e, d, hd, hrest, hgraves, he⟩ := skips_faulty h hc hf
      (show 2 ≤ depth by omega)
    exact ⟨none, [e], d, hd, hrest, hgraves, fun _ _ _ hrec => .skipped h he hrec⟩

/-- A loop over declarations reads the pieces before it one by one. -/
theorem gathers_pieces {stops : Cursor → Bool} {next : Array Stmt → Parser (Option (Array Stmt))}
    (hg : Gathers stops (declarationUpTo depth) next)
    (hgo : ∀ (c : Cursor) (t : Token) (more : List Token), c.pending = t :: more →
      t.kind ≠ .rightBrace → stops c = false)
    (hstop : ∀ c : Cursor, c.pending = rest → stops c = true)
    (helse : ∀ t ∈ rest.head?, t.kind ≠ .kwElse) {pieces : List (List Token)}
    (hpieces : ∀ ts ∈ pieces, WellFormed ts ∨ FaultyStatement ts) :
    ∀ (m : Nat) (body : Array Stmt) (c : Cursor), c.pending = pieces.flatten ++ rest →
    c.finish.kind = .eof → c.pending.length ≤ m → 2 * c.pending.length + 2 ≤ depth →
    ∃ ss es d, iterateUpTo m next body c = (some (body ++ ss.toArray), d) ∧ d.pending = rest ∧
      d.graves = c.graves ++ es ∧ Recovered pieces ss es := by
  induction pieces with
  | nil =>
    intro m body c hc _ _ _
    refine ⟨[], [], c, ?_, hc, (List.append_nil _).symm, .nil⟩
    cases m with
    | zero => simp [iterateUpTo]
    | succ m =>
      rw [iterateUpTo, bind_apply, hg.turn, if_pos (hstop c hc)]
      simp
  | cons ts pieces ih =>
    intro m body c hc hf hm hdepth
    obtain ⟨hpiece, hothers⟩ := List.forall_mem_cons.mp hpieces
    rw [List.flatten_cons, List.append_assoc] at hc
    have hbehind : ∀ t ∈ (pieces.flatten ++ rest).head?, t.kind ≠ .kwElse := by
      cases pieces with
      | nil => exact helse
      | cons us pieces =>
        obtain ⟨t, more, rfl, -, hk⟩ := begins_of_piece (hothers us List.mem_cons_self)
        rintro _ ⟨⟩
        exact hk
    obtain ⟨s?, es, d, hd, hrest, hgraves, hrec⟩ := reads_piece hpiece hc hf hbehind hdepth
    obtain ⟨t, more, rfl, hbrace, -⟩ := begins_of_piece hpiece
    have hreads := (reads_declarationUpTo depth).reads c
    rw [hd] at hreads
    have hshort : d.pending.length < c.pending.length := by
      rw [hrest, hc, List.cons_append, List.length_cons, List.length_append, List.length_append,
        List.length_append]
      omega
    cases m with
    | zero => omega
    | succ m =>
      obtain ⟨ss, es', e, he, hdone, hgraves', hrecovered⟩ :=
        ih hothers m (s?.elim body body.push) d hrest (hreads.finish ▸ hf) (by omega) (by omega)
      refine ⟨s?.toList ++ ss, es ++ es', e, ?_, hdone, ?_, hrec _ _ _ hrecovered⟩
      · rw [iterateUpTo, bind_apply, hg.turn, hgo c t _ hc hbrace, hd]
        refine he.trans ?_
        cases s? <;> simp
      · rw [hgraves', hgraves, List.append_assoc]

variable {pieces : List (List Token)}

theorem recovers_program (hpieces : ∀ ts ∈ pieces, WellFormed ts ∨ FaultyStatement ts)
    (hc : c.pending = pieces.flatten) (hf : c.finish.kind = .eof)
    (hdepth : 2 * c.pending.length + 2 ≤ depth) :
    ∃ ss es d, program depth c = (some ss, d) ∧ d.graves = c.graves ++ es ∧
      Recovered pieces ss es := by
  have hgo (c : Cursor) (t : Token) (more : List Token) (hc : c.pending = t :: more)
      (_ : t.kind ≠ .rightBrace) : c.atEnd = false := by simp [Cursor.atEnd, hc]
  have hstop (c : Cursor) (hc : c.pending = []) : c.atEnd = true := by simp [Cursor.atEnd, hc]
  obtain ⟨ss, es, d, hd, -, hgraves, hrecovered⟩ := gathers_pieces (gathers_declareNext depth) hgo
    hstop (by simp) hpieces c.pending.length #[] c (by rw [hc, List.append_nil]) hf (Nat.le_refl _)
    hdepth
  refine ⟨ss, es, d, ?_, hgraves, hrecovered⟩
  rw [program_eq, bind_apply, (loopsEnd depth).program.iterate_eq hf (Nat.le_refl _), hd]
  simp

theorem recovers_block (hpieces : ∀ ts ∈ pieces, WellFormed ts ∨ FaultyStatement ts)
    {closing : Token} (hc : c.pending = pieces.flatten ++ closing :: rest)
    (hk : closing.kind = .rightBrace) (hf : c.finish.kind = .eof)
    (hdepth : 2 * c.pending.length + 2 ≤ depth) :
    ∃ ss es d, block (declarationUpTo depth) c = (some ss, d) ∧ d.pending = rest ∧
      d.graves = c.graves ++ es ∧ Recovered pieces ss es := by
  have hgo (c : Cursor) (t : Token) (more : List Token) (hc : c.pending = t :: more)
      (ht : t.kind ≠ .rightBrace) : c.closes = false := by
    simp [Cursor.closes, Cursor.check, Cursor.atEnd, hc, ht]
  have hstop (c : Cursor) (hc : c.pending = closing :: rest) : c.closes = true := by
    simp [Cursor.closes, Cursor.check, hc, hk]
  have helse : ∀ t ∈ (closing :: rest).head?, t.kind ≠ .kwElse := by
    rintro _ ⟨⟩ he
    cases hk.symm.trans he
  obtain ⟨ss, es, d, hd, hdone, hgraves, hrecovered⟩ := gathers_pieces
    (gathers_blockNext (declarationUpTo depth)) hgo hstop helse hpieces c.pending.length #[] c hc hf
    (Nat.le_refl _) hdepth
  refine ⟨ss, es, { d with pending := rest }, ?_, rfl, hgraves, hrecovered⟩
  rw [block_eq, bind_apply, (loopsEnd depth).block.iterate_eq hf (Nat.le_refl _), hd]
  have hbrace : expect .blockEnd d = (some closing, { d with pending := rest }) :=
    expect_cons hk hdone
  simp [bind_apply, hbrace]

/-- A statement that is a block is read whole, whatever is at fault in it. -/
theorem reads_block_of_pieces (hpieces : ∀ ts ∈ pieces, WellFormed ts ∨ FaultyStatement ts)
    {opening closing : Token} (hc : c.pending = opening :: (pieces.flatten ++ closing :: rest))
    (hopening : opening.kind = .leftBrace) (hclosing : closing.kind = .rightBrace)
    (hf : c.finish.kind = .eof) (hdepth : 2 * c.pending.length ≤ depth) :
    ∃ body es d, declarationUpTo (depth + 2) c = (some (some (.block body)), d) ∧
      d.pending = rest ∧ d.graves = c.graves ++ es ∧ Recovered pieces body es := by
  let inside : Cursor := { c with pending := pieces.flatten ++ closing :: rest }
  have hinside : 2 * inside.pending.length + 2 ≤ depth := by
    rw [hc, List.length_cons] at hdepth
    exact hdepth
  obtain ⟨body, es, d, hd, hrest, hgraves, hrecovered⟩ :=
    recovers_block (c := inside) hpieces rfl hclosing hf hinside
  have hpeek : c.peek.kind = .leftBrace := by rw [Predicted.peek_of_pending hc, hopening]
  have hadvance : advance c = (some (), inside) := by simp [advance, hc, inside]
  have hstatement : statementUpTo (depth + 1) c = (some (.block body), d) := by
    rw [statementUpTo]
    unfold statement
    simp [bind_apply, Parser.peek, hpeek, hadvance, hd]
  refine ⟨body, es, d, ?_, hrest, hgraves, hrecovered⟩
  rw [declarationUpTo_succ]
  unfold recovering plainDeclaration
  simp [bind_apply, Parser.peek, hpeek, hstatement]

theorem recovers_program_block (hpieces : ∀ ts ∈ pieces, WellFormed ts ∨ FaultyStatement ts)
    {opening closing : Token} (hc : c.pending = opening :: (pieces.flatten ++ [closing]))
    (hopening : opening.kind = .leftBrace) (hclosing : closing.kind = .rightBrace)
    (hf : c.finish.kind = .eof) (hdepth : 2 * c.pending.length ≤ depth) :
    ∃ body es d, program (depth + 2) c = (some [.block body], d) ∧ d.graves = c.graves ++ es ∧
      Recovered pieces body es := by
  obtain ⟨body, es, d, hd, hdone, hgraves, hrecovered⟩ :=
    reads_block_of_pieces hpieces hc hopening hclosing hf hdepth
  have hread : declareNext (depth + 2) #[] c = (some (some #[.block body]), d) := by
    rw [declareNext_cons (by simp [hc]), hd]
    rfl
  refine ⟨body, es, d, ?_, hgraves, hrecovered⟩
  simp [program_eq, bind_apply, iterate, hread, hdone, iterateUpTo]

end Pieces

end Grammar

/-- A program that is a block is read whole, with an error for each faulty statement in it. -/
theorem recovery_inside_a_block {pieces : List (List Token)}
    (hpieces : ∀ ts ∈ pieces, WellFormed ts ∨ FaultyStatement ts) {tokens : List Token}
    {opening closing : Token} (hopening : opening.kind = .leftBrace)
    (hclosing : closing.kind = .rightBrace)
    (htokens : beforeEnd tokens = opening :: (pieces.flatten ++ [closing])) (next : Nat) :
    ∃ body, (parse tokens next).statements = [.block body] ∧
      Recovered pieces body (grave (parse tokens next).errors) := by
  obtain ⟨_, _, -, -, -, hend⟩ := ofTokens_at tokens next
  obtain ⟨body, es, d, hd, hgraves, hrecovered⟩ :=
    Grammar.recovers_program_block hpieces htokens hopening hclosing hend (Nat.le_refl _)
  obtain rfl : grave d.errors.toList = es := hgraves
  rw [parse_of_program hd]
  exact ⟨body, rfl, hrecovered⟩

/-- Whatever is at fault, the declarations around it are read, in a program and in a block: one
error is left for each faulty statement, at one of its tokens, and no others but mild ones. A block
is read with two levels to spare for each token, as all of them are in a parse. -/
theorem recovery_isolates_faults (pieces : List (List Token))
    (hpieces : ∀ ts ∈ pieces, WellFormed ts ∨ FaultyStatement ts) :
    (∀ (tokens : List Token) (next : Nat), beforeEnd tokens = pieces.flatten →
      Recovered pieces (parse tokens next).statements (grave (parse tokens next).errors)) ∧
    (∀ (depth : Nat) (c : Cursor) (closing : Token) (rest : List Token),
      c.pending = pieces.flatten ++ closing :: rest → closing.kind = .rightBrace →
      c.finish.kind = .eof → 2 * c.pending.length + 2 ≤ depth →
      ∃ body es d, Grammar.block (Grammar.declarationUpTo depth) c = (some body, d) ∧
        d.pending = rest ∧ d.graves = c.graves ++ es ∧ Recovered pieces body es) := by
  constructor
  · intro tokens next htokens
    obtain ⟨_, _, -, -, -, hend⟩ := ofTokens_at tokens next
    obtain ⟨ss, es, d, hd, hgraves, hrecovered⟩ :=
      Grammar.recovers_program hpieces htokens hend (Nat.le_refl _)
    obtain rfl : grave d.errors.toList = es := hgraves
    rw [parse_of_program hd]
    exact hrecovered
  · intro depth c closing rest hc hk hf hdepth
    exact Grammar.recovers_block hpieces hc hk hf hdepth

/-- A `print` without a value is skipped, and the variable behind it is declared. -/
theorem recovered_behind_print :
    let semicolon : Token := ⟨.semicolon, ";", none, 1⟩
    let name : Token := ⟨.identifier, "x", none, 1⟩
    Recovered [[⟨.kwPrint, "print", none, 1⟩, semicolon],
      [⟨.kwVar, "var", none, 1⟩, name, semicolon]] [.varDecl name none]
      [⟨semicolon, .expectedExpression⟩] := by
  intro semicolon name
  have hfaulty : FaultyStatement [⟨.kwPrint, "print", none, 1⟩, semicolon] := by
    constructor
    case terminated => exact .more (by decide) (.last rfl)
    case plain => decide
    case first =>
      rintro _ ⟨⟩ -
      decide
    case later => decide
    case underivable =>
      intro h
      have hquiet := graves_of_derives [⟨.kwPrint, "print", none, 1⟩, semicolon]
        (.more h .done) 0
      revert hquiet
      decide +kernel
  have hdeclared : Grammar.Ebnf.Derives (.rule .declaration)
      ([⟨.kwVar, "var", none, 1⟩] ++ [name] ++ [] ++ [semicolon]) :=
    .rule (.left (.right (.rule (.seq (.seq (.seq (.token rfl) (.token rfl)) .absent)
      (.token rfl)))))
  have hparse : parse [⟨.kwPrint, "print", none, 1⟩, semicolon, ⟨.kwVar, "var", none, 1⟩, name,
      semicolon] 0 = ⟨[.varDecl name none], [⟨semicolon, .expectedExpression⟩], 0⟩ := rfl
  have hpieces : ∀ ts ∈ [[⟨.kwPrint, "print", none, 1⟩, semicolon],
      [⟨.kwVar, "var", none, 1⟩, name, semicolon]], WellFormed ts ∨ FaultyStatement ts := by
    rintro _ (_ | ⟨_, _ | ⟨_, ⟨⟩⟩⟩)
    · exact .inr hfaulty
    · exact .inl (.of_derives hdeclared)
  have hrecovered := (recovery_isolates_faults _ hpieces).1 [⟨.kwPrint, "print", none, 1⟩,
    semicolon, ⟨.kwVar, "var", none, 1⟩, name, semicolon] 0 rfl
  rw [hparse] at hrecovered
  exact hrecovered

end Lox
