import Mathlib.Logic.Relation
import Lox.Grammar.Fault

/-! The grammar as it is written down, and what derives from it.

The rules of the language are data, in the notation of the grammar: tokens, rules by name,
sequences, alternatives, optional parts and repetitions. A list of parameters or arguments is one
entry and a repetition of bounded length. Derivation knows nothing of the parser or its trees. -/

namespace Lox.Grammar

inductive Nonterminal where
  | program | declaration | classDecl | funDecl | function | parameters | varDecl
  | statement | exprStmt | forStmt | ifStmt | printStmt | returnStmt | whileStmt | breakStmt
  | continueStmt | block
  | expression | assignment | logicOr | logicAnd | equality | comparison | term | factor | unary
  | call | arguments | primary
  deriving DecidableEq, Repr

inductive Ebnf where
  | token (kind : TokenKind)
  | rule (n : Nonterminal)
  | seq (x y : Ebnf)
  | either (x y : Ebnf)
  | optional (x : Ebnf)
  | many (x : Ebnf)
  | upTo (bound : Nat) (x : Ebnf)
  deriving DecidableEq, Repr

namespace Ebnf

instance : Append Ebnf := ⟨seq⟩

instance : OrOp Ebnf := ⟨either⟩

/-- The rules in the order of the grammar. Expression, `if`, `print`, `return` and `while`
statements, which the grammar names without giving a rule, have the rules that their names say. -/
def rules : Nonterminal → Ebnf
  | .program => many (rule .declaration) ++ token .eof
  | .declaration => rule .classDecl ||| rule .funDecl ||| rule .varDecl ||| rule .statement
  | .classDecl => token .kwClass ++ token .identifier ++
    optional (token .less ++ token .identifier) ++
    token .leftBrace ++ many (rule .function) ++ token .rightBrace
  | .funDecl => token .kwFun ++ rule .function
  | .function => token .identifier ++ token .leftParen ++ optional (rule .parameters) ++
    token .rightParen ++ rule .block
  | .parameters => token .identifier ++ upTo (maxListLength - 1) (token .comma ++ token .identifier)
  | .varDecl => token .kwVar ++ token .identifier ++
    optional (token .equal ++ rule .expression) ++ token .semicolon
  | .statement => rule .exprStmt ||| rule .forStmt ||| rule .ifStmt ||| rule .printStmt |||
    rule .returnStmt ||| rule .whileStmt ||| rule .breakStmt ||| rule .continueStmt ||| rule .block
  | .exprStmt => rule .expression ++ token .semicolon
  | .forStmt => token .kwFor ++ token .leftParen ++
    (rule .varDecl ||| rule .exprStmt ||| token .semicolon) ++
    optional (rule .expression) ++ token .semicolon ++ optional (rule .expression) ++
    token .rightParen ++ rule .statement
  | .ifStmt => token .kwIf ++ token .leftParen ++ rule .expression ++ token .rightParen ++
    rule .statement ++ optional (token .kwElse ++ rule .statement)
  | .printStmt => token .kwPrint ++ rule .expression ++ token .semicolon
  | .returnStmt => token .kwReturn ++ optional (rule .expression) ++ token .semicolon
  | .whileStmt => token .kwWhile ++ token .leftParen ++ rule .expression ++ token .rightParen ++
    rule .statement
  | .breakStmt => token .kwBreak ++ token .semicolon
  | .continueStmt => token .kwContinue ++ token .semicolon
  | .block => token .leftBrace ++ many (rule .declaration) ++ token .rightBrace
  | .expression => rule .assignment
  | .assignment => optional (rule .call ++ token .dot) ++ token .identifier ++ token .equal ++
    rule .assignment ||| rule .logicOr
  | .logicOr => rule .logicAnd ++ many (token .kwOr ++ rule .logicAnd)
  | .logicAnd => rule .equality ++ many (token .kwAnd ++ rule .equality)
  | .equality => rule .comparison ++
    many ((token .bangEqual ||| token .equalEqual) ++ rule .comparison)
  | .comparison => rule .term ++
    many ((token .greater ||| token .greaterEqual ||| token .less ||| token .lessEqual) ++
      rule .term)
  | .term => rule .factor ++ many ((token .minus ||| token .plus) ++ rule .factor)
  | .factor => rule .unary ++ many ((token .slash ||| token .star) ++ rule .unary)
  | .unary => (token .bang ||| token .minus) ++ rule .unary ||| rule .call
  | .call => rule .primary ++
    many (token .leftParen ++ optional (rule .arguments) ++ token .rightParen |||
      token .dot ++ token .identifier)
  | .arguments => rule .expression ++ upTo (maxListLength - 1) (token .comma ++ rule .expression)
  | .primary => token .number ||| token .string ||| token .kwTrue ||| token .kwFalse |||
    token .kwNil ||| token .kwThis ||| token .identifier |||
    token .leftParen ++ rule .expression ++ token .rightParen |||
    token .kwSuper ++ token .dot ++ token .identifier

inductive Derives : Ebnf → List Token → Prop where
  | token {k : TokenKind} {t : Token} : t.kind = k → Derives (token k) [t]
  | rule {n : Nonterminal} {ts : List Token} : Derives (rules n) ts → Derives (rule n) ts
  | seq {x y : Ebnf} {ts us : List Token} :
    Derives x ts → Derives y us → Derives (seq x y) (ts ++ us)
  | left {x y : Ebnf} {ts : List Token} : Derives x ts → Derives (either x y) ts
  | right {x y : Ebnf} {ts : List Token} : Derives y ts → Derives (either x y) ts
  | absent {x : Ebnf} : Derives (optional x) []
  | present {x : Ebnf} {ts : List Token} : Derives x ts → Derives (optional x) ts
  | done {x : Ebnf} : Derives (many x) []
  | more {x : Ebnf} {ts us : List Token} :
    Derives x ts → Derives (many x) us → Derives (many x) (ts ++ us)
  | enough {n : Nat} {x : Ebnf} : Derives (upTo n x) []
  | another {n : Nat} {x : Ebnf} {ts us : List Token} :
    Derives x ts → Derives (upTo n x) us → Derives (upTo (n + 1) x) (ts ++ us)

/-- Up to so many steps of a relation, the last one at the end. -/
def Steps (r : List Token → List Token → Prop) : Nat → List Token → List Token → Prop
  | 0, ts, us => ts = us
  | n + 1, ts, us => ts = us ∨ ∃ vs, Steps r n ts vs ∧ r vs us

/-- What a phrase means when the rules by name have the meanings `S`: each relates the tokens before
the phrase to those behind it. -/
def Holds (S : Nonterminal → List Token → List Token → Prop) :
    Ebnf → List Token → List Token → Prop
  | token k, ts, us => ∃ t : Token, t.kind = k ∧ ts = t :: us
  | rule n, ts, us => S n ts us
  | seq x y, ts, us => ∃ vs, Holds S x ts vs ∧ Holds S y vs us
  | either x y, ts, us => Holds S x ts us ∨ Holds S y ts us
  | optional x, ts, us => Holds S x ts us ∨ ts = us
  | many x, ts, us => Relation.ReflTransGen (Holds S x) ts us
  | upTo n x, ts, us => Steps (Holds S x) n ts us

theorem Steps.refl (r : List Token → List Token → Prop) (n : Nat) (ts : List Token) :
    Steps r n ts ts := by
  cases n with
  | zero => rfl
  | succ n => exact .inl rfl

theorem Steps.head {r : List Token → List Token → Prop} {n : Nat} {ts us : List Token}
    (h : r ts us) : ∀ {vs : List Token}, Steps r n us vs → Steps r (n + 1) ts vs := by
  induction n with
  | zero =>
    rintro _ rfl
    exact .inr ⟨ts, rfl, h⟩
  | succ n ih =>
    rintro vs (rfl | ⟨ws, hws, hr⟩)
    · exact .inr ⟨ts, .refl .., h⟩
    · exact .inr ⟨ws, ih hws, hr⟩

variable {S : Nonterminal → List Token → List Token → Prop} {x y : Ebnf} {ts us : List Token}

@[simp] theorem holds_append :
    Holds S (x ++ y) ts us ↔ ∃ vs, Holds S x ts vs ∧ Holds S y vs us := Iff.rfl

@[simp] theorem holds_or : Holds S (x ||| y) ts us ↔ Holds S x ts us ∨ Holds S y ts us := Iff.rfl

/-- Meanings that the rules preserve hold of all that derives. -/
theorem Derives.holds (hS : ∀ n ts us, Holds S (rules n) ts us → S n ts us)
    (h : Derives x ts) : ∀ us, Holds S x (ts ++ us) us := by
  induction h with
  | @token _ t hk => exact fun us => ⟨t, hk, rfl⟩
  | rule _ ih => exact fun us => hS _ _ _ (ih us)
  | seq _ _ ih ih' => exact fun us => ⟨_, by rw [List.append_assoc]; exact ih _, ih' us⟩
  | left _ ih => exact fun us => .inl (ih us)
  | right _ ih => exact fun us => .inr (ih us)
  | absent => exact fun us => .inr rfl
  | present _ ih => exact fun us => .inl (ih us)
  | done => exact fun us => .refl
  | more _ _ ih ih' =>
    exact fun us => .head (by rw [List.append_assoc]; exact ih _) (ih' us)
  | enough => exact fun us => .refl ..
  | another _ _ ih ih' =>
    exact fun us => .head (by rw [List.append_assoc]; exact ih _) (ih' us)

/-- Whether a phrase stays before the end of input. -/
def inner : Ebnf → Bool
  | token k => k != .eof
  | rule n => n != .program
  | seq x y | either x y => x.inner && y.inner
  | optional x | many x | upTo _ x => x.inner

/-- Only a program goes up to the end of input. -/
theorem inner_rules {n : Nonterminal} (h : n ≠ .program) : (rules n).inner = true := by
  cases n <;> first | rfl | exact absurd rfl h

theorem Derives.not_eof (h : Derives x ts) (hx : x.inner = true) : ∀ t ∈ ts, t.kind ≠ .eof := by
  induction h with
  | token hk =>
    rintro _ (_ | ⟨_, ⟨⟩⟩)
    simpa [hk, inner] using hx
  | rule _ ih => exact ih (inner_rules (by simpa [inner] using hx))
  | seq _ _ ih ih' =>
    obtain ⟨hx, hy⟩ := Bool.and_eq_true_iff.mp hx
    intro t ht
    exact (List.mem_append.mp ht).elim (ih hx t) (ih' hy t)
  | left _ ih => exact ih (Bool.and_eq_true_iff.mp hx).1
  | right _ ih => exact ih (Bool.and_eq_true_iff.mp hx).2
  | absent | done | enough => exact List.forall_mem_nil _
  | present _ ih => exact ih hx
  | more _ _ ih ih' | another _ _ ih ih' =>
    intro t ht
    exact (List.mem_append.mp ht).elim (ih hx t) (ih' hx t)

/-- A phrase that derives stands first, with these tokens behind it. -/
def Stands (x : Ebnf) (ts us : List Token) : Prop := ∃ ws, ts = ws ++ us ∧ Derives x ws

theorem Derives.many_snoc {vs : List Token} (h : Derives (many x) ts) (hx : Derives x vs) :
    Derives (many x) (ts ++ vs) := by
  generalize hm : many x = m at h
  induction h with
  | done =>
    cases hm
    simpa using Derives.more hx .done
  | more h _ _ ih =>
    cases hm
    simpa using Derives.more h (ih rfl)
  | _ => cases hm

theorem Derives.upTo_snoc {n : Nat} {vs : List Token} (h : Derives (upTo n x) ts)
    (hx : Derives x vs) : Derives (upTo (n + 1) x) (ts ++ vs) := by
  generalize hm : upTo n x = m at h
  induction h generalizing n with
  | enough =>
    cases hm
    simpa using Derives.another hx .enough
  | another h _ _ ih =>
    cases hm
    simpa using Derives.another h (ih rfl)
  | _ => cases hm

theorem Steps.stands {n : Nat} (hx : ∀ {ts us}, Holds S x ts us → Stands x ts us) :
    ∀ {us}, Steps (Holds S x) n ts us → Stands (upTo n x) ts us := by
  induction n with
  | zero =>
    rintro _ rfl
    exact ⟨[], rfl, .enough⟩
  | succ n ih =>
    rintro us (rfl | ⟨vs, hvs, hr⟩)
    · exact ⟨[], rfl, .enough⟩
    · obtain ⟨ws, rfl, hws⟩ := ih hvs
      obtain ⟨xs, rfl, hxs⟩ := hx hr
      exact ⟨ws ++ xs, by simp, hws.upTo_snoc hxs⟩

/-- Derivation is itself a meaning of the rules. -/
theorem Holds.stands (h : Holds (fun n => Stands (rule n)) x ts us) : Stands x ts us := by
  induction x generalizing ts us with
  | token k =>
    obtain ⟨t, hk, rfl⟩ := h
    exact ⟨[t], rfl, .token hk⟩
  | rule n => exact h
  | seq x y ihx ihy =>
    obtain ⟨vs, hx, hy⟩ := h
    obtain ⟨ws, rfl, hws⟩ := ihx hx
    obtain ⟨xs, rfl, hxs⟩ := ihy hy
    exact ⟨ws ++ xs, by simp, .seq hws hxs⟩
  | either x y ihx ihy =>
    rcases h with hx | hy
    · obtain ⟨ws, rfl, hws⟩ := ihx hx
      exact ⟨ws, rfl, .left hws⟩
    · obtain ⟨ws, rfl, hws⟩ := ihy hy
      exact ⟨ws, rfl, .right hws⟩
  | optional x ih =>
    rcases h with hx | rfl
    · obtain ⟨ws, rfl, hws⟩ := ih hx
      exact ⟨ws, rfl, .present hws⟩
    · exact ⟨[], rfl, .absent⟩
  | many x ih =>
    induction h with
    | refl => exact ⟨[], rfl, .done⟩
    | tail _ hx ih' =>
      obtain ⟨ws, rfl, hws⟩ := ih'
      obtain ⟨xs, rfl, hxs⟩ := ih hx
      exact ⟨ws ++ xs, by simp, hws.many_snoc hxs⟩
  | upTo n x ih => exact Steps.stands ih h

theorem stands_of_holds {n : Nonterminal}
    (h : Holds (fun n => Stands (rule n)) (rules n) ts us) : Stands (rule n) ts us := by
  obtain ⟨ws, rfl, hws⟩ := h.stands
  exact ⟨ws, rfl, .rule hws⟩

theorem holds_of_stands {n : Nonterminal} (h : Stands (rule n) ts us) :
    Holds (fun n => Stands (rule n)) (rules n) ts us := by
  obtain ⟨ws, rfl, hws⟩ := h
  cases hws with
  | rule hws => exact hws.holds (fun _ _ _ => stands_of_holds) us

end Ebnf

end Lox.Grammar
