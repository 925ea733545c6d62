import Mathlib.Computability.Language
import Lox.Proofs.Grammar.Completeness.Statement
import Lox.Proofs.Grammar.Ebnf

/-! The grammar that the parser follows while it reads.

The parser decides what can be assigned to, and how long a list may be, only after it has read on.
Until then it follows a larger grammar, in which any expression stands left of an equals sign and
lists have no bound. The words of its phrases are languages, made of tokens by sequence, choice and
repetition; what they begin with is computed from the rules. -/

namespace Lox.Grammar

open Ebnf
open scoped Computability

/-- Derivation by the rules that are given. -/
inductive DerivesBy (G : Nonterminal → Ebnf) : Ebnf → List Token → Prop where
  | token {k : TokenKind} {t : Token} : t.kind = k → DerivesBy G (token k) [t]
  | rule {n : Nonterminal} {ts : List Token} : DerivesBy G (G n) ts → DerivesBy G (rule n) ts
  | seq {x y : Ebnf} {ts us : List Token} :
    DerivesBy G x ts → DerivesBy G y us → DerivesBy G (seq x y) (ts ++ us)
  | left {x y : Ebnf} {ts : List Token} : DerivesBy G x ts → DerivesBy G (either x y) ts
  | right {x y : Ebnf} {ts : List Token} : DerivesBy G y ts → DerivesBy G (either x y) ts
  | absent {x : Ebnf} : DerivesBy G (optional x) []
  | present {x : Ebnf} {ts : List Token} : DerivesBy G x ts → DerivesBy G (optional x) ts
  | done {x : Ebnf} : DerivesBy G (many x) []
  | more {x : Ebnf} {ts us : List Token} :
    DerivesBy G x ts → DerivesBy G (many x) us → DerivesBy G (many x) (ts ++ us)
  | enough {n : Nat} {x : Ebnf} : DerivesBy G (upTo n x) []
  | another {n : Nat} {x : Ebnf} {ts us : List Token} :
    DerivesBy G x ts → DerivesBy G (upTo n x) us → DerivesBy G (upTo (n + 1) x) (ts ++ us)

section Rules

variable {G G' : Nonterminal → Ebnf} {x : Ebnf} {ts us : List Token}

theorem derivesBy_rules : DerivesBy rules x ts ↔ Derives x ts := by
  constructor
  · intro h
    induction h with
    | token hk => exact .token hk
    | rule _ ih => exact .rule ih
    | seq _ _ ih ih' => exact .seq ih ih'
    | left _ ih => exact .left ih
    | right _ ih => exact .right ih
    | absent => exact .absent
    | present _ ih => exact .present ih
    | done => exact .done
    | more _ _ ih ih' => exact .more ih ih'
    | enough => exact .enough
    | another _ _ ih ih' => exact .another ih ih'
  · intro h
    induction h with
    | token hk => exact .token hk
    | rule _ ih => exact .rule ih
    | seq _ _ ih ih' => exact .seq ih ih'
    | left _ ih => exact .left ih
    | right _ ih => exact .right ih
    | absent => exact .absent
    | present _ ih => exact .present ih
    | done => exact .done
    | more _ _ ih ih' => exact .more ih ih'
    | enough => exact .enough
    | another _ _ ih ih' => exact .another ih ih'

/-- Rules whose bodies derive by other rules what these derive. -/
theorem DerivesBy.of_rules (hG : ∀ n ts, DerivesBy G' (G n) ts → DerivesBy G' (.rule n) ts)
    (h : DerivesBy G x ts) : DerivesBy G' x ts := by
  induction h with
  | token hk => exact .token hk
  | rule _ ih => exact hG _ _ ih
  | seq _ _ ih ih' => exact .seq ih ih'
  | left _ ih => exact .left ih
  | right _ ih => exact .right ih
  | absent => exact .absent
  | present _ ih => exact .present ih
  | done => exact .done
  | more _ _ ih ih' => exact .more ih ih'
  | enough => exact .enough
  | another _ _ ih ih' => exact .another ih ih'

theorem DerivesBy.many_of_upTo {n : Nat} (h : DerivesBy G (upTo n x) ts) :
    DerivesBy G (many x) ts := by
  generalize hu : upTo n x = y at h
  induction h generalizing n with
  | enough =>
    cases hu
    exact .done
  | another hx _ _ ih =>
    cases hu
    exact .more hx (ih rfl)
  | _ => cases hu

end Rules

/-- The rules as they are written down, with lists of any length. -/
def unlimited : Nonterminal → Ebnf
  | .parameters => token .identifier ++ many (token .comma ++ token .identifier)
  | .arguments => rule .expression ++ many (token .comma ++ rule .expression)
  | n => rules n

/-- The rules with any expression left of an equals sign. -/
def relaxed : Nonterminal → Ebnf
  | .assignment => rule .logicOr ++ optional (token .equal ++ rule .assignment)
  | n => unlimited n

/-- The words that a phrase of the relaxed grammar derives. -/
def lang (x : Ebnf) : Language Token := {ts | DerivesBy relaxed x ts}

section Words

variable {x y : Ebnf} {n : Nonterminal} {k : TokenKind} {ts : List Token}

theorem mem_lang : ts ∈ lang x ↔ DerivesBy relaxed x ts := Iff.rfl

theorem mem_token : ts ∈ lang (token k) ↔ ∃ t : Token, t.kind = k ∧ ts = [t] := by
  constructor
  · rintro (_ | _)
    exact ⟨_, ‹_›, rfl⟩
  · rintro ⟨t, hk, rfl⟩
    exact .token hk

theorem lang_rule (n : Nonterminal) : lang (rule n) = lang (relaxed n) := by
  ext ts
  constructor
  · rintro (_ | h)
    exact h
  · exact .rule

theorem lang_append (x y : Ebnf) : lang (x ++ y) = lang x * lang y := by
  ext ts
  rw [Language.mem_mul]
  constructor
  · intro h
    cases h with
    | seq hx hy => exact ⟨_, hx, _, hy, rfl⟩
  · rintro ⟨us, hx, vs, hy, rfl⟩
    exact .seq hx hy

theorem lang_or (x y : Ebnf) : lang (x ||| y) = lang x + lang y := by
  ext ts
  rw [Language.mem_add]
  constructor
  · intro h
    cases h with
    | left h => exact .inl h
    | right h => exact .inr h
  · rintro (h | h)
    · exact .left h
    · exact .right h

theorem lang_optional (x : Ebnf) : lang (optional x) = 1 + lang x := by
  ext ts
  rw [Language.mem_add, Language.mem_one]
  constructor
  · intro h
    cases h with
    | absent => exact .inl rfl
    | present h => exact .inr h
  · rintro (rfl | h)
    · exact .absent
    · exact .present h

theorem lang_many (x : Ebnf) : lang (many x) = (lang x)∗ := by
  ext ts
  rw [Language.mem_kstar]
  constructor
  · intro h
    replace h : DerivesBy relaxed (many x) ts := h
    generalize hm : many x = m at h
    induction h with
    | done => exact ⟨[], rfl, List.forall_mem_nil _⟩
    | more h _ _ ih =>
      cases hm
      obtain ⟨ws, rfl, hws⟩ := ih rfl
      exact ⟨_ :: ws, rfl, List.forall_mem_cons.mpr ⟨h, hws⟩⟩
    | _ => cases hm
  · rintro ⟨ws, rfl, hws⟩
    induction ws with
    | nil => exact .done
    | cons w rest ih =>
      obtain ⟨h, hrest⟩ := List.forall_mem_cons.mp hws
      exact .more h (ih hrest)

end Words

section Beginnings

/-- Whether a phrase may be empty, if no rule is. -/
def nullable : Ebnf → Bool
  | .token _ | .rule _ => false
  | .seq x y => nullable x && nullable y
  | .either x y => nullable x || nullable y
  | .optional _ | .many _ | .upTo .. => true

/-- The kinds of tokens that the words of a rule begin with. -/
def heads : Nonterminal → TokenKind → Bool
  | .program => fun k => opensDeclaration k || k == .eof
  | .declaration => opensDeclaration
  | .classDecl => (· == .kwClass)
  | .funDecl => (· == .kwFun)
  | .function | .parameters => (· == .identifier)
  | .varDecl => (· == .kwVar)
  | .statement => opensStatement
  | .forStmt => (· == .kwFor)
  | .ifStmt => (· == .kwIf)
  | .printStmt => (· == .kwPrint)
  | .returnStmt => (· == .kwReturn)
  | .whileStmt => (· == .kwWhile)
  | .breakStmt => (· == .kwBreak)
  | .continueStmt => (· == .kwContinue)
  | .block => (· == .leftBrace)
  | .call | .primary => fun k => beginsExpression k && !isUnaryOperator k
  | .exprStmt | .expression | .assignment | .logicOr | .logicAnd | .equality | .comparison | .term
  | .factor | .unary | .arguments => beginsExpression

/-- The kinds of tokens that the words of a phrase begin with. -/
def headsOf : Ebnf → TokenKind → Bool
  | .token k => (· == k)
  | .rule n => heads n
  | .seq x y => fun k => headsOf x k || nullable x && headsOf y k
  | .either x y => fun k => headsOf x k || headsOf y k
  | .optional x | .many x | .upTo _ x => headsOf x

theorem nullable_relaxed (n : Nonterminal) : nullable (relaxed n) = false := by
  cases n <;> rfl

theorem headsOf_relaxed (n : Nonterminal) (k : TokenKind) (h : headsOf (relaxed n) k = true) :
    heads n k = true := by
  cases n <;> cases k <;> first | rfl | cases h

/-- What a word begins with, and whether it can be empty, is read off the rules. -/
theorem begins_of_derives {x : Ebnf} {ts : List Token} (h : DerivesBy relaxed x ts) :
    (ts = [] → nullable x = true) ∧ ∀ t rest, ts = t :: rest → headsOf x t.kind = true := by
  induction h with
  | token hk => exact ⟨fun h => (List.cons_ne_nil _ _ h).elim, by simp [headsOf, hk]⟩
  | @rule n ts _ ih =>
    constructor
    · intro hnil
      exact absurd (ih.1 hnil) (by simp [nullable_relaxed])
    · exact fun t rest ht => headsOf_relaxed n t.kind (ih.2 t rest ht)
  | @seq x y ts us _ _ ih ih' =>
    constructor
    · intro hnil
      obtain ⟨hts, hus⟩ := List.append_eq_nil_iff.mp hnil
      simp [nullable, ih.1 hts, ih'.1 hus]
    · intro t rest ht
      cases ts with
      | nil => simp [headsOf, ih.1 rfl, ih'.2 t rest ht]
      | cons u vs =>
        obtain ⟨rfl, -⟩ := List.cons.inj ht
        simp [headsOf, ih.2 u vs rfl]
  | left _ ih =>
    exact ⟨fun h => by simp [nullable, ih.1 h], fun t rest h => by simp [headsOf, ih.2 t rest h]⟩
  | right _ ih =>
    exact ⟨fun h => by simp [nullable, ih.1 h], fun t rest h => by simp [headsOf, ih.2 t rest h]⟩
  | absent | done | enough => exact ⟨fun _ => rfl, fun _ _ h => by cases h⟩
  | present _ ih => exact ⟨fun _ => rfl, ih.2⟩
  | @more x ts us _ _ ih ih' | @another _ x ts us _ _ ih ih' =>
    refine ⟨fun _ => rfl, fun t rest ht => ?_⟩
    cases ts with
    | nil => exact ih'.2 t rest ht
    | cons u vs =>
      obtain ⟨rfl, -⟩ := List.cons.inj ht
      exact ih.2 u vs rfl

end Beginnings

section Productivity

/-- Whether a phrase has a word, if the rules that are marked have one. -/
def productiveBy (P : Nonterminal → Bool) : Ebnf → Bool
  | .token _ | .optional _ | .many _ | .upTo .. => true
  | .rule n => P n
  | .seq x y => productiveBy P x && productiveBy P y
  | .either x y => productiveBy P x || productiveBy P y

/-- Whether a rule has a word that takes so many rules inside each other. -/
def productive : Nat → Nonterminal → Bool
  | 0, _ => false
  | d + 1, n => productiveBy (productive d) (relaxed n)

theorem word_of_productiveBy {P : Nonterminal → Bool}
    (hP : ∀ n, P n = true → ∃ ts, ts ∈ lang (rule n)) {x : Ebnf} (h : productiveBy P x = true) :
    ∃ ts, ts ∈ lang x := by
  induction x with
  | token k => exact ⟨[⟨k, "", none, 0⟩], .token rfl⟩
  | rule n => exact hP n h
  | seq x y ihx ihy =>
    obtain ⟨hx, hy⟩ := Bool.and_eq_true_iff.mp h
    obtain ⟨ts, hts⟩ := ihx hx
    obtain ⟨us, hus⟩ := ihy hy
    exact ⟨ts ++ us, .seq hts hus⟩
  | either x y ihx ihy =>
    rcases Bool.or_eq_true_iff.mp h with hx | hy
    · obtain ⟨ts, hts⟩ := ihx hx
      exact ⟨ts, .left hts⟩
    · obtain ⟨ts, hts⟩ := ihy hy
      exact ⟨ts, .right hts⟩
  | optional x => exact ⟨[], .absent⟩
  | many x => exact ⟨[], .done⟩
  | upTo n x => exact ⟨[], .enough⟩

theorem word_of_productive {d : Nat} : ∀ n, productive d n = true → ∃ ts, ts ∈ lang (rule n) := by
  induction d with
  | zero => exact fun n h => by cases h
  | succ d ih =>
    intro n h
    rw [lang_rule]
    exact word_of_productiveBy ih h

/-- Every phrase has a word. -/
theorem exists_word (x : Ebnf) : ∃ ts, ts ∈ lang x := by
  have hrule (n : Nonterminal) : productive 17 n = true := by
    cases n <;> decide +kernel
  refine word_of_productiveBy (P := fun _ => true) (fun n _ => word_of_productive n (hrule n)) ?_
  induction x <;> simp_all [productiveBy]

end Productivity

end Lox.Grammar
