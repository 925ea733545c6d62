import Lox.Proofs.Grammar.Stretches
import Lox.Proofs.Grammar.Unfolding

/-! Loops exchanged in a program.

Wherever the word `for` stands in a program, the tokens from there on spell a statement, and what
unfolds that statement can stand in its place: the phrases around it keep their form. A statement
that takes the place of another must not be open, or an `else` behind it could become its own. -/

namespace Lox.Grammar

def Phrase.WellFormed : Phrase → Prop
  | .statement _ s | .declaration s => s.WellFormed
  | .declarations ss => Stmt.AllWellFormed ss
  | .callable f => f.WellFormed
  | .methods fs => FunctionDecl.AllWellFormed fs

/-- An `else` behind the phrase belongs to none of its statements. -/
def Phrase.EndsBefore : Phrase → List Token → Prop
  | .statement b _, us => b = true → NotElse us
  | .declaration _, us | .declarations _, us => NotElse us
  | .callable _, _ | .methods _, _ => True

def Phrase.Unfolds : Phrase → Phrase → Prop
  | .statement b s, .statement b' s' => (b' = true → b = true) ∧ s.Unfolds s'
  | .declaration s, .declaration s' => s.Unfolds s'
  | .declarations ss, .declarations ss' => Stmt.AllUnfold ss ss'
  | .callable f, .callable f' => f.Unfolds f'
  | .methods fs, .methods fs' => FunctionDecl.AllUnfold fs fs'
  | _, _ => False

namespace Phrase.Unfolds

variable {x : Phrase}

theorem of_statement {b : Bool} {s : Stmt} (h : (Phrase.statement b s).Unfolds x) :
    ∃ b' s', x = .statement b' s' ∧ (b' = true → b = true) ∧ s.Unfolds s' := by
  cases x <;> first | exact ⟨_, _, rfl, h⟩ | cases h

theorem of_declaration {s : Stmt} (h : (Phrase.declaration s).Unfolds x) :
    ∃ s', x = .declaration s' ∧ s.Unfolds s' := by
  cases x <;> first | exact ⟨_, rfl, h⟩ | cases h

theorem of_declarations {ss : List Stmt} (h : (Phrase.declarations ss).Unfolds x) :
    ∃ ss', x = .declarations ss' ∧ Stmt.AllUnfold ss ss' := by
  cases x <;> first | exact ⟨_, rfl, h⟩ | cases h

theorem of_callable {f : FunctionDecl} (h : (Phrase.callable f).Unfolds x) :
    ∃ f', x = .callable f' ∧ f.Unfolds f' := by
  cases x <;> first | exact ⟨_, rfl, h⟩ | cases h

theorem of_methods {fs : List FunctionDecl} (h : (Phrase.methods fs).Unfolds x) :
    ∃ fs', x = .methods fs' ∧ FunctionDecl.AllUnfold fs fs' := by
  cases x <;> first | exact ⟨_, rfl, h⟩ | cases h

end Phrase.Unfolds

/-- The list begins with the word of a loop with a header of three parts. -/
def BeginsLoop (ts : List Token) : Prop := ∃ t rest, ts = t :: rest ∧ t.kind = .kwFor

section Skipping

variable {ts us here : List Token}

/-- A loop that begins at or behind another token begins behind it. -/
theorem BeginsLoop.behind (h : BeginsLoop here) {t : Token} {k : TokenKind} (hk : t.kind = k)
    (hne : (k == .kwFor) = false) (hs : here <:+ t :: ts) : here <:+ ts := by
  obtain ⟨first, rest, rfl, hfirst⟩ := h
  rcases List.suffix_cons_iff.mp hs with heq | hs
  · cases heq
    rw [← hk, hfirst] at hne
    cases hne
  · exact hs

theorem BeginsLoop.behindStretch (h : BeginsLoop here) {S : List Token → List Token → Prop}
    (hstretch : ForlessStretch S ts us) (hs : here <:+ ts) : here <:+ us := by
  obtain ⟨own, rfl, hfor, -⟩ := hstretch
  induction own with
  | nil => exact hs
  | cons t own ih =>
    obtain ⟨ht, hfor⟩ := forless_cons.mp hfor
    exact ih (h.behind rfl (by simpa using ht) hs) hfor

end Skipping

/-- A statement stands here in the phrase, and what unfolds it can stand here instead. -/
def Exchangeable (x : Phrase) (ts here us : List Token) : Prop :=
  ∃ b s rest, Spells (.statement b s) here rest ∧ s.WellFormed ∧ (b = true → NotElse rest) ∧
    ∀ s' there, Spells (.statement false s') there rest → s.Unfolds s' →
      ∃ x' before, ts = before ++ here ∧ Spells x' (before ++ there) us ∧ x.Unfolds x'

section Phrases

variable {ts us here : List Token}

/-- What is exchangeable in a part is exchangeable in the whole. -/
theorem Exchangeable.within {x y : Phrase} {vs whole : List Token}
    (h : Exchangeable x ts here us) (before : List Token) (hwhole : whole = before ++ ts)
    (hx : ∀ x' ts', x.Unfolds x' → Spells x' ts' us →
      ∃ y', Spells y' (before ++ ts') vs ∧ y.Unfolds y') : Exchangeable y whole here vs := by
  obtain ⟨b, s, rest, hspelled, hw, hopen, hexchange⟩ := h
  refine ⟨b, s, rest, hspelled, hw, hopen, fun s' there hthere hs => ?_⟩
  obtain ⟨x', own, rfl, hx', hunfolds⟩ := hexchange s' there hthere hs
  obtain ⟨y', hy', hunfolds'⟩ := hx x' _ hunfolds hx'
  exact ⟨y', before ++ own, by simp [hwhole], by simpa using hy', hunfolds'⟩

theorem wellFormed_of_forLoop {i : Option Stmt} {c n : Option Expr} {s : Stmt}
    (h : (forLoop i c n s).WellFormed) : (∀ first ∈ i, first.WellFormed) ∧ s.WellFormed := by
  cases i with
  | none => exact ⟨nofun, h.2.1⟩
  | some first => exact ⟨by rintro _ ⟨⟩; exact h.1, h.2.1.2.1⟩

variable {vs ws xs : List Token}

theorem exchangeable_block {opening closing : Token} {body : List Stmt}
    (ho : opening.kind = .leftBrace) (hc : closing.kind = .rightBrace)
    (h : Exchangeable (.declarations body) ts here (closing :: us)) :
    Exchangeable (.statement false (.block body)) (opening :: ts) here us := by
  refine h.within [opening] rfl fun x' ts' hx hs => ?_
  obtain ⟨body', rfl, hbody⟩ := hx.of_declarations
  exact ⟨_, .block ho hs hc, id, .block hbody⟩

theorem exchangeable_ifThen {keyword opening closing : Token} {condition : Expr}
    {consequent : Stmt} {b : Bool} (hk : keyword.kind = .kwIf) (ho : opening.kind = .leftParen)
    (hcondition : SpellsExpr (.expr 0 condition) ts (closing :: us))
    (hc : closing.kind = .rightParen) (h : Exchangeable (.statement b consequent) us here vs) :
    Exchangeable (.statement true (.ifThen condition consequent)) (keyword :: opening :: ts) here
      vs := by
  obtain ⟨own, rfl, -, hown⟩ := hcondition.stretches
  refine h.within (keyword :: opening :: (own ++ [closing])) (by simp) fun x' ts' hx hs => ?_
  obtain ⟨b', s', rfl, -, hs'⟩ := hx.of_statement
  refine ⟨.statement true (.ifThen condition s'), ?_, id, hs'.ifThen⟩
  simpa using Spells.ifThen hk ho (hown (closing :: ts')) hc hs

/-- The part between `if` and `else`: what takes its place is no more open than it was. -/
theorem exchangeable_consequent {keyword opening closing other : Token} {condition : Expr}
    {consequent alternative : Stmt} {b : Bool} (hk : keyword.kind = .kwIf)
    (ho : opening.kind = .leftParen)
    (hcondition : SpellsExpr (.expr 0 condition) ts (closing :: us))
    (hc : closing.kind = .rightParen)
    (h : Exchangeable (.statement false consequent) us here (other :: vs))
    (hother : other.kind = .kwElse) (h' : Spells (.statement b alternative) vs ws)
    (hw : alternative.WellFormed) :
    Exchangeable (.statement b (.ifElse condition consequent alternative))
      (keyword :: opening :: ts) here ws := by
  obtain ⟨own, rfl, -, hown⟩ := hcondition.stretches
  refine h.within (keyword :: opening :: (own ++ [closing])) (by simp) fun x' ts' hx hs => ?_
  obtain ⟨b', s', rfl, hb, hs'⟩ := hx.of_statement
  obtain rfl : b' = false := by
    cases b' with
    | false => rfl
    | true => exact absurd (hb rfl) Bool.false_ne_true
  refine ⟨.statement b (.ifElse condition s' alternative), ?_, id, hs'.ifElse (.refl hw)⟩
  simpa using Spells.ifElse hk ho (hown (closing :: ts')) hc hs hother h'

theorem exchangeable_alternative {keyword opening closing other : Token} {condition : Expr}
    {consequent alternative : Stmt} {b : Bool} (hk : keyword.kind = .kwIf)
    (ho : opening.kind = .leftParen)
    (hcondition : SpellsExpr (.expr 0 condition) ts (closing :: us))
    (hc : closing.kind = .rightParen) (h : Spells (.statement false consequent) us (other :: vs))
    (hw : consequent.WellFormed) (hother : other.kind = .kwElse)
    (h' : Exchangeable (.statement b alternative) vs here ws) :
    Exchangeable (.statement b (.ifElse condition consequent alternative))
      (keyword :: opening :: ts) here ws := by
  obtain ⟨own, rfl, -, hown⟩ := hcondition.stretches
  obtain ⟨own', rfl, hown'⟩ := h.stretches
  refine h'.within (keyword :: opening :: (own ++ closing :: (own' ++ [other]))) (by simp)
    fun x' ts' hx hs => ?_
  obtain ⟨b', s', rfl, hb, hs'⟩ := hx.of_statement
  have hheader := hown (closing :: (own' ++ other :: ts'))
  have hunfolds := (Stmt.Unfolds.refl hw).ifElse (e := condition) hs'
  refine ⟨.statement b' (.ifElse condition consequent s'), ?_, hb, hunfolds⟩
  simpa using Spells.ifElse hk ho hheader hc (hown' (other :: ts')) hother hs

theorem exchangeable_whileLoop {keyword opening closing : Token} {condition : Expr} {body : Stmt}
    {b : Bool} (hk : keyword.kind = .kwWhile) (ho : opening.kind = .leftParen)
    (hcondition : SpellsExpr (.expr 0 condition) ts (closing :: us))
    (hc : closing.kind = .rightParen) (h : Exchangeable (.statement b body) us here vs) :
    Exchangeable (.statement b (.loop condition body none)) (keyword :: opening :: ts) here vs := by
  obtain ⟨own, rfl, -, hown⟩ := hcondition.stretches
  refine h.within (keyword :: opening :: (own ++ [closing])) (by simp) fun x' ts' hx hs => ?_
  obtain ⟨b', s', rfl, hb, hs'⟩ := hx.of_statement
  refine ⟨.statement b' (.loop condition s' none), ?_, hb, hs'.loop⟩
  simpa using Spells.whileLoop hk ho (hown (closing :: ts')) hc hs

theorem exchangeable_forLoop {keyword opening closing closing' : Token}
    {initializer : Option Stmt} {condition increment : Option Expr} {body : Stmt} {b : Bool}
    (hk : keyword.kind = .kwFor) (ho : opening.kind = .leftParen)
    (hi : SpellsInitializer initializer ts us)
    (hcondition : SpellsOption condition us (closing :: vs)) (hc : closing.kind = .semicolon)
    (hn : SpellsOption increment vs (closing' :: ws)) (hc' : closing'.kind = .rightParen)
    (hw : ∀ first ∈ initializer, first.WellFormed)
    (h : Exchangeable (.statement b body) ws here xs) :
    Exchangeable (.statement b (forLoop initializer condition increment body))
      (keyword :: opening :: ts) here xs := by
  obtain ⟨first, rfl, -, hfirst⟩ := hi.stretches
  obtain ⟨own, rfl, -, hown⟩ := hcondition.stretches
  obtain ⟨own', rfl, -, hown'⟩ := hn.stretches
  refine h.within
    (keyword :: opening :: (first ++ (own ++ closing :: (own' ++ [closing'])))) (by simp)
    fun x' ts' hx hs => ?_
  obtain ⟨b', s', rfl, hb, hs'⟩ := hx.of_statement
  have hincrement := hown' (closing' :: ts')
  have hheader := hown (closing :: (own' ++ closing' :: ts'))
  refine ⟨.statement b' (forLoop initializer condition increment s'), ?_, hb, hs'.forLoop hw⟩
  simpa using Spells.forLoop hk ho (hfirst _) hheader hc hincrement hc' hs

theorem exchangeable_function {keyword : Token} {f : FunctionDecl} (hk : keyword.kind = .kwFun)
    (h : Exchangeable (.callable f) ts here us) :
    Exchangeable (.declaration (.function f)) (keyword :: ts) here us := by
  refine h.within [keyword] rfl fun x' ts' hx hs => ?_
  obtain ⟨f', rfl, hf⟩ := hx.of_callable
  exact ⟨_, .function hk hs, .function hf⟩

theorem exchangeable_classDecl {keyword name opening closing : Token}
    {superclass : Option Reference} {methods : List FunctionDecl} (hk : keyword.kind = .kwClass)
    (hn : name.kind = .identifier) (hs : SpellsSuperclass superclass ts (opening :: us))
    (ho : opening.kind = .leftBrace) (h : Exchangeable (.methods methods) us here (closing :: vs))
    (hc : closing.kind = .rightBrace) :
    Exchangeable (.declaration (.classDecl name superclass methods)) (keyword :: name :: ts) here
      vs := by
  obtain ⟨own, rfl, -, hown⟩ := hs.stretches
  refine h.within (keyword :: name :: (own ++ [opening])) (by simp) fun x' ts' hx hs => ?_
  obtain ⟨methods', rfl, hm⟩ := hx.of_methods
  refine ⟨.declaration (.classDecl name superclass methods'), ?_, .classDecl hm⟩
  simpa using Spells.classDecl hk hn (hown (opening :: ts')) ho hs hc

theorem exchangeable_callable {name opening closing opening' closing' : Token}
    {params : List Token} {body : List Stmt} (hn : name.kind = .identifier)
    (ho : opening.kind = .leftParen) (hp : SpellsParameters params ts (closing :: opening' :: us))
    (hc : closing.kind = .rightParen) (ho' : opening'.kind = .leftBrace)
    (h : Exchangeable (.declarations body) us here (closing' :: vs))
    (hc' : closing'.kind = .rightBrace) :
    Exchangeable (.callable (.mk name params body)) (name :: opening :: ts) here vs := by
  obtain ⟨own, rfl, -, hown⟩ := hp.stretches
  refine h.within (name :: opening :: (own ++ [closing, opening'])) (by simp) fun x' ts' hx hs => ?_
  obtain ⟨body', rfl, hbody⟩ := hx.of_declarations
  refine ⟨.callable (.mk name params body'), ?_, .mk hbody⟩
  simpa using Spells.callable hn ho (hown (closing :: opening' :: ts')) hc ho' hs hc'

theorem exchangeable_before {ss : List Stmt} {s : Stmt}
    (h : Exchangeable (.declarations ss) ts here us) (h' : Spells (.declaration s) us vs)
    (hw : s.WellFormed) : Exchangeable (.declarations (ss ++ [s])) ts here vs := by
  refine h.within [] rfl fun x' ts' hx hs => ?_
  obtain ⟨ss', rfl, hss⟩ := hx.of_declarations
  exact ⟨_, hs.more h', hss.snoc (.refl hw)⟩

theorem exchangeable_last {ss : List Stmt} {s : Stmt} (h : Spells (.declarations ss) ts us)
    (hw : Stmt.AllWellFormed ss) (h' : Exchangeable (.declaration s) us here vs) :
    Exchangeable (.declarations (ss ++ [s])) ts here vs := by
  obtain ⟨own, rfl, hown⟩ := h.stretches
  refine h'.within own rfl fun x' ts' hx hs => ?_
  obtain ⟨s', rfl, hs'⟩ := hx.of_declaration
  exact ⟨_, (hown ts').more hs, (Stmt.AllUnfold.refl hw).snoc hs'⟩

theorem exchangeable_methodBefore {fs : List FunctionDecl} {f : FunctionDecl}
    (h : Exchangeable (.methods fs) ts here us) (h' : Spells (.callable f) us vs)
    (hw : f.WellFormed) : Exchangeable (.methods (fs ++ [f])) ts here vs := by
  refine h.within [] rfl fun x' ts' hx hs => ?_
  obtain ⟨fs', rfl, hfs⟩ := hx.of_methods
  exact ⟨_, hs.moreMethods h', hfs.snoc (.refl hw)⟩

theorem exchangeable_lastMethod {fs : List FunctionDecl} {f : FunctionDecl}
    (h : Spells (.methods fs) ts us) (hw : FunctionDecl.AllWellFormed fs)
    (h' : Exchangeable (.callable f) us here vs) :
    Exchangeable (.methods (fs ++ [f])) ts here vs := by
  obtain ⟨own, rfl, hown⟩ := h.stretches
  refine h'.within own rfl fun x' ts' hx hs => ?_
  obtain ⟨f', rfl, hf⟩ := hx.of_callable
  exact ⟨_, (hown ts').moreMethods hs, (FunctionDecl.AllUnfold.refl hw).snoc hf⟩

/-- Wherever a loop begins inside a phrase, a statement stands that can be exchanged. -/
theorem Spells.exchangeable {x : Phrase} (h : Spells x ts us) (hloop : BeginsLoop here)
    (hin : here <:+ ts) (hout : ¬here <:+ us) (hw : x.WellFormed) (hends : x.EndsBefore us) :
    Exchangeable x ts here us := by
  induction h with
  | expression he hc =>
    exact absurd (hloop.behind hc rfl (hloop.behindStretch he.stretches hin)) hout
  | print hk he hc =>
    have hin := hloop.behindStretch he.stretches (hloop.behind hk rfl hin)
    exact absurd (hloop.behind hc rfl hin) hout
  | returning hk he hc =>
    have hin := hloop.behindStretch he.stretches (hloop.behind hk rfl hin)
    exact absurd (hloop.behind hc rfl hin) hout
  | breaking hk hc | continuing hk hc =>
    exact absurd (hloop.behind hc rfl (hloop.behind hk rfl hin)) hout
  | block ho _ hc ih =>
    exact exchangeable_block ho hc (ih (hloop.behind ho rfl hin)
      (fun h => hout (hloop.behind hc rfl h)) hw (.cons (by simp [hc])))
  | ifThen hk ho he hc _ ih =>
    have hin := hloop.behindStretch he.stretches (hloop.behind ho rfl (hloop.behind hk rfl hin))
    exact exchangeable_ifThen hk ho he hc
      (ih (hloop.behind hc rfl hin) hout hw.2.1 fun _ => hends rfl)
  | @ifElse _ _ _ other _ _ _ _ _ _ vs _ hk ho he hc h hother h' ih ih' =>
    have hin := hloop.behindStretch he.stretches (hloop.behind ho rfl (hloop.behind hk rfl hin))
    have hin := hloop.behind hc rfl hin
    obtain ⟨-, hwc, -, hwa, -⟩ := hw
    by_cases hmiddle : here <:+ other :: vs
    · exact exchangeable_alternative hk ho he hc h hwc hother
        (ih' (hloop.behind hother rfl hmiddle) hout hwa hends)
    · exact exchangeable_consequent hk ho he hc (ih hin hmiddle hwc nofun) hother h' hwa
  | whileLoop hk ho he hc _ ih =>
    have hin := hloop.behindStretch he.stretches (hloop.behind ho rfl (hloop.behind hk rfl hin))
    exact exchangeable_whileLoop hk ho he hc (ih (hloop.behind hc rfl hin) hout hw.2.1 hends)
  | forLoop hk ho hi he hc hn hc' h ih =>
    rcases List.suffix_cons_iff.mp hin with rfl | hin
    · -- This is the loop itself.
      exact ⟨_, _, _, .forLoop hk ho hi he hc hn hc' h, hw, hends, fun s' there hthere hs =>
        ⟨.statement false s', [], rfl, hthere, nofun, hs⟩⟩
    · have hin := hloop.behindStretch hi.stretches (hloop.behind ho rfl hin)
      have hin := hloop.behind hc rfl (hloop.behindStretch he.stretches hin)
      have hin := hloop.behind hc' rfl (hloop.behindStretch hn.stretches hin)
      obtain ⟨hwi, hwb⟩ := wellFormed_of_forLoop hw
      exact exchangeable_forLoop hk ho hi he hc hn hc' hwi (ih hin hout hwb hends)
  | varDecl hk hs => exact absurd (hloop.behindStretch hs.stretches (hloop.behind hk rfl hin)) hout
  | function hk _ ih =>
    exact exchangeable_function hk (ih (hloop.behind hk rfl hin) hout hw trivial)
  | classDecl hk hn hs ho _ hc ih =>
    have hin := hloop.behindStretch hs.stretches (hloop.behind hn rfl (hloop.behind hk rfl hin))
    exact exchangeable_classDecl hk hn hs ho (ih (hloop.behind ho rfl hin)
      (fun h => hout (hloop.behind hc rfl h)) hw.2.2 trivial) hc
  | statement _ ih =>
    refine (ih hin hout hw fun _ => hends).within [] rfl fun x' ts' hx hs => ?_
    obtain ⟨b', s', rfl, -, hs'⟩ := hx.of_statement
    exact ⟨_, .statement hs, hs'⟩
  | none | noMethods => exact absurd hin hout
  | @more ss s ts us vs h h' ih ih' =>
    obtain ⟨hwss, hws⟩ : Stmt.AllWellFormed ss ∧ s.WellFormed := by
      simpa [Phrase.WellFormed, Stmt.allWellFormed_iff, or_imp, forall_and] using hw
    by_cases hmiddle : here <:+ us
    · exact exchangeable_last h hwss (ih' hmiddle hout hws hends)
    · obtain ⟨t, rest, rfl, ht⟩ := h'.first_declaration
      exact exchangeable_before (ih hin hmiddle hwss (.cons (opensDeclaration_ne ht).1)) h' hws
  | callable hn ho hp hc ho' _ hc' ih =>
    have hin := hloop.behindStretch hp.stretches (hloop.behind ho rfl (hloop.behind hn rfl hin))
    have hin := hloop.behind ho' rfl (hloop.behind hc rfl hin)
    exact exchangeable_callable hn ho hp hc ho' (ih hin (fun h => hout (hloop.behind hc' rfl h))
      hw.2.2 (.cons (by simp [hc']))) hc'
  | @moreMethods fs f ts us vs h h' ih ih' =>
    obtain ⟨hwfs, hwf⟩ : FunctionDecl.AllWellFormed fs ∧ f.WellFormed := by
      simpa [Phrase.WellFormed, FunctionDecl.allWellFormed_iff, or_imp, forall_and] using hw
    by_cases hmiddle : here <:+ us
    · exact exchangeable_lastMethod h hwfs (ih' hmiddle hout hwf trivial)
    · exact exchangeable_methodBefore (ih hin hmiddle hwfs trivial) h' hwf

end Phrases

end Lox.Grammar
