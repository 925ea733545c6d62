import Lox.Proofs.Grammar.Spelling
import Lox.Proofs.Grammar.Concatenation

/-! What is read without an error is spelled by the tokens that were read.

The errors of a parse only grow, so a parser that leaves no error was made of parsers that left
none, and each production gives the rule of the spelling that it follows. Where a parser reads on
after a fault, the fault itself is in the errors. -/

namespace Lox

namespace Parser

variable {α β : Type}

/-- What holds of every result that comes without an error, and the tokens before and behind it. -/
structure Ensures (Q : List Token → α → List Token → Prop) (p : Parser α) : Prop
    extends Reads p where
  ensures : ∀ (c d : Cursor) (a : α), c.finish.kind = .eof → p c = (some a, d) →
    d.errors.size ≤ c.errors.size → Q c.pending a d.pending

/-- The token that is seen ahead, unless the input has ended. -/
def Ahead (ts : List Token) (t : Token) (us : List Token) : Prop :=
  ts = us ∧ (t.kind ≠ .eof → ∃ rest, us = t :: rest)

def Accepted (wanted : TokenKind → Bool) (ts : List Token) :
    Option Token → List Token → Prop
  | some t, us => wanted t.kind = true ∧ ts = t :: us
  | none, us => ts = us ∧ ∀ t ∈ us.head?, wanted t.kind = false

namespace Ensures

variable {Q : List Token → α → List Token → Prop} {R : List Token → β → List Token → Prop}
  {p q : Parser α} {u : Parser β} {g : β → Parser α}

theorem pure {a : α} (h : ∀ ts, Q ts a ts) : Ensures Q (pure a) where
  toReads := .pure a
  ensures c d b _ hd _ := by
    obtain ⟨hb, rfl⟩ := Prod.mk.inj hd
    exact Option.some.inj hb ▸ h c.pending

theorem bind (h : Ensures R u)
    (hg : ∀ b, Ensures (fun us a vs => ∀ ts, R ts b us → Q ts a vs) (g b)) :
    Ensures Q (u >>= g) where
  toReads := h.toReads.bind fun b => (hg b).toReads
  ensures c d a hf hd hquiet := by
    obtain ⟨b, e, hb, ha⟩ := bind_eq_some.mp hd
    have hr := h.reads c
    have hr' := (hg b).reads e
    rw [hb] at hr
    rw [ha] at hr'
    exact (hg b).ensures e d a (hr.finish ▸ hf) ha (Nat.le_trans hquiet hr.errors_size) _
      (h.ensures c e b hf hb (Nat.le_trans hr'.errors_size hquiet))

theorem weaken {Q' : List Token → α → List Token → Prop} (h : Ensures Q p)
    (hq : ∀ ts a us, Q ts a us → Q' ts a us) : Ensures Q' p where
  toReads := h.toReads
  ensures c d a hf hd hquiet := hq _ _ _ (h.ensures c d a hf hd hquiet)

theorem ite (b : Prop) [Decidable b] (hp : Ensures Q p) (hq : Ensures Q q) :
    Ensures Q (if b then p else q) := by
  split
  · exact hp
  · exact hq

theorem fail {fault : ParseFault} (h : fault.isMild = false) :
    Ensures Q (Parser.fail fault) where
  toReads := .fail h
  ensures c d a _ hd _ := by cases hd

/-- Goes on after a parser that reads no token. -/
theorem look (h : Reads u) (hsame : ∀ c, (u c).2.pending = c.pending)
    (hg : ∀ b, Ensures Q (g b)) : Ensures Q (u >>= g) :=
  bind (R := fun ts _ us => ts = us)
    ⟨h, fun c d b _ hd _ => by rw [← hsame c, hd]⟩
    fun b => (hg b).weaken fun _ _ _ hq _ hts => hts ▸ hq

theorem freshNode {g : NodeId → Parser α} (hg : ∀ n, Ensures Q (g n)) :
    Ensures Q (Parser.freshNode >>= g) := look .freshNode (fun _ => rfl) hg

theorem check {kind : TokenKind} {g : Bool → Parser α} (hg : ∀ b, Ensures Q (g b)) :
    Ensures Q (Parser.check kind >>= g) := look (.check kind) (fun _ => rfl) hg

theorem peek : Ensures Ahead Parser.peek where
  toReads := .peek
  ensures c d t hf hd _ := by
    obtain ⟨ht, rfl⟩ := Prod.mk.inj hd
    obtain rfl := Option.some.inj ht
    refine ⟨rfl, fun hk => ?_⟩
    unfold Cursor.peek at hk ⊢
    cases hc : c.pending with
    | nil =>
      rw [hc] at hk
      exact absurd hf hk
    | cons t rest => exact ⟨rest, rfl⟩

/-- The token seen ahead is read. -/
theorem advance {t : Token} {g : Unit → Parser α} (hk : t.kind ≠ .eof)
    (hg : Ensures (fun us a vs => Q (t :: us) a vs) (g ())) :
    Ensures (fun us a vs => ∀ ts, Ahead ts t us → Q ts a vs) (Parser.advance >>= g) :=
  bind (R := fun ts _ us => us = ts.tail)
    ⟨.advance, fun c d b _ hd _ => by rw [← (Prod.mk.inj hd).2]⟩
    fun _ => hg.weaken fun us a vs hq ts hts ts' ⟨h, hahead⟩ => by
      obtain ⟨rest, hrest⟩ := hahead hk
      obtain rfl := h
      rw [hrest, List.tail_cons] at hts
      rwa [hrest, ← hts]

/-- One that is not read is given up. -/
theorem ahead {t : Token} (hp : Ensures Q p) :
    Ensures (fun us a vs => ∀ ts, Ahead ts t us → Q ts a vs) p :=
  hp.weaken fun _ _ _ hq _ hts => hts.1 ▸ hq

theorem acceptIf? (wanted : TokenKind → Bool) :
    Ensures (Accepted wanted) (Parser.acceptIf? wanted) where
  toReads := .acceptIf? wanted
  ensures c d t? _ hd _ := by
    unfold Parser.acceptIf? at hd
    split at hd
    · rename_i t rest hc
      split at hd
      · rename_i hw
        obtain ⟨ht, rfl⟩ := Prod.mk.inj hd
        obtain rfl := Option.some.inj ht
        exact ⟨hw, hc⟩
      · rename_i hw
        obtain ⟨ht, rfl⟩ := Prod.mk.inj hd
        obtain rfl := Option.some.inj ht
        exact ⟨rfl, by simpa [hc] using hw⟩
    · rename_i hc
      obtain ⟨ht, rfl⟩ := Prod.mk.inj hd
      obtain rfl := Option.some.inj ht
      exact ⟨rfl, by simp [hc]⟩

theorem accept {kind : TokenKind}
    (hp : Ensures (fun us a vs => ∀ t : Token, t.kind = kind → Q (t :: us) a vs) p)
    (hq : Ensures (fun us a vs => (∀ t ∈ us.head?, t.kind ≠ kind) → Q us a vs) q) :
    Ensures Q (do if ← Parser.accept kind then p else q) := by
  refine ((acceptIf? (· == kind)).bind (Q := fun ts b us =>
    if b = true then ∃ t : Token, t.kind = kind ∧ ts = t :: us
    else ts = us ∧ ∀ t ∈ us.head?, t.kind ≠ kind) fun t? => ?_).bind fun b => ?_
  · cases t? with
    | none => exact .pure fun _ _ ⟨hts, hk⟩ => ⟨hts, by simpa using hk⟩
    | some t => exact .pure fun _ _ ⟨hk, hts⟩ => ⟨t, by simpa using hk, hts⟩
  · cases b with
    | false => exact hq.weaken fun _ _ _ h _ ⟨hts, hk⟩ => hts ▸ h hk
    | true => exact hp.weaken fun _ _ _ h _ ⟨t, hk, hts⟩ => hts ▸ h t hk

theorem expected (e : Expectation) :
    Ensures (fun ts t us => t.kind = e.kind ∧ ts = t :: us) (Parser.expect e) where
  toReads := .expect e
  ensures c d t _ hd _ := by
    obtain ⟨hk, hc, -⟩ := expect_eq_some hd
    exact ⟨hk, hc⟩

theorem expect {e : Expectation} {g : Token → Parser α}
    (hg : ∀ t : Token, Ensures (fun us a vs => t.kind = e.kind → Q (t :: us) a vs) (g t)) :
    Ensures Q (Parser.expect e >>= g) :=
  (expected e).bind fun t => (hg t).weaken fun _ _ _ hq _ ⟨hk, hts⟩ => hts ▸ hq hk

/-- After an error anything holds. -/
theorem record {t : Token} {fault : ParseFault} {g : Unit → Parser α} (hg : ∀ u, Reads (g u)) :
    Ensures Q (Parser.record t fault >>= g) where
  toReads := (Reads.record t fault).bind hg
  ensures c d a _ hd hquiet := by
    have hr := (hg ()).reads (c.record t fault)
    rw [show g () (c.record t fault) = (some a, d) from hd] at hr
    have := hr.errors_size
    simp only [Cursor.record, Array.size_push] at this
    omega

/-- A loop keeps what every turn keeps; the last turn leaves the result as it is. -/
theorem iterate {I : List Token → α → List Token → Prop} {next : α → Parser (Option α)}
    (hn : ∀ a, Ensures (fun us b vs => ∀ ts, I ts a us → I ts (b.getD a) vs) (next a)) (a : α) :
    Ensures (fun us b vs => ∀ ts, I ts a us → I ts b vs) (Parser.iterate next a) := by
  have hupTo : ∀ (n : Nat) (a : α),
      Ensures (fun us b vs => ∀ ts, I ts a us → I ts b vs) (Parser.iterateUpTo n next a) := by
    intro n
    induction n with
    | zero => exact fun a => .pure fun _ _ h => h
    | succ n ih =>
      refine fun a => (hn a).bind fun b? => ?_
      cases b? with
      | none => exact .pure fun _ _ h => h
      | some b => exact (ih b).weaken fun _ _ _ h _ h' ts hi => h ts (h' ts hi)
  refine (hn a).bind fun b? => ?_
  cases b? with
  | none => exact .pure fun _ _ h => h
  | some b =>
    have hloop (n : Nat) : Ensures (fun us b' vs => ∀ us', (∀ ts, I ts a us' → I ts b us) →
        ∀ ts, I ts a us' → I ts b' vs) (Parser.iterateUpTo n next b) :=
      (hupTo n b).weaken fun _ _ _ h _ h' ts hi => h ts (h' ts hi)
    exact ⟨⟨fun c => (hloop _).reads c, fun c => (hloop _).faults c⟩,
      fun c => (hloop _).ensures c⟩

/-- Recovery leaves an error. -/
theorem recovering (h : Ensures Q p) :
    Ensures (fun ts a? us => ∃ a, a? = some a ∧ Q ts a us) (Parser.recovering p) where
  toReads := h.toReads.recovering
  ensures c d a? hf hd hquiet := by
    have hreads := h.reads c
    have hfaults := h.faults c
    unfold Parser.recovering at hd
    rcases hp : p c with ⟨_ | b, e⟩
    · rw [hp] at hd hreads hfaults
      obtain ⟨-, rfl⟩ := Prod.mk.inj hd
      exact absurd (hreads.errors_lt (hfaults rfl)) (Nat.not_lt.mpr hquiet)
    · rw [hp] at hd
      obtain ⟨hb, rfl⟩ := Prod.mk.inj hd
      exact ⟨b, (Option.some.inj hb).symm, h.ensures c e b hf hp hquiet⟩

/-- A list without an error is short enough. -/
theorem commaSeparated {item : Parser α} (h : Ensures Q item) (fault : ParseFault) :
    Ensures (fun ts as us => Grammar.Listed Q ts as us ∧ as.length ≤ maxListLength)
      (Parser.commaSeparated item fault) := by
  refine h.bind fun first => (iterate (I := fun ts items us =>
    Grammar.Listed Q ts items.toList us ∧ items.size ≤ maxListLength) (fun items => ?_) _).bind
      fun items => .pure fun us vs hi ts hf => hi ts ⟨.one hf, by simp [maxListLength]⟩
  refine .accept ?_ (.pure fun us _ ts hi => hi)
  have hitem : Reads (do return some (items.push (← item))) := h.toReads.bind fun a => .pure _
  split
  · -- Past the bound the items are still read, but with an error.
    exact look .peek (fun _ => rfl) fun t => .record fun _ => hitem
  · rename_i hlt
    refine h.bind fun a => .pure ?_
    intro vs us ha comma hk ts hi
    refine ⟨?_, ?_⟩
    · simpa using hi.1.more hk ha
    · simp
      omega

end Ensures

end Parser

namespace Grammar

open Lox.Parser

abbrev Spelled (k : Nat) (ts : List Token) (e : Expr) (us : List Token) : Prop :=
  SpellsExpr (.expr k e) ts us

section Expressions

variable {nested : Parser Expr} (h : Ensures (Spelled 0) nested)

include h

theorem ensures_primary : Ensures (Spelled 9) (primary nested) := by
  refine Ensures.peek.bind fun t => ?_
  have hconstant (value : Constant) (hk : t.kind ≠ .eof) (hv : constantAt? t = some value) :
      Ensures (fun us e vs => ∀ ts, Ahead ts t us → Spelled 9 ts e vs)
        (do Parser.advance; return .constant value) :=
    .advance hk (.pure fun _ => .constant hv)
  split
  case h_1 hk | h_2 hk | h_3 hk | h_4 hk | h_5 hk =>
    exact hconstant _ (by simp [hk]) (by simp [constantAt?, hk])
  case h_6 hk =>
    exact .advance (by simp [hk]) (.expect fun _ => .expect fun _ => .freshNode fun _ =>
      .pure fun _ hmethod hdot => .inherited hk hdot hmethod)
  case h_7 hk => exact .advance (by simp [hk]) (.freshNode fun _ => .pure fun _ => .receiver hk)
  case h_8 hk => exact .advance (by simp [hk]) (.freshNode fun _ => .pure fun _ => .occurrence hk)
  case h_9 hk =>
    exact .advance (by simp [hk]) (h.bind fun _ => .expect fun _ =>
      .pure fun _ hclosing _ hinner => .group hk hinner hclosing)
  case h_10 => exact .fail rfl

theorem ensures_arguments : Ensures (fun ts es us => (es = [] ∧ ts = us) ∨
    (SpellsExpr (.items es) ts us ∧ es.length ≤ maxListLength)) (arguments nested) :=
  .check fun _ => .ite _ (.pure fun _ => .inl ⟨rfl, rfl⟩)
    ((Ensures.commaSeparated h _).weaken fun _ _ _ ⟨hes, hlen⟩ => .inr ⟨.of_listed hes, hlen⟩)

theorem ensures_suffix? (object : Expr) :
    Ensures (fun us e vs => ∀ ts, Spelled 8 ts object us → Spelled 8 ts (e.getD object) vs)
      (suffix? nested object) := by
  refine .accept ?_ (.accept ?_ (.pure fun _ _ _ _ hobject => hobject))
  · refine (ensures_arguments h).bind fun args => .expect fun paren => .pure ?_
    rintro us hparen vs (⟨rfl, rfl⟩ | ⟨hargs, hlen⟩) opening hopening ts hobject
    · exact .call hobject hopening hparen
    · exact .callWith hobject hopening hargs hparen hlen
  · exact .expect fun name => .pure fun _ hname _ hdot _ _ hobject => .get hobject hdot hname

theorem ensures_call : Ensures (Spelled 8) (call nested) :=
  (ensures_primary h).bind fun object => (Ensures.iterate (ensures_suffix? h) object).weaken
    fun _ _ _ hi ts hobject => hi ts (.looser (by decide) hobject)

omit h in
theorem ensures_unaryOperators : Ensures (fun ts operators us => ∀ e vs, Spelled 7 us e vs →
    Spelled 7 ts (operators.foldl (fun e operator => .unary operator e) e) vs) unaryOperators := by
  refine (Ensures.iterate (I := fun ts operators us => ∀ e vs, Spelled 7 us e vs →
    Spelled 7 ts (operators.foldl (fun e operator => .unary operator e) e) vs)
    (fun operators => (Ensures.acceptIf? _).bind fun t? => .pure ?_) []).weaken
      fun ts _ us hi => hi ts fun _ _ he => he
  cases t? with
  | none => exact fun _ _ ⟨hts, _⟩ _ hi => hts ▸ hi
  | some t =>
    rintro us vs ⟨ht, rfl⟩ ts hi e ws he
    exact hi _ ws (.unary ht he)

theorem ensures_unary : Ensures (Spelled 7) (unary nested) :=
  ensures_unaryOperators.bind fun _ => (ensures_call h).bind fun operand =>
    .pure fun us _ hoperand _ ho => ho operand us (.looser (by decide) hoperand)

omit h in
theorem ensures_leftAssociative (k : Nat) (hk : k < 9) {operand : Parser Expr}
    (h : Ensures (Spelled (k + 1)) operand) :
    Ensures (Spelled k) (leftAssociative (joinsAt k) (joined k) operand) := by
  refine h.bind fun first => (Ensures.iterate (I := Spelled k) (fun left => ?_) first).weaken
    fun _ _ _ hi ts hfirst => hi ts (.looser hk hfirst)
  refine (Ensures.acceptIf? _).bind fun t? => ?_
  cases t? with
  | none => exact .pure fun _ _ ⟨hts, _⟩ _ hleft => hts ▸ hleft
  | some operator =>
    refine h.bind fun right => .pure ?_
    rintro us vs hright ws ⟨hoperator, rfl⟩ ts hleft
    exact .join hleft hoperator hright

theorem ensures_disjunction : Ensures (Spelled 1) (disjunction nested) :=
  ensures_leftAssociative 1 (by decide) <| ensures_leftAssociative 2 (by decide) <|
    ensures_leftAssociative 3 (by decide) <| ensures_leftAssociative 4 (by decide) <|
      ensures_leftAssociative 5 (by decide) <| ensures_leftAssociative 6 (by decide) <|
        ensures_unary h

theorem ensures_assignment : Ensures (Spelled 0) (assignment nested) := by
  refine (ensures_disjunction h).bind fun target => (Ensures.acceptIf? _).bind fun t? => ?_
  cases t? with
  | none => exact .pure fun _ _ ⟨hts, _⟩ _ htarget => hts ▸ .looser (by decide) htarget
  | some equals =>
    refine h.bind fun value => ?_
    split
    · -- The target was read as an expression; only a bare name has become a variable.
      refine .freshNode fun _ => .pure ?_
      rintro us vs hvalue ws ⟨hequals, rfl⟩ ts htarget
      obtain ⟨hname, rfl⟩ := htarget.of_variable
      exact .assign hname (by simpa using hequals) hvalue
    · refine .pure ?_
      rintro us vs hvalue ws ⟨hequals, rfl⟩ ts htarget
      obtain ⟨dot, hdot, hname, hobject⟩ := htarget.of_get
      exact .set hobject hdot hname (by simpa using hequals) hvalue
    · exact .record fun _ => .pure _

end Expressions

theorem ensures_expressionUpTo (depth : Nat) : Ensures (Spelled 0) (expressionUpTo depth) := by
  induction depth with
  | zero => exact .fail rfl
  | succ depth ih => exact ensures_assignment ih

theorem ensures_expression : Ensures (Spelled 0) expression where
  reads c := by
    rw [expression_apply]
    exact (ensures_expressionUpTo _).reads c
  faults c := by
    rw [expression_apply]
    exact (ensures_expressionUpTo _).faults c
  ensures c := by
    rw [expression_apply]
    exact (ensures_expressionUpTo _).ensures c

/-- What the parsers of optional parts do with an expression that is there. -/
theorem ensures_some_expression :
    Ensures (fun ts e us => ∃ v, e = some v ∧ Spelled 0 ts v us) (some <$> expression) :=
  ensures_expression.bind fun v => .pure fun _ _ hv => ⟨v, rfl, hv⟩

theorem ensures_expressionUnless (kind : TokenKind) :
    Ensures (fun ts e us => SpellsOption e ts us) (expressionUnless kind) :=
  .check fun _ => .ite _ (.pure fun _ => rfl)
    (ensures_some_expression.weaken fun _ _ _ ⟨_, he, hv⟩ => he ▸ hv)

theorem ensures_varDeclaration :
    Ensures (fun ts s us => SpellsVariable s ts us) varDeclaration := by
  refine .expect fun name => .accept ?_ ?_
  · refine ensures_some_expression.bind fun initializer => .expect fun closing => .pure ?_
    rintro us hclosing vs ⟨e, rfl, he⟩ equals hequals hname
    exact .initialized hname hequals he hclosing
  · refine Ensures.bind (R := fun ts e us => e = none ∧ ts = us) (.pure fun _ => ⟨rfl, rfl⟩)
      fun initializer => .expect fun closing => .pure ?_
    rintro us hclosing vs ⟨rfl, rfl⟩ _ hname
    exact .bare hname hclosing

theorem ensures_parameters :
    Ensures (fun ts params us => SpellsParameters params ts us) parameters :=
  .check fun _ => .ite _ (.pure fun _ => .inl ⟨rfl, rfl⟩)
    ((Ensures.commaSeparated (.expected _) _).weaken fun _ _ _ hparams => .inr hparams)

theorem ensures_superclass? :
    Ensures (fun ts r us => SpellsSuperclass r ts us) superclass? :=
  .accept (.expect fun _ => .freshNode fun _ => .pure fun _ hname less hless =>
    ⟨less, hless, hname, rfl⟩) (.pure fun _ _ => rfl)

section Declarations

variable {block : Parser (List Stmt)}

/-- Declarations with a closing brace behind them. -/
def SpelledBlock (ts : List Token) (body : List Stmt) (us : List Token) : Prop :=
  ∃ closing : Token, closing.kind = .rightBrace ∧ Spells (.declarations body) ts (closing :: us)

variable (h : Ensures SpelledBlock block)

include h

theorem ensures_function (c : Callable) :
    Ensures (fun ts f us => Spells (.callable f) ts us) (function c block) := by
  refine .expect fun name => .expect fun opening => ensures_parameters.bind fun params =>
    .expect fun closing => .expect fun opening' => h.bind fun body => .pure ?_
  rintro us vs ⟨closing', hclosing', hbody⟩ hopening' hclosing ts hparams hopening hname
  exact .callable hname hopening hparams hclosing hopening' hbody hclosing'

theorem ensures_classDeclaration : Ensures (fun ts s us => ∀ keyword : Token,
    keyword.kind = .kwClass → Spells (.declaration s) (keyword :: ts) us)
    (classDeclaration block) := by
  refine .expect fun name => ensures_superclass?.bind fun superclass => .expect fun opening =>
    (Ensures.iterate (I := fun ts methods us => Spells (.methods methods.toList) ts us)
      (fun methods => ?_) _).bind fun methods => .expect fun closing => .pure ?_
  · refine .look ((Reads.check _).bind fun _ => Reads.atEnd.bind fun _ => .pure _) (fun _ => rfl)
      fun goesOn => .ite _ ((ensures_function h .method).bind fun f => .pure ?_)
        (.pure fun _ _ hmethods => hmethods)
    intro us vs hf ts hmethods
    simpa using hmethods.moreMethods hf
  · intro us hclosing vs hmethods hopening ws hsuperclass hname keyword hkeyword
    exact .classDecl hkeyword hname hsuperclass hopening (hmethods vs .noMethods) hclosing

end Declarations

/-- A statement that is open has no `else` behind it. -/
def SpelledStatement (ts : List Token) (s : Stmt) (us : List Token) : Prop :=
  ∃ b, Spells (.statement b s) ts us ∧ (b = true → ∀ t ∈ us.head?, t.kind ≠ .kwElse)

theorem SpelledStatement.closed {ts us : List Token} {s : Stmt}
    (h : Spells (.statement false s) ts us) : SpelledStatement ts s us := ⟨false, h, nofun⟩

/-- With an `else` behind it a statement is not open. -/
theorem SpelledStatement.before_else {ts us : List Token} {s : Stmt} {other : Token}
    (h : SpelledStatement ts s (other :: us)) (hk : other.kind = .kwElse) :
    Spells (.statement false s) ts (other :: us) := by
  obtain ⟨b, hs, hopen⟩ := h
  cases b with
  | false => exact hs
  | true => exact absurd hk (hopen rfl other rfl)

theorem ensures_expressionStatement : Ensures SpelledStatement expressionStatement :=
  ensures_expression.bind fun _ => .expect fun _ => .pure fun _ hclosing _ he =>
    .closed (.expression he hclosing)

theorem ensures_forInitializer :
    Ensures (fun ts s us => SpellsInitializer s ts us) forInitializer := by
  refine .accept (.pure fun _ _ hclosing => .none hclosing) (.accept ?_ ?_)
  · exact ensures_varDeclaration.bind fun s => .pure fun _ _ hs _ hkeyword _ =>
      .varDecl hkeyword hs
  · refine Ensures.bind (R := fun ts s us => SpellsInitializer (some s) ts us)
      (ensures_expression.bind fun _ => .expect fun _ => .pure fun _ hclosing _ he =>
        .expression he hclosing) fun s => .pure fun _ _ hs _ _ => hs

section Statements

variable {nested : Parser Stmt} (h : Ensures SpelledStatement nested)

include h

theorem ensures_forStatement : Ensures (fun ts s us => ∀ keyword : Token,
    keyword.kind = .kwFor → SpelledStatement (keyword :: ts) s us) (forStatement nested) := by
  refine .expect fun opening => ensures_forInitializer.bind fun initializer =>
    (ensures_expressionUnless _).bind fun condition => .expect fun closing =>
    (ensures_expressionUnless _).bind fun increment => .expect fun closing' =>
    h.bind fun body => .pure ?_
  rintro us vs ⟨b, hbody, hopen⟩ hclosing' ws hincrement hclosing xs hcondition ys hinitializer
    hopening keyword hkeyword
  exact ⟨b, .forLoop hkeyword hopening hinitializer hcondition hclosing hincrement hclosing' hbody,
    hopen⟩

theorem ensures_ifStatement : Ensures (fun ts s us => ∀ keyword : Token,
    keyword.kind = .kwIf → SpelledStatement (keyword :: ts) s us) (ifStatement nested) := by
  refine .expect fun opening => ensures_expression.bind fun condition => .expect fun closing =>
    h.bind fun consequent => .accept (h.bind fun alternative => .pure ?_) (.pure ?_)
  · rintro us vs ⟨b, halternative, hopen⟩ other hother ws hconsequent hclosing xs hcondition
      hopening keyword hkeyword
    exact ⟨b, .ifElse hkeyword hopening hcondition hclosing (hconsequent.before_else hother) hother
      halternative, hopen⟩
  · -- An `else` that comes is taken, so behind a statement without one there is none.
    rintro us hother vs ⟨b, hconsequent, -⟩ hclosing ws hcondition hopening keyword hkeyword
    exact ⟨true, .ifThen hkeyword hopening hcondition hclosing hconsequent, fun _ => hother⟩

theorem ensures_whileStatement : Ensures (fun ts s us => ∀ keyword : Token,
    keyword.kind = .kwWhile → SpelledStatement (keyword :: ts) s us) (whileStatement nested) := by
  refine .expect fun opening => ensures_expression.bind fun condition => .expect fun closing =>
    h.bind fun body => .pure ?_
  rintro us vs ⟨b, hbody, hopen⟩ hclosing ws hcondition hopening keyword hkeyword
  exact ⟨b, .whileLoop hkeyword hopening hcondition hclosing hbody, hopen⟩

end Statements

section Levels

variable {nested : Parser Stmt} {declared : Parser (Option Stmt)}
  (hs : Ensures SpelledStatement nested)
  (hd : Ensures (fun ts s? us => ∃ s, s? = some s ∧ Spells (.declaration s) ts us) declared)

include hd in
theorem ensures_block : Ensures SpelledBlock (block declared) := by
  refine (Ensures.iterate (I := fun ts body us => Spells (.declarations body.toList) ts us)
    (fun body => ?_) _).bind fun body => .expect fun closing => .pure ?_
  · refine .look ((Reads.check _).bind fun _ => Reads.atEnd.bind fun _ => .pure _) (fun _ => rfl)
      fun goesOn => .ite _ (hd.bind fun s? => ?_) (.pure fun _ _ hbody => hbody)
    cases s? with
    | none =>
      refine .pure ?_
      rintro us vs ⟨s, ⟨⟩, -⟩
    | some s =>
      refine .pure ?_
      rintro us vs ⟨_, ⟨⟩, hs⟩ ts hbody
      simpa using hbody.more hs
  · exact fun us hclosing vs hbody => ⟨closing, hclosing, hbody vs .none⟩

include hs hd

theorem ensures_statement : Ensures SpelledStatement (statement nested declared) := by
  refine Ensures.peek.bind fun t => ?_
  split
  case h_1 hk =>
    exact .advance (by simp [hk]) ((ensures_forStatement hs).weaken fun _ _ _ h => h t hk)
  case h_2 hk =>
    exact .advance (by simp [hk]) ((ensures_ifStatement hs).weaken fun _ _ _ h => h t hk)
  case h_3 hk =>
    exact .advance (by simp [hk]) (ensures_expression.bind fun _ => .expect fun _ =>
      .pure fun _ hclosing _ he => .closed (.print hk he hclosing))
  case h_4 hk =>
    exact .advance (by simp [hk]) ((ensures_expressionUnless _).bind fun _ => .expect fun _ =>
      .pure fun _ hclosing _ he => .closed (.returning hk he hclosing))
  case h_5 hk =>
    exact .advance (by simp [hk]) ((ensures_whileStatement hs).weaken fun _ _ _ h => h t hk)
  case h_6 hk =>
    exact .advance (by simp [hk]) (.expect fun _ => .pure fun _ hclosing =>
      .closed (.breaking hk hclosing))
  case h_7 hk =>
    exact .advance (by simp [hk]) (.expect fun _ => .pure fun _ hclosing =>
      .closed (.continuing hk hclosing))
  case h_8 hk =>
    exact .advance (by simp [hk]) ((ensures_block hd).bind fun _ => .pure
      fun _ _ ⟨_, hclosing, hbody⟩ => .closed (.block hk hbody hclosing))
  case h_9 => exact .ahead ensures_expressionStatement

theorem ensures_declaration :
    Ensures (fun ts s? us => ∃ s, s? = some s ∧ Spells (.declaration s) ts us)
      (declaration nested declared) := by
  refine .recovering (Ensures.peek.bind fun t => ?_)
  split
  case h_1 hk =>
    exact .advance (by simp [hk]) ((ensures_classDeclaration (ensures_block hd)).weaken
      fun _ _ _ h => h t hk)
  case h_2 hk =>
    exact .advance (by simp [hk]) ((ensures_function (ensures_block hd) .function).bind
      fun f => .pure fun _ _ hf => .function hk hf)
  case h_3 hk =>
    exact .advance (by simp [hk]) (ensures_varDeclaration.weaken fun _ _ _ h => .varDecl hk h)
  case h_4 => exact .ahead (hs.weaken fun _ _ _ ⟨_, h, _⟩ => .statement h)

end Levels

theorem ensures_levels (depth : Nat) : Ensures SpelledStatement (statementUpTo depth) ∧
    Ensures (fun ts s? us => ∃ s, s? = some s ∧ Spells (.declaration s) ts us)
      (declarationUpTo depth) := by
  induction depth with
  | zero => exact ⟨.fail rfl, .recovering (.fail rfl)⟩
  | succ depth ih => exact ⟨ensures_statement ih.1 ih.2, ensures_declaration ih.1 ih.2⟩

theorem Declares.spells {depth : Nat} {c e : Cursor} {ss : List Stmt} (h : Declares depth c ss e)
    (hf : c.finish.kind = .eof) (hquiet : e.errors.size ≤ c.errors.size) :
    ∀ {ts : List Token} {before : List Stmt}, Spells (.declarations before) ts c.pending →
      Spells (.declarations (before ++ ss)) ts e.pending := by
  induction h with
  | nil c => exact fun hbefore => by simpa using hbefore
  | @cons c d e s rest _ hdecl hrest ih =>
    intro ts before hbefore
    have hr := (reads_declarationUpTo depth).reads c
    rw [hdecl] at hr
    have hsize := hr.errors_size
    have hsize' := hrest.reads.errors_size
    simp only at hsize
    obtain ⟨_, ⟨⟩, hs⟩ := (ensures_levels depth).2.ensures c d _ hf hdecl (by omega)
    simpa using ih (hr.finish ▸ hf) (by omega) (hbefore.more hs)

end Grammar

/-- A list of tokens that is read without an error spells the program that was read. -/
theorem spells_of_parse {tokens : List Token} {next : Nat} (h : (parse tokens next).errors = []) :
    Grammar.Spells (.declarations (parse tokens next).statements)
      (tokens.takeWhile (·.kind != .eof)) [] := by
  obtain ⟨e, herrors, hend, -, hdeclares⟩ := parse_quiet h
  have hfinish : (Cursor.ofTokens tokens next).finish.kind = .eof := by
    unfold Cursor.ofTokens
    cases hf : tokens.find? (·.kind == .eof) with
    | none => rfl
    | some t => simpa using List.find?_some hf
  have hspells := hdeclares.spells hfinish (by simp [herrors]) .none
  rw [List.nil_append, hend] at hspells
  exact hspells

end Lox
