import Lox.Proofs.Machine.Origins

/-! Where a running program stands.

The environments from the current one out to the globals are those of the scopes that analysis had
open at the node that is being executed: the innermost has bound exactly the names declared so far,
those further out have bound at least what had been declared there. The frames below hold the same
for the nodes at which they go on, and every function and method remembers the chain it was
declared in. -/

namespace Lox

/-- Analysis came to a node at a place in one of the programs. -/
def Known (programs : List (List Stmt)) (Γ : Place) (n : Node) : Prop :=
  ∃ p ∈ programs, Meets p Γ n

theorem Known.part {programs : List (List Stmt)} {Γ Δ : Place} {n m : Node}
    (h : Known programs Γ n) (hp : Node.Part Γ n Δ m) : Known programs Δ m :=
  let ⟨p, hm, h⟩ := h
  ⟨p, hm, h.part hp⟩

theorem Known.mono {programs more : List (List Stmt)} {Γ : Place} {n : Node}
    (h : Known programs Γ n) (hs : programs ⊆ more) : Known more Γ n :=
  let ⟨p, hm, h⟩ := h
  ⟨p, hs hm, h⟩

/-- From an environment outwards there is one environment for each open scope, then the globals. -/
inductive Chain (o : Origins) : EnvironmentId → List OpenScope → Prop where
  | globals : Chain o Heap.globals []
  | nested {e outer : EnvironmentId} {actual s : OpenScope} {rest : List OpenScope} :
    o.of? e = some ⟨actual, some outer⟩ → actual.kind = s.kind → s.binders <+: actual.binders →
    Chain o outer rest → Chain o e (s :: rest)

/-- The innermost environment has bound the names of its scope and no others. -/
structure Stands (o : Origins) (e : EnvironmentId) (opens : List OpenScope) : Prop where
  chain : Chain o e opens
  exact : ∀ s ∈ opens.head?, ∃ outer, o.of? e = some ⟨s, some outer⟩

/-- The first environment is that of the globals. -/
def Origins.Rooted (o : Origins) : Prop :=
  ∃ binders, o.of? Heap.globals = some ⟨⟨.globals, binders⟩, none⟩

section Records

variable {o : Origins} {e e' outer : EnvironmentId} {opens : List OpenScope}

theorem Origins.index_lt {origin : Origin} (h : o.of? e = some origin) : e.index < o.size :=
  (Array.getElem?_eq_some_iff.mp h).1

theorem Origins.of?_opened_of_some {origin : Origin} (h : o.of? e = some origin)
    (s : OpenScope) (outer : EnvironmentId) :
    (o.perform (.opened s outer)).of? e = some origin := by
  rw [of?_opened, if_neg (Nat.ne_of_lt (index_lt h)), h]

theorem Origins.Rooted.perform (h : o.Rooted) (d : Deed) : (o.perform d).Rooted := by
  obtain ⟨binders, hb⟩ := h
  cases d with
  | opened s outer => exact ⟨binders, of?_opened_of_some hb s outer⟩
  | bound e t =>
    unfold Rooted
    rw [of?_bound]
    split
    · rw [hb]
      exact ⟨_, rfl⟩
    · exact ⟨binders, hb⟩

theorem Chain.perform (h : Chain o e opens) (d : Deed) : Chain (o.perform d) e opens := by
  induction h with
  | globals => exact .globals
  | @nested e outer actual s rest ho hk hb _ ih =>
    cases d with
    | opened scope outer' => exact .nested (Origins.of?_opened_of_some ho _ _) hk hb ih
    | bound e' t =>
      by_cases he : e' = e
      · have hadd : (o.perform (.bound e' t)).of? e = some ⟨actual.add (.named t), some outer⟩ := by
          rw [Origins.of?_bound, if_pos he, ho]
          rfl
        exact .nested hadd hk (hb.trans (List.prefix_append _ _)) ih
      · have hsame : (o.perform (.bound e' t)).of? e = some ⟨actual, some outer⟩ := by
          rw [Origins.of?_bound, if_neg he, ho]
        exact .nested hsame hk hb ih

theorem Chain.index_lt (h : Chain o e opens) (hr : o.Rooted) : e.index < o.size := by
  cases h with
  | globals =>
    obtain ⟨binders, hb⟩ := hr
    exact Origins.index_lt hb
  | nested ho _ _ _ => exact Origins.index_lt ho

theorem Chain.eq_globals (h : Chain o e []) : e = Heap.globals := by
  cases h
  rfl

/-- No scope is open where the globals are the innermost environment. -/
theorem Chain.opens_of_globals (h : Chain o Heap.globals opens) (hr : o.Rooted) : opens = [] := by
  obtain ⟨binders, hb⟩ := hr
  cases h with
  | globals => rfl
  | nested ho _ _ _ => cases hb.symm.trans ho

theorem Stands.opened (h : Stands o e opens) (s : OpenScope) (outer : EnvironmentId) :
    Stands (o.perform (.opened s outer)) e opens :=
  ⟨h.chain.perform _, fun s' hs =>
    let ⟨outer', ho⟩ := h.exact s' hs
    ⟨outer', Origins.of?_opened_of_some ho _ _⟩⟩

/-- A new name disturbs only the scope that it is bound in. -/
theorem Stands.bound (h : Stands o e opens) (hr : o.Rooted) (t : Token)
    (he : e ≠ e' ∨ e' = Heap.globals) : Stands (o.perform (.bound e' t)) e opens := by
  refine ⟨h.chain.perform _, fun s hs => ?_⟩
  obtain ⟨outer, ho⟩ := h.exact s hs
  by_cases hee : e' = e
  · subst hee
    have hg := he.resolve_left fun hne => hne rfl
    have hchain := h.chain
    rw [hg] at hchain
    rw [hchain.opens_of_globals hr] at hs
    cases hs
  · exact ⟨outer, by rw [Origins.of?_bound, if_neg hee, ho]⟩

theorem Stands.bound_self {Γ : Place} (h : Stands o e Γ.opens) (t : Token) :
    Stands (o.perform (.bound e t)) e (Γ.define t).opens := by
  cases ho : Γ.opens with
  | nil =>
    have hd : (Γ.define t).opens = [] := by simp [Place.define, ho]
    rw [ho] at h
    exact hd ▸ ⟨h.chain.perform _, by simp⟩
  | cons s rest =>
    have hd : (Γ.define t).opens = s.add (.named t) :: rest := by simp [Place.define, ho]
    rw [ho] at h
    obtain ⟨outer, hs⟩ := h.exact s rfl
    have hadd : (o.perform (.bound e t)).of? e = some ⟨s.add (.named t), some outer⟩ := by
      rw [Origins.of?_bound, if_pos rfl, hs]
      rfl
    cases h.chain with
    | nested ho' _ _ hrest =>
      obtain ⟨rfl, rfl⟩ : _ = s ∧ _ = outer := by simpa using ho'.symm.trans hs
      rw [hd]
      refine ⟨.nested hadd rfl (List.prefix_refl _) (hrest.perform _), ?_⟩
      rintro _ ⟨⟩
      exact ⟨_, hadd⟩

/-- A new environment is nested in the chain it was made in. -/
theorem Chain.enter (h : Chain o outer opens) (s : OpenScope) :
    Stands (o.perform (.opened s outer)) ⟨o.size⟩ (s :: opens) := by
  have hs : (o.perform (.opened s outer)).of? ⟨o.size⟩ = some ⟨s, some outer⟩ := by
    rw [Origins.of?_opened, if_pos rfl]
  refine ⟨.nested hs rfl (List.prefix_refl _) (h.perform _), ?_⟩
  rintro _ ⟨⟩
  exact ⟨_, hs⟩

end Records

/-- Faults that no accepted program can have. -/
def RuntimeError.Internal (e : RuntimeError) : Prop :=
  e.fault = .noUnaryOperator ∨ e.fault = .noBinaryOperator ∨ e.fault = .superWithoutClass ∨
    e.fault = .superWithoutReceiver ∨ (e.fault = .superclassNotClass ∧ e.token.kind = .kwSuper)

/-- What a stack of frames waits for: a value, the end of a statement with the place after it, or
the end of the body of a function. -/
inductive Hole where
  | value
  | statement (Γ : Place)
  | body (kind : FunctionContext)

/-- The completions that can come to a hole with an environment. Other than after a failure, the
environment is the one that the place after the statement calls for. -/
def Hole.Takes (o : Origins) (e : EnvironmentId) : Hole → Completion → Prop
  | _, .failed fault => ¬fault.Internal
  | .value, .value _ => True
  | .statement Γ, .normal => Stands o e Γ.opens
  | .statement Γ, .returned v => Stands o e Γ.opens ∧ Γ.context.function ≠ .none ∧
    (Γ.context.function = .initializer → v = .nil)
  | .statement Γ, .broken | .statement Γ, .continued =>
    Stands o e Γ.opens ∧ Γ.context.inLoop = true
  | .body _, .normal => True
  | .body kind, .returned v => kind = .initializer → v = .nil
  | _, _ => False

/-- Frames that can go on in an environment with what they wait for. -/
inductive Fits (programs : List (List Stmt)) (o : Origins) :
    Hole → EnvironmentId → List Frame → Prop where
  | top : Fits programs o (.statement .top) Heap.globals []
  | unary {e t fs} : Grammar.isUnaryOperator t.kind = true → Fits programs o .value e fs →
    Fits programs o .value e (.unary t :: fs)
  | binaryLeft {e t r fs Γ} : Grammar.isBinaryOperator t.kind = true → Stands o e Γ.opens →
    Known programs Γ (.expr r) → Fits programs o .value e fs →
    Fits programs o .value e (.binaryLeft t r :: fs)
  | binaryRight {e v t fs} : Grammar.isBinaryOperator t.kind = true → Fits programs o .value e fs →
    Fits programs o .value e (.binaryRight v t :: fs)
  | logical {e t r fs Γ} : Stands o e Γ.opens → Known programs Γ (.expr r) →
    Fits programs o .value e fs → Fits programs o .value e (.logical t r :: fs)
  | assign {e r x fs Γ} : Stands o e Γ.opens → Known programs Γ (.expr (.assign r x)) →
    Fits programs o .value e fs → Fits programs o .value e (.assign r :: fs)
  | callee {e t xs fs Γ} : Stands o e Γ.opens → (∀ x ∈ xs, Known programs Γ (.expr x)) →
    Fits programs o .value e fs → Fits programs o .value e (.callee t xs :: fs)
  | argument {e v t vs xs fs Γ} : Stands o e Γ.opens → (∀ x ∈ xs, Known programs Γ (.expr x)) →
    Fits programs o .value e fs → Fits programs o .value e (.argument v t vs xs :: fs)
  | get {e t fs} : Fits programs o .value e fs → Fits programs o .value e (.get t :: fs)
  | setObject {e t x fs Γ} : Stands o e Γ.opens → Known programs Γ (.expr x) →
    Fits programs o .value e fs → Fits programs o .value e (.setObject t x :: fs)
  | setValue {e v t fs} : Fits programs o .value e fs →
    Fits programs o .value e (.setValue v t :: fs)
  | discard {e fs Γ} : Stands o e Γ.opens → Fits programs o (.statement Γ) e fs →
    Fits programs o .value e (.discard :: fs)
  | print {e fs Γ} : Stands o e Γ.opens → Fits programs o (.statement Γ) e fs →
    Fits programs o .value e (.print :: fs)
  | varDecl {e t x fs Γ} : Stands o e Γ.opens → Known programs Γ (.stmt (.varDecl t (some x))) →
    Fits programs o (.statement (Γ.define t)) e fs → Fits programs o .value e (.varDecl t :: fs)
  | branch {e s alternative fs Γ} : Stands o e Γ.opens →
    (∀ b ∈ s :: alternative.toList, Known programs Γ (.stmt b) ∧ b.declared? = none) →
    Fits programs o (.statement Γ) e fs →
    Fits programs o .value e (.branch s alternative :: fs)
  | returning {e fs Γ} : Stands o e Γ.opens → Γ.context.function ≠ .none →
    Γ.context.function ≠ .initializer → Fits programs o (.statement Γ) e fs →
    Fits programs o .value e (.returning :: fs)
  | loopTest {e c b i fs Γ} : Stands o e Γ.opens → Known programs Γ (.stmt (.loop c b i)) →
    Fits programs o (.statement Γ) e fs → Fits programs o .value e (.loopTest ⟨c, b, i⟩ :: fs)
  | loopStep {e c b i fs Γ} : Stands o e Γ.opens → Known programs Γ (.stmt (.loop c b i)) →
    Fits programs o (.statement Γ) e fs → Fits programs o .value e (.loopStep ⟨c, b, i⟩ :: fs)
  | loopBody {e c b i fs Γ} : Stands o e Γ.opens → Known programs Γ (.stmt (.loop c b i)) →
    Fits programs o (.statement Γ) e fs →
    Fits programs o (.statement Γ.inLoop) e (.loopBody ⟨c, b, i⟩ :: fs)
  | block {e outer rest fs Γ Δ} : Known programs Δ (.body rest) → outer.index < e.index →
    Δ.context = Γ.context → Stands o outer Γ.opens → Fits programs o (.statement Γ) outer fs →
    Fits programs o (.statement Δ) e (.block rest outer :: fs)
  | inside {e outer rest fs Δ} : Known programs Δ (.body rest) → outer.index < e.index →
    Δ.context.inLoop = false → Fits programs o (.body Δ.context.function) outer fs →
    Fits programs o (.statement Δ) e (.block rest outer :: fs)
  | call {e result fs kind} : (result ≠ .returned → kind = .initializer) →
    Fits programs o .value e fs → Fits programs o (.body kind) e (.call result :: fs)

section Frames

variable {programs : List (List Stmt)} {o : Origins} {e e' : EnvironmentId} {fs : List Frame}
  {hole : Hole}

theorem Fits.opened (h : Fits programs o hole e fs) (s : OpenScope) (outer : EnvironmentId) :
    Fits programs (o.perform (.opened s outer)) hole e fs := by
  induction h with
  | top => exact .top
  | unary hk _ ih => exact .unary hk ih
  | binaryLeft hk hs hn _ ih => exact .binaryLeft hk (hs.opened _ _) hn ih
  | binaryRight hk _ ih => exact .binaryRight hk ih
  | logical hs hn _ ih => exact .logical (hs.opened _ _) hn ih
  | assign hs hn _ ih => exact .assign (hs.opened _ _) hn ih
  | callee hs hn _ ih => exact .callee (hs.opened _ _) hn ih
  | argument hs hn _ ih => exact .argument (hs.opened _ _) hn ih
  | get _ ih => exact .get ih
  | setObject hs hn _ ih => exact .setObject (hs.opened _ _) hn ih
  | setValue _ ih => exact .setValue ih
  | discard hs _ ih => exact .discard (hs.opened _ _) ih
  | print hs _ ih => exact .print (hs.opened _ _) ih
  | varDecl hs hn _ ih => exact .varDecl (hs.opened _ _) hn ih
  | branch hs hn _ ih => exact .branch (hs.opened _ _) hn ih
  | returning hs hf hi _ ih => exact .returning (hs.opened _ _) hf hi ih
  | loopTest hs hn _ ih => exact .loopTest (hs.opened _ _) hn ih
  | loopStep hs hn _ ih => exact .loopStep (hs.opened _ _) hn ih
  | loopBody hs hn _ ih => exact .loopBody (hs.opened _ _) hn ih
  | block hn hlt hc hs _ ih => exact .block hn hlt hc (hs.opened _ _) ih
  | inside hn hlt hl _ ih => exact .inside hn hlt hl ih
  | call hk _ ih => exact .call hk ih

/-- A name bound further in, or among the globals, is no concern of the frames. -/
theorem Fits.bound (h : Fits programs o hole e fs) (hr : o.Rooted) (t : Token)
    (he : e.index < e'.index ∨ e' = Heap.globals) :
    Fits programs (o.perform (.bound e' t)) hole e fs := by
  have hne {x : EnvironmentId} (hx : x.index < e'.index ∨ e' = Heap.globals) :
      x ≠ e' ∨ e' = Heap.globals := hx.imp_left fun hlt hxe => Nat.ne_of_lt hlt (hxe ▸ rfl)
  induction h with
  | top => exact .top
  | unary hk _ ih => exact .unary hk (ih he)
  | binaryLeft hk hs hn _ ih => exact .binaryLeft hk (hs.bound hr t (hne he)) hn (ih he)
  | binaryRight hk _ ih => exact .binaryRight hk (ih he)
  | logical hs hn _ ih => exact .logical (hs.bound hr t (hne he)) hn (ih he)
  | assign hs hn _ ih => exact .assign (hs.bound hr t (hne he)) hn (ih he)
  | callee hs hn _ ih => exact .callee (hs.bound hr t (hne he)) hn (ih he)
  | argument hs hn _ ih => exact .argument (hs.bound hr t (hne he)) hn (ih he)
  | get _ ih => exact .get (ih he)
  | setObject hs hn _ ih => exact .setObject (hs.bound hr t (hne he)) hn (ih he)
  | setValue _ ih => exact .setValue (ih he)
  | discard hs _ ih => exact .discard (hs.bound hr t (hne he)) (ih he)
  | print hs _ ih => exact .print (hs.bound hr t (hne he)) (ih he)
  | varDecl hs hn _ ih => exact .varDecl (hs.bound hr t (hne he)) hn (ih he)
  | branch hs hn _ ih => exact .branch (hs.bound hr t (hne he)) hn (ih he)
  | returning hs hf hi _ ih => exact .returning (hs.bound hr t (hne he)) hf hi (ih he)
  | loopTest hs hn _ ih => exact .loopTest (hs.bound hr t (hne he)) hn (ih he)
  | loopStep hs hn _ ih => exact .loopStep (hs.bound hr t (hne he)) hn (ih he)
  | loopBody hs hn _ ih => exact .loopBody (hs.bound hr t (hne he)) hn (ih he)
  | block hn hlt hc hs _ ih =>
    have hout := he.imp_left (Nat.lt_trans hlt)
    exact .block hn hlt hc (hs.bound hr t (hne hout)) (ih hout)
  | inside hn hlt hl _ ih => exact .inside hn hlt hl (ih (he.imp_left (Nat.lt_trans hlt)))
  | call hk _ ih => exact .call hk (ih he)

/-- After a declaration, what it declares can be bound: the frame that waits for it is that of the
block it stands in. -/
theorem Fits.declared {Γ : Place} {t : Token} (h : Fits programs o (.statement (Γ.define t)) e fs)
    (hs : Stands o e Γ.opens) (hr : o.Rooted) :
    Fits programs (o.perform (.bound e t)) (.statement (Γ.define t)) e fs := by
  cases ho : Γ.opens with
  | nil =>
    rw [ho] at hs
    cases hs.chain
    exact h.bound hr t (.inr rfl)
  | cons s rest =>
    have hd : (Γ.define t).opens = s.add (.named t) :: rest := by simp [Place.define, ho]
    generalize Γ.define t = Δ at h hd
    cases h with
    | top => cases hd
    | @loopBody _ _ _ _ _ Γ' hs' =>
      have hopens : Γ'.opens = s.add (.named t) :: rest := hd
      obtain ⟨outer, h1⟩ := hs.exact s (by simp [ho])
      obtain ⟨outer', h2⟩ := hs'.exact (s.add (.named t)) (by simp [hopens])
      have hsame : s = s.add (.named t) := by
        have := h1.symm.trans h2
        simp only [Option.some.injEq, Origin.mk.injEq] at this
        exact this.1
      have := congrArg (fun s => s.binders.length) hsame
      simp at this
    | block hn hlt hc hs' hf => exact .block hn hlt hc (hs'.bound hr t (.inl fun he => by
        rw [he] at hlt
        exact Nat.lt_irrefl _ hlt)) (hf.bound hr t (.inl hlt))
    | inside hn hlt hl hf => exact .inside hn hlt hl (hf.bound hr t (.inl hlt))

end Frames

end Lox
