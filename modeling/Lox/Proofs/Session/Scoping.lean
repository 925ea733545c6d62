import Lox.Proofs.Session.Invariant

/-! Analysis and execution agree on scoping.

Whenever a node of an accepted program is evaluated or executed, also in a function or method that
a later program calls, the environments from the current one outwards are those of the scopes that
analysis had open at the node. So every name is found where the nearest declaration before it bound
it. -/

namespace Lox

/-- What the next step evaluates or executes. A class evaluates its superclass in the same step. -/
inductive Config.Runs : Config → Node → Prop where
  | eval {m e fs} : Runs ⟨m, .eval e, fs⟩ (.expr e)
  | exec {m s fs} : Runs ⟨m, .exec s, fs⟩ (.stmt s)
  | superclass {m t r methods fs} :
    Runs ⟨m, .exec (.classDecl t (some r) methods), fs⟩ (.expr (.variable r))

/-- The name that a node looks up. -/
def Node.lookedUp? : Node → Option Reference
  | .expr (.variable r) | .expr (.receiver r) | .expr (.inherited r _) => some r
  | _ => none

def Config.occurrence? (c : Config) : Option Reference :=
  match c.control with
  | .eval e => Node.lookedUp? (.expr e)
  | _ => none

theorem Config.runs_of_occurrence? {c : Config} {r : Reference} (h : c.occurrence? = some r) :
    ∃ n, c.Runs n ∧ n.lookedUp? = some r := by
  obtain ⟨m, control, fs⟩ := c
  cases control with
  | eval e => exact ⟨.expr e, .eval, h⟩
  | exec s => cases h
  | done c => cases h

/-- The environments from `e` outwards are those of the scopes that are open at a place, each made
for a scope of the same kind and with all that was declared in it, and then the globals. -/
structure Origins.Mirrors (o : Origins) (h : Heap) (e : EnvironmentId) (Γ : Place) : Prop where
  count : Γ.scopes.length = Γ.opens.length
  scope : ∀ i s, Γ.opens[i]? = some s → ∃ e' origin, h.ancestor? e i = some e' ∧
    e' ≠ Heap.globals ∧ o.of? e' = some origin ∧ origin.scope.kind = s.kind ∧
    s.binders <+: origin.scope.binders
  globals : h.ancestor? e Γ.opens.length = some Heap.globals
  outermost : h.ancestor? e (Γ.opens.length + 1) = none

/-- A name with a depth is found that many hops up, bound by the nearest declaration before it and
by nothing else. A name without one is looked up among the globals and nowhere else. -/
structure Machine.Resolves (o : Origins) (m : Machine) (Γ : Place) (r : Reference) : Prop where
  bound : ∀ depth, m.depths.get? r.node = some depth → ∃ b e v,
    nearest? r.name.lexeme Γ.opens = some (depth, b) ∧
    m.heap.ancestor? m.environment depth = some e ∧ o.Binds e b ∧
    m.heap.getAt? m.environment depth r.name.lexeme = some v ∧ m.read r = .ok v
  free : m.depths.get? r.node = none → nearest? r.name.lexeme Γ.opens = none ∧ m.read r =
    match m.heap.local? Heap.globals r.name.lexeme with
    | some v => .ok v
    | none => .error (undefinedVariable r.name)

theorem Place.length_scopes (Γ : Place) : Γ.scopes.length = Γ.opens.length := by
  have hmark (complete : Bool) (x : String) (scopes : Scopes) :
      (scopes.mark complete x).length = scopes.length := by
    cases scopes <;> rfl
  unfold scopes
  split
  · simp
  · simp [Scopes.define, hmark]
  · simp only [Scopes.declare]
    split <;> simp [hmark]

theorem Meets.notes {program : List Stmt} {Γ : Place} {n : Node} (h : Meets program Γ n) :
    n.Settled Γ ∧ ∀ note ∈ n.notes Γ, note ∈ analyse program := by
  induction h with
  | top => exact ⟨rfl, fun note hn => hn⟩
  | part _ hp ih => exact ⟨hp.settled ih.1, fun note hn => ih.2 note (hp.notes ih.1 hn)⟩

section

variable {o : Origins} {h : Heap} {m : Machine} {e : EnvironmentId} {Γ : Place}

theorem Chain.outermost {opens : List OpenScope} (hc : Chain o e opens) (hf : o.Faithful h)
    (hr : o.Rooted) : h.ancestor? e (opens.length + 1) = none := by
  induction hc with
  | globals =>
    obtain ⟨binders, hb⟩ := hr
    obtain ⟨env, henv, hout⟩ := Option.map_eq_some_iff.mp (hf.outer _ _ hb)
    simp [Heap.ancestor?, henv, hout]
  | @nested e outer actual s rest ho _ _ _ ih =>
    obtain ⟨env, henv, hout⟩ := Option.map_eq_some_iff.mp (hf.outer e _ ho)
    rw [List.length_cons, Heap.ancestor?]
    simp [henv, hout, ih]

theorem Chain.mirrors (hc : Chain o e Γ.opens) (hf : o.Faithful h) (hr : o.Rooted) :
    o.Mirrors h e Γ :=
  ⟨Γ.length_scopes, fun _ _ hs => hc.ancestor hf hr hs, hc.ancestor_globals hf,
    hc.outermost hf hr⟩

/-- Whatever name a node looks up, its depth is that of the nearest declaration. -/
theorem Node.Standing.depth {d : Depths} {n : Node} {r : Reference} (h : n.Standing d Γ)
    (hr : n.lookedUp? = some r) :
    d.get? r.node = (nearest? r.name.lexeme Γ.opens).map Prod.fst := by
  unfold Node.lookedUp? at hr
  split at hr <;> cases hr
  · exact h.depth_of_variable
  · obtain ⟨i, hi, hd⟩ := h.depth_of_receiver
    rw [hd, h.wellFormed.2, hi]
    rfl
  · obtain ⟨i, hi, -, -, hd⟩ := h.depth_of_inherited
    rw [hd, h.wellFormed.2, hi]
    rfl

theorem Chain.resolves (hc : Chain o m.environment Γ.opens) (hf : o.Faithful m.heap)
    (hr : o.Rooted) (hd : o.Distinct) {r : Reference}
    (hn : m.depths.get? r.node = (nearest? r.name.lexeme Γ.opens).map Prod.fst) :
    m.Resolves o Γ r := by
  obtain ⟨hbound, hfree⟩ := Machine.read_variable hf hr hd hc hn
  refine ⟨fun depth hdepth => ?_, fun hnone => ?_⟩
  · obtain ⟨⟨i, b⟩, hnear, rfl⟩ := Option.map_eq_some_iff.mp (hn.symm.trans hdepth)
    obtain ⟨e, v, ha, hv, hb, hread⟩ := hbound i b hnear
    exact ⟨b, e, v, hnear, ha, hb, (Heap.getAt?_of_local ha hv).2, hread⟩
  · have hnear := Option.map_eq_none_iff.mp (hn.symm.trans hnone)
    exact ⟨hnear, hfree hnear⟩

end

theorem Activity.Reachable.runs {o : Origins} {programs : List (List Stmt)} {c : Config}
    {rest : List Stmt} {report : Report} {nextNode : Nat}
    (h : Activity.Reachable o programs (.running c rest report nextNode)) {n : Node}
    (hn : c.Runs n) : ∃ Γ, Known programs Γ n ∧ Chain o c.machine.environment Γ.opens := by
  obtain ⟨-, hc, -⟩ := h.invariant
  cases hn with
  | eval =>
    obtain ⟨Γ, hs, hn, -⟩ := hc
    exact ⟨Γ, hn, hs.chain⟩
  | exec =>
    obtain ⟨Γ, hs, hn, -⟩ := hc
    exact ⟨Γ, hn, hs.chain⟩
  | @superclass m t =>
    obtain ⟨Γ, hs, hn, -⟩ := hc
    exact ⟨Γ.declaring t true, hn.part .superclass, hs.chain⟩

/-- Analysis and execution agree on scoping, in every state that a session can come to. -/
theorem scopes_agree {o : Origins} {programs : List (List Stmt)} {c : Config} {rest : List Stmt}
    {report : Report} {nextNode : Nat}
    (h : Activity.Reachable o programs (.running c rest report nextNode)) {n : Node}
    (hn : c.Runs n) :
    o.Faithful c.machine.heap ∧ ∃ program ∈ programs, ∃ Γ,
      Meets program Γ n ∧ (∀ note ∈ n.notes Γ, note ∈ analyse program) ∧
      o.Mirrors c.machine.heap c.machine.environment Γ ∧
      ∀ r, n.lookedUp? = some r → c.machine.Resolves o Γ r := by
  have hready := h.invariant.1
  obtain ⟨Γ, hknown, hchain⟩ := h.runs hn
  have hstanding := hready.kept.standing hknown
  obtain ⟨program, hp, hmeets⟩ := hknown
  exact ⟨hready.faithful, program, hp, Γ, hmeets, hmeets.notes.2,
    hchain.mirrors hready.faithful hready.kept.rooted,
    fun r hr => hchain.resolves hready.faithful hready.kept.rooted hready.kept.distinct
      (hstanding.depth hr)⟩

/-- In `{ var a; { print a; } }` the variable is found one hop up. -/
theorem scopes_agree_two_blocks_deep : ∃ c n r o program Γ,
    Config.Runs c n ∧ n.lookedUp? = some r ∧ c.machine.depths.get? r.node = some 1 ∧
    Meets program Γ n ∧ Origins.Mirrors o c.machine.heap c.machine.environment Γ ∧
    c.machine.Resolves o Γ r := by
  let s := Session.start (⟨0⟩ : Number)
  let source := "{ var a; { print a; } }"
  have hsome : ((s.configAfter? source 5).bind fun c => c.occurrence?.filter fun r =>
      c.machine.depths.get? r.node = some 1).isSome = true := by decide +kernel
  obtain ⟨r, hr⟩ := Option.isSome_iff_exists.mp hsome
  obtain ⟨c, hc, hr⟩ := Option.bind_eq_some_iff.mp hr
  obtain ⟨hr, hdepth⟩ := Option.filter_eq_some_iff.mp hr
  obtain ⟨o, rest, report, nextNode, h⟩ := (Activity.Reachable.start (⟨0⟩ : Number)).configAfter?
    (s := s) (by decide +kernel) (by decide +kernel) hc
  obtain ⟨n, hn, hlooked⟩ := Config.runs_of_occurrence? hr
  obtain ⟨-, program, -, Γ, hmeets, -, hmirrors, hresolves⟩ := scopes_agree h hn
  exact ⟨c, n, r, o, program, Γ, hn, hlooked, by simpa using hdepth, hmeets, hmirrors,
    hresolves r hlooked⟩

end Lox
