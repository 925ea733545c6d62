import Lox.Proofs.Session.Invariant

/-! What accepted programs never do.

They apply no operator that does not exist and find the superclass and the receiver wherever they
ask for them, statements at top level end normally or fail, and a body neither breaks nor continues
a loop of its caller. -/

namespace Lox

/-- A configuration in which nothing went wrong that analysis is there to prevent. The body of an
initializer runs in a call that gives the receiver or the new object. -/
structure Config.Safe (c : Config) : Prop where
  fault : ∀ e, c.control = .done (.failed e) → ¬e.Internal
  inherited : ∀ r method, c.control = .eval (.inherited r method) →
    (∃ receiver f, c.machine.inherited r method = .ok (receiver, .method f)) ∨
      c.machine.inherited r method = .error (undefinedProperty method)
  statement : ∀ completion, c.control = .done completion → c.frames = [] →
    completion = .normal ∨ ∃ e, completion = .failed e
  body : ∀ completion result fs, c.control = .done completion → c.frames = .call result :: fs →
    completion = .normal ∨ (∃ e, completion = .failed e) ∨
      ∃ v, completion = .returned v ∧ (result ≠ .returned → v = .nil)

section

variable {programs : List (List Stmt)} {o : Origins} {e : EnvironmentId} {hole : Hole}
  {c : Completion}

theorem Hole.Takes.not_internal {fault : RuntimeError} (h : hole.Takes o e (.failed fault)) :
    ¬fault.Internal := by
  cases hole <;> exact h

theorem Fits.ends_statement (h : Fits programs o hole e []) (ht : hole.Takes o e c) :
    c = .normal ∨ ∃ fault, c = .failed fault := by
  obtain ⟨rfl, -⟩ := h.of_nil
  cases c with
  | value v => exact ht.elim
  | normal => exact .inl rfl
  | returned v => exact absurd rfl ht.2.1
  | broken => cases ht.2
  | continued => cases ht.2
  | failed fault => exact .inr ⟨fault, rfl⟩

theorem Fits.ends_body {result : CallResult} {fs : List Frame}
    (h : Fits programs o hole e (.call result :: fs)) (ht : hole.Takes o e c) :
    c = .normal ∨ (∃ fault, c = .failed fault) ∨
      ∃ v, c = .returned v ∧ (result ≠ .returned → v = .nil) := by
  cases h with
  | call hk _ =>
    cases c with
    | value v => exact ht.elim
    | normal => exact .inl rfl
    | returned v => exact .inr (.inr ⟨v, rfl, fun hr => ht (hk hr)⟩)
    | broken => exact ht.elim
    | continued => exact ht.elim
    | failed fault => exact .inr (.inl ⟨fault, rfl⟩)

end

/-- Whatever was accepted runs safely, in every state that a session can come to. -/
theorem runs_safely {o : Origins} {programs : List (List Stmt)} {c : Config} {rest : List Stmt}
    {report : Report} {nextNode : Nat}
    (h : Activity.Reachable o programs (.running c rest report nextNode)) : c.Safe := by
  obtain ⟨m, control, fs⟩ := c
  obtain ⟨hready, hc, -⟩ := h.invariant
  refine ⟨?_, ?_, ?_, ?_⟩
  · rintro e rfl
    obtain ⟨hole, ht, -⟩ := hc
    exact ht.not_internal
  · rintro r method rfl
    obtain ⟨Γ, hs, hn, -⟩ := hc
    obtain ⟨i, e, c, receiver, -, -, -, -, heq⟩ := Machine.inherited_eq hready.faithful
      hready.kept.rooted hready.kept.supers hs.chain (hready.kept.standing hn)
    cases hfound : m.heap.method? c method.lexeme with
    | none => exact .inr (by simp [heq, hfound])
    | some f => exact .inl ⟨receiver, f, by simp [heq, hfound]⟩
  · rintro completion rfl rfl
    obtain ⟨hole, ht, hfs⟩ := hc
    exact hfs.ends_statement ht
  · rintro completion result fs rfl rfl
    obtain ⟨hole, ht, hfs⟩ := hc
    exact hfs.ends_body ht

def Config.inherited? : Config → Option (Reference × Token)
  | ⟨_, .eval (.inherited r method), _⟩ => some (r, method)
  | _ => none

theorem Config.control_of_inherited? {c : Config} {r : Reference} {method : Token}
    (h : c.inherited? = some (r, method)) : c.control = .eval (.inherited r method) := by
  unfold Config.inherited? at h
  split at h
  · cases h
    rfl
  · cases h

/-- An initializer calls the one that its class inherits. -/
theorem runs_safely_at_super : ∃ c r method,
    c.control = .eval (.inherited r method) ∧ Config.Safe c := by
  let s := Session.start (⟨0⟩ : Number)
  let source := "{ class A { init() {} } class B < A { init() { super.init(); } } B(); }"
  have hsome : ((s.configAfter? source 11).bind Config.inherited?).isSome = true := by
    decide +kernel
  obtain ⟨⟨r, method⟩, hr⟩ := Option.isSome_iff_exists.mp hsome
  obtain ⟨c, hc, hr⟩ := Option.bind_eq_some_iff.mp hr
  obtain ⟨o, rest, report, nextNode, h⟩ := (Activity.Reachable.start (⟨0⟩ : Number)).configAfter?
    (s := s) (by decide +kernel) (by decide +kernel) hc
  exact ⟨c, r, method, Config.control_of_inherited? hr, runs_safely h⟩

end Lox
