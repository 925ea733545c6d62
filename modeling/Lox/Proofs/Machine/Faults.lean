import Lox.Proofs.Machine.Reading

/-! Faults that no accepted program runs into.

The operators of a program that was read are ones that exist, a superclass is named by a variable,
and a `super` stands where both the superclass and the receiver are bound. -/

namespace Lox

theorem undefinedVariable_not_internal (t : Token) : ¬(undefinedVariable t).Internal := by
  simp [undefinedVariable, RuntimeError.Internal]

theorem undefinedProperty_not_internal (t : Token) : ¬(undefinedProperty t).Internal := by
  simp [undefinedProperty, RuntimeError.Internal]

namespace Operator

variable {t : Token} {e : RuntimeError}

theorem unary_not_internal {v : Value} (hk : Grammar.isUnaryOperator t.kind = true)
    (h : unary t v = .error e) : ¬e.Internal := by
  unfold unary at h
  split at h
  · cases h
  · cases h
    simp [RuntimeError.Internal]
  · cases h
  · rename_i hminus hbang _
    have hkind : t.kind = .bang ∨ t.kind = .minus := by simpa [Grammar.isUnaryOperator] using hk
    exact (hkind.elim hbang hminus).elim

theorem add_not_internal {v w : Value} (h : add t v w = .error e) : ¬e.Internal := by
  unfold add at h
  split at h
  · cases h
  · cases h
  · cases h
    simp [RuntimeError.Internal]

theorem onNumbers_not_internal {v w : Value} (hk : Grammar.isBinaryOperator t.kind = true)
    (hne : t.kind ≠ .equalEqual ∧ t.kind ≠ .bangEqual ∧ t.kind ≠ .plus)
    (h : onNumbers t v w = .error e) : ¬e.Internal := by
  unfold onNumbers at h
  split at h
  · rename_i a b
    have hsome : (arithmetic? a b t.kind).isSome = true := by
      obtain ⟨h1, h2, h3⟩ := hne
      generalize t.kind = k at hk h1 h2 h3
      cases k <;> first | rfl | contradiction
    obtain ⟨value, hv⟩ := Option.isSome_iff_exists.mp hsome
    rw [hv] at h
    cases h
  · cases h
    simp [RuntimeError.Internal]

theorem binary_not_internal {v w : Value} (hk : Grammar.isBinaryOperator t.kind = true)
    (h : binary t v w = .error e) : ¬e.Internal := by
  unfold binary at h
  split at h
  · cases h
  · cases h
  · exact add_not_internal h
  · rename_i h1 h2 h3
    exact onNumbers_not_internal hk ⟨h1, h2, h3⟩ h

end Operator

namespace Machine

variable {m : Machine} {e : RuntimeError}

theorem read_not_internal {r : Reference} (h : m.read r = .error e) : ¬e.Internal := by
  unfold read at h
  split at h
  · cases h
  · cases h
    exact undefinedVariable_not_internal _

theorem superclass_not_internal {superclass : Option Reference}
    (hn : ∀ r ∈ superclass, r.name.IsName) (h : m.superclass superclass = .error e) :
    ¬e.Internal := by
  unfold Machine.superclass at h
  split at h
  · cases h
  · rename_i r
    split at h
    · cases h
    · cases h
      simp [RuntimeError.Internal, (hn r rfl).kind]
    · rename_i e' hr
      cases h
      exact read_not_internal hr

theorem property_not_internal {object : Value} {name : Token}
    (h : m.property object name = .error e) : ¬e.Internal := by
  unfold property at h
  split at h
  · split at h
    · cases h
    · cases h
      exact undefinedProperty_not_internal _
  · cases h
    simp [RuntimeError.Internal]

theorem inherited_not_internal {o : Origins} {Γ : Place} (hf : o.Faithful m.heap) (hr : o.Rooted)
    (hs : o.Supers m.heap) (hc : Chain o m.environment Γ.opens) {r : Reference} {method : Token}
    (hn : Node.Standing m.depths Γ (.expr (.inherited r method)))
    (h : m.inherited r method = .error e) : ¬e.Internal := by
  obtain ⟨i, _, c, receiver, -, -, -, -, heq⟩ := inherited_eq hf hr hs hc hn
  rw [heq] at h
  split at h
  · cases h
  · cases h
    exact undefinedProperty_not_internal _

end Machine

end Lox
