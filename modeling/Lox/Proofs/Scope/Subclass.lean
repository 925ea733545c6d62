import Lox.Proofs.Scope.Lookup

/-! What encloses the methods of a subclass.

Wherever `super` is allowed, the scopes further in than the one of the receiver are those of
functions and blocks. So the nearest scope of a receiver is the one that stands inside the scope for
`super`. -/

namespace Lox

/-- Scopes of functions and blocks in a method of a subclass. -/
inductive InSubclass : List OpenScope → Prop where
  | method {outer} : InSubclass (.receiver :: .superclass :: outer)
  | nested {s outer} : s.Plain → InSubclass outer → InSubclass (s :: outer)

theorem OpenScope.Plain.kind_ne_receiver {s : OpenScope} (h : s.Plain) : s.kind ≠ .receiver := by
  rcases h.kind with hk | hk <;> simp [hk]

/-- `super` is not introduced by the scope of a function or block. -/
theorem OpenScope.Plain.nearest?_super {s : OpenScope} (h : s.Plain) (outer : List OpenScope) :
    nearest? "super" (s :: outer) =
      (nearest? "super" outer).map fun found => (found.1 + 1, found.2) := by
  have hnone : s.binders.find? (·.name == "super") = none := by
    refine List.find?_eq_none.mpr fun b hb => ?_
    obtain ⟨t, rfl, ht⟩ := h.named b hb
    simpa [Binder.name] using ht.not_super
  rw [nearest?, hnone]

theorem FunctionDecl.scope_plain {f : FunctionDecl} (h : ∀ p ∈ f.params, p.IsName) :
    f.scope.Plain := by
  refine ⟨.inr rfl, fun b hb => ?_⟩
  obtain ⟨p, hp, rfl⟩ := List.mem_map.mp hb
  exact ⟨p, rfl, h p hp⟩

/-- What stands in the body of a function, though not in the methods of a class within it. -/
inductive FunctionDecl.Contains (f : FunctionDecl) : Node → Prop where
  | itself {kind} : f.Contains (.callable kind f)
  | part {Γ Δ : Place} {n m : Node} : f.Contains n → Node.Part Γ n Δ m →
    (∀ kind g, m = .callable kind g → n = .stmt (.function g)) → f.Contains m

namespace Place

/-- `super` is allowed only in the methods of a subclass. -/
def Derives (Γ : Place) : Prop := Γ.context.classKind = .derived → InSubclass Γ.opens

variable {Γ : Place}

theorem Derives.define (h : Γ.Derives) (hf : Γ.Flat) {t : Token} (ht : t.IsName) :
    (Γ.define t).Derives := by
  intro hk
  have hin := h hk
  cases ho : Γ.opens with
  | nil =>
    rw [ho] at hin
    cases hin
  | cons s outer =>
    have hplain : s.Plain := hf s (by simp [ho])
    have hd : (Γ.define t).opens = s.add (.named t) :: outer := by simp [Place.define, ho]
    rw [ho] at hin
    rw [hd]
    cases hin with
    | method => exact absurd rfl hplain.ne_receiver
    | nested _ houter => exact .nested (hplain.add ht) houter

theorem Derives.after (h : Γ.Derives) (hf : Γ.Flat) {s : Stmt} (hs : s.WellFormed) :
    (Γ.after s).Derives := by
  unfold Place.after
  cases hd : s.declared? with
  | none => exact h
  | some t => exact h.define hf (hs.declared hd)

end Place

theorem Node.Part.derives {Γ Δ : Place} {n m : Node} (h : Node.Part Γ n Δ m) (hw : n.WellFormed)
    (hf : n.Flat Γ) (hd : Γ.Derives) : Δ.Derives := by
  cases h
  case block => exact fun hk => .nested ⟨.inl rfl, List.forall_mem_nil _⟩ (hd hk)
  case function f => exact hd.define hf ((FunctionDecl.wellFormed_iff f).mp hw).1
  case method t r fs f hm =>
    intro hk
    cases r with
    | none => cases hk
    | some r => exact .method
  case rest => exact hd.after hf hw.1
  case inside kind f =>
    have hparams := ((FunctionDecl.wellFormed_iff f).mp hw).2.1
    exact fun hk => .nested (FunctionDecl.scope_plain hparams) (hd hk)
  all_goals exact hd

theorem Meets.derives {d : Depths} {program : List Stmt} {Γ : Place} {n : Node}
    (hw : Stmt.AllWellFormed program) (hn : ∀ note ∈ analyse program, note.Holds d)
    (h : Meets program Γ n) : Γ.Derives := by
  induction h with
  | top => exact fun hk => nomatch hk
  | part hm hp ih =>
    have hstanding := hm.standing hw hn
    exact hp.derives hstanding.wellFormed hstanding.flat ih

/-- Where `super` is accepted, it stands in a method of a subclass. -/
theorem Node.Standing.inSubclass {d : Depths} {Γ : Place} {r : Reference} {method : Token}
    (h : Node.Standing d Γ (.expr (.inherited r method))) (hd : Γ.Derives) :
    InSubclass Γ.opens := by
  have hacc := h.accepted
  refine hd ?_
  simp only [Node.notes, Expr.notes, accepted_append, accepted_errorIf] at hacc
  cases hk : Γ.context.classKind <;> simp_all

end Lox
