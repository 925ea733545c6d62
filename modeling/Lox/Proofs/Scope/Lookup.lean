import Lox.Proofs.Scope.Place
import Lox.Proofs.Scope.Table

/-! Which declaration an occurrence is bound to.

In an accepted program the declaration found for an occurrence is always complete: the only names
that are open without being bound are those of declarations that have begun, and these are
refused where they would be read. -/

namespace Lox

/-- The nearest scope that introduces a name, and what introduces it there. -/
def nearest? (x : String) : List OpenScope → Option (Nat × Binder)
  | [] => none
  | s :: outer =>
    match s.binders.find? (·.name == x) with
    | some b => some (0, b)
    | none => (nearest? x outer).map fun found => (found.1 + 1, found.2)

theorem depth?_cons (scope : Scope) (outer : Scopes) (x : String) :
    Scopes.depth? (scope :: outer) x =
      if scope.contains x then some 0 else (Scopes.depth? outer x).map (· + 1) := by
  simp [Scopes.depth?, List.findIdx?_cons]

theorem depth?_names (x : String) (opens : List OpenScope) :
    Scopes.depth? (opens.map OpenScope.names) x = (nearest? x opens).map Prod.fst := by
  induction opens with
  | nil => rfl
  | cons s outer ih =>
    rw [List.map_cons, depth?_cons, ih, nearest?]
    cases hb : s.binders.find? (·.name == x) with
    | none =>
      have hn : s.names.contains x = false := by
        rw [← Bool.not_eq_true, OpenScope.contains_names]
        rintro ⟨b, hm, hx⟩
        simpa [hx] using List.find?_eq_none.mp hb b hm
      rw [hn]
      cases nearest? x outer <;> rfl
    | some b =>
      have hs : s.names.contains x = true := (s.contains_names x).mpr
        ⟨b, List.mem_of_find?_eq_some hb, by simpa using List.find?_some hb⟩
      rw [hs]
      rfl

theorem nearest?_eq_some {x : String} {d : Nat} {b : Binder} : ∀ {opens : List OpenScope},
    nearest? x opens = some (d, b) → ∃ s, opens[d]? = some s ∧ b ∈ s.binders ∧ b.name = x
  | s :: outer, h => by
    rw [nearest?] at h
    split at h
    · rename_i found hf
      obtain ⟨rfl, rfl⟩ := Prod.mk.inj (Option.some.inj h)
      exact ⟨s, rfl, List.mem_of_find?_eq_some hf, by simpa using List.find?_some hf⟩
    · obtain ⟨⟨i, b'⟩, hi, he⟩ := Option.map_eq_some_iff.mp h
      obtain ⟨rfl, rfl⟩ := Prod.mk.inj he
      obtain ⟨s', hs', hb⟩ := nearest?_eq_some hi
      exact ⟨s', by simpa using hs', hb⟩

theorem nearest?_eq_none {x : String} : ∀ {opens : List OpenScope},
    nearest? x opens = none ↔ ∀ s ∈ opens, ∀ b ∈ s.binders, b.name ≠ x
  | [] => by simp [nearest?]
  | s :: outer => by
    rw [nearest?]
    cases hb : s.binders.find? (·.name == x) with
    | some b =>
      have hm := List.mem_of_find?_eq_some hb
      have hx : b.name = x := by simpa using List.find?_some hb
      simp only [List.mem_cons, forall_eq_or_imp]
      exact ⟨fun h => by simp at h, fun h => absurd hx (h.1 b hm)⟩
    | none =>
      have hs : ∀ b ∈ s.binders, b.name ≠ x := by simpa using hb
      simp only [Option.map_eq_none_iff, List.mem_cons, forall_eq_or_imp]
      exact ⟨fun h => ⟨hs, nearest?_eq_none.mp h⟩, fun h => nearest?_eq_none.mpr h.2⟩

theorem depth?_mark {x y : String} (h : y ≠ x) (complete : Bool) (scopes : Scopes) :
    Scopes.depth? (scopes.mark complete y) x = Scopes.depth? scopes x := by
  cases scopes with
  | nil => rfl
  | cons scope outer =>
    have hc : (scope.insert y complete).contains x = scope.contains x := by
      simp [Bindings.contains, h]
    rw [Scopes.mark, depth?_cons, depth?_cons, hc]

/-- A declaration that has begun matters only to occurrences of its own name. -/
theorem Place.depth?_scopes {Γ : Place} {x : String} (h : ∀ u ∈ Γ.underway, u.name.lexeme ≠ x) :
    Γ.scopes.depth? x = (nearest? x Γ.opens).map Prod.fst := by
  rw [← depth?_names]
  unfold Place.scopes
  split
  · rfl
  · rename_i name hu
    exact depth?_mark (h ⟨name, true⟩ hu) _ _
  · rename_i name hu
    rw [Scopes.declare]
    split
    · rfl
    · exact depth?_mark (h ⟨name, false⟩ hu) _ _

/-- A local variable of this name is being given its first value. -/
def Place.Initializes (Γ : Place) (x : String) : Prop :=
  Γ.opens ≠ [] ∧ ∃ t, Γ.underway = some ⟨t, false⟩ ∧ t.lexeme = x

/-- What is known of a declaration that has begun around a node. -/
structure Node.Begun (Γ : Place) (n : Node) : Prop where
  name : ∀ u ∈ Γ.underway, u.name.IsName
  unbound : ∀ t, Γ.underway = some ⟨t, false⟩ →
    Scopes.isDeclared (Γ.opens.map OpenScope.names) t.lexeme = false
  other : ∀ t, Γ.underway = some ⟨t, true⟩ →
    ∃ r, n = .expr (.variable r) ∧ r.name.lexeme ≠ t.lexeme

theorem Node.begun_of_settled {Γ : Place} {n : Node} (h : Γ.underway = none) : n.Begun Γ :=
  ⟨by simp [h], by simp [h], by simp [h]⟩

theorem Node.Part.begun {Γ Δ : Place} {n m : Node} (h : Node.Part Γ n Δ m) (hs : n.Settled Γ)
    (hw : n.WellFormed) (ha : Accepted (n.notes Γ)) (hb : n.Begun Γ) : m.Begun Δ := by
  cases n with
  | expr e =>
    have hu : ∀ t, Γ.underway ≠ some ⟨t, true⟩ := by
      intro t ht
      obtain ⟨r, he, -⟩ := hb.other t ht
      cases he
      cases h
    have hd : Δ = Γ := by cases h <;> rfl
    subst hd
    exact ⟨hb.name, hb.unbound, fun t ht => absurd ht (hu t)⟩
  | stmt s =>
    have hs' : Γ.underway = none := hs
    have hopens := Place.scopes_of_settled hs'
    cases h
    case initializer t e =>
      refine ⟨?_, ?_, ?_⟩
      · rintro _ ⟨⟩
        exact hw.1
      · rintro _ ⟨⟩
        simp only [Node.notes, Stmt.notes, ScopeNote.ofDeclaration, accepted_append,
          accepted_errorIf] at ha
        exact hopens ▸ ha.1
      · rintro _ ⟨⟩
    case superclass t r fs =>
      refine ⟨?_, ?_, ?_⟩
      · rintro _ ⟨⟩
        exact hw.1
      · rintro _ ⟨⟩
      · rintro _ ⟨⟩
        simp only [Node.notes, Stmt.notes, ScopeNote.ofSuperclass, accepted_append,
          accepted_errorIf] at ha
        exact ⟨r, rfl, by simpa using ha.1.2.1⟩
    all_goals exact begun_of_settled hs'
  | body rest =>
    have hs' : Γ.underway = none := hs
    cases h
    · exact begun_of_settled hs'
    · exact begun_of_settled ((Place.underway_after _).trans hs')
  | callable kind f =>
    have hs' : Γ.underway = none := hs
    cases h
    exact begun_of_settled hs'

/-- What is known of a node of an accepted program, given the table of depths. -/
structure Node.Standing (d : Depths) (Γ : Place) (n : Node) : Prop where
  wellFormed : n.WellFormed
  settled : n.Settled Γ
  holds : ∀ note ∈ n.notes Γ, note.Holds d
  shaped : Γ.Shaped
  flat : n.Flat Γ
  begun : n.Begun Γ

theorem Node.Standing.accepted {d : Depths} {Γ : Place} {n : Node} (h : n.Standing d Γ) :
    Accepted (n.notes Γ) := fun e he => h.holds (.error e) he

theorem Node.Standing.part {d : Depths} {Γ Δ : Place} {n m : Node} (h : n.Standing d Γ)
    (hp : Node.Part Γ n Δ m) : m.Standing d Δ :=
  have hs := hp.shaped h.wellFormed h.shaped h.flat
  ⟨hp.wellFormed h.wellFormed, hp.settled h.settled,
    fun note hn => h.holds note (hp.notes h.settled hn), hs.1, hs.2,
    hp.begun h.settled h.wellFormed h.accepted h.begun⟩

theorem Meets.standing {d : Depths} {program : List Stmt} {Γ : Place} {n : Node}
    (hw : Stmt.AllWellFormed program) (hn : ∀ note ∈ analyse program, note.Holds d)
    (h : Meets program Γ n) : n.Standing d Γ := by
  induction h with
  | top =>
    refine ⟨hw, rfl, hn, ⟨.nil, fun h => absurd rfl h, fun h => ?_⟩, fun s hs => ?_,
      Node.begun_of_settled rfl⟩
    · cases h
    · cases hs
  | part _ hp ih => exact ih.part hp

section Occurrences

variable {d : Depths} {Γ : Place}

/-- A name that can be read is looked up where it was declared completely. -/
theorem Node.Standing.depth_of_variable {r : Reference}
    (h : Node.Standing d Γ (.expr (.variable r))) :
    d.get? r.node = (nearest? r.name.lexeme Γ.opens).map Prod.fst := by
  have hbound : ScopeNote.ofReference Γ.scopes r ∈ Node.notes Γ (.expr (.variable r)) := by
    simp [Node.notes, Expr.notes, ScopeNote.ofRead]
  refine (h.holds _ hbound).trans ?_
  cases hu : Γ.underway with
  | none => exact Place.depth?_scopes (by simp [hu])
  | some u =>
    by_cases hx : u.name.lexeme = r.name.lexeme
    · obtain ⟨t, readable⟩ := u
      cases readable with
      | true =>
        obtain ⟨r', he, hne⟩ := h.begun.other t hu
        cases he
        exact absurd hx.symm hne
      | false =>
        -- The name could not be read, unless it is a global.
        have hacc := h.accepted
        simp only [Node.notes, Expr.notes, ScopeNote.ofRead, accepted_append, accepted_errorIf]
          at hacc
        have hscopes : Γ.scopes = Scopes.mark false t.lexeme (Γ.opens.map OpenScope.names) := by
          simp [Place.scopes, hu, Scopes.declare, h.begun.unbound t hu]
        cases ho : Γ.opens with
        | nil => simp [hscopes, ho, Scopes.mark, Scopes.depth?, nearest?]
        | cons s outer =>
          have hx' : t.lexeme = r.name.lexeme := hx
          simp [hscopes, ho, Scopes.mark, Scopes.isIncomplete, hx'] at hacc
    · refine Place.depth?_scopes fun v hv => ?_
      obtain rfl := Option.some.inj (hu.symm.trans hv)
      exact hx

/-- The name of a variable whose initializer assigns to it is declared, so it has a depth. -/
theorem Node.Standing.depth_of_assign {r : Reference} {e : Expr}
    (h : Node.Standing d Γ (.expr (.assign r e))) :
    (Γ.Initializes r.name.lexeme → d.get? r.node = some 0) ∧
      (¬Γ.Initializes r.name.lexeme →
        d.get? r.node = (nearest? r.name.lexeme Γ.opens).map Prod.fst) := by
  have hbound : ScopeNote.ofReference Γ.scopes r ∈ Node.notes Γ (.expr (.assign r e)) := by
    simp [Node.notes, Expr.notes]
  refine ⟨fun hc => (h.holds _ hbound).trans ?_, fun hc => (h.holds _ hbound).trans ?_⟩
  · obtain ⟨ho, t, hu, hx⟩ := hc
    obtain ⟨s, outer, ho⟩ := List.exists_cons_of_ne_nil ho
    have hscopes : Γ.scopes = Scopes.mark false t.lexeme (Γ.opens.map OpenScope.names) := by
      simp [Place.scopes, hu, Scopes.declare, h.begun.unbound t hu]
    rw [hscopes, ho, List.map_cons, Scopes.mark, depth?_cons]
    simp [Bindings.contains, hx]
  · by_cases ho : Γ.opens = []
    · have hb := h.begun.unbound
      unfold Place.scopes
      simp only [ho, List.map_nil, nearest?]
      split <;> simp [Scopes.define, Scopes.declare, Scopes.mark, Scopes.isDeclared, Scopes.depth?]
    · refine Place.depth?_scopes fun u hu hx => ?_
      obtain ⟨t, readable⟩ := u
      cases readable with
      | true =>
        obtain ⟨r', he, -⟩ := h.begun.other t hu
        cases he
      | false => exact hc ⟨ho, t, hu, hx⟩

theorem Stacked.mem {opens : List OpenScope} (h : Stacked opens) :
    ∀ s ∈ opens, s.Plain ∨ s = .receiver ∨ s = .superclass := by
  induction h with
  | nil => simp
  | plain hs _ ih =>
    rintro s (_ | ⟨_, hm⟩)
    · exact .inl hs
    · exact ih s hm
  | root _ ih =>
    rintro s (_ | ⟨_, hm⟩)
    · exact .inr (.inl rfl)
    · exact ih s hm
  | derived _ ih =>
    rintro s (_ | ⟨_, _ | ⟨_, hm⟩⟩)
    · exact .inr (.inl rfl)
    · exact .inr (.inr rfl)
    · exact ih s hm

theorem Stacked.receiver_at {opens : List OpenScope} (h : Stacked opens) : ∀ i : Nat,
    opens[i]? = some .superclass → ∃ j, i = j + 1 ∧ opens[j]? = some .receiver := by
  induction h with
  | nil => simp
  | @plain s outer hs _ ih =>
    rintro (_ | i) hi
    · exact absurd (Option.some.inj hi) hs.ne_superclass
    · obtain ⟨j, rfl, hj⟩ := ih i (by simpa using hi)
      exact ⟨j + 1, rfl, by simpa using hj⟩
  | root _ ih =>
    rintro (_ | i) hi
    · cases hi
    · obtain ⟨j, rfl, hj⟩ := ih i (by simpa using hi)
      exact ⟨j + 1, rfl, by simpa using hj⟩
  | derived _ ih =>
    rintro (_ | _ | i) hi
    · cases hi
    · exact ⟨0, rfl, rfl⟩
    · obtain ⟨j, rfl, hj⟩ := ih i (by simpa using hi)
      exact ⟨j + 2, rfl, by simpa using hj⟩

/-- The two reserved names are introduced by the scopes made for them. -/
theorem Stacked.nearest?_reserved {opens : List OpenScope} (h : Stacked opens) {i : Nat}
    {b : Binder} {x : String} (hn : nearest? x opens = some (i, b)) :
    (x = "this" → b = .receiver ∧ opens[i]? = some .receiver) ∧
      (x = "super" → b = .superclass ∧ opens[i]? = some .superclass) := by
  obtain ⟨s, hs, hb, hx⟩ := nearest?_eq_some hn
  rcases h.mem s (List.mem_of_getElem? hs) with hp | rfl | rfl
  · obtain ⟨t, rfl, ht⟩ := hp.named b hb
    exact ⟨fun h => absurd (hx.trans h) ht.not_this, fun h => absurd (hx.trans h) ht.not_super⟩
  · obtain rfl : b = .receiver := by simpa [OpenScope.receiver] using hb
    exact ⟨fun _ => ⟨rfl, hs⟩, fun h => absurd (hx.trans h) (by decide)⟩
  · obtain rfl : b = .superclass := by simpa [OpenScope.superclass] using hb
    exact ⟨fun h => absurd (hx.trans h) (by decide), fun _ => ⟨rfl, hs⟩⟩

theorem Place.Shaped.nearest?_this {Γ : Place} (h : Γ.Shaped) (hk : Γ.context.classKind ≠ .none) :
    ∃ i, nearest? "this" Γ.opens = some (i, .receiver) := by
  cases hn : nearest? "this" Γ.opens with
  | none => exact absurd rfl (nearest?_eq_none.mp hn _ (h.receiver hk) .receiver (.head _))
  | some found =>
    obtain ⟨i, b⟩ := found
    obtain ⟨rfl, -⟩ := (h.stacked.nearest?_reserved hn).1 rfl
    exact ⟨i, rfl⟩

theorem Place.Shaped.nearest?_super {Γ : Place} (h : Γ.Shaped)
    (hk : Γ.context.classKind = .derived) :
    ∃ i, nearest? "super" Γ.opens = some (i + 1, .superclass) ∧
      Γ.opens[i]? = some .receiver ∧ Γ.opens[i + 1]? = some .superclass := by
  cases hn : nearest? "super" Γ.opens with
  | none => exact absurd rfl (nearest?_eq_none.mp hn _ (h.superclass hk) .superclass (.head _))
  | some found =>
    obtain ⟨i, b⟩ := found
    obtain ⟨rfl, hi⟩ := (h.stacked.nearest?_reserved hn).2 rfl
    obtain ⟨j, rfl, hj⟩ := h.stacked.receiver_at i hi
    exact ⟨j, rfl, hj, hi⟩

theorem Node.Standing.depth_of_receiver {r : Reference}
    (h : Node.Standing d Γ (.expr (.receiver r))) :
    ∃ i, nearest? "this" Γ.opens = some (i, .receiver) ∧ d.get? r.node = some i := by
  have hacc := h.accepted
  have hlex : r.name.lexeme = "this" := h.wellFormed.2
  by_cases hk : Γ.context.classKind = .none
  · simp [Node.notes, Expr.notes, hk, Accepted] at hacc
  · obtain ⟨i, hi⟩ := h.shaped.nearest?_this hk
    have hbound : ScopeNote.ofReference Γ.scopes r ∈ Node.notes Γ (.expr (.receiver r)) := by
      simp [Node.notes, Expr.notes, hk]
    have hdepth := Place.depth?_scopes (x := "this") fun u hu => (h.begun.name u hu).not_this
    refine ⟨i, hi, (h.holds _ hbound).trans ?_⟩
    rw [hlex, hdepth, hi]
    rfl

theorem Node.Standing.depth_of_inherited {r : Reference} {method : Token}
    (h : Node.Standing d Γ (.expr (.inherited r method))) :
    ∃ i, nearest? "super" Γ.opens = some (i + 1, .superclass) ∧
      Γ.opens[i]? = some .receiver ∧ Γ.opens[i + 1]? = some .superclass ∧
      d.get? r.node = some (i + 1) := by
  have hacc := h.accepted
  have hlex : r.name.lexeme = "super" := h.wellFormed.2
  have hk : Γ.context.classKind = .derived := by
    simp only [Node.notes, Expr.notes, accepted_append, accepted_errorIf] at hacc
    cases hk : Γ.context.classKind <;> simp_all
  obtain ⟨i, hi, hr, hs⟩ := h.shaped.nearest?_super hk
  have hbound : ScopeNote.ofReference Γ.scopes r ∈ Node.notes Γ (.expr (.inherited r method)) := by
    simp [Node.notes, Expr.notes]
  have hdepth := Place.depth?_scopes (x := "super") fun u hu => (h.begun.name u hu).not_super
  refine ⟨i, hi, hr, hs, (h.holds _ hbound).trans ?_⟩
  rw [hlex, hdepth, hi]
  rfl

end Occurrences

section Declarations

variable {d : Depths} {Γ : Place}

theorem accepted_ofDeclaration {scopes : Scopes} {t : Token} :
    Accepted (ScopeNote.ofDeclaration scopes t) ↔ scopes.isDeclared t.lexeme = false :=
  accepted_errorIf _ _ _

theorem isDeclared_names {o : OpenScope} {outer : Scopes} {x : String} :
    Scopes.isDeclared (o.names :: outer) x = false ↔ ∀ b ∈ o.binders, b.name ≠ x := by
  rw [Scopes.isDeclared, ← Bool.not_eq_true, OpenScope.contains_names]
  simp

theorem Stmt.WellFormed.declared {s : Stmt} {t : Token} (h : s.WellFormed)
    (hs : s.declared? = some t) : t.IsName := by
  cases s <;> cases hs
  · exact h.1
  · exact ((FunctionDecl.wellFormed_iff _).mp h).1
  · exact h.1

/-- A declaration that is accepted introduces a name that its scope does not have yet. -/
theorem Node.Standing.undeclared {s : Stmt} {t : Token} (h : Node.Standing d Γ (.stmt s))
    (hs : s.declared? = some t) {o : OpenScope} (ho : o ∈ Γ.opens.head?) :
    ∀ b ∈ o.binders, b.name ≠ t.lexeme := by
  have hacc := h.accepted
  have hd : Γ.scopes.isDeclared t.lexeme = false := by
    rw [← accepted_ofDeclaration]
    cases s <;> cases hs <;> simp only [Node.notes, Stmt.notes, accepted_append] at hacc
    · exact hacc.1
    · exact hacc.1
    · exact hacc.1.1
  obtain ⟨outer, ho⟩ := List.head?_eq_some_iff.mp ho
  rw [Place.scopes_of_settled h.settled, ho] at hd
  exact isDeclared_names.mp hd

theorem params_nodup_of_accepted (outer : Scopes) (params : List Token) : ∀ o : OpenScope,
    Accepted (ScopeNote.ofParameters (o.names :: outer) params) →
    (params.map (·.lexeme)).Nodup ∧ ∀ p ∈ params, ∀ b ∈ o.binders, b.name ≠ p.lexeme := by
  induction params with
  | nil => exact fun o _ => ⟨List.nodup_nil, by simp⟩
  | cons p rest ih =>
    intro o ha
    rw [ScopeNote.ofParameters, accepted_append, accepted_ofDeclaration, isDeclared_names] at ha
    have hadd : Scopes.define (o.names :: outer) p.lexeme = (o.add (.named p)).names :: outer := by
      simp [Scopes.define, Scopes.mark, Binder.name]
    obtain ⟨hnodup, hfresh⟩ := ih (o.add (.named p)) (hadd ▸ ha.2)
    refine ⟨List.nodup_cons.mpr ⟨fun hm => ?_, hnodup⟩, ?_⟩
    · obtain ⟨q, hq, he⟩ := List.mem_map.mp hm
      exact hfresh q hq (.named p) (List.mem_append_right _ (.head _)) he.symm
    · rintro q (_ | ⟨_, hq⟩) b hb
      · exact ha.1 b hb
      · exact hfresh q hq b (List.mem_append_left _ hb)

theorem Node.Standing.params_nodup {kind : FunctionContext} {f : FunctionDecl}
    (h : Node.Standing d Γ (.callable kind f)) : (f.params.map (·.lexeme)).Nodup := by
  have hacc := h.accepted
  cases f
  simp only [Node.notes, FunctionDecl.notes, accepted_append] at hacc
  exact (params_nodup_of_accepted _ _ ⟨.function, []⟩ hacc.1).1

/-- A value is not returned from an initializer, and nothing from outside of functions. -/
theorem Node.Standing.in_function {t : Token} {value : Option Expr}
    (h : Node.Standing d Γ (.stmt (.returning t value))) :
    Γ.context.function ≠ .none ∧ (value.isSome = true → Γ.context.function ≠ .initializer) := by
  have hacc := h.accepted
  simp only [Node.notes, Stmt.notes, accepted_append, accepted_errorIf] at hacc
  exact ⟨by simpa using hacc.1.1, fun hv => by simpa [hv] using hacc.1.2⟩

theorem Node.Standing.in_loop {s : Stmt} {t : Token} (h : Node.Standing d Γ (.stmt s))
    (hs : s = .breaking t ∨ s = .continuing t) : Γ.context.inLoop = true := by
  have hacc := h.accepted
  rcases hs with rfl | rfl <;>
    · simp only [Node.notes, Stmt.notes, accepted_errorIf] at hacc
      simpa using hacc

end Declarations

end Lox
