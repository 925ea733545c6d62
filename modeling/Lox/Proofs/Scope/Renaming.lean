import Lox.Proofs.Scope.Naming

/-! Analysis of a program in which local variables have other names.

A respelling respects the names of a program if it spells an occurrence like the declaration that
the occurrence is bound to, keeps the names that belong to no declaration, and can be undone. Then
no name is captured: analysis of the respelled program notes the same depths, and no error either. -/

namespace Lox

/-- Names go with their declarations, and `back` undoes what is done to them. -/
structure Respelling.Respects (f : Respelling) (back : String → String) (ns : List Naming) :
    Prop where
  free : ∀ n ∈ ns, n.declaration = none → (f.token n.name).lexeme = n.name.lexeme
  bound : ∀ n ∈ ns, ∀ t ∈ n.declaration, Declares ns t →
    (f.token n.name).lexeme = (f.token t).lexeme
  undone : ∀ n ∈ ns, back (f.token n.name).lexeme = n.name.lexeme
  receiver : back "this" = "this"
  superclass : back "super" = "super"

/-- A name is being declared in the innermost scope. -/
def Place.Begins (Γ : Place) (x : String) : Prop :=
  Γ.opens ≠ [] ∧ ∃ u ∈ Γ.underway, u.name.lexeme = x

/-- The depth of any name, also of one whose declaration has begun. -/
theorem Place.depth?_scopes_eq (Γ : Place) (x : String) :
    (Γ.Begins x → Γ.scopes.depth? x = some 0) ∧
      (¬Γ.Begins x → Γ.scopes.depth? x = (nearest? x Γ.opens).map Prod.fst) := by
  refine ⟨fun ⟨hopen, u, hu, hx⟩ => ?_, fun hnot => ?_⟩
  · obtain ⟨s, outer, hopens⟩ := List.exists_cons_of_ne_nil hopen
    obtain ⟨t, readable⟩ := u
    have hname : t.lexeme = x := hx
    have hmark (complete : Bool) : Scopes.depth?
        (Scopes.mark complete t.lexeme (Γ.opens.map OpenScope.names)) x = some 0 := by
      rw [hopens, List.map_cons, Scopes.mark, depth?_cons]
      simp [Bindings.contains, hname]
    unfold scopes
    rw [hu]
    cases readable with
    | true => exact hmark true
    | false =>
      simp only [Scopes.declare]
      split
      · rename_i hdeclared
        rw [hopens, List.map_cons, Scopes.isDeclared, hname] at hdeclared
        rw [hopens, List.map_cons, depth?_cons, if_pos hdeclared]
      · exact hmark false
  · by_cases hopens : Γ.opens = []
    · unfold scopes
      rw [hopens]
      split <;> simp [Scopes.define, Scopes.declare, Scopes.mark, Scopes.isDeclared,
        Scopes.depth?, nearest?]
    · exact depth?_scopes fun u hu hx => hnot ⟨hopens, u, hu, hx⟩

theorem Place.Initializes.begins {Γ : Place} {x : String} (h : Γ.Initializes x) : Γ.Begins x :=
  let ⟨hopen, t, hu, hx⟩ := h
  ⟨hopen, ⟨t, false⟩, hu, hx⟩

theorem Place.initializes_of_isIncomplete {Γ : Place} {x : String}
    (h : Γ.scopes.isIncomplete x = true) : Γ.Initializes x := by
  cases hopens : Γ.opens with
  | nil =>
    unfold scopes at h
    rw [hopens] at h
    split at h <;> simp [Scopes.define, Scopes.declare, Scopes.mark, Scopes.isDeclared,
      Scopes.isIncomplete] at h
  | cons s outer =>
    -- The declarations that are complete are not in question.
    have hcomplete : Scopes.isIncomplete (Γ.opens.map OpenScope.names) x = false := by
      rw [hopens, List.map_cons, Scopes.isIncomplete, OpenScope.get?_names]
      split <;> simp
    refine ⟨by simp [hopens], ?_⟩
    unfold scopes at h
    split at h
    · exact absurd (h.symm.trans hcomplete) (by decide)
    · rename_i t hu
      rw [hopens, List.map_cons, Scopes.define, Scopes.mark, Scopes.isIncomplete,
        Bindings.get?_insert] at h
      split at h
      · cases h
      · rw [hopens, List.map_cons, Scopes.isIncomplete] at hcomplete
        exact absurd (h.symm.trans hcomplete) (by decide)
    · rename_i t hu
      refine ⟨t, hu, ?_⟩
      by_contra hne
      rw [Scopes.declare] at h
      split at h
      · exact absurd (h.symm.trans hcomplete) (by decide)
      · rw [hopens, List.map_cons, Scopes.mark, Scopes.isIncomplete, Bindings.get?_insert,
          if_neg hne] at h
        rw [hopens, List.map_cons, Scopes.isIncomplete] at hcomplete
        exact absurd (h.symm.trans hcomplete) (by decide)

theorem Node.Standing.not_initializes {d : Depths} {Γ : Place} {r : Reference}
    (h : Node.Standing d Γ (.expr (.variable r))) : ¬Γ.Initializes r.name.lexeme := by
  rintro ⟨hopen, t, hu, hx⟩
  obtain ⟨s, outer, hopens⟩ := List.exists_cons_of_ne_nil hopen
  have hacc := h.accepted
  simp only [Node.notes, Expr.notes, ScopeNote.ofRead, accepted_append, accepted_errorIf] at hacc
  have hscopes : Γ.scopes = Scopes.mark false t.lexeme (Γ.opens.map OpenScope.names) := by
    simp [Place.scopes, hu, Scopes.declare, h.begun.unbound t hu]
  simp [hscopes, hopens, Scopes.mark, Scopes.isIncomplete, hx] at hacc

theorem find?_eq_of_first {α : Type} {p q : α → Bool} {l : List α} (hpq : ∀ a ∈ l, q a → p a)
    (hfirst : ∀ a, l.find? p = some a → q a) : l.find? q = l.find? p := by
  induction l with
  | nil => rfl
  | cons a rest ih =>
    cases hp : p a with
    | true =>
      have hq := hfirst a (by simp [hp])
      simp [hp, hq]
    | false =>
      have hq : q a = false := by
        rw [Bool.eq_false_iff]
        intro hq
        exact Bool.false_ne_true (hp.symm.trans (hpq a (.head _) hq))
      rw [List.find?_cons_of_neg (by simp [hq]), List.find?_cons_of_neg (by simp [hp])]
      exact ih (fun b hb => hpq b (.tail _ hb)) fun b hb => hfirst b (by simpa [hp] using hb)

/-- Another name is found in the same scope if nothing else has come to be of that name. -/
theorem nearest?_respell_of {f : Respelling} {x x' : String} {opens : List OpenScope}
    (hback : ∀ s ∈ opens, ∀ b ∈ s.binders, (b.respell f).name = x' → b.name = x)
    (hnear : ∀ i b, nearest? x opens = some (i, b) → (b.respell f).name = x') :
    nearest? x' (opens.map (OpenScope.respell f)) =
      (nearest? x opens).map fun found => (found.1, found.2.respell f) := by
  induction opens with
  | nil => rfl
  | cons s outer ih =>
    have hfind : (s.respell f).binders.find? (·.name == x') =
        (s.binders.find? (·.name == x)).map (Binder.respell f) := by
      rw [OpenScope.binders_respell, List.find?_map]
      congr 1
      refine find?_eq_of_first (fun b hb hx => ?_) fun b hb => ?_
      · simpa using hback s (.head _) b hb (by simpa using hx)
      · simpa using hnear 0 b (by rw [nearest?, hb])
    rw [List.map_cons, nearest?, nearest?, hfind]
    cases hb : s.binders.find? (·.name == x) with
    | some b => rfl
    | none =>
      have hrest := ih (fun s hs => hback s (.tail _ hs)) fun i b hi => hnear (i + 1) b (by
        rw [nearest?, hb, hi]
        rfl)
      rw [Option.map_none, hrest]
      cases nearest? x outer <;> rfl

theorem Place.declaration?_eq {Γ : Place} {x : String} (h : ¬Γ.Initializes x) :
    Γ.declaration? x = nearestNamed? x Γ.opens := by
  unfold declaration?
  split
  · rename_i t hu
    rw [if_neg fun hc => h ⟨hc.1, t, hu, hc.2⟩]
  · rfl

namespace Respelling.Respects

variable {f : Respelling} {back : String → String} {ns : List Naming} {Γ : Place}

theorem declares (hr : f.Respects back ns) {t : Token} (ht : Declares ns t) :
    back (f.token t).lexeme = t.lexeme := by
  obtain ⟨n, hn, rfl, -⟩ := ht
  exact hr.undone n hn

/-- A variable is called by neither of the two reserved names, before and after. -/
theorem not_reserved (hr : f.Respects back ns) {n : Naming} (hn : n ∈ ns) (ht : n.name.IsName)
    (x : String) (hx : x = "this" ∨ x = "super") :
    n.name.lexeme ≠ x ∧ (f.token n.name).lexeme ≠ x := by
  have hundone := hr.undone n hn
  rcases hx with rfl | rfl
  · exact ⟨ht.not_this, fun h => ht.not_this (by rw [← hundone, h, hr.receiver])⟩
  · exact ⟨ht.not_super, fun h => ht.not_super (by rw [← hundone, h, hr.superclass])⟩

theorem binder (hr : f.Respects back ns) (hd : Γ.DeclaredIn ns) {s : OpenScope}
    (hs : s ∈ Γ.opens) {b : Binder} (hb : b ∈ s.binders) : back (b.respell f).name = b.name := by
  cases b with
  | named t => exact hr.declares (hd.binders s hs t hb)
  | receiver => exact hr.receiver
  | superclass => exact hr.superclass

/-- The nearest declaration of a name is spelled like its occurrences. -/
theorem spelled (hr : f.Respects back ns) (hd : Γ.DeclaredIn ns) {t : Token}
    (ht : Γ.naming t ∈ ns) (hnot : ¬Γ.Initializes t.lexeme) {i : Nat} {b : Binder}
    (hi : Lox.nearest? t.lexeme Γ.opens = some (i, b)) :
    (b.respell f).name = (f.token t).lexeme := by
  have hdeclaration := Γ.declaration?_eq hnot
  obtain ⟨s, hs, hb, hname⟩ := nearest?_eq_some hi
  cases b with
  | named u =>
    have hu : Γ.declaration? t.lexeme = some u := by rw [hdeclaration, nearestNamed?, hi]
    exact (hr.bound _ ht u hu (hd.binders s (List.mem_of_getElem? hs) u hb)).symm
  | receiver =>
    have hnone : Γ.declaration? t.lexeme = none := by rw [hdeclaration, nearestNamed?, hi]
    exact hname.trans (hr.free _ ht hnone).symm
  | superclass =>
    have hnone : Γ.declaration? t.lexeme = none := by rw [hdeclaration, nearestNamed?, hi]
    exact hname.trans (hr.free _ ht hnone).symm

/-- The name of a global stays. -/
theorem unbound (hr : f.Respects back ns) {t : Token} (ht : Γ.naming t ∈ ns)
    (hnot : ¬Γ.Initializes t.lexeme) (hi : Lox.nearest? t.lexeme Γ.opens = none) :
    (f.token t).lexeme = t.lexeme := by
  have hnone : Γ.declaration? t.lexeme = none := by
    rw [Γ.declaration?_eq hnot, nearestNamed?, hi]
  exact hr.free _ ht hnone

/-- Nothing else is spelled like it. -/
theorem nearest? (hr : f.Respects back ns) (hd : Γ.DeclaredIn ns) {t : Token}
    (ht : Γ.naming t ∈ ns) (hnot : ¬Γ.Initializes t.lexeme) :
    Lox.nearest? (f.token t).lexeme (Γ.respell f).opens =
      (Lox.nearest? t.lexeme Γ.opens).map fun found => (found.1, found.2.respell f) := by
  refine nearest?_respell_of (fun s hs b hb hx => ?_) fun i b hi => hr.spelled hd ht hnot hi
  rw [← hr.binder hd hs hb, hx]
  exact hr.undone _ ht

theorem initializes (hr : f.Respects back ns) (hd : Γ.DeclaredIn ns) {t : Token}
    (ht : Γ.naming t ∈ ns) : (Γ.respell f).Initializes (f.token t).lexeme ↔ Γ.Initializes t.lexeme := by
  constructor
  · rintro ⟨hopen, u, hu, hx⟩
    obtain ⟨⟨v, readable⟩, hv, he⟩ := Option.map_eq_some_iff.mp hu
    obtain ⟨rfl, rfl⟩ : f.token v = u ∧ readable = false := by simpa [Underway.respell] using he
    refine ⟨by simpa using hopen, v, hv, ?_⟩
    rw [← hr.declares (hd.underway _ hv), hx]
    exact hr.undone _ ht
  · rintro ⟨hopen, u, hu, hx⟩
    refine ⟨by simpa using hopen, f.token u, by simp [hu, Underway.respell], ?_⟩
    have hdeclaration : Γ.declaration? t.lexeme = some u := by
      unfold Place.declaration?
      rw [hu]
      exact if_pos ⟨hopen, hx⟩
    exact (hr.bound _ ht u hdeclaration (hd.underway _ hu)).symm

/-- The depth of an occurrence stays, whatever its name becomes. -/
theorem depth? (hr : f.Respects back ns) (hd : Γ.DeclaredIn ns) {t : Token}
    (ht : Γ.naming t ∈ ns)
    (hother : ∀ u ∈ Γ.underway, u.readable = true → u.name.lexeme ≠ t.lexeme) :
    (Γ.respell f).scopes.depth? (f.token t).lexeme = Γ.scopes.depth? t.lexeme := by
  have hbegins : (Γ.respell f).Begins (f.token t).lexeme ↔ Γ.Begins t.lexeme := by
    constructor
    · rintro ⟨hopen, u, hu, hx⟩
      obtain ⟨v, hv, rfl⟩ := Option.map_eq_some_iff.mp hu
      refine ⟨by simpa using hopen, v, hv, ?_⟩
      rw [← hr.declares (hd.underway v hv)]
      exact (congrArg back hx).trans (hr.undone _ ht)
    · rintro ⟨hopen, ⟨u, readable⟩, hu, hx⟩
      cases readable with
      | true => exact absurd hx (hother _ hu rfl)
      | false => exact ((hr.initializes hd ht).mpr ⟨hopen, u, hu, hx⟩).begins
  by_cases hb : Γ.Begins t.lexeme
  · rw [((Γ.respell f).depth?_scopes_eq _).1 (hbegins.mpr hb), (Γ.depth?_scopes_eq _).1 hb]
  · rw [((Γ.respell f).depth?_scopes_eq _).2 (hbegins.not.mpr hb), (Γ.depth?_scopes_eq _).2 hb,
      hr.nearest? hd ht fun h => hb h.begins]
    cases Lox.nearest? t.lexeme Γ.opens <;> rfl

/-- The two reserved names stay with the scopes made for them. -/
theorem depth?_reserved (hr : f.Respects back ns) (hd : Γ.DeclaredIn ns) (hs : Γ.Shaped)
    (hu : ∀ u ∈ Γ.underway, u.name.IsName) {x : String} (hx : x = "this" ∨ x = "super") :
    (Γ.respell f).scopes.depth? x = Γ.scopes.depth? x := by
  have hback : back x = x := by
    rcases hx with rfl | rfl
    · exact hr.receiver
    · exact hr.superclass
  have hnot : ∀ u ∈ Γ.underway, u.name.lexeme ≠ x := by
    rintro u hmem rfl
    exact hx.elim (hu u hmem).not_this (hu u hmem).not_super
  have hnot' : ∀ u ∈ (Γ.respell f).underway, u.name.lexeme ≠ x := by
    rintro u hmem rfl
    obtain ⟨v, hv, rfl⟩ := Option.map_eq_some_iff.mp hmem
    exact hnot v hv ((hr.declares (hd.underway v hv)).symm.trans hback)
  rw [Place.depth?_scopes hnot, Place.depth?_scopes hnot', Place.opens_respell,
    nearest?_respell_of (x := x)]
  · cases Lox.nearest? x Γ.opens <;> rfl
  · intro s hs b hb he
    rw [← hr.binder hd hs hb, he, hback]
  · intro i b hi
    obtain ⟨hthis, hsuper⟩ := hs.stacked.nearest?_reserved hi
    rcases hx with rfl | rfl
    · rw [(hthis rfl).1]
      rfl
    · rw [(hsuper rfl).1]
      rfl

theorem isDeclared (hr : f.Respects back ns) (hd : Γ.DeclaredIn ns) (hu : Γ.underway = none)
    {t : Token} (ht : Declares ns t) (hnew : Γ.scopes.isDeclared t.lexeme = false) :
    (Γ.respell f).scopes.isDeclared (f.token t).lexeme = false := by
  rw [Place.scopes_of_settled hu] at hnew
  rw [Place.scopes_of_settled (by simp [hu])]
  cases hopens : Γ.opens with
  | nil => simp [hopens, Scopes.isDeclared]
  | cons s outer =>
    rw [hopens, List.map_cons, isDeclared_names] at hnew
    rw [Place.opens_respell, hopens, List.map_cons, List.map_cons, isDeclared_names]
    intro b hb he
    obtain ⟨c, hc, rfl⟩ := List.mem_map.mp hb
    refine hnew c hc ?_
    rw [← hr.binder hd (by simp [hopens]) hc, he, hr.declares ht]

end Respelling.Respects

section Notes

open ScopeNote

theorem ofParameters_eq_nil (outer : Scopes) (params : List Token) : ∀ s : OpenScope,
    (params.map (·.lexeme)).Nodup → (∀ p ∈ params, ∀ b ∈ s.binders, b.name ≠ p.lexeme) →
    ofParameters (s.names :: outer) params = [] := by
  induction params with
  | nil => exact fun _ _ _ => rfl
  | cons p rest ih =>
    intro s hnodup hfresh
    obtain ⟨hp, hrest⟩ := List.nodup_cons.mp hnodup
    have hdefine : Scopes.define (s.names :: outer) p.lexeme = (s.add (.named p)).names :: outer := by
      simp [Scopes.define, Scopes.mark, Binder.name]
    have hnew : ofDeclaration (s.names :: outer) p = [] := by
      rw [ofDeclaration, isDeclared_names.mpr (hfresh p (.head _))]
      rfl
    rw [ofParameters, hnew, List.nil_append, hdefine]
    refine ih _ hrest fun q hq b hb => ?_
    rcases List.mem_append.mp hb with hb | hb
    · exact hfresh q (.tail _ hq) b hb
    · obtain rfl := List.mem_singleton.mp hb
      exact fun he => hp (List.mem_map.mpr ⟨q, hq, he.symm⟩)

variable {f : Respelling} {back : String → String} {d : Depths} {program : List Stmt}
  {Γ : Place}

/-- What is known of a program whose names a respelling respects. -/
structure Respected (f : Respelling) (back : String → String) (d : Depths)
    (program : List Stmt) : Prop where
  wellFormed : Stmt.AllWellFormed program
  holds : ∀ note ∈ analyse program, note.Holds d
  respects : f.Respects back (namings program)

namespace Respected

theorem standing (h : Respected f back d program) {n : Node} (hm : Meets program Γ n) :
    n.Standing d Γ := hm.standing h.wellFormed h.holds

theorem ofReference (h : Respected f back d program) {n : Node} (hm : Meets program Γ n)
    {r : Reference} (ht : Γ.naming r.name ∈ n.names Γ)
    (hother : ∀ u ∈ Γ.underway, u.readable = true → u.name.lexeme ≠ r.name.lexeme) :
    ScopeNote.ofReference (Γ.respell f).scopes (r.respell f) =
      (ScopeNote.ofReference Γ.scopes r).respell f := by
  rw [ScopeNote.ofReference, Reference.respell_name,
    h.respects.depth? hm.declared (hm.names ht) hother]
  rfl

theorem ofRead (h : Respected f back d program) {r : Reference}
    (hm : Meets program Γ (.expr (.variable r))) :
    ScopeNote.ofRead (Γ.respell f).scopes (r.respell f) =
      (ScopeNote.ofRead Γ.scopes r).map (ScopeNote.respell f) := by
  have hstanding := h.standing hm
  have ht : Γ.naming r.name ∈ Node.names Γ (.expr (.variable r)) := List.mem_singleton_self _
  have hincomplete : (Γ.respell f).scopes.isIncomplete (f.token r.name).lexeme = false := by
    rw [Bool.eq_false_iff]
    intro hi
    exact hstanding.not_initializes ((h.respects.initializes hm.declared (hm.names ht)).mp
      (Place.initializes_of_isIncomplete hi))
  have hcomplete : Γ.scopes.isIncomplete r.name.lexeme = false := by
    rw [Bool.eq_false_iff]
    exact fun hi => hstanding.not_initializes (Place.initializes_of_isIncomplete hi)
  have hreference := h.ofReference hm ht fun u hu hreadable => by
    obtain ⟨t, readable⟩ := u
    obtain rfl : readable = true := hreadable
    obtain ⟨r', he, hne⟩ := hstanding.begun.other t hu
    cases he
    exact hne.symm
  rw [ScopeNote.ofRead, ScopeNote.ofRead, Reference.respell_name, hincomplete, hcomplete,
    hreference]
  rfl

theorem ofKeyword (h : Respected f back d program) {n : Node} (hm : Meets program Γ n)
    {r : Reference} (ht : Naming.free r.name ∈ n.names Γ)
    (hx : r.name.lexeme = "this" ∨ r.name.lexeme = "super") :
    ScopeNote.ofReference (Γ.respell f).scopes (r.respell f) =
      (ScopeNote.ofReference Γ.scopes r).respell f := by
  have hstanding := h.standing hm
  have hkept : (f.token r.name).lexeme = r.name.lexeme := h.respects.free _ (hm.names ht) rfl
  rw [ScopeNote.ofReference, Reference.respell_name, hkept,
    h.respects.depth?_reserved hm.declared hstanding.shaped hstanding.begun.name hx]
  rfl

/-- A declaration that is accepted declares no name twice, under its new name neither. -/
theorem ofDeclaration (h : Respected f back d program) {s : Stmt}
    (hm : Meets program Γ (.stmt s)) {t : Token} (ht : s.declared? = some t) :
    ScopeNote.ofDeclaration (Γ.respell f).scopes (f.token t) =
      (ScopeNote.ofDeclaration Γ.scopes t).map (ScopeNote.respell f) := by
  have hstanding := h.standing hm
  have hdeclares := (Stmt.declares_declared (Γ := Γ) ht).mono hm.names
  have hnew : Γ.scopes.isDeclared t.lexeme = false := by
    rw [Place.scopes_of_settled hstanding.settled]
    cases hopens : Γ.opens with
    | nil => rfl
    | cons o outer =>
      exact isDeclared_names.mpr (hstanding.undeclared ht (by simp [hopens]))
  have hnew' := h.respects.isDeclared hm.declared hstanding.settled hdeclares hnew
  rw [ScopeNote.ofDeclaration, ScopeNote.ofDeclaration, hnew, hnew']
  rfl

theorem ofSuperclass (h : Respected f back d program) {t : Token} {r : Option Reference}
    {fs : List FunctionDecl} (hm : Meets program Γ (.stmt (.classDecl t r fs))) :
    ScopeNote.ofSuperclass ((Γ.declaring t true).respell f).scopes (f.token t)
        (r.map (Reference.respell f)) =
      (ScopeNote.ofSuperclass (Γ.declaring t true).scopes t r).map (ScopeNote.respell f) := by
  cases r with
  | none => rfl
  | some r =>
    have hread := hm.part .superclass
    have hne : r.name.lexeme ≠ t.lexeme := by
      obtain ⟨r', he, hne⟩ := (h.standing hread).begun.other t rfl
      cases he
      exact hne
    have hdeclares := (Stmt.declares_declared (Γ := Γ) (s := .classDecl t (some r) fs) rfl).mono
      hm.names
    have hne' : (f.token r.name).lexeme ≠ (f.token t).lexeme := by
      intro he
      have hundone := h.respects.undone _ (hread.names (List.mem_singleton_self _))
      exact hne (hundone.symm.trans ((congrArg back he).trans (h.respects.declares hdeclares)))
    rw [Option.map_some, ScopeNote.ofSuperclass, ScopeNote.ofSuperclass, h.ofRead hread,
      Reference.respell_name, beq_false_of_ne hne, beq_false_of_ne hne']
    rfl

theorem ofParameters (h : Respected f back d program) {kind : FunctionContext} {g : FunctionDecl}
    (hm : Meets program Γ (.callable kind g)) :
    ScopeNote.ofParameters (Bindings.empty :: (Γ.respell f).scopes) (g.params.map f.token) =
      (ScopeNote.ofParameters (Bindings.empty :: Γ.scopes) g.params).map (ScopeNote.respell f) := by
  have hnodup := (h.standing hm).params_nodup
  have hnodup' : ((g.params.map f.token).map (·.lexeme)).Nodup := by
    refine List.Nodup.of_map back ?_
    have hundone : ∀ p ∈ g.params, back (f.token p).lexeme = p.lexeme := fun p hp =>
      h.respects.declares ((FunctionDecl.declares_param kind hp).mono hm.names)
    rw [List.map_map, List.map_map]
    exact (List.map_congr_left hundone).symm ▸ hnodup
  have hnone := ofParameters_eq_nil Γ.scopes g.params ⟨.function, []⟩ hnodup (by simp)
  have hnone' := ofParameters_eq_nil (Γ.respell f).scopes _ ⟨.function, []⟩ hnodup' (by simp)
  exact hnone'.trans (congrArg (List.map (ScopeNote.respell f)) hnone.symm)

end Respected

mutual

theorem Expr.notes_respell (h : Respected f back d program) : ∀ e : Expr,
    Meets program Γ (.expr e) → (e.respell f).notes Γ.context (Γ.respell f).scopes =
      (e.notes Γ.context Γ.scopes).map (ScopeNote.respell f)
  | .constant _, _ => rfl
  | .group e, hm => e.notes_respell h (hm.part .inner)
  | .unary _ e, hm => e.notes_respell h (hm.part .operand)
  | .binary l _ r, hm => by
    rw [Expr.respell, Expr.notes, l.notes_respell h (hm.part .left),
      r.notes_respell h (hm.part .right), ← List.map_append, Expr.notes]
  | .logical l _ r, hm => by
    rw [Expr.respell, Expr.notes, l.notes_respell h (hm.part .logicalLeft),
      r.notes_respell h (hm.part .logicalRight), ← List.map_append, Expr.notes]
  | .variable _, hm => h.ofRead hm
  | .assign r e, hm => by
    have hreference := h.ofReference hm (r := r) (.head _) fun u hu hreadable => by
      obtain ⟨t, readable⟩ := u
      obtain rfl : readable = true := hreadable
      obtain ⟨r', he, -⟩ := (h.standing hm).begun.other t hu
      cases he
    rw [Expr.respell, Expr.notes, e.notes_respell h (hm.part .value), hreference, Expr.notes,
      List.map_append]
    rfl
  | .call e _ es, hm => by
    rw [Expr.respell, Expr.notes, e.notes_respell h (hm.part .callee),
      Expr.notesOfAll_respell h es fun a ha => hm.part (.argument ha), ← List.map_append,
      Expr.notes]
  | .get e _, hm => e.notes_respell h (hm.part .object)
  | .set e _ v, hm => by
    rw [Expr.respell, Expr.notes, e.notes_respell h (hm.part .setObject),
      v.notes_respell h (hm.part .setValue), ← List.map_append, Expr.notes]
  | .receiver r, hm => by
    have hx : r.name.lexeme = "this" := (h.standing hm).wellFormed.2
    rw [Expr.respell, Expr.notes, Expr.notes, h.ofKeyword hm (.head _) (.inl hx)]
    split <;> rfl
  | .inherited r _, hm => by
    have hx : r.name.lexeme = "super" := (h.standing hm).wellFormed.2
    have herror (b : Bool) (fault : ScopeFault) : errorIf b (f.token r.name) fault =
        (errorIf b r.name fault).map (ScopeNote.respell f) := by
      cases b <;> rfl
    rw [Expr.respell, Expr.notes, Expr.notes, h.ofKeyword hm (.head _) (.inr hx),
      Reference.respell_name, herror, herror, List.map_append, List.map_append]
    rfl

theorem Expr.notesOfAll_respell (h : Respected f back d program) : ∀ es : List Expr,
    (∀ e ∈ es, Meets program Γ (.expr e)) →
    Expr.notesOfAll Γ.context (Γ.respell f).scopes (Expr.respellAll f es) =
      (Expr.notesOfAll Γ.context Γ.scopes es).map (ScopeNote.respell f)
  | [], _ => rfl
  | e :: rest, hm => by
    rw [Expr.respellAll, Expr.notesOfAll, e.notes_respell h (hm e (.head _)),
      Expr.notesOfAll_respell h rest fun x hx => hm x (.tail _ hx), ← List.map_append,
      Expr.notesOfAll]

end

theorem Expr.notesOf?_respell (h : Respected f back d program) (e : Option Expr)
    (hm : ∀ x ∈ e, Meets program Γ (.expr x)) :
    Expr.notesOf? Γ.context (Γ.respell f).scopes (e.map (Expr.respell f)) =
      (Expr.notesOf? Γ.context Γ.scopes e).map (ScopeNote.respell f) := by
  cases e with
  | none => rfl
  | some e => exact e.notes_respell h (hm e rfl)

theorem Place.settled_respell (hu : Γ.underway = none) : (Γ.respell f).underway = none := by
  simp [hu]

theorem FunctionDecl.methodContext_of_kept {g : FunctionDecl}
    (hg : (f.token g.name).lexeme = g.name.lexeme) :
    (g.respell f).methodContext = g.methodContext := by
  simp [FunctionDecl.methodContext, FunctionDecl.isInitializer, hg]

mutual

theorem Stmt.notes_respell (h : Respected f back d program) : ∀ (s : Stmt) {Γ : Place},
    Meets program Γ (.stmt s) → (s.respell f).notes Γ.context (Γ.respell f).scopes =
      (s.notes Γ.context Γ.scopes).map (ScopeNote.respell f)
  | .expression e, _, hm => e.notes_respell h (hm.part .expression)
  | .print e, _, hm => e.notes_respell h (hm.part .printed)
  | .varDecl t e, Γ, hm => by
    have hu : Γ.underway = none := (h.standing hm).settled
    have hvalue := Expr.notesOf?_respell (Γ := Γ.declaring t false) h e fun x hx => by
      obtain rfl : e = some x := hx
      exact hm.part .initializer
    rw [Place.respell_declaring, (Place.scopes_declaring (Place.settled_respell hu) _).1,
      (Place.scopes_declaring hu _).1] at hvalue
    rw [Stmt.respell, Stmt.notes, Stmt.notes, h.ofDeclaration hm rfl, List.map_append]
    exact congrArg _ hvalue
  | .block body, Γ, hm => by
    have hu : Γ.underway = none := (h.standing hm).settled
    have hbody := Stmt.notesOfAll_respell h body (hm.part .block)
    rw [Place.respell_inBlock, Place.scopes_inBlock (Place.settled_respell hu),
      Place.scopes_inBlock hu] at hbody
    exact hbody
  | .ifThen e s, _, hm => by
    rw [Stmt.respell, Stmt.notes, e.notes_respell h (hm.part .thenCondition),
      s.notes_respell h (hm.part .thenBranch), ← List.map_append, Stmt.notes]
  | .ifElse e s t, _, hm => by
    rw [Stmt.respell, Stmt.notes, e.notes_respell h (hm.part .elseCondition),
      s.notes_respell h (hm.part .consequent), t.notes_respell h (hm.part .alternative),
      ← List.map_append, ← List.map_append, Stmt.notes]
  | .loop e s i, Γ, hm => by
    have hbody := s.notes_respell h (hm.part .repeated)
    rw [Stmt.respell, Stmt.notes, e.notes_respell h (hm.part .condition),
      Expr.notesOf?_respell h i fun x hx => by
        obtain rfl : i = some x := hx
        exact hm.part .increment, Stmt.notes, List.map_append, List.map_append]
    exact congrArg (_ ++ · ++ _) hbody
  | .function g, Γ, hm => by
    have hu : Γ.underway = none := (h.standing hm).settled
    have hfunction := g.notes_respell h (hm.part .function)
    rw [Place.respell_define, Place.scopes_define (Place.settled_respell hu),
      Place.scopes_define hu] at hfunction
    rw [Stmt.respell, Stmt.notes, Stmt.notes, FunctionDecl.respell_name,
      h.ofDeclaration hm rfl, List.map_append]
    exact congrArg _ hfunction
  | .classDecl t r fs, Γ, hm => by
    have hu : Γ.underway = none := (h.standing hm).settled
    have hdefine : (Γ.define t).underway = none := hu
    have hsuperclass := h.ofSuperclass hm
    rw [Place.respell_declaring, (Place.scopes_declaring (Place.settled_respell hu) _).2,
      (Place.scopes_declaring hu _).2] at hsuperclass
    have hmethods := FunctionDecl.notesOfMethods_respell h fs fun g hg => hm.part (.method hg)
    have hdefine' : ((Γ.respell f).define (f.token t)).underway = none := Place.settled_respell hu
    rw [Place.respell_inClass, Place.respell_define, Place.scopes_inClass hdefine',
      Place.scopes_inClass hdefine, Place.scopes_define (Place.settled_respell hu),
      Place.scopes_define hu] at hmethods
    rw [Stmt.respell, Stmt.notes, Stmt.notes, h.ofDeclaration hm rfl, hsuperclass,
      List.map_append, List.map_append, Option.isSome_map]
    exact congrArg _ hmethods
  | .returning t e, Γ, hm => by
    have herror (b : Bool) (fault : ScopeFault) : errorIf b (f.token t) fault =
        (errorIf b t fault).map (ScopeNote.respell f) := by
      cases b <;> rfl
    rw [Stmt.respell, Stmt.notes, Stmt.notes, Expr.notesOf?_respell h e fun x hx => by
        obtain rfl : e = some x := hx
        exact hm.part .returned, herror, herror, Option.isSome_map, List.map_append,
      List.map_append]
  | .breaking t, Γ, _ | .continuing t, Γ, _ => by
    rw [Stmt.respell, Stmt.notes, Stmt.notes]
    cases Γ.context.inLoop <;> rfl

theorem Stmt.notesOfAll_respell (h : Respected f back d program) :
    ∀ (ss : List Stmt) {Γ : Place}, Meets program Γ (.body ss) →
    Stmt.notesOfAll Γ.context (Γ.respell f).scopes (Stmt.respellAll f ss) =
      (Stmt.notesOfAll Γ.context Γ.scopes ss).map (ScopeNote.respell f)
  | [], _, _ => rfl
  | s :: rest, Γ, hm => by
    have hu : Γ.underway = none := (h.standing hm).settled
    have hrest := Stmt.notesOfAll_respell h rest (hm.part .rest)
    rw [Place.respell_after, Place.scopes_after (Place.settled_respell hu),
      Place.scopes_after hu, Place.context_after] at hrest
    rw [Stmt.respellAll, Stmt.notesOfAll, Stmt.notesOfAll, s.notes_respell h (hm.part .first),
      List.map_append, hrest]

theorem FunctionDecl.notes_respell (h : Respected f back d program) {kind : FunctionContext} :
    ∀ (g : FunctionDecl) {Γ : Place}, Meets program Γ (.callable kind g) →
    (g.respell f).notes Γ.context kind (Γ.respell f).scopes =
      (g.notes Γ.context kind Γ.scopes).map (ScopeNote.respell f)
  | .mk name params body, Γ, hm => by
    have hu : Γ.underway = none := (h.standing hm).settled
    have hparams := h.ofParameters hm
    have hbody := Stmt.notesOfAll_respell h body (hm.part .inside)
    rw [Place.respell_inBody, Place.scopes_inBody (Place.settled_respell hu),
      Place.scopes_inBody hu, FunctionDecl.respell_params] at hbody
    rw [FunctionDecl.respell, FunctionDecl.notes, FunctionDecl.notes, List.map_append]
    exact congrArg₂ (· ++ ·) hparams hbody

theorem FunctionDecl.notesOfMethods_respell (h : Respected f back d program) :
    ∀ (fs : List FunctionDecl) {Γ : Place},
    (∀ g ∈ fs, Meets program Γ (.callable g.methodContext g)) →
    FunctionDecl.notesOfMethods Γ.context (Γ.respell f).scopes (FunctionDecl.respellAll f fs) =
      (FunctionDecl.notesOfMethods Γ.context Γ.scopes fs).map (ScopeNote.respell f)
  | [], _, _ => rfl
  | g :: rest, Γ, hm => by
    have hfirst := hm g (.head _)
    have hkept : (g.respell f).methodContext = g.methodContext := by
      refine FunctionDecl.methodContext_of_kept (h.respects.free (.free g.name) (hfirst.names ?_) rfl)
      cases g
      exact .head _
    rw [FunctionDecl.respellAll, FunctionDecl.notesOfMethods, hkept,
      g.notes_respell h hfirst, FunctionDecl.notesOfMethods_respell h rest fun x hx =>
        hm x (.tail _ hx), ← List.map_append, FunctionDecl.notesOfMethods]

end

/-- The notes of a respelled program are its notes, respelled. -/
theorem analyse_respell (h : Respected f back d program) :
    analyse (program.map (Stmt.respell f)) = (analyse program).map (ScopeNote.respell f) := by
  rw [← Stmt.respellAll_eq_map]
  exact Stmt.notesOfAll_respell h program .top

theorem accepted_respell {notes : List ScopeNote} :
    Accepted (notes.map (ScopeNote.respell f)) ↔ Accepted notes := by
  refine ⟨fun ha e he => ha ⟨f.token e.token, e.fault⟩ (List.mem_map.mpr ⟨_, he, rfl⟩),
    fun ha e he => ?_⟩
  obtain ⟨note, hn, hnote⟩ := List.mem_map.mp he
  cases note with
  | error e' => exact ha e' hn
  | bound target depth => cases hnote

/-- The table of depths knows nothing of names. -/
theorem Depths.recordAll_respell (hf : ∀ n, f.node n = n) (notes : List ScopeNote) :
    ∀ d : Depths, d.recordAll (notes.map (ScopeNote.respell f)) = d.recordAll notes := by
  induction notes with
  | nil => exact fun _ => rfl
  | cons note rest ih =>
    intro d
    have hnote : d.recordNote (note.respell f) = d.recordNote note := by
      cases note with
      | error e => rfl
      | bound target depth =>
        cases depth with
        | none => rfl
        | some depth => simp [ScopeNote.respell, Depths.recordNote, hf]
    exact (ih _).trans (congrArg (fun d => Depths.recordAll d rest) hnote)

end Notes

end Lox
