import Lox.Proofs.Machine.Standing
import Mathlib.Data.List.Nodup

/-! What an occurrence finds.

Where a program stands as analysis had it, the environment as many hops up as the recorded depth
says is the one of the nearest scope that introduces the name, and it binds the name. -/

namespace Lox

/-- In one environment other than the globals no name is introduced twice. -/
def Origins.Distinct (o : Origins) : Prop :=
  ∀ e origin, o.of? e = some origin → e ≠ Heap.globals →
    (origin.scope.binders.map Binder.name).Nodup

/-- The name of `b` is bound in an environment, by `b` and by nothing else. -/
def Origins.Binds (o : Origins) (e : EnvironmentId) (b : Binder) : Prop :=
  ∃ origin, o.of? e = some origin ∧ b ∈ origin.scope.binders ∧
    ∀ b' ∈ origin.scope.binders, b'.name = b.name → b' = b

/-- The scope of the methods of a subclass binds `super` to a class. -/
def Origins.Supers (o : Origins) (h : Heap) : Prop :=
  ∀ e origin, o.of? e = some origin → origin.scope.kind = .superclass →
    ∃ c, h.local? e "super" = some (.classValue c)

section

variable {o : Origins} {h : Heap} {e : EnvironmentId} {opens : List OpenScope}

/-- The environment of the scope that is the given number of hops up. -/
theorem Chain.ancestor (hc : Chain o e opens) (hf : o.Faithful h) (hr : o.Rooted) :
    ∀ {i : Nat} {s : OpenScope}, opens[i]? = some s →
    ∃ e' origin, h.ancestor? e i = some e' ∧ e' ≠ Heap.globals ∧ o.of? e' = some origin ∧
      origin.scope.kind = s.kind ∧ s.binders <+: origin.scope.binders := by
  induction hc with
  | globals => intro i s hs; cases hs
  | @nested e outer actual s rest ho hk hb _ ih =>
    intro i t ht
    cases i with
    | zero =>
      obtain rfl := Option.some.inj ht
      refine ⟨e, ⟨actual, some outer⟩, rfl, ?_, ho, hk, hb⟩
      rintro rfl
      obtain ⟨binders, hg⟩ := hr
      cases hg.symm.trans ho
    | succ i =>
      obtain ⟨e', origin, ha, rest⟩ := ih (by simpa using ht)
      refine ⟨e', origin, ?_, rest⟩
      have henv := hf.outer e _ ho
      obtain ⟨env, henv, hout⟩ := Option.map_eq_some_iff.mp henv
      simp [Heap.ancestor?, henv, hout, ha]

/-- Past the last scope come the globals. -/
theorem Chain.ancestor_globals (hc : Chain o e opens) (hf : o.Faithful h) :
    h.ancestor? e opens.length = some Heap.globals := by
  induction hc with
  | globals => rfl
  | @nested e outer actual s rest ho _ _ _ ih =>
    obtain ⟨env, henv, hout⟩ := Option.map_eq_some_iff.mp (hf.outer e _ ho)
    simp [Heap.ancestor?, henv, hout, ih]

/-- The nearest declaration of a name has bound it, as many hops up as scopes lie between. -/
theorem Chain.binder_at (hc : Chain o e opens) (hf : o.Faithful h) (hr : o.Rooted) {x : String}
    {i : Nat} {b : Binder} (hn : nearest? x opens = some (i, b)) :
    ∃ e' origin v, h.ancestor? e i = some e' ∧ e' ≠ Heap.globals ∧ o.of? e' = some origin ∧
      b ∈ origin.scope.binders ∧ b.name = x ∧ h.local? e' x = some v := by
  obtain ⟨s, hs, hb, hx⟩ := nearest?_eq_some hn
  obtain ⟨e', origin, ha, hg, ho, -, hp⟩ := hc.ancestor hf hr hs
  have hmem := hp.subset hb
  have hbinds : h.binds e' x = true := (hf.names e' origin ho hg x).mpr ⟨b, hmem, hx⟩
  obtain ⟨v, hv⟩ := Option.isSome_iff_exists.mp hbinds
  exact ⟨e', origin, v, ha, hg, ho, hmem, hx, hv⟩

/-- Nothing else has bound the name there. -/
theorem Chain.finds (hc : Chain o e opens) (hf : o.Faithful h) (hr : o.Rooted) (hd : o.Distinct)
    {x : String} {i : Nat} {b : Binder} (hn : nearest? x opens = some (i, b)) :
    ∃ e' v, h.ancestor? e i = some e' ∧ h.local? e' x = some v ∧ o.Binds e' b := by
  obtain ⟨e', origin, v, ha, hg, ho, hmem, -, hv⟩ := hc.binder_at hf hr hn
  exact ⟨e', v, ha, hv, origin, ho, hmem, fun b' hb' he =>
    List.inj_on_of_nodup_map (hd e' origin ho hg) hb' hmem he⟩

theorem Heap.getAt?_of_local {x : String} {i : Nat} {e' : EnvironmentId} {v : Value}
    (ha : h.ancestor? e i = some e') (hv : h.local? e' x = some v) :
    h.holderAt? e i x = some e' ∧ h.getAt? e i x = some v := by
  have hh : h.holderAt? e i x = some e' := by
    simp [Heap.holderAt?, ha, Heap.binds, hv]
  exact ⟨hh, by simp [Heap.getAt?, hh, hv]⟩

/-- Where nothing is further out, no name is looked up any further. -/
theorem Heap.holder?_of_outermost {outermost : EnvironmentId}
    (ho : (h.environment? outermost).map (·.enclosing) = some none) (x : String) :
    h.holder? outermost x = if h.binds outermost x then some outermost else none := by
  obtain ⟨env, henv, hout⟩ := Option.map_eq_some_iff.mp ho
  have hsize : h.environments.size ≠ 0 := by
    have hlt := Heap.index_lt_of_isSome (h := h) (e := outermost) (by simp [henv])
    omega
  obtain ⟨n, hn⟩ := Nat.exists_eq_succ_of_ne_zero hsize
  simp [Heap.holder?, hn, Heap.holderUpTo?, henv, hout]

/-- The globals are nested in nothing. -/
theorem Heap.holder?_globals (hf : o.Faithful h) (hr : o.Rooted) (x : String) :
    h.holder? Heap.globals x = if h.binds Heap.globals x then some Heap.globals else none := by
  obtain ⟨binders, hg⟩ := hr
  exact holder?_of_outermost (hf.outer _ _ hg) x

end

section

variable {o : Origins} {m : Machine} {Γ : Place}

/-- A variable is read where its declaration bound it, or else from the globals alone. -/
theorem Machine.read_variable (hf : o.Faithful m.heap) (hr : o.Rooted) (hd : o.Distinct)
    (hc : Chain o m.environment Γ.opens) {r : Reference}
    (hn : m.depths.get? r.node = (nearest? r.name.lexeme Γ.opens).map Prod.fst) :
    (∀ i b, nearest? r.name.lexeme Γ.opens = some (i, b) → ∃ e v,
      m.heap.ancestor? m.environment i = some e ∧ m.heap.local? e r.name.lexeme = some v ∧
      o.Binds e b ∧ m.read r = .ok v) ∧
    (nearest? r.name.lexeme Γ.opens = none → m.read r =
      match m.heap.local? Heap.globals r.name.lexeme with
      | some v => .ok v
      | none => .error (undefinedVariable r.name)) := by
  refine ⟨fun i b hi => ?_, fun hi => ?_⟩
  · obtain ⟨e, v, ha, hv, hb⟩ := hc.finds hf hr hd hi
    refine ⟨e, v, ha, hv, hb, ?_⟩
    have hdepth : m.depths.get? r.node = some i := by rw [hn, hi]; rfl
    have hholder := (Heap.getAt?_of_local ha hv).1
    simp [Machine.read, Machine.holder?, hdepth, hholder, hv]
  · have hdepth : m.depths.get? r.node = none := by rw [hn, hi]; rfl
    simp only [Machine.read, Machine.holder?, hdepth, Heap.holder?_globals hf hr]
    cases hl : m.heap.local? Heap.globals r.name.lexeme with
    | none => simp [Heap.binds, hl]
    | some v => simp [Heap.binds, hl]

/-- A `super` finds the superclass and, one hop nearer, the receiver; only the method that it asks
for may be missing. -/
theorem Machine.inherited_eq (hf : o.Faithful m.heap) (hr : o.Rooted) (hs : o.Supers m.heap)
    (hc : Chain o m.environment Γ.opens) {r : Reference} {method : Token}
    (hn : Node.Standing m.depths Γ (.expr (.inherited r method))) :
    ∃ i e c receiver, m.depths.get? r.node = some (i + 1) ∧
      m.heap.ancestor? m.environment (i + 1) = some e ∧
      m.heap.local? e "super" = some (.classValue c) ∧
      m.heap.getAt? m.environment i "this" = some receiver ∧
      m.inherited r method =
        match m.heap.method? c method.lexeme with
        | some found => .ok (receiver, .method found)
        | none => .error (undefinedProperty method) := by
  obtain ⟨i, -, hreceiver, hsuperclass, hdepth⟩ := hn.depth_of_inherited
  obtain ⟨e, origin, ha, -, ho, hk, -⟩ := hc.ancestor hf hr hsuperclass
  obtain ⟨c, hclass⟩ := hs e origin ho hk
  obtain ⟨e', origin', ha', hg', ho', -, hp'⟩ := hc.ancestor hf hr hreceiver
  have hthis : m.heap.binds e' "this" = true :=
    (hf.names e' origin' ho' hg' "this").mpr ⟨.receiver, hp'.subset (.head _), rfl⟩
  obtain ⟨receiver, hv⟩ := Option.isSome_iff_exists.mp hthis
  have hat := (Heap.getAt?_of_local ha hclass).2
  have hat' := (Heap.getAt?_of_local ha' hv).2
  refine ⟨i, e, c, receiver, hdepth, ha, hclass, hat', ?_⟩
  cases hm : m.heap.method? c method.lexeme <;>
    simp [Machine.inherited, hdepth, hat, Machine.receiverAt?, hat', hm]

/-- A local variable can be assigned to as soon as its declaration is complete, and not before. -/
theorem Machine.holder?_of_assign (hf : o.Faithful m.heap) (hr : o.Rooted) (hd : o.Distinct)
    (hs : Stands o m.environment Γ.opens) {r : Reference} {x : Expr} {depth : Nat}
    (hn : Node.Standing m.depths Γ (.expr (.assign r x)))
    (hdepth : m.depths.get? r.node = some depth) :
    (Γ.Initializes r.name.lexeme → depth = 0 ∧
        m.heap.binds m.environment r.name.lexeme = false ∧ m.holder? r = none) ∧
      (¬Γ.Initializes r.name.lexeme → ∃ e, m.heap.ancestor? m.environment depth = some e ∧
        m.heap.binds e r.name.lexeme = true ∧ m.holder? r = some e) := by
  obtain ⟨hin, hout⟩ := hn.depth_of_assign
  refine ⟨fun hi => ?_, fun hi => ?_⟩
  · obtain rfl : depth = 0 := Option.some.inj (hdepth.symm.trans (hin hi))
    refine ⟨rfl, ?_⟩
    obtain ⟨hopen, t, hu, hx⟩ := hi
    obtain ⟨s, outer, hopens⟩ := List.exists_cons_of_ne_nil hopen
    obtain ⟨out, ho⟩ := hs.exact s (by simp [hopens])
    have hg : m.environment ≠ Heap.globals := by
      intro hg
      obtain ⟨binders, hb⟩ := hr
      rw [hg] at ho
      cases hb.symm.trans ho
    have hun := hn.begun.unbound t hu
    rw [hopens, List.map_cons, isDeclared_names, hx] at hun
    have hbinds : m.heap.binds m.environment r.name.lexeme = false := by
      rw [← Bool.not_eq_true, hf.names _ _ ho hg]
      rintro ⟨b, hb, he⟩
      exact hun b hb he
    exact ⟨hbinds, by simp [Machine.holder?, hdepth, Heap.holderAt?, Heap.ancestor?, hbinds]⟩
  · have hfound := (hdepth.symm.trans (hout hi)).symm
    obtain ⟨⟨i, b⟩, hnear, rfl⟩ := Option.map_eq_some_iff.mp hfound
    obtain ⟨e, v, ha, hv, -⟩ := hs.chain.finds hf hr hd hnear
    refine ⟨e, ha, by simp [Heap.binds, hv], ?_⟩
    simp [Machine.holder?, hdepth, (Heap.getAt?_of_local ha hv).1]

end

end Lox
