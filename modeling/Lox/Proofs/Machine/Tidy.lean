import Lox.Proofs.Machine.Preservation
import Lox.Proofs.Scope.Subclass

/-! Where the reserved names are introduced.

An accepted program opens scopes for functions and blocks and for the two reserved names, and it
declares variables. So only a scope that was made for a receiver ever binds `this`. -/

namespace Lox

/-- A deed that an accepted program can do. -/
inductive Deed.Tidy : Deed → Prop where
  | plain {s outer} : s.Plain → Tidy (.opened s outer)
  | receiver {outer} : Tidy (.opened .receiver outer)
  | superclass {outer} : Tidy (.opened .superclass outer)
  | bound {e t} : t.IsName → Tidy (.bound e t)

/-- Only scopes for receivers introduce `this`. -/
def Origins.Tidy (o : Origins) : Prop :=
  ∀ e origin, o.of? e = some origin → ∀ b ∈ origin.scope.binders, b.name = "this" →
    origin.scope.kind = .receiver

namespace Origins.Tidy

variable {o : Origins}

theorem start : Origins.start.Tidy := by
  rintro ⟨i⟩ origin ho b hb -
  cases i with
  | zero =>
    obtain rfl : (⟨⟨.globals, []⟩, none⟩ : Origin) = origin := Option.some.inj ho
    cases hb
  | succ i => simp [Origins.start, Origins.of?] at ho

theorem opened (h : o.Tidy) {s : OpenScope}
    (hs : ∀ b ∈ s.binders, b.name = "this" → s.kind = .receiver) (outer : EnvironmentId) :
    (o.perform (.opened s outer)).Tidy := by
  intro e origin ho
  rw [of?_opened] at ho
  split at ho
  · obtain rfl := Option.some.inj ho
    exact hs
  · exact h e origin ho

theorem perform (h : o.Tidy) {d : Deed} (hd : d.Tidy) : (o.perform d).Tidy := by
  cases hd with
  | plain hs =>
    refine h.opened (fun b hb hthis => ?_) _
    obtain ⟨t, rfl, ht⟩ := hs.named b hb
    exact absurd hthis ht.not_this
  | receiver => exact h.opened (fun _ _ _ => rfl) _
  | superclass =>
    refine h.opened (fun b hb hthis => ?_) _
    obtain rfl : b = .superclass := List.mem_singleton.mp hb
    exact nomatch hthis
  | @bound e t ht =>
    intro e' origin ho b hb hthis
    rw [of?_bound] at ho
    split at ho
    · obtain ⟨origin', ho', rfl⟩ := Option.map_eq_some_iff.mp ho
      rcases List.mem_append.mp hb with hb | hb
      · exact h e' origin' ho' b hb hthis
      · obtain rfl : b = .named t := List.mem_singleton.mp hb
        exact absurd hthis ht.not_this
    · exact h e' origin ho b hb hthis

theorem performAll {deeds : List Deed} : ∀ {o : Origins}, o.Tidy → (∀ d ∈ deeds, d.Tidy) →
    (o.performAll deeds).Tidy := by
  induction deeds with
  | nil => exact fun h _ => h
  | cons d rest ih =>
    intro o h hall
    exact ih (h.perform (hall d (.head _))) fun d' hd' => hall d' (.tail _ hd')

end Origins.Tidy

section

variable {programs : List (List Stmt)} {o : Origins} {m : Machine}

/-- The parameters of a function that is known are names. -/
theorem Machine.Kept.scope_plain (hm : m.Kept programs o) {Γ : Place} {kind : FunctionContext}
    {f : FunctionDecl} (hn : Known programs Γ (.callable kind f)) : f.scope.Plain :=
  FunctionDecl.scope_plain ((FunctionDecl.wellFormed_iff f).mp (hm.standing hn).wellFormed).2.1

namespace Machine

theorem tidy_deedsOfProperty (r : Except RuntimeError (Value × Property)) :
    ∀ d ∈ deedsOfProperty r, d.Tidy := by
  rcases r with _ | ⟨receiver, v | f⟩
  · exact List.forall_mem_nil _
  · exact List.forall_mem_nil _
  · exact List.forall_mem_singleton.mpr .receiver

theorem tidy_deedsOfFunction (hm : m.Kept programs o) (f : FunctionId) :
    ∀ d ∈ m.deedsOfFunction f, d.Tidy := by
  unfold deedsOfFunction
  split
  · rename_i closure hf
    obtain ⟨Γ, kind, hn, -⟩ := hm.remembers.functions f closure hf
    exact List.forall_mem_singleton.mpr (.plain (hm.scope_plain hn))
  · exact List.forall_mem_nil _

theorem tidy_deedsOfClass (hm : m.Kept programs o) (k : ClassId) :
    ∀ d ∈ m.deedsOfClass k, d.Tidy := by
  unfold deedsOfClass
  split
  · rename_i method hk
    obtain ⟨Γ, outer, hn, -⟩ := hm.remembers.method? hk
    exact List.forall_mem_cons.mpr
      ⟨.receiver, List.forall_mem_singleton.mpr (.plain (hm.scope_plain hn))⟩
  · exact List.forall_mem_nil _

theorem tidy_deedsOfCall (hm : m.Kept programs o) (callee : Value) (arguments : List Value) :
    ∀ d ∈ m.deedsOfCall callee arguments, d.Tidy := by
  unfold deedsOfCall
  split
  · exact List.forall_mem_nil _
  split
  · exact List.forall_mem_nil _
  split
  · exact List.forall_mem_nil _
  split
  · exact tidy_deedsOfFunction hm _
  · exact tidy_deedsOfClass hm _
  · exact List.forall_mem_nil _

theorem tidy_deedsOfExec {s : Stmt} (hs : s.WellFormed) : ∀ d ∈ m.deedsOfExec s, d.Tidy := by
  have hname {t : Token} (ht : s.declared? = some t) : t.IsName := hs.declared ht
  cases s with
  | varDecl t e =>
    cases e with
    | none => exact List.forall_mem_singleton.mpr (.bound (hname rfl))
    | some e => exact List.forall_mem_nil _
  | block body => exact List.forall_mem_singleton.mpr (.plain ⟨.inl rfl, List.forall_mem_nil _⟩)
  | function f => exact List.forall_mem_singleton.mpr (.bound (hname rfl))
  | classDecl t superclass methods =>
    simp only [deedsOfExec]
    split
    · exact List.forall_mem_singleton.mpr (.bound (hname rfl))
    · exact List.forall_mem_cons.mpr
        ⟨.bound (hname rfl), List.forall_mem_singleton.mpr .superclass⟩
    · exact List.forall_mem_nil _
  | _ => exact List.forall_mem_nil _

end Machine

/-- Whatever an accepted program does to environments is tidy. -/
theorem Config.Kept.tidy {c : Config} (h : c.Kept programs o) : ∀ d ∈ c.deeds, d.Tidy := by
  obtain ⟨m, control, fs⟩ := c
  obtain ⟨hm, hcontrol⟩ := h
  unfold deeds
  split
  · exact Machine.tidy_deedsOfProperty _
  · rename_i heq
    cases heq
    obtain ⟨Γ, -, hn, -⟩ := hcontrol
    exact Machine.tidy_deedsOfExec (hm.standing hn).wellFormed
  · rename_i v frame fs heq
    cases heq
    obtain ⟨hole, -, hfits⟩ := hcontrol
    simp only at hfits
    unfold Machine.deedsOfResume
    split
    · exact Machine.tidy_deedsOfCall hm _ _
    · exact Machine.tidy_deedsOfCall hm _ _
    · exact Machine.tidy_deedsOfProperty _
    · generalize m.environment = e at hfits
      cases hfits with
      | varDecl _ hn _ => exact List.forall_mem_singleton.mpr (.bound (hm.standing hn).wellFormed.1)
    · exact List.forall_mem_nil _
  · exact List.forall_mem_nil _

end

end Lox
