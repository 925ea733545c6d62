import Lox.Proofs.Machine.References

/-! Chains of superclasses.

A class derives from an older one, so its chain ends, and a method that is looked up is that of the
first class on the chain which defines it. -/

namespace Lox

/-- A class is on the chain that leads from another one through the superclasses. -/
inductive Heap.Descends (h : Heap) : ClassId → ClassId → Prop where
  | refl {k} : Descends h k k
  | up {k s j cls} : h.class? k = some cls → cls.superclass = some s → Descends h s j →
    Descends h k j

/-- The first class on a chain that defines a method, and the method. -/
inductive Heap.Finds (h : Heap) (name : String) : ClassId → ClassId → Closure → Prop where
  | here {k cls f} : h.class? k = some cls → cls.methods.get? name = some f → Finds h name k k f
  | up {k s j cls f} : h.class? k = some cls → cls.methods.get? name = none →
    cls.superclass = some s → Finds h name s j f → Finds h name k j f

/-- No class on a chain defines a method. -/
def Heap.Lacks (h : Heap) (name : String) (k : ClassId) : Prop :=
  ∀ j cls, h.Descends k j → h.class? j = some cls → cls.methods.get? name = none

namespace Heap

variable {h : Heap} {name : String} {i j k s : ClassId} {f : Closure}

theorem Descends.trans (hk : h.Descends k j) (hj : h.Descends j i) : h.Descends k i := by
  induction hk with
  | refl => exact hj
  | up hcls hs _ ih => exact .up hcls hs (ih hj)

theorem Finds.descends (hf : h.Finds name k j f) : h.Descends k j := by
  induction hf with
  | here _ _ => exact .refl
  | up hcls _ hs _ ih => exact .up hcls hs ih

theorem Finds.defines (hf : h.Finds name k j f) :
    ∃ cls, h.class? j = some cls ∧ cls.methods.get? name = some f := by
  induction hf with
  | here hcls hm => exact ⟨_, hcls, hm⟩
  | up _ _ _ _ ih => exact ih

/-- Where a class on the chain defines a method, there is a first one. -/
theorem Descends.finds (hd : h.Descends k j) {cls : Class} (hcls : h.class? j = some cls)
    (hm : cls.methods.get? name = some f) : ∃ i g, h.Finds name k i g := by
  induction hd with
  | refl => exact ⟨_, _, .here hcls hm⟩
  | @up k s j own hown hs _ ih =>
    cases hget : own.methods.get? name with
    | some g => exact ⟨_, _, .here hown hget⟩
    | none =>
      obtain ⟨i, g, hfinds⟩ := ih hcls
      exact ⟨i, g, .up hown hget hs hfinds⟩

theorem finds_of_methodUpTo? (count : Nat) : ∀ {k : ClassId},
    h.methodUpTo? name count k = some f → ∃ j, h.Finds name k j f := by
  induction count with
  | zero => exact fun hm => nomatch hm
  | succ count ih =>
    intro k hm
    rw [methodUpTo?] at hm
    split at hm
    · cases hm
    · rename_i cls hcls
      split at hm
      · rename_i g hget
        obtain rfl : g = f := Option.some.inj hm
        exact ⟨k, .here hcls hget⟩
      · rename_i hget
        split at hm
        · rename_i s hs
          obtain ⟨j, hfinds⟩ := ih hm
          exact ⟨j, .up hcls hget hs hfinds⟩
        · cases hm

theorem finds_of_method? (hm : h.method? k name = some f) : ∃ j, h.Finds name k j f :=
  finds_of_methodUpTo? _ hm

/-- A class is found before the steps run out, for each step leads to an older class. -/
theorem Finds.methodUpTo? (hs : h.Sound) (hf : h.Finds name k j f) :
    ∀ count, k.index < count → h.methodUpTo? name count k = some f := by
  induction hf with
  | here hcls hm =>
    intro count hlt
    obtain ⟨n, rfl⟩ := Nat.exists_eq_add_of_lt hlt
    rw [Heap.methodUpTo?, hcls]
    simp only [hm]
  | up hcls hm hsuper _ ih =>
    intro count hlt
    have holder := hs.superclasses _ _ _ hcls hsuper
    obtain ⟨n, rfl⟩ := Nat.exists_eq_add_of_lt hlt
    rw [Heap.methodUpTo?, hcls]
    simp only [hm, hsuper]
    exact ih _ (by omega)

theorem index_lt_of_class? {cls : Class} (hk : h.class? k = some cls) :
    k.index < h.classes.size := (Array.getElem?_eq_some_iff.mp hk).1

/-- The method of a lookup is that of the first class that defines it. -/
theorem Finds.method? (hs : h.Sound) (hf : h.Finds name k j f) : h.method? k name = some f := by
  refine hf.methodUpTo? hs _ ?_
  cases hf with
  | here hcls _ => exact index_lt_of_class? hcls
  | up hcls _ _ _ => exact index_lt_of_class? hcls

/-- A lookup fails exactly where no class on the chain defines the method. -/
theorem method?_eq_none (hs : h.Sound) : h.method? k name = none ↔ h.Lacks name k := by
  constructor
  · intro hnone j cls hd hcls
    cases hm : cls.methods.get? name with
    | none => rfl
    | some f =>
      obtain ⟨i, g, hfinds⟩ := hd.finds hcls hm
      exact nomatch (hfinds.method? hs).symm.trans hnone
  · intro hlacks
    cases hm : h.method? k name with
    | none => rfl
    | some f =>
      obtain ⟨j, hfinds⟩ := finds_of_method? hm
      obtain ⟨cls, hcls, hget⟩ := hfinds.defines
      exact nomatch (hlacks j cls hfinds.descends hcls).symm.trans hget

end Heap

end Lox
