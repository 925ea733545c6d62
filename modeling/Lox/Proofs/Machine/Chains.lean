import Lox.Proofs.Machine.Growth

/-! Chains of environments.

Environments are nested in older ones, so that from each of them a chain leads outwards and ends,
and many chains share their outer parts. A name is looked up along a chain, or at a place of it that
is given by a distance; the first is the second at the least distance where the name is bound. A
value is written to one environment, and it is seen from wherever a chain leads there. -/

namespace Lox

/-- What can be done to the environments of a store. -/
inductive StoreOperation where
  | root
  | child (outer : EnvironmentId)
  | define (e : EnvironmentId) (x : String) (v : Value)
  | assign (e : EnvironmentId) (x : String) (v : Value)
  | assignAt (e : EnvironmentId) (distance : Nat) (x : String) (v : Value)

namespace StoreOperation

/-- The environment that an operation starts from. -/
def target? : StoreOperation → Option EnvironmentId
  | .root => none
  | .child e | .define e _ _ | .assign e _ _ | .assignAt e _ _ _ => some e

/-- The store after an operation. An assignment that finds no binding leaves the store as it is. -/
def apply (h : Heap) : StoreOperation → Heap
  | .root => (h.newEnvironment ⟨Bindings.empty, none⟩).2
  | .child e => (h.child e).2
  | .define e x v => h.define e x v
  | .assign e x v => (h.assign? e x v).getD h
  | .assignAt e distance x v => (h.assignAt? e distance x v).getD h

end StoreOperation

namespace Heap

/-- The stores that operations on environments lead to, each from an environment that is there. -/
inductive Built : Heap → Prop where
  | start {h : Heap} : h.environments = #[] → Built h
  | step {h : Heap} (op : StoreOperation) :
    Built h → (∀ e ∈ op.target?, (h.environment? e).isSome = true) → Built (op.apply h)

/-- Environments are nested in older ones. -/
def Nested (h : Heap) : Prop :=
  ∀ e env outer, h.environment? e = some env → env.enclosing = some outer → outer.index < e.index

/-- The distance at which a name is bound nearest. -/
structure NearestAt (h : Heap) (e : EnvironmentId) (x : String) (distance : Nat) : Prop where
  bound : (h.getAt? e distance x).isSome = true
  unbound : ∀ i < distance, h.getAt? e i x = none

/-- A new value has been written for a name at one place, and whatever does not lead to that place
reads what it read before. -/
structure Overwrites (h : Heap) (e : EnvironmentId) (distance : Nat) (x : String) (v : Value)
    (h' : Heap) : Prop where
  chains : ∀ e' i, h'.ancestor? e' i = h.ancestor? e' i
  written : ∀ e' i, h.ancestor? e' i = h.ancestor? e distance → h'.getAt? e' i x = some v
  kept : ∀ e' i y, ¬(y = x ∧ h.ancestor? e' i = h.ancestor? e distance) →
    h'.getAt? e' i y = h.getAt? e' i y
  found : ∀ e' i, h.NearestAt e' x i → h.ancestor? e' i = h.ancestor? e distance →
    h'.get? e' x = some v
  missed : ∀ e' y, (∀ i, h.NearestAt e' y i →
    ¬(y = x ∧ h.ancestor? e' i = h.ancestor? e distance)) → h'.get? e' y = h.get? e' y
  functions : h'.functions = h.functions
  classes : h'.classes = h.classes
  objects : h'.objects = h.objects

section Chains

variable {h : Heap} {e e' : EnvironmentId} {x : String} {v : Value} {d : Nat}

theorem Nested.same {h' : Heap} (hn : h.Nested)
    (he : ∀ e, (h'.environment? e).map (·.enclosing) = (h.environment? e).map (·.enclosing)) :
    h'.Nested := by
  intro e env' outer henv' hout
  have hmap := he e
  rw [henv', Option.map_some, hout] at hmap
  obtain ⟨env, henv, hout'⟩ := Option.map_eq_some_iff.mp hmap.symm
  exact hn e env outer henv hout'

theorem Nested.push {h' : Heap} (hn : h.Nested) (env : Environment)
    (he : h'.environments = h.environments.push env)
    (hout : ∀ outer ∈ env.enclosing, (h.environment? outer).isSome = true) : h'.Nested := by
  intro e env' outer henv' hout'
  rw [environment?_push he] at henv'
  by_cases hi : e.index = h.environments.size
  · rw [if_pos hi] at henv'
    cases henv'
    rw [hi]
    exact index_lt_of_isSome (hout outer hout')
  · rw [if_neg hi] at henv'
    exact hn e env' outer henv' hout'

/-- Each operation nests what it makes in something older. -/
theorem Built.nested (hb : h.Built) : h.Nested := by
  induction hb with
  | start hempty =>
    intro e env outer henv
    simp [environment?, hempty] at henv
  | @step h op _ hop ih =>
    have hdefine (e : EnvironmentId) (x : String) (v : Value) : (h.define e x v).Nested :=
      ih.same fun e' => enclosing_define h e e' x v
    cases op with
    | root => exact ih.push ⟨Bindings.empty, none⟩ rfl (by simp)
    | child e =>
      apply ih.push ⟨Bindings.empty, some e⟩ rfl
      intro outer ho
      cases ho
      exact hop e rfl
    | define e x v => exact hdefine e x v
    | assign e x v =>
      change ((h.assign? e x v).getD h).Nested
      rw [assign?]
      cases h.holder? e x with
      | none => exact ih
      | some i => exact hdefine i x v
    | assignAt e d x v =>
      change ((h.assignAt? e d x v).getD h).Nested
      rw [assignAt?]
      cases h.holderAt? e d x with
      | none => exact ih
      | some i => exact hdefine i x v

theorem ancestor?_succ_eq_some :
    h.ancestor? e (d + 1) = some e' ↔ ∃ env outer, h.environment? e = some env ∧
      env.enclosing = some outer ∧ h.ancestor? outer d = some e' := by
  rw [ancestor?]
  cases henv : h.environment? e with
  | none => simp
  | some env => cases hout : env.enclosing <;> simp [hout]

/-- Each link of a chain leads to an older environment, so no chain is longer than the store. -/
theorem Nested.index_add_le (hn : h.Nested) : ∀ {e : EnvironmentId} {d : Nat},
    h.ancestor? e d = some e' → e'.index + d ≤ e.index := by
  intro e d
  induction d generalizing e with
  | zero =>
    intro ha
    cases ha
    exact Nat.le_refl _
  | succ d ih =>
    intro ha
    obtain ⟨env, outer, henv, hout, hrest⟩ := ancestor?_succ_eq_some.mp ha
    have hlt := hn e env outer henv hout
    have hle := ih hrest
    omega

theorem holderAt?_eq_some : h.holderAt? e d x = some e' ↔
    h.ancestor? e d = some e' ∧ h.binds e' x = true := Option.filter_eq_some_iff

theorem holderAt?_succ {outer : EnvironmentId}
    (hout : (h.environment? e).bind (·.enclosing) = some outer) :
    h.holderAt? e (d + 1) x = h.holderAt? outer d x := by
  simp only [holderAt?, ancestor?, hout]

theorem holderAt?_succ_none (hout : (h.environment? e).bind (·.enclosing) = none) :
    h.holderAt? e (d + 1) x = none := by
  simp only [holderAt?, ancestor?, hout, Option.filter_none]

theorem holderAt?_zero : h.holderAt? e 0 x = if h.binds e x then some e else none := by
  simp [holderAt?, ancestor?, Option.filter]

/-- The search along a chain stops at the least distance where the name is bound. -/
theorem holderUpTo?_eq_some (count : Nat) : ∀ {e : EnvironmentId},
    h.holderUpTo? x count e = some e' ↔
      ∃ d < count, h.holderAt? e d x = some e' ∧ ∀ i < d, h.holderAt? e i x = none := by
  induction count with
  | zero => simp [holderUpTo?]
  | succ count ih =>
    intro e
    rw [holderUpTo?, Nat.exists_lt_succ_left]
    simp only [Nat.forall_lt_succ_left, holderAt?_zero]
    by_cases hb : h.binds e x = true
    · -- The name is bound at the start, so no other distance is the least.
      simp [hb]
    · cases hout : (h.environment? e).bind (·.enclosing) with
      | none => simp [hb, holderAt?_succ_none hout]
      | some outer => simp [hb, holderAt?_succ hout, ih]

theorem Nested.lt_size (hn : h.Nested) (hd : h.holderAt? e d x = some e') :
    d < h.environments.size := by
  obtain ⟨ha, hb⟩ := holderAt?_eq_some.mp hd
  cases d with
  | zero =>
    obtain ⟨v, hv⟩ := Option.isSome_iff_exists.mp hb
    obtain ⟨env, henv, -⟩ := Option.bind_eq_some_iff.mp hv
    exact Nat.zero_lt_of_lt (index_lt_of_isSome (Option.isSome_of_eq_some henv))
  | succ d =>
    obtain ⟨env, outer, henv, -, -⟩ := ancestor?_succ_eq_some.mp ha
    have hlt := index_lt_of_isSome (Option.isSome_of_eq_some henv)
    have hle := hn.index_add_le ha
    omega

/-- The nearest holder is the holder at the least distance. -/
theorem Nested.holder?_eq_some (hn : h.Nested) : h.holder? e x = some e' ↔
    ∃ d, h.holderAt? e d x = some e' ∧ ∀ i < d, h.holderAt? e i x = none := by
  rw [holder?, holderUpTo?_eq_some]
  constructor
  · rintro ⟨d, -, hd⟩
    exact ⟨d, hd⟩
  · rintro ⟨d, hd, hleast⟩
    exact ⟨d, hn.lt_size hd, hd, hleast⟩

theorem isSome_getAt? : (h.getAt? e d x).isSome = (h.holderAt? e d x).isSome := by
  unfold getAt?
  cases hd : h.holderAt? e d x with
  | none => rfl
  | some i => exact (holderAt?_eq_some.mp hd).2

theorem getAt?_eq_none : h.getAt? e d x = none ↔ h.holderAt? e d x = none := by
  rw [← Option.isNone_iff_eq_none, ← Option.isNone_iff_eq_none, ← Option.not_isSome,
    ← Option.not_isSome, isSome_getAt?]

theorem nearestAt_iff : h.NearestAt e x d ↔
    (∃ i, h.holderAt? e d x = some i) ∧ ∀ i < d, h.holderAt? e i x = none := by
  constructor
  · rintro ⟨hb, hu⟩
    rw [isSome_getAt?] at hb
    exact ⟨Option.isSome_iff_exists.mp hb, fun i hi => getAt?_eq_none.mp (hu i hi)⟩
  · rintro ⟨hb, hu⟩
    constructor
    · rw [isSome_getAt?]
      exact Option.isSome_iff_exists.mpr hb
    · exact fun i hi => getAt?_eq_none.mpr (hu i hi)

/-- Where a name is bound at all along a chain, there is a least distance. -/
theorem exists_nearestAt (hd : (h.getAt? e d x).isSome = true) : ∃ i, h.NearestAt e x i := by
  induction d using Nat.strongRecOn with
  | ind d ih =>
    by_cases hless : ∃ i < d, (h.getAt? e i x).isSome = true
    · obtain ⟨i, hi, hsome⟩ := hless
      exact ih i hi hsome
    · refine ⟨d, hd, fun i hi => ?_⟩
      by_contra hne
      exact hless ⟨i, hi, Option.isSome_iff_ne_none.mpr hne⟩

/-- The holder of a name is where it is bound nearest. -/
theorem Nested.holder?_of_nearestAt (hn : h.Nested) (hd : h.NearestAt e x d) :
    h.holder? e x = h.ancestor? e d ∧ h.get? e x = h.getAt? e d x := by
  obtain ⟨⟨i, hi⟩, hu⟩ := nearestAt_iff.mp hd
  have hholder : h.holder? e x = some i := hn.holder?_eq_some.mpr ⟨d, hi, hu⟩
  constructor
  · rw [hholder, (holderAt?_eq_some.mp hi).1]
  · rw [get?, hholder, getAt?, hi]

theorem Nested.exists_of_holder? (hn : h.Nested) (hh : h.holder? e x = some e') :
    ∃ d, h.NearestAt e x d ∧ h.ancestor? e d = some e' := by
  obtain ⟨d, hd, hu⟩ := hn.holder?_eq_some.mp hh
  exact ⟨d, nearestAt_iff.mpr ⟨⟨e', hd⟩, hu⟩, (holderAt?_eq_some.mp hd).1⟩

theorem isSome_get? : (h.get? e x).isSome = (h.holder? e x).isSome := by
  unfold get?
  cases hh : h.holder? e x with
  | none => rfl
  | some i => exact binds_of_holderUpTo? _ _ hh

/-- A name that is found is found at the least distance where it is bound, and only there. -/
theorem Nested.get?_eq_some (hn : h.Nested) : h.get? e x = some v ↔
    ∃ d, h.NearestAt e x d ∧ h.getAt? e d x = some v := by
  constructor
  · intro hv
    have hsome : (h.holder? e x).isSome = true := by
      rw [← isSome_get?, hv]
      rfl
    obtain ⟨i, hi⟩ := Option.isSome_iff_exists.mp hsome
    obtain ⟨d, hd, -⟩ := hn.exists_of_holder? hi
    exact ⟨d, hd, by rw [← (hn.holder?_of_nearestAt hd).2, hv]⟩
  · rintro ⟨d, hd, hv⟩
    rw [(hn.holder?_of_nearestAt hd).2, hv]

theorem Nested.isSome_holder? (hn : h.Nested) : (h.holder? e x).isSome = true ↔
    ∃ d, (h.getAt? e d x).isSome = true := by
  constructor
  · intro hsome
    obtain ⟨i, hi⟩ := Option.isSome_iff_exists.mp hsome
    obtain ⟨d, hd, -⟩ := hn.exists_of_holder? hi
    exact ⟨d, hd.bound⟩
  · rintro ⟨d, hd⟩
    obtain ⟨i, hi⟩ := exists_nearestAt hd
    obtain ⟨⟨j, hj⟩, hu⟩ := nearestAt_iff.mp hi
    rw [hn.holder?_eq_some.mpr ⟨i, hj, hu⟩]
    rfl

end Chains

section Writing

variable {h h' : Heap} {e e' i : EnvironmentId} {x y : String} {v : Value} {d j : Nat}

theorem ancestor?_define (h : Heap) (i : EnvironmentId) (x : String) (v : Value) :
    ∀ (d : Nat) (e : EnvironmentId), (h.define i x v).ancestor? e d = h.ancestor? e d := by
  intro d
  induction d with
  | zero => intro e; rfl
  | succ d ih =>
    intro e
    have hout : ((h.define i x v).environment? e).bind (·.enclosing) =
        (h.environment? e).bind (·.enclosing) := by
      rw [environment?_define]
      by_cases he : i = e
      · rw [if_pos he]
        cases h.environment? e <;> rfl
      · rw [if_neg he]
    simp only [ancestor?, hout, ih]

/-- A value for a name that is bound there is read back, and no other binding changes. -/
theorem local?_overwritten (hb : h.binds i x = true) : (h.define i x v).local? e y =
    if i = e ∧ x = y then some v else h.local? e y := by
  rw [local?_define]
  have hsome : (h.environment? i).isSome = true := by
    obtain ⟨w, hw⟩ := Option.isSome_iff_exists.mp hb
    obtain ⟨env, henv, -⟩ := Option.bind_eq_some_iff.mp hw
    rw [henv]
    rfl
  by_cases hi : i = e ∧ x = y
  · rw [if_pos hi, if_pos ⟨hi.1, hi.2, hi.1 ▸ hsome⟩]
  · rw [if_neg hi, if_neg fun hc => hi ⟨hc.1, hc.2.1⟩]

theorem binds_overwritten (hb : h.binds i x = true) :
    (h.define i x v).binds e y = h.binds e y := by
  unfold binds
  rw [local?_overwritten hb]
  by_cases hi : i = e ∧ x = y
  · obtain ⟨rfl, rfl⟩ := hi
    rw [if_pos ⟨rfl, rfl⟩]
    exact hb.symm
  · rw [if_neg hi]

theorem holderAt?_overwritten (hb : h.binds i x = true) :
    (h.define i x v).holderAt? e d y = h.holderAt? e d y := by
  unfold holderAt?
  rw [ancestor?_define]
  simp only [binds_overwritten hb]

theorem getAt?_overwritten (hb : h.binds i x = true) : (h.define i x v).getAt? e d y =
    if y = x ∧ h.ancestor? e d = some i then some v else h.getAt? e d y := by
  unfold getAt?
  rw [holderAt?_overwritten hb]
  cases hd : h.holderAt? e d y with
  | none =>
    -- Where nothing is held, the place is not the one that was written to.
    rw [if_neg ?_]
    · rfl
    · rintro ⟨rfl, ha⟩
      rw [holderAt?_eq_some.mpr ⟨ha, hb⟩] at hd
      cases hd
  | some k =>
    obtain ⟨ha, -⟩ := holderAt?_eq_some.mp hd
    rw [Option.bind_some, local?_overwritten hb, ha, Option.bind_some]
    by_cases hk : i = k ∧ x = y
    · obtain ⟨rfl, rfl⟩ := hk
      simp
    · have hk' : ¬(y = x ∧ some k = some i) := by
        rintro ⟨rfl, hki⟩
        cases hki
        exact hk ⟨rfl, rfl⟩
      rw [if_neg hk, if_neg hk']

theorem nearestAt_overwritten (hb : h.binds i x = true) :
    (h.define i x v).NearestAt e y d ↔ h.NearestAt e y d := by
  rw [nearestAt_iff, nearestAt_iff]
  simp only [holderAt?_overwritten hb]

/-- Writing to the place at a distance overwrites what every chain to that place reads. -/
theorem Nested.overwrites (hn : h.Nested) (ha : h.ancestor? e d = some i)
    (hb : h.binds i x = true) : h.Overwrites e d x v (h.define i x v) := by
  have hn' : (h.define i x v).Nested := hn.same fun e' => enclosing_define h i e' x v
  have hkept : ∀ e' j y, ¬(y = x ∧ h.ancestor? e' j = h.ancestor? e d) →
      (h.define i x v).getAt? e' j y = h.getAt? e' j y := by
    intro e' j y hne
    rw [getAt?_overwritten hb, ← ha, if_neg hne]
  have hwritten : ∀ e' j, h.ancestor? e' j = h.ancestor? e d →
      (h.define i x v).getAt? e' j x = some v := by
    intro e' j heq
    rw [getAt?_overwritten hb, heq, ha, if_pos ⟨rfl, rfl⟩]
  constructor
  · exact fun e' j => ancestor?_define h i x v j e'
  · exact hwritten
  · exact hkept
  · intro e' j hj heq
    exact hn'.get?_eq_some.mpr ⟨j, (nearestAt_overwritten hb).mpr hj, hwritten e' j heq⟩
  · intro e' y hne
    apply Option.ext
    intro w
    rw [hn'.get?_eq_some, hn.get?_eq_some]
    simp only [nearestAt_overwritten hb]
    constructor
    · rintro ⟨j, hj, hw⟩
      exact ⟨j, hj, by rwa [← hkept e' j y (hne j hj)]⟩
    · rintro ⟨j, hj, hw⟩
      exact ⟨j, hj, by rwa [hkept e' j y (hne j hj)]⟩
  · rfl
  · rfl
  · rfl

end Writing

/-- The laws of reading and writing along chains that share environments. -/
structure Lawful (h : Heap) : Prop where
  get : ∀ e x, (h.get? e x).isSome = true ↔ ∃ d, (h.getAt? e d x).isSome = true
  gets : ∀ e x d, h.NearestAt e x d → h.get? e x = h.getAt? e d x
  assign : ∀ e x v, (h.assign? e x v).isSome = true ↔ ∃ d, (h.getAt? e d x).isSome = true
  assigns : ∀ e x v h', h.assign? e x v = some h' →
    ∃ d, h.NearestAt e x d ∧ h.Overwrites e d x v h'
  assignAt : ∀ e d x v, (h.assignAt? e d x v).isSome = true ↔ (h.getAt? e d x).isSome = true
  assignsAt : ∀ e d x v h', h.assignAt? e d x v = some h' → h.Overwrites e d x v h'
  fails : ∀ e x v, h.assign? e x v = none → (StoreOperation.assign e x v).apply h = h
  failsAt : ∀ e d x v, h.assignAt? e d x v = none →
    (StoreOperation.assignAt e d x v).apply h = h

/-- In every store that operations lead to, a name is read and assigned where it is bound at the
least distance, and a value that is written is read through every chain to its place and changes
nothing else. -/
theorem Built.lawful {h : Heap} (hb : h.Built) : h.Lawful := by
  have hn := hb.nested
  constructor
  · intro e x
    rw [isSome_get?]
    exact hn.isSome_holder?
  · intro e x d hd
    exact (hn.holder?_of_nearestAt hd).2
  · intro e x v
    rw [assign?, Option.isSome_map]
    exact hn.isSome_holder?
  · intro e x v h' he
    obtain ⟨i, hi, rfl⟩ := Option.map_eq_some_iff.mp he
    obtain ⟨d, hd, ha⟩ := hn.exists_of_holder? hi
    exact ⟨d, hd, hn.overwrites ha (binds_of_holderUpTo? _ _ hi)⟩
  · intro e d x v
    rw [assignAt?, Option.isSome_map, isSome_getAt?]
  · intro e d x v h' he
    obtain ⟨i, hi, rfl⟩ := Option.map_eq_some_iff.mp he
    obtain ⟨ha, hbinds⟩ := holderAt?_eq_some.mp hi
    exact hn.overwrites ha hbinds
  · intro e x v hnone
    rw [StoreOperation.apply, hnone, Option.getD_none]
  · intro e d x v hnone
    rw [StoreOperation.apply, hnone, Option.getD_none]

/-- Two environments in one that binds a name. -/
def siblings : Heap :=
  [StoreOperation.root, .define ⟨0⟩ "n" .nil, .child ⟨0⟩, .child ⟨0⟩].foldl
    StoreOperation.apply ⟨#[], #[], #[], #[]⟩

theorem built_siblings : siblings.Built := by
  have hroot := Built.step .root (Built.start (h := ⟨#[], #[], #[], #[]⟩) rfl) nofun
  have hdefined := hroot.step (.define ⟨0⟩ "n" .nil) (by rintro _ ⟨⟩; rfl)
  have hchild := hdefined.step (.child ⟨0⟩) (by rintro _ ⟨⟩; rfl)
  exact hchild.step (.child ⟨0⟩) (by rintro _ ⟨⟩; rfl)

/-- What is assigned through one of two siblings is read through the other. -/
theorem lawful_between_siblings : siblings.Built ∧ ∃ h',
    siblings.assignAt? ⟨1⟩ 1 "n" (.bool true) = some h' ∧
      h'.getAt? ⟨2⟩ 1 "n" = some (.bool true) ∧ h'.get? ⟨2⟩ "n" = some (.bool true) := by
  have hlaws := built_siblings.lawful
  obtain ⟨h', hh'⟩ := Option.isSome_iff_exists.mp
    ((hlaws.assignAt ⟨1⟩ 1 "n" (.bool true)).mpr (by decide))
  have hwritten := hlaws.assignsAt _ _ _ _ _ hh'
  have hnearest : siblings.NearestAt ⟨2⟩ "n" 1 := by
    constructor
    · decide
    · intro i hi
      obtain rfl : i = 0 := Nat.lt_one_iff.mp hi
      decide
  exact ⟨built_siblings, h', hh', hwritten.written ⟨2⟩ 1 (by decide),
    hwritten.found ⟨2⟩ 1 hnearest (by decide)⟩

end Heap

end Lox
