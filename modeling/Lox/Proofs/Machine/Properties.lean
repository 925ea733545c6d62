import Lox.Proofs.Machine.Ageing
import Lox.Proofs.Machine.Renaming

/-! What objects hold.

An object has exactly the fields that were assigned, each with the value that was assigned last.
An assignment to a property is the one step that writes a field, and it writes nothing else. -/

namespace Lox

/-- A value that was given to a property of an object. -/
structure Assignment where
  object : ObjectId
  name : String
  value : Value

/-- The value that was given to a property last, the most recent assignment first. -/
def latest? (log : List Assignment) (i : ObjectId) (x : String) : Option Value :=
  (log.find? fun a => a.object = i ∧ a.name = x).map (·.value)

/-- The assignment that the next step makes. -/
def Config.assignment? : Config → Option Assignment
  | ⟨_, .done (.value v), .setValue i t :: _⟩ => some ⟨i, t.lexeme, v⟩
  | _ => none

/-- Objects have the fields that were assigned, and only they were assigned to. -/
structure Heap.Records (h : Heap) (log : List Assignment) : Prop where
  fields : ∀ i object, h.object? i = some object → ∀ x, object.fields.get? x = latest? log i x
  objects : ∀ a ∈ log, a.object.index < h.objects.size

variable {h : Heap} {log : List Assignment}

theorem latest?_cons (a : Assignment) (log : List Assignment) (i : ObjectId) (x : String) :
    latest? (a :: log) i x =
      if a.object = i ∧ a.name = x then some a.value else latest? log i x := by
  by_cases ha : a.object = i ∧ a.name = x <;> simp [latest?, ha]

theorem latest?_eq_none {i : ObjectId} (hi : ∀ a ∈ log, a.object ≠ i) (x : String) :
    latest? log i x = none := by
  rw [latest?, Option.map_eq_none_iff, List.find?_eq_none]
  intro a ha
  simp [hi a ha]

namespace Heap

theorem object?_setField (h : Heap) (i j : ObjectId) (x : String) (v : Value) :
    (h.setField i x v).object? j =
      if i = j then (h.object? j).map fun object =>
        { object with fields := object.fields.insert x v } else h.object? j := by
  obtain ⟨i⟩ := i
  obtain ⟨j⟩ := j
  by_cases hij : i = j <;> simp [setField, object?, Array.getElem?_modify, hij]

/-- The classes of objects are what method lookup starts at, and no field is a class. -/
theorem method?_setField (h : Heap) (i : ObjectId) (x : String) (v : Value) (k : ClassId)
    (y : String) : (h.setField i x v).method? k y = h.method? k y := by
  have hupTo (count : Nat) : ∀ k, (h.setField i x v).methodUpTo? y count k =
      h.methodUpTo? y count k := by
    induction count with
    | zero => exact fun _ => rfl
    | succ count ih =>
      intro k
      simp only [methodUpTo?, ih]
      rfl
  exact hupTo _ k

/-- No other property is touched, whether of the same object or of another one. -/
theorem property?_setField (h : Heap) {i j : ObjectId} {x y : String} (v : Value)
    (hne : i ≠ j ∨ x ≠ y) : (h.setField i x v).property? j y = h.property? j y := by
  simp only [property?, object?_setField, method?_setField]
  by_cases hij : i = j
  · have hxy : x ≠ y := hne.resolve_left fun hi => hi hij
    cases h.object? j <;> simp [hij, hxy]
  · simp [hij]

theorem ancestor?_setField (h : Heap) (i : ObjectId) (x : String) (v : Value) (e : EnvironmentId)
    (distance : Nat) : (h.setField i x v).ancestor? e distance = h.ancestor? e distance := by
  apply ancestor?_congr
  intro e
  rfl

theorem getAt?_setField (h : Heap) (i : ObjectId) (x : String) (v : Value) (e : EnvironmentId)
    (distance : Nat) (y : String) :
    (h.setField i x v).getAt? e distance y = h.getAt? e distance y := by
  rw [getAt?, getAt?, holderAt?, holderAt?, ancestor?_setField]
  rfl

theorem holder?_setField (h : Heap) (i : ObjectId) (x : String) (v : Value) (e : EnvironmentId)
    (y : String) : (h.setField i x v).holder? e y = h.holder? e y := by
  have hupTo (count : Nat) : ∀ e, (h.setField i x v).holderUpTo? y count e =
      h.holderUpTo? y count e := by
    induction count with
    | zero => exact fun _ => rfl
    | succ count ih =>
      intro e
      simp only [holderUpTo?, ih]
      rfl
  exact hupTo _ e

namespace Records

theorem same {h' : Heap} (hr : h.Records log) (ho : h'.objects = h.objects) : h'.Records log := by
  obtain ⟨hfields, hobjects⟩ := hr
  refine ⟨fun i object hi => hfields i object ?_, ho ▸ hobjects⟩
  rwa [object?, ho] at hi

/-- A new object has no fields, and nobody can have assigned to it. -/
theorem push {h' : Heap} {k : ClassId} (hr : h.Records log)
    (ho : h'.objects = h.objects.push ⟨k, Bindings.empty⟩) : h'.Records log := by
  constructor
  · intro i object hi x
    rw [object?, ho, Array.getElem?_push] at hi
    split at hi
    · rename_i hnew
      cases hi
      refine (latest?_eq_none (fun a ha hsame => ?_) x).symm
      have hlt := hr.objects a ha
      rw [hsame, hnew] at hlt
      exact Nat.lt_irrefl _ hlt
    · exact hr.fields i object hi x
  · intro a ha
    have hlt := hr.objects a ha
    rw [ho, Array.size_push]
    omega

theorem setField (hr : h.Records log) (a : Assignment) (ha : a.object.index < h.objects.size) :
    (h.setField a.object a.name a.value).Records (a :: log) := by
  constructor
  · intro i object hi x
    rw [object?_setField] at hi
    rw [latest?_cons]
    by_cases hai : a.object = i
    · rw [if_pos hai] at hi
      obtain ⟨old, hold, rfl⟩ := Option.map_eq_some_iff.mp hi
      by_cases hax : a.name = x
      · simp [hai, hax]
      · simpa [hai, hax] using hr.fields i old hold x
    · rw [if_neg hai] at hi
      simpa [hai] using hr.fields i object hi x
  · intro b hb
    have hsize : (h.setField a.object a.name a.value).objects.size = h.objects.size := by
      simp [Heap.setField]
    rw [hsize]
    rcases List.mem_cons.mp hb with rfl | hb
    · exact ha
    · exact hr.objects b hb

/-- What is asked for is the last value assigned. -/
theorem property?_assigned (hr : h.Records log) {i : ObjectId} {object : Object}
    (hi : h.object? i = some object) {x : String} {v : Value} (hv : latest? log i x = some v) :
    h.property? i x = some (.field v) := by
  have hget := (hr.fields i object hi x).trans hv
  rw [Heap.property?, hi]
  simp only [hget]

/-- Without an assignment it is a method. -/
theorem property?_unassigned (hr : h.Records log) {i : ObjectId} {object : Object}
    (hi : h.object? i = some object) {x : String} (hn : latest? log i x = none) :
    h.property? i x = (h.method? object.ofClass x).map .method := by
  have hget := (hr.fields i object hi x).trans hn
  rw [Heap.property?, hi]
  simp only [hget]

end Records

end Heap

/-- What is found in a machine other than one property of one object: other properties, and, in
every environment, variables and the methods of superclasses. -/
structure Machine.FindsAlike (m m' : Machine) (i : ObjectId) (x : String) : Prop where
  properties : ∀ v t, v ≠ .object i ∨ t.lexeme ≠ x → m'.property v t = m.property v t
  reads : ∀ e r, Machine.read { m' with environment := e } r =
    Machine.read { m with environment := e } r
  inherited : ∀ e r t, Machine.inherited { m' with environment := e } r t =
    Machine.inherited { m with environment := e } r t

theorem Machine.findsAlike_setField (m : Machine) (i : ObjectId) (x : String) (v : Value) :
    m.FindsAlike { m with heap := m.heap.setField i x v } i x where
  properties w t hne := by
    cases w with
    | object j =>
      have hother : i ≠ j ∨ x ≠ t.lexeme := by
        apply hne.imp
        · rintro hj rfl
          exact hj rfl
        · exact Ne.symm
      simp only [property, m.heap.property?_setField v hother]
    | _ => rfl
  reads e r := by
    have hholder : Machine.holder? { m with
        heap := m.heap.setField i x v, environment := e } r =
        Machine.holder? { m with environment := e } r := by
      simp only [holder?, Heap.holderAt?, Heap.ancestor?_setField, Heap.holder?_setField]
      rfl
    rw [read, read, hholder]
    rfl
  inherited e r t := by
    have hreceiver (depth : Nat) : Machine.receiverAt? { m with
        heap := m.heap.setField i x v, environment := e } depth =
        Machine.receiverAt? { m with environment := e } depth := by
      cases depth with
      | zero => rfl
      | succ depth => exact Heap.getAt?_setField ..
    simp only [Machine.inherited, hreceiver, Heap.getAt?_setField, Heap.method?_setField]

namespace Config

variable {c : Config} {a : Assignment}

theorem step_of_assignment? (ha : c.assignment? = some a) :
    c.step = ⟨{ c.machine with heap := c.machine.heap.setField a.object a.name a.value },
      c.control, c.frames.tail⟩ := by
  unfold assignment? at ha
  split at ha
  · cases ha
    rfl
  · cases ha

/-- Without an assignment, objects at most become more. -/
theorem Writes.objects_of_not_assigned (hw : c.Writes h) (ha : c.assignment? = none) :
    h.objects = c.machine.heap.objects ∨
      ∃ k, h.objects = c.machine.heap.objects.push ⟨k, Bindings.empty⟩ := by
  cases hw with
  | classDecl => exact .inl (Machine.objects_declareClass _ _ _)
  | called => exact .inl (Heap.entered_other _ _ _).2.2
  | object => exact .inr ⟨_, rfl⟩
  | initialized => exact .inr ⟨_, (Heap.entered_other _ _ _).2.2⟩
  | field => cases ha
  | _ => exact .inl rfl

/-- An assignment is recorded as it is made. -/
theorem Sound.records (hc : c.Sound) (hr : c.machine.heap.Records log) :
    c.step.machine.heap.Records (c.assignment?.toList ++ log) := by
  cases ha : c.assignment? with
  | some a =>
    rw [step_of_assignment? ha]
    apply hr.setField a
    unfold assignment? at ha
    split at ha
    · cases ha
      exact hc.frames _ (.head _) _ (.head _)
    · cases ha
  | none =>
    rcases c.writes_step.objects_of_not_assigned ha with hsame | ⟨k, hpush⟩
    · exact hr.same hsame
    · exact hr.push hpush

end Config

end Lox
