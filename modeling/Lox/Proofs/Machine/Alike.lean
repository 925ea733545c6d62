import Lox.Proofs.Machine.Preservation
import Lox.Proofs.Machine.Respelling

/-! Steps of programs in which local variables have other names.

Each function that a step calls does with the respelled program what it does with the program: it
ends in the same way or starts the respelled part, and the heaps stay alike. Only a failure shows
which of the two it is, by the token that it is reported at. -/

namespace Lox

section

variable (f : Respelling)

def Completion.respell : Completion → Completion
  | .failed e => .failed (e.respell f)
  | c => c

def Loop.respell (l : Loop) : Loop :=
  ⟨l.condition.respell f, l.body.respell f, l.increment.map (Expr.respell f)⟩

def Frame.respell : Frame → Frame
  | .unary operator => .unary (f.token operator)
  | .binaryLeft operator right => .binaryLeft (f.token operator) (right.respell f)
  | .binaryRight left operator => .binaryRight left (f.token operator)
  | .logical operator right => .logical (f.token operator) (right.respell f)
  | .assign target => .assign (target.respell f)
  | .callee paren arguments => .callee (f.token paren) (arguments.map (Expr.respell f))
  | .argument v paren done rest =>
    .argument v (f.token paren) done (rest.map (Expr.respell f))
  | .get name => .get (f.token name)
  | .setObject name value => .setObject (f.token name) (value.respell f)
  | .setValue object name => .setValue object (f.token name)
  | .varDecl name => .varDecl (f.token name)
  | .branch consequent alternative =>
    .branch (consequent.respell f) (alternative.map (Stmt.respell f))
  | .loopTest l => .loopTest (l.respell f)
  | .loopBody l => .loopBody (l.respell f)
  | .loopStep l => .loopStep (l.respell f)
  | .block rest outer => .block (rest.map (Stmt.respell f)) outer
  | frame => frame

def Control.respell : Control → Control
  | .eval e => .eval (e.respell f)
  | .exec s => .exec (s.respell f)
  | .done c => .done (c.respell f)

/-- The names of properties that frames wait with are no variables. -/
def Frame.Keeps : Frame → Prop
  | .get name | .setObject name _ | .setValue _ name => (f.token name).lexeme = name.lexeme
  | _ => True

end

def respellFound (f : Respelling) :
    Except RuntimeError (Value × Property) → Except RuntimeError (Value × Property)
  | .ok (receiver, found) => .ok (receiver, found.respell f)
  | .error e => .error (e.respell f)

def Machine.withHeap (m : Machine) (h : Heap) : Machine := { m with heap := h }

section

variable (m : Machine) (h : Heap)

@[simp] theorem Machine.withHeap_heap : (m.withHeap h).heap = h := rfl

@[simp] theorem Machine.withHeap_environment : (m.withHeap h).environment = m.environment := rfl

@[simp] theorem Machine.withHeap_depths : (m.withHeap h).depths = m.depths := rfl

@[simp] theorem Machine.withHeap_callDepth : (m.withHeap h).callDepth = m.callDepth := rfl

@[simp] theorem Machine.withHeap_maxCallDepth :
    (m.withHeap h).maxCallDepth = m.maxCallDepth := rfl

end

/-- The second configuration is that of the respelled program. -/
structure Config.Respells (f : Respelling) (o : Origins) (c c' : Config) : Prop where
  heap : c.machine.heap.Respells f o c'.machine.heap
  machine : c'.machine = c.machine.withHeap c'.machine.heap
  control : c'.control = c.control.respell f
  frames : c'.frames = c.frames.map (Frame.respell f)
  keeps : ∀ frame ∈ c.frames, frame.Keeps f

/-- A respelling of names in all the programs of a session. -/
structure Respelling.Suits (f : Respelling) (programs : List (List Stmt)) : Prop where
  node : ∀ n, f.node n = n
  respects : ∀ p ∈ programs, ∃ back, f.Respects back (namings p)

variable {f : Respelling} {programs : List (List Stmt)} {o : Origins} {m : Machine}
  {fs : List Frame} {Γ : Place} {n : Node} {h' : Heap}

theorem Machine.Kept.respected (hm : m.Kept programs o) (hs : f.Suits programs)
    (hn : Known programs Γ n) :
    ∃ back p, Respected f back m.depths p ∧ Meets p Γ n := by
  obtain ⟨p, hp, hmeets⟩ := hn
  obtain ⟨back, hr⟩ := hs.respects p hp
  exact ⟨back, p, ⟨(hm.accepted p hp).1, (hm.accepted p hp).2, hr⟩, hmeets⟩

/-- What is no variable has the name that it had. -/
theorem Known.kept (hn : Known programs Γ n) (hs : f.Suits programs) {t : Token}
    (ht : Naming.free t ∈ n.names Γ) : (f.token t).lexeme = t.lexeme := by
  obtain ⟨p, hp, hmeets⟩ := hn
  obtain ⟨back, hr⟩ := hs.respects p hp
  exact hr.free _ (hmeets.names ht) rfl

theorem Known.kept_callable {kind : FunctionContext} {g : FunctionDecl}
    (hn : Known programs Γ (.callable kind g)) (hs : f.Suits programs) :
    (f.token g.name).lexeme = g.name.lexeme := by
  refine hn.kept hs ?_
  cases g
  exact .head _

namespace Operator

theorem unary_respell (t : Token) (v : Value) :
    unary (f.token t) v = (unary t v).mapError (RuntimeError.respell f) := by
  unfold unary
  rw [f.kind]
  split <;> rfl

theorem binary_respell (t : Token) (v w : Value) :
    binary (f.token t) v w = (binary t v w).mapError (RuntimeError.respell f) := by
  unfold binary add onNumbers
  rw [f.kind]
  split
  · rfl
  · rfl
  · split <;> rfl
  · split
    · split <;> rfl
    · rfl

theorem decides_respell (t : Token) (v : Value) : decides (f.token t) v = decides t v := by
  rw [decides, f.kind, decides]

end Operator

namespace Machine

section

variable (hh : m.heap.Respells f o h') (hk : ∀ frame ∈ fs, frame.Keeps f)

include hh hk

theorem finish_respells (r : Except RuntimeError Value) :
    Config.Respells f o (m.finish fs r)
      ((m.withHeap h').finish (fs.map (Frame.respell f)) (r.mapError (RuntimeError.respell f))) := by
  cases r <;> exact ⟨hh, rfl, rfl, rfl, hk⟩

theorem runBlock_respells (outer : EnvironmentId) (body : List Stmt) :
    Config.Respells f o (m.runBlock fs outer body)
      ((m.withHeap h').runBlock (fs.map (Frame.respell f)) outer (body.map (Stmt.respell f))) := by
  cases body with
  | nil => exact ⟨hh, rfl, rfl, rfl, hk⟩
  | cons s rest => exact ⟨hh, rfl, rfl, rfl, List.forall_mem_cons.mpr ⟨trivial, hk⟩⟩

end

theorem finishProperty_respells (hh : m.heap.Respells f o h') (hf : o.Faithful m.heap)
    (hroot : o.Rooted) (hk : ∀ frame ∈ fs, frame.Keeps f)
    (r : Except RuntimeError (Value × Property)) :
    Config.Respells f (o.performAll (deedsOfProperty r)) (m.finishProperty fs r)
      ((m.withHeap h').finishProperty (fs.map (Frame.respell f)) (respellFound f r)) := by
  rcases r with e | ⟨receiver, v | g⟩
  · exact ⟨hh, rfl, rfl, rfl, hk⟩
  · exact ⟨hh, rfl, rfl, rfl, hk⟩
  · obtain ⟨hvalue, hheap⟩ := hh.bindMethod hf hroot g receiver
    exact ⟨hheap, rfl, congrArg (fun v => Control.done (.value v)) hvalue, rfl, hk⟩

theorem property_respell (hh : m.heap.Respells f o h') (v : Value) {name : Token}
    (hname : (f.token name).lexeme = name.lexeme) :
    (m.withHeap h').property v (f.token name) = respellFound f (m.property v name) := by
  cases v with
  | object x =>
    simp only [property, withHeap, hname, hh.property?]
    cases m.heap.property? x name.lexeme with
    | none => simp [undefinedProperty, respellFound, RuntimeError.respell, RuntimeError.onto, hname]
    | some found => rfl
  | _ => rfl

/-- An occurrence finds the same variable under its other name. -/
theorem read_respell_of (hh : m.heap.Respells f o h') (hm : m.Kept programs o)
    (hf : o.Faithful m.heap) (hnode : ∀ n, f.node n = n) (hc : Chain o m.environment Γ.opens)
    {r : Reference} (hdepth : m.depths.get? r.node =
      (nearest? r.name.lexeme Γ.opens).map Prod.fst)
    (hbinder : ∀ i b, nearest? r.name.lexeme Γ.opens = some (i, b) →
      (b.respell f).name = (f.token r.name).lexeme)
    (hfree : nearest? r.name.lexeme Γ.opens = none → (f.token r.name).lexeme = r.name.lexeme) :
    (m.withHeap h').read (r.respell f) = (m.read r).mapError (RuntimeError.respell f) := by
  obtain ⟨hbound, hglobal⟩ := read_variable hf hm.rooted hm.distinct hc hdepth
  cases hn : nearest? r.name.lexeme Γ.opens with
  | none =>
    rw [hn, Option.map_none] at hdepth
    have hlocal : (h'.holder? Heap.globals r.name.lexeme).bind (h'.local? · r.name.lexeme) =
        m.heap.local? Heap.globals r.name.lexeme := by
      rw [hh.environments.holder?_globals hf hm.rooted, Heap.holder?_globals hf hm.rooted]
      cases hl : m.heap.local? Heap.globals r.name.lexeme with
      | none => simp [Heap.binds, hl]
      | some v => simp [Heap.binds, hl, hh.environments.globals]
    rw [hglobal hn]
    simp only [read, holder?, withHeap, Reference.respell_node, hnode, hdepth,
      Reference.respell_name, hfree hn, hlocal]
    cases m.heap.local? Heap.globals r.name.lexeme <;> rfl
  | some found =>
    obtain ⟨i, b⟩ := found
    obtain ⟨e, origin, v, ha, hg, ho, hb, hx, hv⟩ := hc.binder_at hf hm.rooted hn
    obtain ⟨_, _, ha', hv', -, hread⟩ := hbound i b hn
    obtain rfl := Option.some.inj (ha.symm.trans ha')
    obtain rfl := Option.some.inj (hv.symm.trans hv')
    rw [hn, Option.map_some] at hdepth
    have hcarried := (hh.environments.locals e origin ho hg).value b hb
    rw [hbinder i b hn, hx, hv] at hcarried
    have hholder := (Heap.getAt?_of_local ((hh.environments.ancestor? _ _).trans ha) hcarried).1
    rw [hread]
    simp only [read, holder?, withHeap, Reference.respell_node, hnode, hdepth,
      Reference.respell_name, hholder, Option.bind_some, hcarried]
    rfl

theorem inherited_respell (hh : m.heap.Respells f o h') (hs : f.Suits programs) {r : Reference}
    {method : Token} (hn : Known programs Γ (.expr (.inherited r method))) :
    (m.withHeap h').inherited (r.respell f) (f.token method) =
      respellFound f (m.inherited r method) := by
  have hkept : (f.token method).lexeme = method.lexeme := hn.kept hs (.tail _ (.head _))
  have hreceiver (depth : Nat) : (m.withHeap h').receiverAt? depth = m.receiverAt? depth := by
    cases depth with
    | zero => rfl
    | succ depth => exact hh.environments.getAt?_reserved _ _ (.inl rfl)
  unfold inherited
  rw [withHeap_depths, Reference.respell_node, hs.node]
  cases m.depths.get? r.node with
  | none => rfl
  | some depth =>
    simp only [hreceiver, withHeap_heap, withHeap_environment,
      hh.environments.getAt?_reserved _ _ (.inr rfl), hh.method?, hkept]
    rcases m.heap.getAt? m.environment depth "super" with _ | v
    · rfl
    cases v with
    | classValue c =>
      simp only
      cases m.receiverAt? depth with
      | none => rfl
      | some receiver =>
        cases m.heap.method? c method.lexeme with
        | none =>
          simp [undefinedProperty, respellFound, RuntimeError.respell, RuntimeError.onto, hkept]
        | some found => rfl
    | _ => rfl

section

variable (hh : m.heap.Respells f o h') (hm : m.Kept programs o) (hf : o.Faithful m.heap)
  (hs : f.Suits programs)

include hh hm hf hs

theorem read_variable_respell (hc : Chain o m.environment Γ.opens) {r : Reference}
    (hn : Known programs Γ (.expr (.variable r))) :
    (m.withHeap h').read (r.respell f) = (m.read r).mapError (RuntimeError.respell f) := by
  obtain ⟨back, p, hp, hmeets⟩ := hm.respected hs hn
  have hstanding := hm.standing hn
  have ht : Γ.naming r.name ∈ namings p := hmeets.names (List.mem_singleton_self _)
  exact read_respell_of hh hm hf hs.node hc hstanding.depth_of_variable
    (fun i b hi => hp.respects.spelled hmeets.declared ht hstanding.not_initializes hi)
    (hp.respects.unbound ht hstanding.not_initializes)

theorem read_receiver_respell (hc : Chain o m.environment Γ.opens) {r : Reference}
    (hn : Known programs Γ (.expr (.receiver r))) :
    (m.withHeap h').read (r.respell f) = (m.read r).mapError (RuntimeError.respell f) := by
  have hstanding := hm.standing hn
  have hthis : r.name.lexeme = "this" := hstanding.wellFormed.2
  have hkept : (f.token r.name).lexeme = r.name.lexeme := hn.kept hs (List.mem_singleton_self _)
  obtain ⟨i, hi, hdepth⟩ := hstanding.depth_of_receiver
  rw [← hthis] at hi
  refine read_respell_of hh hm hf hs.node hc (by rw [hdepth, hi]; rfl) (fun j b hj => ?_)
    fun hnone => ?_
  · obtain ⟨rfl, rfl⟩ := Prod.mk.inj (Option.some.inj (hi.symm.trans hj))
    exact (hkept.trans hthis).symm
  · cases hi.symm.trans hnone

theorem superclass_respell (hc : Chain o m.environment Γ.opens) {t : Token}
    {target : Option Reference} {methods : List FunctionDecl}
    (hn : Known programs Γ (.stmt (.classDecl t target methods))) :
    (m.withHeap h').superclass (target.map (Reference.respell f)) =
      (m.superclass target).mapError (RuntimeError.respell f) := by
  cases target with
  | none => rfl
  | some r =>
    have hread := read_variable_respell hh hm hf hs (Γ := Γ.declaring t true) hc
      (hn.part .superclass)
    simp only [Option.map_some, superclass, hread]
    rcases m.read r with e | v
    · rfl
    · cases v <;> rfl

end

/-- Where a variable is given a value, an assignment to it under its other name gives it one too. -/
structure HolderAlike (f : Respelling) (o : Origins) (m m' : Machine) (r : Reference) : Prop where
  same : m'.holder? (r.respell f) = m.holder? r
  global : m.holder? r = some Heap.globals → (f.token r.name).lexeme = r.name.lexeme
  inner : ∀ e, m.holder? r = some e → e ≠ Heap.globals → ∀ origin, o.of? e = some origin →
    ∃ b ∈ origin.scope.binders, b.name = r.name.lexeme ∧
      (b.respell f).name = (f.token r.name).lexeme

theorem HolderAlike.of_none {r : Reference} (hsame : (m.withHeap h').holder? (r.respell f) = none)
    (hnone : m.holder? r = none) : HolderAlike f o m (m.withHeap h') r := by
  constructor
  · rw [hsame, hnone]
  · intro he
    cases hnone.symm.trans he
  · intro e he
    cases hnone.symm.trans he

section

variable (hh : m.heap.Respells f o h') (hm : m.Kept programs o) (hf : o.Faithful m.heap)
  (hs : f.Suits programs) {r : Reference} {x : Expr}

include hh hm hf hs

/-- An assignment to no variable that is open reaches the globals, which keep their names. -/
theorem holder?_respell_global (hn : Known programs Γ (.expr (.assign r x)))
    (hdepth : m.depths.get? r.node = none) : HolderAlike f o m (m.withHeap h') r := by
  obtain ⟨back, p, hp, hmeets⟩ := hm.respected hs hn
  have hstanding := hm.standing hn
  have hnot : ¬Γ.Initializes r.name.lexeme := fun hi => by
    cases hdepth.symm.trans (hstanding.depth_of_assign.1 hi)
  have hnear : nearest? r.name.lexeme Γ.opens = none :=
    Option.map_eq_none_iff.mp ((hstanding.depth_of_assign.2 hnot).symm.trans hdepth)
  have hkept := hp.respects.unbound (hmeets.names (.head _)) hnot hnear
  refine ⟨?_, fun _ => hkept, fun e he hg => ?_⟩
  · simp only [holder?, withHeap_depths, Reference.respell_node, hs.node, hdepth, withHeap_heap,
      Reference.respell_name, hkept, hh.environments.holder?_globals hf hm.rooted]
  · simp only [holder?, hdepth, Heap.holder?_globals hf hm.rooted] at he
    split at he
    · exact absurd (Option.some.inj he).symm hg
    · cases he

/-- In its own initializer a variable is not there yet, under either name. -/
theorem holder?_respell_initializing (hstands : Stands o m.environment Γ.opens)
    (hn : Known programs Γ (.expr (.assign r x))) {depth : Nat}
    (hdepth : m.depths.get? r.node = some depth) (hi : Γ.Initializes r.name.lexeme) :
    HolderAlike f o m (m.withHeap h') r := by
  obtain ⟨back, p, hp, hmeets⟩ := hm.respected hs hn
  have hstanding := hm.standing hn
  obtain ⟨rfl, hunbound, hnone⟩ :=
    (holder?_of_assign hf hm.rooted hm.distinct hstands hstanding hdepth).1 hi
  obtain ⟨s, outer, hopens⟩ := List.exists_cons_of_ne_nil hi.1
  obtain ⟨out, ho⟩ := hstands.exact s (by simp [hopens])
  have hg : m.environment ≠ Heap.globals := by
    intro hg
    obtain ⟨binders, hb⟩ := hm.rooted
    rw [hg] at ho
    cases hb.symm.trans ho
  -- What is spelled like the variable would have to be of its name.
  have hunbound' : h'.binds m.environment (f.token r.name).lexeme = false := by
    rw [Bool.eq_false_iff]
    intro hbinds
    obtain ⟨b, hb, hx⟩ := (hh.environments.locals _ _ ho hg).only _ hbinds
    have hname : b.name = r.name.lexeme := by
      rw [← hp.respects.binder hmeets.declared (by simp [hopens]) hb, hx]
      exact hp.respects.undone _ (hmeets.names (.head _))
    rw [(hf.names _ _ ho hg _).mpr ⟨b, hb, hname⟩] at hunbound
    cases hunbound
  refine .of_none ?_ hnone
  simp [holder?, hs.node, hdepth, Heap.holderAt?, Heap.ancestor?, hunbound']

/-- An assignment to a variable that is open reaches it under its other name. -/
theorem holder?_respell_bound (hstands : Stands o m.environment Γ.opens)
    (hn : Known programs Γ (.expr (.assign r x))) {depth : Nat}
    (hdepth : m.depths.get? r.node = some depth) (hi : ¬Γ.Initializes r.name.lexeme) :
    HolderAlike f o m (m.withHeap h') r := by
  obtain ⟨back, p, hp, hmeets⟩ := hm.respected hs hn
  have hstanding := hm.standing hn
  obtain ⟨e, ha, -, hsome⟩ :=
    (holder?_of_assign hf hm.rooted hm.distinct hstands hstanding hdepth).2 hi
  obtain ⟨⟨i, b⟩, hnear, rfl⟩ := Option.map_eq_some_iff.mp
    (hdepth.symm.trans (hstanding.depth_of_assign.2 hi)).symm
  obtain ⟨e', origin, v, ha', hg, ho, hb, hx, hv⟩ := hstands.chain.binder_at hf hm.rooted hnear
  obtain rfl := Option.some.inj (ha.symm.trans ha')
  have hspelled := hp.respects.spelled hmeets.declared (hmeets.names (.head _)) hi hnear
  have hcarried := (hh.environments.locals e origin ho hg).value b hb
  rw [hspelled, hx, hv] at hcarried
  have hholder := (Heap.getAt?_of_local ((hh.environments.ancestor? _ _).trans ha) hcarried).1
  constructor
  · rw [hsome]
    simp [holder?, hs.node, hdepth, hholder]
  · intro he
    exact absurd (Option.some.inj (hsome.symm.trans he)) hg
  · intro e' he _ origin' ho'
    obtain rfl := Option.some.inj (hsome.symm.trans he)
    obtain rfl := Option.some.inj (ho.symm.trans ho')
    exact ⟨b, hb, hx, hspelled⟩

/-- An assignment reaches the same variable under its other name, or none in either program. -/
theorem holder?_respell (hstands : Stands o m.environment Γ.opens)
    (hn : Known programs Γ (.expr (.assign r x))) : HolderAlike f o m (m.withHeap h') r := by
  cases hdepth : m.depths.get? r.node with
  | none => exact holder?_respell_global hh hm hf hs hn hdepth
  | some depth =>
    by_cases hi : Γ.Initializes r.name.lexeme
    · exact holder?_respell_initializing hh hm hf hs hstands hn hdepth hi
    · exact holder?_respell_bound hh hm hf hs hstands hn hdepth hi

end

section

variable (hh : m.heap.Respells f o h') (hm : m.Kept programs o) (hf : o.Faithful m.heap)
  (hs : f.Suits programs)

include hh hm hf hs

theorem finishAssign_respells (hk : ∀ frame ∈ fs, frame.Keeps f)
    (hstands : Stands o m.environment Γ.opens) {r : Reference} {x : Expr}
    (hn : Known programs Γ (.expr (.assign r x))) (v : Value) :
    Config.Respells f o (m.finishAssign fs r v)
      ((m.withHeap h').finishAssign (fs.map (Frame.respell f)) (r.respell f) v) := by
  have halike := holder?_respell hh hm hf hs hstands hn
  unfold finishAssign
  rw [halike.same]
  cases he : m.holder? r with
  | none => exact ⟨hh, rfl, rfl, rfl, hk⟩
  | some e =>
    obtain ⟨back, p, hp, hmeets⟩ := hm.respected hs hn
    have hreserved := hp.respects.not_reserved (hmeets.names (.head _))
      (hm.standing hn).wellFormed.1
    have hassigned := hh.environments.assign hm.distinct v (fun hg => halike.global (hg ▸ he))
      hreserved (halike.inner e he)
    exact ⟨⟨hassigned, hh.functions, hh.classes, hh.objects⟩, rfl, rfl, rfl, hk⟩

end

section

variable (hh : m.heap.Respells f o h') (hm : m.Kept programs o) (hs : f.Suits programs)

include hh hm hs

/-- A declaration binds its name in the current environment, under its other spelling there. -/
theorem bind_respells (hstands : Stands o m.environment Γ.opens) {s : Stmt} {t : Token}
    (hn : Known programs Γ (.stmt s)) (ht : s.declared? = some t) (v : Value) :
    (m.heap.define m.environment t.lexeme v).Respells f (o.perform (.bound m.environment t))
      (h'.define m.environment (f.token t).lexeme v) := by
  obtain ⟨back, p, hp, hmeets⟩ := hm.respected hs hn
  have hstanding := hm.standing hn
  obtain ⟨n, hmem, rfl, hglobal⟩ := Stmt.naming_of_declared (Γ := Γ) ht
  have hnames := hmeets.names hmem
  refine ⟨hh.environments.bind v (fun hg => ?_) (hp.respects.not_reserved hnames
    (hstanding.wellFormed.declared ht)) fun hg origin ho b hb => ?_, hh.functions, hh.classes,
    hh.objects⟩
  · refine hp.respects.free n hnames (hglobal ?_)
    exact (hg ▸ hstands.chain).opens_of_globals hm.rooted
  · cases hopens : Γ.opens with
    | nil => exact absurd (hopens ▸ hstands.chain).eq_globals hg
    | cons s outer =>
      obtain ⟨out, hs'⟩ := hstands.exact s (by simp [hopens])
      obtain rfl : origin = ⟨s, some out⟩ := Option.some.inj (ho.symm.trans hs')
      have hne := hstanding.undeclared ht (by simp [hopens]) b hb
      refine ⟨hne, fun he => hne ?_⟩
      rw [← hp.respects.binder hmeets.declared (by simp [hopens]) hb, he]
      exact hp.respects.undone n hnames

theorem define_respells (hk : ∀ frame ∈ fs, frame.Keeps f)
    (hstands : Stands o m.environment Γ.opens) {s : Stmt} {t : Token}
    (hn : Known programs Γ (.stmt s)) (ht : s.declared? = some t) (v : Value) :
    Config.Respells f (o.perform (.bound m.environment t)) ⟨m.define t.lexeme v, .done .normal, fs⟩
      ⟨(m.withHeap h').define (f.token t).lexeme v, .done .normal, fs.map (Frame.respell f)⟩ :=
  ⟨bind_respells hh hm hs hstands hn ht v, rfl, rfl, rfl, hk⟩

end

/-- The same entries under other names give the same value under the other name. -/
theorem get?_foldl_insert_respell {x x' : String} (entries : List (Token × Value))
    (hx : ∀ entry ∈ entries, (f.token entry.1).lexeme = x' ↔ entry.1.lexeme = x) :
    ∀ {b b' : Bindings Value}, b'.get? x' = b.get? x →
    ((entries.map fun entry => (f.token entry.1, entry.2)).foldl
        (fun b entry => b.insert entry.1.lexeme entry.2) b').get? x' =
      (entries.foldl (fun b entry => b.insert entry.1.lexeme entry.2) b).get? x := by
  induction entries with
  | nil => exact fun h => h
  | cons entry rest ih =>
    intro b b' h
    refine ih (fun e he => hx e (.tail _ he)) ?_
    rw [Bindings.get?_insert, Bindings.get?_insert, h]
    simp only [hx entry (.head _)]

/-- A new environment binds parameters under their other names. -/
theorem bindParameters_respells {h : Heap} (hr : h.Respells f o h') (hf : o.Faithful h)
    (hroot : o.Rooted) {params : List Token} {back : String → String}
    (hundone : ∀ q ∈ params, back (f.token q).lexeme = q.lexeme)
    (hreserved : ∀ q ∈ params, ∀ x, x = "this" ∨ x = "super" →
      q.lexeme ≠ x ∧ (f.token q).lexeme ≠ x)
    (hnodup : (params.map (·.lexeme)).Nodup) (arguments : List Value) (scope : EnvironmentId) :
    ((params.zip arguments).foldl (fun heap entry => heap.define ⟨h.environments.size⟩
        entry.1.lexeme entry.2) (h.child scope).2).Respells f
      (o.perform (.opened ⟨.function, params.map .named⟩ scope))
      (((params.map f.token).zip arguments).foldl (fun heap entry =>
        heap.define ⟨h'.environments.size⟩ entry.1.lexeme entry.2) (h'.child scope).2) := by
  let entries := params.zip arguments
  have hentry (entry : Token × Value) (he : entry ∈ entries) : entry.1 ∈ params :=
    (List.of_mem_zip he).1
  have hzip : (params.map f.token).zip arguments =
      entries.map fun entry => (f.token entry.1, entry.2) := by
    simp [entries, List.zip_map_left]
  have hsame {q r : Token} (hq : q ∈ params) (hr : r ∈ params) :
      (f.token q).lexeme = (f.token r).lexeme ↔ q.lexeme = r.lexeme := by
    constructor <;> intro he
    · rw [← hundone q hq, he, hundone r hr]
    · rw [List.inj_on_of_nodup_map hnodup hq hr he]
  have hchild (h : Heap) : (h.child scope).2.environments =
    h.environments.push ⟨Bindings.empty, some scope⟩ := rfl
  rw [hzip]
  generalize hentries' : entries.map (fun entry => (f.token entry.1, entry.2)) = entries'
  have hkept := foldl_define_same entries ⟨h.environments.size⟩ (h.child scope).2
  have hkept' := foldl_define_same entries' ⟨h'.environments.size⟩ (h'.child scope).2
  refine ⟨hr.environments.opened hf hroot (Heap.foldl_define_push entries (hchild h))
    (Heap.foldl_define_push entries' (hchild h')) (fun x hx => ?_) (fun b hb => ?_)
    (fun x hx => ?_) (List.Nodup.of_map back ?_), ?_, ?_, ?_⟩
  · subst hentries'
    refine get?_foldl_insert_respell entries (fun entry he => ?_) rfl
    obtain ⟨hne, hne'⟩ := hreserved _ (hentry entry he) x hx
    exact ⟨fun h => absurd h hne', fun h => absurd h hne⟩
  · subst hentries'
    obtain ⟨q, hq, rfl⟩ := List.mem_map.mp hb
    exact get?_foldl_insert_respell entries (fun entry he => hsame (hentry entry he) hq) rfl
  · subst hentries'
    rw [isSome_foldl_insert] at hx
    rcases hx with ⟨entry', he', rfl⟩ | hx
    · obtain ⟨entry, he, rfl⟩ := List.mem_map.mp he'
      exact ⟨.named entry.1, List.mem_map.mpr ⟨_, hentry entry he, rfl⟩, rfl⟩
    · cases hx
  · simp only [List.map_map]
    exact (List.map_congr_left hundone).symm ▸ hnodup
  · rw [hkept'.1, hkept.1]
    exact hr.functions
  · rw [hkept'.2.1, hkept.2.1]
    exact hr.classes
  · rw [hkept'.2.2, hkept.2.2]
    exact hr.objects

theorem enter_respells (hh : m.heap.Respells f o h') (hm : m.Kept programs o)
    (hf : o.Faithful m.heap) (hs : f.Suits programs) (hk : ∀ frame ∈ fs, frame.Keeps f)
    {g : Closure} (hp : g.Placed programs o) (arguments : List Value) (result : CallResult) :
    Config.Respells f (o.perform (.opened g.decl.scope g.scope)) (m.enter fs g arguments result)
      ((m.withHeap h').enter (fs.map (Frame.respell f)) (g.respell f) arguments result) := by
  obtain ⟨Γ, kind, hn, -, -⟩ := hp
  obtain ⟨back, p, hp, hmeets⟩ := hm.respected hs hn
  have hparam (q : Token) (hq : q ∈ g.decl.params) : ⟨q, some q⟩ ∈ namings p := by
    refine hmeets.names ?_
    cases hg : g.decl with
    | mk name params body =>
      rw [hg] at hq
      exact List.mem_append_left _ (.tail _ (List.mem_map.mpr ⟨q, hq, rfl⟩))
  have hheap := bindParameters_respells hh hf hm.rooted
    (fun q hq => hp.respects.undone _ (hparam q hq))
    (fun q hq => hp.respects.not_reserved (hparam q hq)
      (proper_namings hp.wellFormed _ (hparam q hq) q rfl).1)
    (hm.standing hn).params_nodup arguments g.scope
  have hkeeps : ∀ frame ∈ .call result :: fs, frame.Keeps f :=
    List.forall_mem_cons.mpr ⟨trivial, hk⟩
  have hbody := runBlock_respells (m := ⟨_, ⟨m.heap.environments.size⟩, m.depths, m.printed,
    m.callDepth + 1, m.maxCallDepth, m.now⟩) hheap
    hkeeps m.environment g.decl.body
  have hparams : (g.respell f).decl.params = g.decl.params.map f.token := by
    simp [Closure.respell]
  have hbody' : (g.respell f).decl.body = g.decl.body.map (Stmt.respell f) := by
    simp [Closure.respell]
  have hid : (h'.child g.scope).1 = ⟨m.heap.environments.size⟩ :=
    congrArg EnvironmentId.mk hh.environments.size
  unfold enter
  rw [hparams, hbody']
  exact Eq.mp (congrArg (fun e => Config.Respells f _ _ (runBlock
    ⟨_, e, m.depths, m.printed, m.callDepth + 1, m.maxCallDepth, m.now⟩ _ m.environment _))
    hid.symm) hbody

theorem callFunction_respells (hh : m.heap.Respells f o h') (hm : m.Kept programs o)
    (hf : o.Faithful m.heap) (hs : f.Suits programs) (hk : ∀ frame ∈ fs, frame.Keeps f)
    (g : FunctionId) (arguments : List Value) :
    Config.Respells f (o.performAll (m.deedsOfFunction g)) (m.callFunction fs g arguments)
      ((m.withHeap h').callFunction (fs.map (Frame.respell f)) g arguments) := by
  unfold callFunction deedsOfFunction
  rw [withHeap_heap, hh.function?]
  cases hg : m.heap.function? g with
  | none => exact ⟨hh, rfl, rfl, rfl, hk⟩
  | some closure => exact enter_respells hh hm hf hs hk (hm.remembers.functions g closure hg) _ _

theorem callClass_respells (hh : m.heap.Respells f o h') (hm : m.Kept programs o)
    (hf : o.Faithful m.heap) (hs : f.Suits programs) (hk : ∀ frame ∈ fs, frame.Keeps f)
    (c : ClassId) (arguments : List Value) :
    Config.Respells f (o.performAll (m.deedsOfClass c)) (m.callClass fs c arguments)
      ((m.withHeap h').callClass (fs.map (Frame.respell f)) c arguments) := by
  obtain ⟨hid, hnew⟩ := hh.newObject ⟨c, Bindings.empty⟩
  unfold callClass deedsOfClass
  rw [withHeap_heap, show h'.initializer? c = _ from hh.method? c "init",
    show m.heap.method? c "init" = m.heap.initializer? c from rfl]
  cases hinit : m.heap.initializer? c with
  | none => exact ⟨hnew, rfl, congrArg (fun x => Control.done (.value (.object x))) hid, rfl, hk⟩
  | some method =>
    have hu : method.Unbound programs o "init" := hm.remembers.method? hinit
    let receiver : Value := .object (m.heap.newObject ⟨c, Bindings.empty⟩).1
    have hobject := hf.newObject ⟨c, Bindings.empty⟩
    have hthis := hobject.openedThis method receiver
    have hopened := hm.opened hf .receiver m.environment m.callDepth
      (by simp [OpenScope.receiver])
      ((m.heap.newObject ⟨c, Bindings.empty⟩).2.bindThis_environments method receiver)
      (fun hk => by cases hk) rfl rfl
    have hplaced : (⟨method.decl, ⟨m.heap.environments.size⟩, method.isInitializer⟩ :
        Closure).Placed programs (o.perform (.opened .receiver method.scope)) :=
      hf.size ▸ hu.bind
    obtain ⟨hbound, hheap⟩ := hnew.bindThis hobject hm.rooted method
      (.object (m.heap.newObject ⟨c, Bindings.empty⟩).1)
    have henter := enter_respells hheap hopened hthis hs hk hplaced arguments
      (.object (m.heap.newObject ⟨c, Bindings.empty⟩).1)
    simp only [Option.map_some, hid, hbound]
    exact henter

theorem call_respells (hh : m.heap.Respells f o h') (hm : m.Kept programs o)
    (hf : o.Faithful m.heap) (hs : f.Suits programs) (hk : ∀ frame ∈ fs, frame.Keeps f)
    (callee : Value) (paren : Token) (arguments : List Value) :
    Config.Respells f (o.performAll (m.deedsOfCall callee arguments))
      (m.call fs callee paren arguments)
      ((m.withHeap h').call (fs.map (Frame.respell f)) callee (f.token paren) arguments) := by
  have hrefuse (fault : RuntimeFault) (hfault : ∀ x, fault ≠ .undefinedVariable x) :
      Config.Respells f o ⟨m, .done (.failed ⟨paren, fault⟩), fs⟩
        ⟨m.withHeap h', .done (.failed ⟨f.token paren, fault⟩), fs.map (Frame.respell f)⟩ := by
    refine ⟨hh, rfl, ?_, rfl, hk⟩
    cases fault with
    | undefinedVariable x => exact absurd rfl (hfault x)
    | _ => rfl
  unfold call deedsOfCall
  rw [withHeap_heap, hh.arity?]
  cases m.heap.arity? callee with
  | none => exact hrefuse _ (by simp)
  | some arity =>
    simp only
    split
    · exact hrefuse _ (by simp)
    rw [withHeap_maxCallDepth, withHeap_callDepth]
    split
    · exact hrefuse _ (by simp)
    · cases callee with
      | native g =>
        cases g
        exact ⟨hh, rfl, rfl, rfl, hk⟩
      | function g => exact callFunction_respells hh hm hf hs hk g arguments
      | classValue c => exact callClass_respells hh hm hf hs hk c arguments
      | _ => exact hrefuse _ (by simp)

theorem evaluateArguments_respells (hh : m.heap.Respells f o h') (hm : m.Kept programs o)
    (hf : o.Faithful m.heap) (hs : f.Suits programs) (hk : ∀ frame ∈ fs, frame.Keeps f)
    (callee : Value) (paren : Token) (done : Array Value) (rest : List Expr) :
    Config.Respells f
      (o.performAll (if rest = [] then m.deedsOfCall callee done.toList else []))
      (m.evaluateArguments fs callee paren done rest)
      ((m.withHeap h').evaluateArguments (fs.map (Frame.respell f)) callee (f.token paren) done
        (rest.map (Expr.respell f))) := by
  cases rest with
  | nil => exact call_respells hh hm hf hs hk callee paren done.toList
  | cons e rest => exact ⟨hh, rfl, rfl, rfl, List.forall_mem_cons.mpr ⟨trivial, hk⟩⟩

theorem declareFunction_respells (hh : m.heap.Respells f o h') (hm : m.Kept programs o)
    (hs : f.Suits programs) (hk : ∀ frame ∈ fs, frame.Keeps f) {g : FunctionDecl}
    (hstands : Stands o m.environment Γ.opens) (hn : Known programs Γ (.stmt (.function g))) :
    Config.Respells f (o.perform (.bound m.environment g.name))
      ⟨m.declareFunction g, .done .normal, fs⟩
      ⟨(m.withHeap h').declareFunction (g.respell f), .done .normal,
        fs.map (Frame.respell f)⟩ := by
  obtain ⟨hid, hnew⟩ := hh.newFunction ⟨g, m.environment, false⟩
  have hbind := bind_respells hh hm hs hstands hn rfl
    (.function (m.heap.newFunction ⟨g, m.environment, false⟩).1)
  have hheap : (m.declareFunction g).heap.Respells f (o.perform (.bound m.environment g.name))
      ((m.withHeap h').declareFunction (g.respell f)).heap := by
    refine ⟨hbind.environments.congr rfl ?_, hnew.functions, hnew.classes, hnew.objects⟩
    rw [← hid, ← FunctionDecl.respell_name]
    rfl
  exact ⟨hheap, rfl, rfl, rfl, hk⟩

theorem methodTable_respell (scope : EnvironmentId) {methods : List FunctionDecl}
    (hkept : ∀ g ∈ methods, (f.token g.name).lexeme = g.name.lexeme) :
    methodTable scope (methods.map (FunctionDecl.respell f)) =
      (methodTable scope methods).map (Closure.respell f) := by
  rw [methodTable, methodTable, Bindings.map_ofList, List.map_map, List.map_map]
  refine congrArg _ (List.map_congr_left fun g hg => ?_)
  simp [Closure.respell, FunctionDecl.isInitializer, hkept g hg]

/-- The class takes the place of the `nil` that its name was bound to. -/
theorem bindClass_respells {k k' : Heap} (hk : k.Respells f o k') (hd : o.Distinct)
    {e : EnvironmentId} {t : Token} (hstands : Stands o e (Γ.define t).opens)
    (hkept : (f.token t).lexeme = t.lexeme) (ht : t.IsName) {scope scope' : EnvironmentId}
    (hscope : scope' = scope) {methods : List FunctionDecl}
    (hmethods : ∀ g ∈ methods, (f.token g.name).lexeme = g.name.lexeme) (c : Option ClassId) :
    ((k.newClass ⟨t.lexeme, c, methodTable scope methods⟩).2.define e t.lexeme
        (.classValue (k.newClass ⟨t.lexeme, c, methodTable scope methods⟩).1)).Respells f o
      ((k'.newClass ⟨(f.token t).lexeme, c,
          methodTable scope' (methods.map (FunctionDecl.respell f))⟩).2.define e (f.token t).lexeme
        (.classValue (k'.newClass ⟨(f.token t).lexeme, c,
          methodTable scope' (methods.map (FunctionDecl.respell f))⟩).1)) := by
  subst hscope
  have hclass : (⟨(f.token t).lexeme, c,
      methodTable scope' (methods.map (FunctionDecl.respell f))⟩ : Class) =
        Class.respell f ⟨t.lexeme, c, methodTable scope' methods⟩ := by
    rw [hkept, methodTable_respell scope' hmethods]
    rfl
  obtain ⟨hid, hnew⟩ := hk.newClass ⟨t.lexeme, c, methodTable scope' methods⟩
  have hreserved (x : String) (hx : x = "this" ∨ x = "super") : t.lexeme ≠ x := by
    rcases hx with rfl | rfl
    · exact ht.not_this
    · exact ht.not_super
  rw [hclass, hid, hkept]
  refine ⟨hnew.environments.assign hd _ (fun _ => rfl) (fun x hx => ⟨hreserved x hx, hreserved x hx⟩)
    fun hg origin ho => ⟨.named t, ?_, rfl, hkept⟩, hnew.functions, hnew.classes, hnew.objects⟩
  cases hopens : Γ.opens with
  | nil =>
    have hnone : (Γ.define t).opens = [] := by simp [Place.define, hopens]
    exact absurd (hnone ▸ hstands.chain).eq_globals hg
  | cons s outer =>
    have hsome : (Γ.define t).opens = s.add (.named t) :: outer := by simp [Place.define, hopens]
    obtain ⟨out, hs⟩ := hstands.exact _ (by rw [hsome]; rfl)
    obtain rfl := Option.some.inj (ho.symm.trans hs)
    exact List.mem_append_right _ (.head _)

theorem declareClass_respells (hh : m.heap.Respells f o h') (hm : m.Kept programs o)
    (hf : o.Faithful m.heap) (hs : f.Suits programs) (hk : ∀ frame ∈ fs, frame.Keeps f)
    {t : Token} {superclass : Option Reference} {methods : List FunctionDecl}
    (hstands : Stands o m.environment Γ.opens)
    (hn : Known programs Γ (.stmt (.classDecl t superclass methods))) (c : Option ClassId) :
    Config.Respells f
      ((o.perform (.bound m.environment t)).performAll
        (if c.isSome then [.opened .superclass m.environment] else []))
      ⟨m.declareClass t c methods, .done .normal, fs⟩
      ⟨(m.withHeap h').declareClass (f.token t) c (methods.map (FunctionDecl.respell f)),
        .done .normal, fs.map (Frame.respell f)⟩ := by
  have hkept : (f.token t).lexeme = t.lexeme := hn.kept hs (.head _)
  have ht : t.IsName := (hm.standing hn).wellFormed.declared rfl
  have hmethods (g : FunctionDecl) (hg : g ∈ methods) : (f.token g.name).lexeme = g.name.lexeme :=
    (hn.part (.method hg)).kept_callable hs
  have hnil := bind_respells hh hm hs hstands hn rfl .nil
  have hbound := hm.bind hstands hn rfl .nil
  have hself := hstands.bound_self t
  cases c with
  | none =>
    exact ⟨bindClass_respells hnil hbound.distinct hself hkept ht rfl hmethods none, rfl, rfl, rfl,
      hk⟩
  | some c =>
    have hfaithful := hf.bind m.environment t .nil
    have hchild (h : Heap) : (h.child m.environment).2.environments =
      h.environments.push ⟨Bindings.empty, some m.environment⟩ := rfl
    have hsuper := Heap.define_push (hchild (m.define t.lexeme .nil).heap) "super" (.classValue c)
    have hsuper' := Heap.define_push (hchild (h'.define m.environment (f.token t).lexeme .nil))
      "super" (.classValue c)
    have hsingle : (OpenScope.superclass.binders.map Binder.name).Nodup := List.nodup_singleton _
    have hdistinct := hbound.distinct.opened hsingle m.environment
    have hopened := hnil.environments.openedReserved hfaithful hbound.rooted
      (show OpenScope.superclass.binders = [.superclass] from rfl) rfl hsuper hsuper'
    have hheap : Heap.Respells f _ _ _ :=
      ⟨hopened, hnil.functions, hnil.classes, hnil.objects⟩
    have hscope : (⟨(h'.define m.environment (f.token t).lexeme .nil).environments.size⟩ :
        EnvironmentId) = ⟨(m.define t.lexeme .nil).heap.environments.size⟩ :=
      congrArg EnvironmentId.mk hnil.environments.size
    exact ⟨bindClass_respells hheap hdistinct (hself.opened _ _) hkept ht hscope hmethods (some c),
      rfl, rfl, rfl, hk⟩

theorem evaluate_respells (hh : m.heap.Respells f o h') (hm : m.Kept programs o)
    (hf : o.Faithful m.heap) (hs : f.Suits programs) (hk : ∀ frame ∈ fs, frame.Keeps f) {e : Expr}
    (hstands : Stands o m.environment Γ.opens) (hn : Known programs Γ (.expr e)) :
    Config.Respells f (o.performAll (Config.deeds ⟨m, .eval e, fs⟩)) (m.evaluate fs e)
      ((m.withHeap h').evaluate (fs.map (Frame.respell f)) (e.respell f)) := by
  have hwait {x : Frame} (hx : x.Keeps f) : ∀ frame ∈ x :: fs, frame.Keeps f :=
    List.forall_mem_cons.mpr ⟨hx, hk⟩
  cases e with
  | constant value => exact ⟨hh, rfl, rfl, rfl, hk⟩
  | group inner => exact ⟨hh, rfl, rfl, rfl, hk⟩
  | «variable» r =>
    rw [Expr.respell, evaluate, evaluate, read_variable_respell hh hm hf hs hstands.chain hn]
    exact finish_respells hh hk _
  | receiver r =>
    rw [Expr.respell, evaluate, evaluate, read_receiver_respell hh hm hf hs hstands.chain hn]
    exact finish_respells hh hk _
  | call callee t xs =>
    rw [Expr.respell, Expr.respellAll_eq_map]
    exact ⟨hh, rfl, rfl, rfl, hwait trivial⟩
  | get x t => exact ⟨hh, rfl, rfl, rfl, hwait (hn.kept hs (List.mem_append_right _ (.head _)))⟩
  | set x t v => exact ⟨hh, rfl, rfl, rfl, hwait (hn.kept hs (List.mem_append_right _ (.head _)))⟩
  | inherited r method =>
    rw [Expr.respell, evaluate, evaluate, inherited_respell hh hs hn]
    exact finishProperty_respells hh hf hm.rooted hk _
  | _ => exact ⟨hh, rfl, rfl, rfl, hwait trivial⟩

theorem execute_respells (hh : m.heap.Respells f o h') (hm : m.Kept programs o)
    (hf : o.Faithful m.heap) (hs : f.Suits programs) (hk : ∀ frame ∈ fs, frame.Keeps f) {s : Stmt}
    (hstands : Stands o m.environment Γ.opens) (hn : Known programs Γ (.stmt s)) :
    Config.Respells f (o.performAll (m.deedsOfExec s)) (m.execute fs s)
      ((m.withHeap h').execute (fs.map (Frame.respell f)) (s.respell f)) := by
  have hwait {x : Frame} (hx : x.Keeps f) : ∀ frame ∈ x :: fs, frame.Keeps f :=
    List.forall_mem_cons.mpr ⟨hx, hk⟩
  cases s with
  | varDecl t initializer =>
    cases initializer with
    | none => exact define_respells hh hm hs hk hstands hn rfl .nil
    | some e => exact ⟨hh, rfl, rfl, rfl, hwait trivial⟩
  | block body =>
    have hchild (h : Heap) : (h.child m.environment).2.environments =
      h.environments.push ⟨Bindings.empty, some m.environment⟩ := rfl
    have hopened : Heap.BindsAlike f (o.perform (.opened ⟨.block, []⟩ m.environment)) _ _ :=
      hh.environments.opened hf hm.rooted (hchild m.heap) (hchild h') (fun _ _ => rfl)
        (List.forall_mem_nil _) (fun x hx => by cases hx) List.nodup_nil
    have hheap : Heap.Respells f _ (m.heap.child m.environment).2 (h'.child m.environment).2 :=
      ⟨hopened, hh.functions, hh.classes, hh.objects⟩
    have hscope : (h'.child m.environment).1 = (m.heap.child m.environment).1 :=
      congrArg EnvironmentId.mk hh.environments.size
    have hbody := runBlock_respells (m := { m with
      heap := (m.heap.child m.environment).2
      environment := (m.heap.child m.environment).1 }) hheap hk m.environment body
    rw [Stmt.respell, Stmt.respellAll_eq_map, execute, execute]
    simp only [withHeap_heap, withHeap_environment, hscope]
    exact hbody
  | function g =>
    rw [Stmt.respell, execute, execute]
    exact declareFunction_respells hh hm hs hk hstands hn
  | classDecl t superclass methods =>
    rw [Stmt.respell, FunctionDecl.respellAll_eq_map, execute, execute,
      superclass_respell hh hm hf hs hstands.chain hn]
    simp only [deedsOfExec]
    cases m.superclass superclass with
    | error e => exact ⟨hh, rfl, rfl, rfl, hk⟩
    | ok c =>
      have hclass := declareClass_respells hh hm hf hs hk hstands hn c
      cases c <;> exact hclass
  | returning t value =>
    cases value with
    | none => exact ⟨hh, rfl, rfl, rfl, hk⟩
    | some e => exact ⟨hh, rfl, rfl, rfl, hwait trivial⟩
  | breaking t => exact ⟨hh, rfl, rfl, rfl, hk⟩
  | continuing t => exact ⟨hh, rfl, rfl, rfl, hk⟩
  | _ => exact ⟨hh, rfl, rfl, rfl, hwait trivial⟩

theorem textOf_respell (hh : m.heap.Respells f o h') (hm : m.Kept programs o)
    (hs : f.Suits programs) (v : Value) : h'.textOf v = m.heap.textOf v := by
  refine hh.textOf (fun g closure hg => ?_) v
  obtain ⟨Γ, kind, hn, -, -⟩ := hm.remembers.functions g closure hg
  exact hn.kept_callable hs

theorem resumeValue_respells (hh : m.heap.Respells f o h') (hm : m.Kept programs o)
    (hf : o.Faithful m.heap) (hs : f.Suits programs) {frame : Frame}
    (hkeeps : ∀ frame' ∈ frame :: fs, frame'.Keeps f)
    (h : Fits programs o .value m.environment (frame :: fs)) (v : Value) :
    Config.Respells f (o.performAll (m.deedsOfResume v frame)) (m.resumeValue fs v frame)
      ((m.withHeap h').resumeValue (fs.map (Frame.respell f)) v (frame.respell f)) := by
  obtain ⟨hframe, hk⟩ := List.forall_mem_cons.mp hkeeps
  have hwait {x : Frame} (hx : x.Keeps f) : ∀ frame ∈ x :: fs, frame.Keeps f :=
    List.forall_mem_cons.mpr ⟨hx, hk⟩
  cases h with
  | @unary _ t =>
    rw [Frame.respell, resumeValue, resumeValue, Operator.unary_respell]
    exact finish_respells hh hk _
  | binaryLeft => exact ⟨hh, rfl, rfl, rfl, hwait trivial⟩
  | @binaryRight _ left t =>
    rw [Frame.respell, resumeValue, resumeValue, Operator.binary_respell]
    exact finish_respells hh hk _
  | logical =>
    simp only [Frame.respell, resumeValue, Operator.decides_respell]
    split <;> exact ⟨hh, rfl, rfl, rfl, hk⟩
  | assign hstands hn => exact finishAssign_respells hh hm hf hs hk hstands hn v
  | @callee _ t xs =>
    have harguments := evaluateArguments_respells hh hm hf hs hk v t #[] xs
    cases xs <;> exact harguments
  | @argument _ callee t vs xs =>
    have harguments := evaluateArguments_respells hh hm hf hs hk callee t (vs.push v) xs
    cases xs <;> exact harguments
  | @get _ t =>
    rw [Frame.respell, resumeValue, resumeValue, property_respell hh v hframe]
    exact finishProperty_respells hh hf hm.rooted hk _
  | setObject =>
    cases v with
    | object x => exact ⟨hh, rfl, rfl, rfl, hwait hframe⟩
    | _ => exact ⟨hh, rfl, rfl, rfl, hk⟩
  | @setValue _ x t =>
    have hset := hh.setField x t.lexeme v
    have hname : (f.token t).lexeme = t.lexeme := hframe
    rw [Frame.respell, resumeValue, resumeValue, hname]
    exact ⟨hset, rfl, rfl, rfl, hk⟩
  | print =>
    have hprinted := congrArg (m.printed.push ·) (textOf_respell hh hm hs v)
    exact ⟨hh, congrArg (fun printed => ({ m.withHeap h' with printed } : Machine)) hprinted, rfl,
      rfl, hk⟩
  | varDecl hstands hn => exact define_respells hh hm hs hk hstands hn rfl v
  | @branch _ s alternative =>
    simp only [Frame.respell, resumeValue]
    split
    · exact ⟨hh, rfl, rfl, rfl, hk⟩
    · cases alternative <;> exact ⟨hh, rfl, rfl, rfl, hk⟩
  | loopTest =>
    simp only [Frame.respell, resumeValue]
    split
    · exact ⟨hh, rfl, rfl, rfl, hwait trivial⟩
    · exact ⟨hh, rfl, rfl, rfl, hk⟩
  | loopStep => exact ⟨hh, rfl, rfl, rfl, hwait trivial⟩
  | _ => exact ⟨hh, rfl, rfl, rfl, hk⟩

theorem afterBody_respells (hh : m.heap.Respells f o h') (hk : ∀ frame ∈ fs, frame.Keeps f)
    (l : Loop) : Config.Respells f o (m.afterBody fs l)
      ((m.withHeap h').afterBody (fs.map (Frame.respell f)) (l.respell f)) := by
  obtain ⟨condition, body, increment⟩ := l
  cases increment <;> exact ⟨hh, rfl, rfl, rfl, List.forall_mem_cons.mpr ⟨trivial, hk⟩⟩

theorem callValue_respell (hh : m.heap.Respells f o h') (result : CallResult) (c : Completion) :
    (m.withHeap h').callValue result (c.respell f) = m.callValue result c := by
  cases result with
  | receiver scope =>
    have hthis := hh.environments.getAt?_reserved scope 0 (x := "this") (.inl rfl)
    cases c <;> exact congrArg (Option.getD · .nil) hthis
  | _ => cases c <;> rfl

theorem resume_respells (hh : m.heap.Respells f o h') (hm : m.Kept programs o)
    (hf : o.Faithful m.heap) (hs : f.Suits programs) {frame : Frame} {hole : Hole} {c : Completion}
    (hk : ∀ frame' ∈ frame :: fs, frame'.Keeps f) (ht : hole.Takes o m.environment c)
    (h : Fits programs o hole m.environment (frame :: fs)) :
    Config.Respells f (o.performAll (Config.deeds ⟨m, .done c, frame :: fs⟩))
      (m.resume fs frame c)
      ((m.withHeap h').resume (fs.map (Frame.respell f)) (frame.respell f) (c.respell f)) := by
  have hrest := (List.forall_mem_cons.mp hk).2
  cases hole with
  | value =>
    cases c with
    | value v =>
      have hvalue := resumeValue_respells hh hm hf hs hk h v
      cases h <;> exact hvalue
    | failed e => cases h <;> exact ⟨hh, rfl, rfl, rfl, hrest⟩
    | _ => exact ht.elim
  | statement Δ =>
    rcases h.of_statement with ⟨x, b, i, Γ, rfl, rfl, -, -, -⟩ | ⟨rest, outer, rfl, -, -, -⟩
    · cases c with
      | value v => exact ht.elim
      | normal => exact afterBody_respells hh hrest ⟨x, b, i⟩
      | continued => exact afterBody_respells hh hrest ⟨x, b, i⟩
      | _ => exact ⟨hh, rfl, rfl, rfl, hrest⟩
    · cases c with
      | value v => exact ht.elim
      | normal => exact runBlock_respells hh hrest outer rest
      | _ => exact ⟨hh, rfl, rfl, rfl, hrest⟩
  | body kind =>
    cases h with
    | @call _ result =>
      have hvalue := callValue_respell hh result c
      cases c with
      | normal =>
        exact ⟨hh, rfl, congrArg (fun v => Control.done (.value v)) hvalue, rfl, hrest⟩
      | returned v =>
        exact ⟨hh, rfl, congrArg (fun v => Control.done (.value v)) hvalue, rfl, hrest⟩
      | failed e => exact ⟨hh, rfl, rfl, rfl, hrest⟩
      | _ => exact ht.elim

end Machine

/-- The respelled program takes the respelled steps. -/
theorem Config.Respells.step {c c' : Config} (hr : c.Respells f o c') (hk : c.Kept programs o)
    (hf : o.Faithful c.machine.heap) (hs : f.Suits programs) :
    c.step.Respells f (o.performAll c.deeds) c'.step := by
  obtain ⟨m, control, fs⟩ := c
  obtain ⟨m', control', fs'⟩ := c'
  obtain ⟨hh, hmachine, hcontrol, hframes, hkeeps⟩ := hr
  obtain ⟨hm, hc⟩ := hk
  obtain rfl : control' = control.respell f := hcontrol
  obtain rfl : fs' = fs.map (Frame.respell f) := hframes
  have hstep : Config.Respells f (o.performAll (Config.deeds ⟨m, control, fs⟩))
      (Config.step ⟨m, control, fs⟩)
      (Config.step ⟨m.withHeap m'.heap, control.respell f, fs.map (Frame.respell f)⟩) := by
    cases control with
    | eval e =>
      obtain ⟨Γ, hstands, hn, -⟩ := hc
      exact Machine.evaluate_respells hh hm hf hs hkeeps hstands hn
    | exec s =>
      obtain ⟨Γ, hstands, hn, -⟩ := hc
      exact Machine.execute_respells hh hm hf hs hkeeps hstands hn
    | done c =>
      obtain ⟨hole, ht, hfs⟩ := hc
      cases fs with
      | nil => cases c <;> exact ⟨hh, rfl, rfl, rfl, hkeeps⟩
      | cons frame fs => exact Machine.resume_respells hh hm hf hs hkeeps ht hfs
  rwa [← show m' = m.withHeap m'.heap from hmachine] at hstep

end Lox
