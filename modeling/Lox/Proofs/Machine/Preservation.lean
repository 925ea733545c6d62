import Lox.Proofs.Machine.Faults
import Lox.Proofs.Machine.Kept

/-! Every step of an accepted program keeps its standing.

Each function that a step calls has one lemma; the functions that start something take where it
stands, those that end something take the frames that wait for it. -/

namespace Lox

theorem Fits.index_lt {programs : List (List Stmt)} {o : Origins} {hole : Hole}
    {e : EnvironmentId} {fs : List Frame} (h : Fits programs o hole e fs) (hr : o.Rooted)
    (hv : hole = .value) : e.index < o.size := by
  induction h with
  | unary _ _ ih => exact ih hv
  | binaryRight _ _ ih => exact ih hv
  | get _ ih => exact ih hv
  | setValue _ ih => exact ih hv
  | binaryLeft _ hs _ _ _ => exact hs.chain.index_lt hr
  | logical hs _ _ _ => exact hs.chain.index_lt hr
  | assign hs _ _ _ => exact hs.chain.index_lt hr
  | callee hs _ _ _ => exact hs.chain.index_lt hr
  | argument hs _ _ _ => exact hs.chain.index_lt hr
  | setObject hs _ _ _ => exact hs.chain.index_lt hr
  | discard hs _ _ => exact hs.chain.index_lt hr
  | print hs _ _ => exact hs.chain.index_lt hr
  | varDecl hs _ _ _ => exact hs.chain.index_lt hr
  | branch hs _ _ _ => exact hs.chain.index_lt hr
  | returning hs _ _ _ _ => exact hs.chain.index_lt hr
  | loopTest hs _ _ _ => exact hs.chain.index_lt hr
  | loopStep hs _ _ _ => exact hs.chain.index_lt hr
  | _ => cases hv

/-- What comes after a block in scope `Δ`: the statement that it was, or the end of a function. -/
inductive Leaves (programs : List (List Stmt)) (o : Origins) (Δ : Place) (outer : EnvironmentId)
    (fs : List Frame) : Prop where
  | statement {Γ} : Δ.context = Γ.context → Stands o outer Γ.opens →
    Fits programs o (.statement Γ) outer fs → Leaves programs o Δ outer fs
  | body : Δ.context.inLoop = false → Fits programs o (.body Δ.context.function) outer fs →
    Leaves programs o Δ outer fs

/-- What ends a block otherwise than at its end can come to what is after the block. -/
theorem Leaves.takes {programs : List (List Stmt)} {o : Origins} {Δ : Place}
    {e outer : EnvironmentId} {fs : List Frame} {c : Completion} (h : Leaves programs o Δ outer fs)
    (ht : (Hole.statement Δ).Takes o e c) (hc : c ≠ .normal) :
    ∃ hole : Hole, hole.Takes o outer c ∧ Fits programs o hole outer fs := by
  cases h with
  | @statement Γ hΔ hs hfs =>
    refine ⟨.statement Γ, ?_, hfs⟩
    cases c with
    | value v => exact ht.elim
    | normal => exact absurd rfl hc
    | returned v => exact ⟨hs, hΔ ▸ ht.2⟩
    | broken => exact ⟨hs, hΔ ▸ ht.2⟩
    | continued => exact ⟨hs, hΔ ▸ ht.2⟩
    | failed e => exact ht
  | body hl hfs =>
    refine ⟨.body Δ.context.function, ?_, hfs⟩
    cases c with
    | value v => exact ht.elim
    | normal => exact absurd rfl hc
    | returned v => exact ht.2.2
    | broken => cases hl.symm.trans ht.2
    | continued => cases hl.symm.trans ht.2
    | failed e => exact ht

/-- The end of a statement is waited for by the loop or the block that it stands in. -/
theorem Fits.of_statement {programs : List (List Stmt)} {o : Origins} {Δ : Place}
    {e : EnvironmentId} {frame : Frame} {fs : List Frame}
    (h : Fits programs o (.statement Δ) e (frame :: fs)) :
    (∃ c b i Γ, frame = .loopBody ⟨c, b, i⟩ ∧ Δ = Γ.inLoop ∧ Stands o e Γ.opens ∧
      Known programs Γ (.stmt (.loop c b i)) ∧ Fits programs o (.statement Γ) e fs) ∨
    ∃ rest outer, frame = .block rest outer ∧ Known programs Δ (.body rest) ∧
      outer.index < e.index ∧ Leaves programs o Δ outer fs := by
  cases h with
  | loopBody hs hn hfs => exact .inl ⟨_, _, _, _, rfl, rfl, hs, hn, hfs⟩
  | block hn hlt hc hs hfs => exact .inr ⟨_, _, rfl, hn, hlt, .statement hc hs hfs⟩
  | inside hn hlt hl hfs => exact .inr ⟨_, _, rfl, hn, hlt, .body hl hfs⟩

namespace Machine

variable {programs : List (List Stmt)} {o : Origins} {m : Machine} {fs : List Frame} {Γ : Place}

theorem kept_runBlock {outer : EnvironmentId} {rest : List Stmt} (hm : m.Kept programs o)
    (hs : Stands o m.environment Γ.opens) (hn : Known programs Γ (.body rest))
    (hlt : outer.index < m.environment.index) (hl : Leaves programs o Γ outer fs) :
    (m.runBlock fs outer rest).Kept programs o := by
  cases rest with
  | nil =>
    refine ⟨⟨hm.rooted, hm.distinct, hm.supers, hm.remembers, hm.accepted⟩, ?_⟩
    cases hl with
    | statement _ ho hf => exact ⟨.statement _, ho, hf⟩
    | body _ hf => exact ⟨.body _, trivial, hf⟩
  | cons s rest =>
    refine ⟨hm, Γ, hs, hn.part .first, ?_⟩
    have hrest := hn.part .rest
    cases hl with
    | statement hc ho hf => exact .block hrest hlt ((Place.context_after s).trans hc) ho hf
    | body hc hf =>
      refine .inside hrest hlt ?_ ?_
      · rwa [Place.context_after]
      · rwa [Place.context_after]

theorem kept_finish {r : Except RuntimeError Value} (hm : m.Kept programs o)
    (hf : Fits programs o .value m.environment fs) (hr : ∀ e, r = .error e → ¬e.Internal) :
    (m.finish fs r).Kept programs o := by
  cases r with
  | ok v => exact ⟨hm, .value, trivial, hf⟩
  | error e => exact ⟨hm, .value, hr e rfl, hf⟩

/-- A new environment with functions and classes as they were. -/
theorem Kept.opened (hm : m.Kept programs o) (hf : o.Faithful m.heap) (scope : OpenScope)
    (e : EnvironmentId) (callDepth : Nat) {h' : Heap} {outer : EnvironmentId}
    {bindings : Bindings Value}
    (hnames : (scope.binders.map Binder.name).Nodup)
    (he : h'.environments = m.heap.environments.push ⟨bindings, some outer⟩)
    (hk : scope.kind = .superclass → ∃ c, bindings.get? "super" = some (.classValue c))
    (hfun : h'.functions = m.heap.functions) (hcls : h'.classes = m.heap.classes) :
    Kept programs (o.perform (.opened scope outer))
      { m with heap := h', environment := e, callDepth := callDepth } :=
  ⟨hm.rooted.perform _, hm.distinct.opened hnames outer, hm.supers.opened hf he hk,
    (hm.remembers.perform _).congr hfun hcls, hm.accepted⟩

theorem kept_finishProperty {r : Except RuntimeError (Value × Property)} (hm : m.Kept programs o)
    (hf : o.Faithful m.heap) (hfs : Fits programs o .value m.environment fs)
    (hr : ∀ e, r = .error e → ¬e.Internal)
    (hmethod : ∀ receiver f, r = .ok (receiver, .method f) →
      ∃ name, f.Unbound programs o name) :
    (m.finishProperty fs r).Kept programs (o.performAll (deedsOfProperty r)) := by
  rcases r with e | ⟨receiver, v | f⟩
  · exact ⟨hm, .value, hr e rfl, hfs⟩
  · exact ⟨hm, .value, trivial, hfs⟩
  · obtain ⟨name, hu⟩ := hmethod receiver f rfl
    have hbound : (⟨f.decl, ⟨m.heap.environments.size⟩, f.isInitializer⟩ : Closure).Placed programs
        (o.perform (.opened .receiver f.scope)) := hf.size ▸ hu.bind
    have hopened := hm.opened hf .receiver m.environment m.callDepth
      (by simp [OpenScope.receiver]) (m.heap.bindThis_environments f receiver)
      (fun hk => by cases hk) rfl rfl
    refine ⟨⟨hopened.rooted, hopened.distinct, hopened.supers.congr rfl,
      hopened.remembers.newFunction hbound, hopened.accepted⟩, .value, trivial, hfs.opened _ _⟩

theorem foldl_define_same (entries : List (Token × Value)) (e : EnvironmentId) : ∀ h : Heap,
    (entries.foldl (fun heap entry => heap.define e entry.1.lexeme entry.2) h).functions =
        h.functions ∧
      (entries.foldl (fun heap entry => heap.define e entry.1.lexeme entry.2) h).classes =
        h.classes ∧
      (entries.foldl (fun heap entry => heap.define e entry.1.lexeme entry.2) h).objects =
        h.objects := by
  induction entries with
  | nil => exact fun h => ⟨rfl, rfl, rfl⟩
  | cons entry rest ih => exact fun h => ih (h.define e entry.1.lexeme entry.2)

/-- The body of a function starts in the environment that its scope calls for. -/
theorem kept_enter (hm : m.Kept programs o) (hf : o.Faithful m.heap) {f : Closure}
    {result : CallResult} (hp : f.Placed programs o)
    (hr : result ≠ .returned → f.isInitializer = true)
    (hfs : Fits programs o .value m.environment fs) (arguments : List Value) :
    (m.enter fs f arguments result).Kept programs (o.perform (.opened f.decl.scope f.scope)) := by
  obtain ⟨Γ, kind, hn, hc, hi⟩ := hp
  have hchild : (m.heap.child f.scope).2.environments =
    m.heap.environments.push ⟨Bindings.empty, some f.scope⟩ := rfl
  have hscope := Heap.foldl_define_push (f.decl.params.zip arguments) hchild
  have hsame := foldl_define_same (f.decl.params.zip arguments) ⟨m.heap.environments.size⟩
    (m.heap.child f.scope).2
  have hnames : (f.decl.scope.binders.map Binder.name).Nodup := by
    have hparams := (hm.standing hn).params_nodup
    simpa [FunctionDecl.scope, Function.comp_def, Binder.name] using hparams
  have hinside := hm.opened hf f.decl.scope ⟨m.heap.environments.size⟩ (m.callDepth + 1)
    hnames hscope (fun hk => by cases hk) hsame.1 hsame.2.1
  have hstands : Stands (o.perform (.opened f.decl.scope f.scope)) ⟨m.heap.environments.size⟩
      (Γ.inBody kind f.decl).opens := hf.size ▸ hc.enter f.decl.scope
  have hlt : m.environment.index < m.heap.environments.size := hf.size ▸ hfs.index_lt hm.rooted rfl
  exact kept_runBlock hinside hstands (hn.part .inside) hlt
    (.body rfl (.call (fun h => hi (hr h)) (hfs.opened _ _)))

theorem kept_callFunction (hm : m.Kept programs o) (hf : o.Faithful m.heap)
    (hfs : Fits programs o .value m.environment fs) (f : FunctionId) (arguments : List Value) :
    (m.callFunction fs f arguments).Kept programs (o.performAll (m.deedsOfFunction f)) := by
  unfold callFunction deedsOfFunction
  cases hfun : m.heap.function? f with
  | none => exact ⟨hm, .value, trivial, hfs⟩
  | some closure =>
    refine kept_enter hm hf (hm.remembers.functions f closure hfun) (fun h => ?_) hfs arguments
    by_contra hi
    exact h (if_neg hi)

theorem kept_callClass (hm : m.Kept programs o) (hf : o.Faithful m.heap)
    (hfs : Fits programs o .value m.environment fs) (c : ClassId) (arguments : List Value) :
    (m.callClass fs c arguments).Kept programs (o.performAll (m.deedsOfClass c)) := by
  unfold callClass deedsOfClass
  cases hinit : m.heap.initializer? c with
  | none =>
    exact ⟨⟨hm.rooted, hm.distinct, hm.supers, hm.remembers.congr rfl rfl, hm.accepted⟩, .value,
      trivial, hfs⟩
  | some method =>
    have hu : method.Unbound programs o "init" := hm.remembers.method? hinit
    have hi : method.isInitializer = true := by
      obtain ⟨-, -, -, -, -, hi, hname⟩ := hu
      simp [hi, FunctionDecl.isInitializer, hname]
    let receiver : Value := .object ⟨m.heap.objects.size⟩
    have hthis := (hf.newObject ⟨c, Bindings.empty⟩).openedThis method receiver
    have hopened := hm.opened hf .receiver m.environment m.callDepth
      (by simp [OpenScope.receiver])
      ((m.heap.newObject ⟨c, Bindings.empty⟩).2.bindThis_environments method receiver)
      (fun hk => by cases hk) rfl rfl
    have hbound : (⟨method.decl, ⟨m.heap.environments.size⟩, method.isInitializer⟩ :
        Closure).Placed programs (o.perform (.opened .receiver method.scope)) :=
      hf.size ▸ hu.bind
    exact kept_enter hopened hthis hbound (fun _ => hi) (hfs.opened _ _) arguments

theorem Kept.readClock (hm : m.Kept programs o) : m.readClock.2.Kept programs o :=
  ⟨hm.rooted, hm.distinct, hm.supers, hm.remembers, hm.accepted⟩

theorem kept_call (hm : m.Kept programs o) (hf : o.Faithful m.heap)
    (hfs : Fits programs o .value m.environment fs) (callee : Value) (paren : Token)
    (arguments : List Value) :
    (m.call fs callee paren arguments).Kept programs
      (o.performAll (m.deedsOfCall callee arguments)) := by
  have hrefuse (fault : RuntimeFault) (hi : ¬RuntimeError.Internal ⟨paren, fault⟩) :
      Config.Kept programs o ⟨m, .done (.failed ⟨paren, fault⟩), fs⟩ := ⟨hm, .value, hi, hfs⟩
  unfold call deedsOfCall
  cases harity : m.heap.arity? callee with
  | none => exact hrefuse _ (by simp [RuntimeError.Internal])
  | some arity =>
    simp only
    split
    · exact hrefuse _ (by simp [RuntimeError.Internal])
    split
    · exact hrefuse _ (by simp [RuntimeError.Internal])
    cases callee with
    | native f =>
      cases f
      exact ⟨hm.readClock, .value, trivial, hfs⟩
    | function f => exact kept_callFunction hm hf hfs f arguments
    | classValue c => exact kept_callClass hm hf hfs c arguments
    | _ => exact hrefuse _ (by simp [RuntimeError.Internal])

/-- A declaration binds its name in the current environment, which did not bind it yet. -/
theorem Kept.bind (hm : m.Kept programs o) {s : Stmt} {t : Token}
    (hs : Stands o m.environment Γ.opens) (hn : Known programs Γ (.stmt s))
    (ht : s.declared? = some t) (v : Value) :
    (m.define t.lexeme v).Kept programs (o.perform (.bound m.environment t)) := by
  have hstanding := hm.standing hn
  have hname := hstanding.wellFormed.declared ht
  refine ⟨hm.rooted.perform _, hm.distinct.bound fun hg origin ho b hb => ?_,
    (hm.supers.bound _ t).define hname.not_super _ v, (hm.remembers.perform _).congr rfl rfl,
    hm.accepted⟩
  cases hopens : Γ.opens with
  | nil =>
    exact absurd (hopens ▸ hs.chain).eq_globals hg
  | cons s rest =>
    obtain ⟨outer, hs⟩ := hs.exact s (by simp [hopens])
    obtain rfl : origin = ⟨s, some outer⟩ := Option.some.inj (ho.symm.trans hs)
    exact hstanding.undeclared ht (by simp [hopens]) b hb

theorem kept_define (hm : m.Kept programs o) {s : Stmt} {t : Token}
    (hs : Stands o m.environment Γ.opens) (hn : Known programs Γ (.stmt s))
    (ht : s.declared? = some t) (hfs : Fits programs o (.statement (Γ.define t)) m.environment fs)
    (v : Value) :
    Config.Kept programs (o.perform (.bound m.environment t))
      ⟨m.define t.lexeme v, .done .normal, fs⟩ :=
  ⟨hm.bind hs hn ht v, .statement (Γ.define t), hs.bound_self t, hfs.declared hs hm.rooted⟩

theorem kept_declareFunction (hm : m.Kept programs o) {f : FunctionDecl}
    (hs : Stands o m.environment Γ.opens) (hn : Known programs Γ (.stmt (.function f)))
    (hfs : Fits programs o (.statement (Γ.define f.name)) m.environment fs) :
    Config.Kept programs (o.perform (.bound m.environment f.name))
      ⟨m.declareFunction f, .done .normal, fs⟩ := by
  have hbind := hm.bind hs hn rfl (.function ⟨m.heap.functions.size⟩)
  have hplaced : (⟨f, m.environment, false⟩ : Closure).Placed programs
      (o.perform (.bound m.environment f.name)) :=
    ⟨Γ.define f.name, .function, hn.part .function, (hs.bound_self f.name).chain,
      fun h => by cases h⟩
  exact ⟨⟨hbind.rooted, hbind.distinct, hbind.supers.congr rfl,
    ((hm.remembers.perform _).newFunction hplaced).congr rfl rfl, hbind.accepted⟩,
    .statement (Γ.define f.name), hs.bound_self f.name, hfs.declared hs hm.rooted⟩

theorem unbound_of_methodTable {scope : EnvironmentId} {superclass : Option Reference} {t : Token}
    {methods : List FunctionDecl} {outer : List OpenScope}
    (hn : Known programs Γ (.stmt (.classDecl t superclass methods)))
    (hopens : ((Γ.define t).inClass superclass).opens = .receiver :: outer)
    (hc : Chain o scope outer) (name : String) (f : Closure)
    (hf : (name, f) ∈ (methodTable scope methods).entries) : f.Unbound programs o name := by
  obtain ⟨decl, hdecl, he⟩ := List.mem_map.mp (Bindings.mem_of_mem_ofList hf)
  obtain ⟨rfl, rfl⟩ := Prod.mk.inj he
  exact ⟨(Γ.define t).inClass superclass, outer, hn.part (.method hdecl), hopens, hc, rfl, rfl⟩

theorem kept_declareClass (hm : m.Kept programs o) (hf : o.Faithful m.heap) {t : Token}
    {superclass : Option Reference} {methods : List FunctionDecl}
    (hs : Stands o m.environment Γ.opens)
    (hn : Known programs Γ (.stmt (.classDecl t superclass methods)))
    (hfs : Fits programs o (.statement (Γ.define t)) m.environment fs) {c : Option ClassId}
    (hc : c.isSome = superclass.isSome) :
    Config.Kept programs
      ((o.perform (.bound m.environment t)).performAll
        (if c.isSome then [.opened .superclass m.environment] else []))
      ⟨m.declareClass t c methods, .done .normal, fs⟩ := by
  have hname := ((hm.standing hn).wellFormed.declared rfl).not_super
  have hnil := hm.bind hs hn rfl .nil
  have hself := hs.bound_self t
  have hfits := hfs.declared hs hm.rooted
  cases c with
  | none =>
    cases superclass with
    | some r => cases hc
    | none =>
      have hclass := hnil.remembers.newClass (c := ⟨t.lexeme, none, methodTable m.environment methods⟩)
        (unbound_of_methodTable hn rfl hself.chain)
      exact ⟨⟨hnil.rooted, hnil.distinct, (hnil.supers.congr rfl).define hname _ _,
        hclass.congr rfl rfl, hnil.accepted⟩, .statement (Γ.define t), hself, hfits⟩
  | some c =>
    cases superclass with
    | none => cases hc
    | some r =>
      have hbound := hf.bind m.environment t .nil
      have hchild : ((m.define t.lexeme .nil).heap.child m.environment).2.environments =
        (m.define t.lexeme .nil).heap.environments.push ⟨Bindings.empty, some m.environment⟩ := rfl
      have hopened := hnil.opened hbound .superclass m.environment m.callDepth
        (by simp [OpenScope.superclass])
        (Heap.define_push hchild "super" (.classValue c)) (fun _ => ⟨c, by simp⟩) rfl rfl
      have henter := hself.chain.enter .superclass
      rw [hbound.size] at henter
      have hclass := hopened.remembers.newClass
        (c := ⟨t.lexeme, some c, methodTable ⟨(m.define t.lexeme .nil).heap.environments.size⟩ methods⟩)
        (unbound_of_methodTable hn rfl henter.chain)
      exact ⟨⟨hopened.rooted, hopened.distinct, (hopened.supers.congr rfl).define hname _ _,
        hclass.congr rfl rfl, hopened.accepted⟩, .statement (Γ.define t), hself.opened _ _,
        hfits.opened _ _⟩

theorem property_method {object receiver : Value} {name : Token} {f : Closure}
    (h : m.property object name = .ok (receiver, .method f)) :
    ∃ c, m.heap.method? c name.lexeme = some f := by
  unfold property at h
  split at h
  · rename_i x
    split at h
    · rename_i found hp
      obtain ⟨-, rfl⟩ := Prod.mk.inj (Except.ok.inj h)
      unfold Heap.property? at hp
      split at hp
      · cases hp
      · split at hp
        · cases hp
        · obtain ⟨method, hm, he⟩ := Option.map_eq_some_iff.mp hp
          exact ⟨_, Property.method.inj he ▸ hm⟩
    · cases h
  · cases h

theorem kept_evaluate (hm : m.Kept programs o) (hf : o.Faithful m.heap) {e : Expr}
    (hs : Stands o m.environment Γ.opens) (hn : Known programs Γ (.expr e))
    (hfs : Fits programs o .value m.environment fs) :
    (m.evaluate fs e).Kept programs (o.performAll (Config.deeds ⟨m, .eval e, fs⟩)) := by
  have hstanding := hm.standing hn
  cases e with
  | constant value => exact ⟨hm, .value, trivial, hfs⟩
  | group inner => exact ⟨hm, Γ, hs, hn.part .inner, hfs⟩
  | unary t operand => exact ⟨hm, Γ, hs, hn.part .operand, .unary hstanding.wellFormed.1 hfs⟩
  | binary l t r =>
    exact ⟨hm, Γ, hs, hn.part .left, .binaryLeft hstanding.wellFormed.1 hs (hn.part .right) hfs⟩
  | logical l t r => exact ⟨hm, Γ, hs, hn.part .logicalLeft, .logical hs (hn.part .logicalRight) hfs⟩
  | «variable» r => exact kept_finish hm hfs fun _ => read_not_internal
  | receiver r => exact kept_finish hm hfs fun _ => read_not_internal
  | assign r x => exact ⟨hm, Γ, hs, hn.part .value, .assign hs hn hfs⟩
  | call callee t xs =>
    exact ⟨hm, Γ, hs, hn.part .callee, .callee hs (fun x hx => hn.part (.argument hx)) hfs⟩
  | get x t => exact ⟨hm, Γ, hs, hn.part .object, .get hfs⟩
  | set x t v => exact ⟨hm, Γ, hs, hn.part .setObject, .setObject hs (hn.part .setValue) hfs⟩
  | inherited r method =>
    refine kept_finishProperty hm hf hfs
      (fun _ => inherited_not_internal hf hm.rooted hm.supers hs.chain hstanding)
      fun receiver f h => ⟨method.lexeme, ?_⟩
    obtain ⟨i, _, c, _, -, -, -, -, heq⟩ :=
      inherited_eq hf hm.rooted hm.supers hs.chain hstanding
    rw [heq] at h
    split at h
    · rename_i found hfound
      cases h
      exact hm.remembers.method? hfound
    · cases h

theorem isSome_superclass {superclass : Option Reference} {c : Option ClassId}
    (h : m.superclass superclass = .ok c) : c.isSome = superclass.isSome := by
  unfold Machine.superclass at h
  split at h
  · cases h
    rfl
  · split at h <;> cases h
    rfl

theorem kept_execute (hm : m.Kept programs o) (hf : o.Faithful m.heap) {s : Stmt}
    (hs : Stands o m.environment Γ.opens) (hn : Known programs Γ (.stmt s))
    (hfs : Fits programs o (.statement (Γ.after s)) m.environment fs) :
    (m.execute fs s).Kept programs (o.performAll (m.deedsOfExec s)) := by
  have hstanding := hm.standing hn
  cases s with
  | expression e => exact ⟨hm, Γ, hs, hn.part .expression, .discard hs hfs⟩
  | print e => exact ⟨hm, Γ, hs, hn.part .printed, .print hs hfs⟩
  | varDecl t initializer =>
    cases initializer with
    | none => exact kept_define hm hs hn rfl hfs .nil
    | some e => exact ⟨hm, Γ.declaring t false, hs, hn.part .initializer, .varDecl hs hn hfs⟩
  | block body =>
    have hchild : (m.heap.child m.environment).2.environments =
      m.heap.environments.push ⟨Bindings.empty, some m.environment⟩ := rfl
    have hopened := hm.opened hf ⟨.block, []⟩ ⟨m.heap.environments.size⟩ m.callDepth
      List.nodup_nil hchild (fun hk => by cases hk) rfl rfl
    have henter := hs.chain.enter ⟨.block, []⟩
    rw [hf.size] at henter
    exact kept_runBlock (Γ := Γ.inBlock) hopened henter (hn.part .block)
      (hf.size ▸ hs.chain.index_lt hm.rooted)
      (.statement (Γ := Γ) rfl (hs.opened _ _) (hfs.opened _ _))
  | ifThen e s =>
    refine ⟨hm, Γ, hs, hn.part .thenCondition, .branch hs (fun b hb => ?_) hfs⟩
    obtain rfl : b = s := by simpa using hb
    exact ⟨hn.part .thenBranch, hstanding.wellFormed.2.2⟩
  | ifElse e s t =>
    refine ⟨hm, Γ, hs, hn.part .elseCondition, .branch hs (fun b hb => ?_) hfs⟩
    obtain rfl | rfl : b = s ∨ b = t := by simpa using hb
    · exact ⟨hn.part .consequent, hstanding.wellFormed.2.2.1⟩
    · exact ⟨hn.part .alternative, hstanding.wellFormed.2.2.2.2⟩
  | loop e s i => exact ⟨hm, Γ, hs, hn.part .condition, .loopTest hs hn hfs⟩
  | function f => exact kept_declareFunction hm hs hn hfs
  | classDecl t superclass methods =>
    simp only [execute, deedsOfExec]
    cases hc : m.superclass superclass with
    | error e =>
      exact ⟨hm, .statement _, superclass_not_internal hstanding.wellFormed.2.1 hc, hfs⟩
    | ok c =>
      have hclass := kept_declareClass hm hf hs hn hfs (isSome_superclass hc)
      cases c <;> exact hclass
  | returning t value =>
    obtain ⟨hin, hvalue⟩ := hstanding.in_function
    cases value with
    | none => exact ⟨hm, .statement Γ, ⟨hs, hin, fun _ => rfl⟩, hfs⟩
    | some e => exact ⟨hm, Γ, hs, hn.part .returned, .returning hs hin (hvalue rfl) hfs⟩
  | breaking t => exact ⟨hm, .statement Γ, ⟨hs, hstanding.in_loop (.inl rfl)⟩, hfs⟩
  | continuing t => exact ⟨hm, .statement Γ, ⟨hs, hstanding.in_loop (.inr rfl)⟩, hfs⟩

theorem kept_finishAssign (hm : m.Kept programs o) {r : Reference} {x : Expr}
    (hn : Known programs Γ (.expr (.assign r x)))
    (hfs : Fits programs o .value m.environment fs) (v : Value) :
    (m.finishAssign fs r v).Kept programs o := by
  unfold finishAssign
  cases hh : m.holder? r with
  | none => exact ⟨hm, .value, undefinedVariable_not_internal _, hfs⟩
  | some e =>
    have hname := (hm.standing hn).wellFormed.1.not_super
    exact ⟨⟨hm.rooted, hm.distinct, hm.supers.define hname e v, hm.remembers.congr rfl rfl,
      hm.accepted⟩, .value, trivial, hfs⟩

theorem kept_testAgain (hm : m.Kept programs o) {c : Expr} {b : Stmt} {i : Option Expr}
    (hs : Stands o m.environment Γ.opens) (hn : Known programs Γ (.stmt (.loop c b i)))
    (hfs : Fits programs o (.statement Γ) m.environment fs) :
    (m.testAgain fs ⟨c, b, i⟩).Kept programs o :=
  ⟨hm, Γ, hs, hn.part .condition, .loopTest hs hn hfs⟩

theorem kept_afterBody (hm : m.Kept programs o) {c : Expr} {b : Stmt} {i : Option Expr}
    (hs : Stands o m.environment Γ.opens) (hn : Known programs Γ (.stmt (.loop c b i)))
    (hfs : Fits programs o (.statement Γ) m.environment fs) :
    (m.afterBody fs ⟨c, b, i⟩).Kept programs o := by
  cases i with
  | none => exact kept_testAgain hm hs hn hfs
  | some e => exact ⟨hm, Γ, hs, hn.part .increment, .loopStep hs hn hfs⟩

theorem kept_resumeValue (hm : m.Kept programs o) (hf : o.Faithful m.heap) {frame : Frame}
    (h : Fits programs o .value m.environment (frame :: fs)) (v : Value) :
    (m.resumeValue fs v frame).Kept programs (o.performAll (m.deedsOfResume v frame)) := by
  cases h with
  | unary hk hfs => exact kept_finish hm hfs fun _ => Operator.unary_not_internal hk
  | binaryLeft hk hs hn hfs => exact ⟨hm, _, hs, hn, .binaryRight hk hfs⟩
  | binaryRight hk hfs => exact kept_finish hm hfs fun _ => Operator.binary_not_internal hk
  | logical hs hn hfs =>
    simp only [resumeValue]
    split
    · exact ⟨hm, .value, trivial, hfs⟩
    · exact ⟨hm, _, hs, hn, hfs⟩
  | assign hs hn hfs => exact kept_finishAssign hm hn hfs v
  | @callee _ t xs _ _ hs hn hfs =>
    cases xs with
    | nil => exact kept_call hm hf hfs v t []
    | cons x rest =>
      exact ⟨hm, _, hs, hn x (.head _), .argument hs (fun y hy => hn y (.tail _ hy)) hfs⟩
  | @argument _ callee t vs xs _ _ hs hn hfs =>
    cases xs with
    | nil => exact kept_call hm hf hfs callee t (vs.push v).toList
    | cons x rest =>
      exact ⟨hm, _, hs, hn x (.head _), .argument hs (fun y hy => hn y (.tail _ hy)) hfs⟩
  | get hfs =>
    refine kept_finishProperty hm hf hfs (fun _ => property_not_internal) fun receiver f h => ?_
    obtain ⟨c, hc⟩ := property_method h
    exact ⟨_, hm.remembers.method? hc⟩
  | @setObject _ t _ _ _ hs hn hfs =>
    cases v with
    | object x => exact ⟨hm, _, hs, hn, .setValue hfs⟩
    | _ => exact ⟨hm, .value, by simp [Hole.Takes, RuntimeError.Internal], hfs⟩
  | setValue hfs =>
    exact ⟨⟨hm.rooted, hm.distinct, hm.supers.congr rfl, hm.remembers.congr rfl rfl, hm.accepted⟩,
      .value, trivial, hfs⟩
  | discard hs hfs => exact ⟨hm, .statement _, hs, hfs⟩
  | print hs hfs =>
    exact ⟨⟨hm.rooted, hm.distinct, hm.supers, hm.remembers, hm.accepted⟩, .statement _, hs, hfs⟩
  | varDecl hs hn hfs => exact kept_define hm hs hn rfl hfs v
  | @branch _ s alternative _ Γ hs hb hfs =>
    simp only [resumeValue]
    split
    · obtain ⟨hn, hd⟩ := hb s (.head _)
      exact ⟨hm, Γ, hs, hn, (Place.after_eq_self hd).symm ▸ hfs⟩
    · cases alternative with
      | none => exact ⟨hm, .statement Γ, hs, hfs⟩
      | some b =>
        obtain ⟨hn, hd⟩ := hb b (.tail _ (.head _))
        exact ⟨hm, Γ, hs, hn, (Place.after_eq_self hd).symm ▸ hfs⟩
  | @returning _ _ Γ hs hin hinit hfs =>
    exact ⟨hm, .statement Γ, ⟨hs, hin, fun h => absurd h hinit⟩, hfs⟩
  | @loopTest _ c b i _ Γ hs hn hfs =>
    simp only [resumeValue]
    split
    · have hd : b.declared? = none := (hm.standing hn).wellFormed.2.2.1
      exact ⟨hm, Γ.inLoop, hs, hn.part .repeated,
        (Place.after_eq_self hd).symm ▸ .loopBody hs hn hfs⟩
    · exact ⟨hm, .statement Γ, hs, hfs⟩
  | loopStep hs hn hfs => exact kept_testAgain hm hs hn hfs

/-- A frame that waits for a value passes a failure on to frames that fit. -/
theorem kept_pass {frame : Frame} (hm : m.Kept programs o)
    (h : Fits programs o .value m.environment (frame :: fs)) {e : RuntimeError}
    (he : ¬e.Internal) : (m.resume fs frame (.failed e)).Kept programs o := by
  cases h <;> exact ⟨hm, _, he, ‹_›⟩

theorem kept_resume (hm : m.Kept programs o) (hf : o.Faithful m.heap) {frame : Frame} {hole : Hole}
    {c : Completion} (ht : hole.Takes o m.environment c)
    (h : Fits programs o hole m.environment (frame :: fs)) :
    (m.resume fs frame c).Kept programs
      (o.performAll (Config.deeds ⟨m, .done c, frame :: fs⟩)) := by
  cases hole with
  | value =>
    cases c with
    | value v =>
      have hv : m.resume fs frame (.value v) = m.resumeValue fs v frame := by cases h <;> rfl
      exact hv ▸ kept_resumeValue hm hf h v
    | failed e => exact kept_pass hm h ht
    | _ => exact ht.elim
  | statement Δ =>
    rcases h.of_statement with ⟨x, b, i, Γ, rfl, rfl, hs, hn, hfs⟩ |
      ⟨rest, outer, rfl, hn, hlt, hl⟩
    · cases c with
      | value v => exact ht.elim
      | normal => exact kept_afterBody hm hs hn hfs
      | returned v => exact ⟨hm, .statement Γ, ht, hfs⟩
      | broken => exact ⟨hm, .statement Γ, hs, hfs⟩
      | continued => exact kept_afterBody hm hs hn hfs
      | failed e => exact ⟨hm, .statement Γ, ht, hfs⟩
    · have hout : Kept programs o { m with environment := outer } :=
        ⟨hm.rooted, hm.distinct, hm.supers, hm.remembers, hm.accepted⟩
      by_cases hc : c = .normal
      · subst hc
        exact kept_runBlock hm ht hn hlt hl
      · have hleave : m.resume fs (.block rest outer) c =
            ⟨{ m with environment := outer }, .done c, fs⟩ := by
          cases c <;> first | rfl | exact absurd rfl hc
        have hdeeds : Config.deeds ⟨m, .done c, .block rest outer :: fs⟩ = [] := by
          cases c <;> rfl
        rw [hleave, hdeeds]
        exact ⟨hout, hl.takes ht hc⟩
  | body kind =>
    cases h with
    | call hk hfs =>
      have hdone : Kept programs o { m with callDepth := m.callDepth - 1 } :=
        ⟨hm.rooted, hm.distinct, hm.supers, hm.remembers, hm.accepted⟩
      cases c with
      | normal => exact ⟨hdone, .value, trivial, hfs⟩
      | returned v => exact ⟨hdone, .value, trivial, hfs⟩
      | failed e => exact ⟨hdone, .value, ht, hfs⟩
      | _ => exact ht.elim

end Machine

/-- What is kept is kept by every step. -/
theorem Config.Kept.step {programs : List (List Stmt)} {o : Origins} {c : Config}
    (h : c.Kept programs o) (hf : o.Faithful c.machine.heap) :
    c.step.Kept programs (o.performAll c.deeds) := by
  obtain ⟨m, control, frames⟩ := c
  obtain ⟨hm, hc⟩ := h
  cases control with
  | eval e =>
    obtain ⟨Γ, hs, hn, hfs⟩ := hc
    exact Machine.kept_evaluate hm hf hs hn hfs
  | exec s =>
    obtain ⟨Γ, hs, hn, hfs⟩ := hc
    exact Machine.kept_execute hm hf hs hn hfs
  | done c =>
    obtain ⟨hole, ht, hfs⟩ := hc
    cases frames with
    | nil => cases c <;> exact ⟨hm, hole, ht, hfs⟩
    | cons frame frames => exact Machine.kept_resume hm hf ht hfs

end Lox
