import Lox.Proofs.Machine.Preservation
import Lox.Proofs.Session.Reachable
import Lox.Proofs.Session.Stages

/-! What holds in every state that a session can come to. -/

namespace Lox

/-- Between the steps of a session. -/
structure Machine.Ready (programs : List (List Stmt)) (o : Origins) (m : Machine)
    (nextNode : Nat) : Prop where
  faithful : o.Faithful m.heap
  kept : m.Kept programs o
  below : m.depths.Below nextNode
  drawn : ∀ p ∈ programs, ∀ n ∈ Stmt.nodesOfAll p, n.index < nextNode

/-- Between two statements the globals are the current environment. -/
def Activity.Invariant (programs : List (List Stmt)) (o : Origins) : Activity → Prop
  | .waiting s => s.machine.Ready programs o s.nextNode ∧ s.machine.environment = Heap.globals
  | .between s rest => s.machine.Ready programs o s.nextNode ∧
    s.machine.environment = Heap.globals ∧ Known programs .top (.body rest)
  | .running c rest _ nextNode => c.machine.Ready programs o nextNode ∧
    c.control.Stands programs o c.machine.environment c.frames ∧ Known programs .top (.body rest)

@[simp] theorem Place.after_top (s : Stmt) : Place.top.after s = .top := by
  unfold Place.after
  split <;> rfl

theorem Fits.of_nil {programs : List (List Stmt)} {o : Origins} {hole : Hole} {e : EnvironmentId}
    (h : Fits programs o hole e []) : hole = .statement .top ∧ e = Heap.globals := by
  cases h
  exact ⟨rfl, rfl⟩

namespace Machine.Ready

variable {programs : List (List Stmt)} {o : Origins} {m : Machine} {nextNode : Nat}

theorem start (now : Nat → Number) : (Machine.initial now).Ready [] Origins.start 0 := by
  have hof : ∀ e origin, Origins.start.of? e = some origin →
      e = Heap.globals ∧ origin = ⟨⟨.globals, []⟩, none⟩ := by
    rintro ⟨i⟩ origin h
    cases i with
    | zero => exact ⟨rfl, (Option.some.inj h).symm⟩
    | succ i => simp [Origins.start, Origins.of?] at h
  refine ⟨⟨rfl, fun e origin ho => ?_, fun e origin ho hg => ?_⟩,
    ⟨⟨[], rfl⟩, fun e origin ho hg => ?_, fun e origin ho hk => ?_, ⟨fun f c hc => ?_,
      fun c cls x f hc => ?_⟩, by simp⟩, fun n _ => ?_, by simp⟩
  · obtain ⟨rfl, rfl⟩ := hof e origin ho
    rfl
  · exact absurd (hof e origin ho).1 hg
  · exact absurd (hof e origin ho).1 hg
  · obtain ⟨rfl, rfl⟩ := hof e origin ho
    cases hk
  · cases hc
  · cases hc
  · simp [Machine.initial, Depths.empty, Depths.get?]

theorem later (h : m.Ready programs o nextNode) {next : Nat} (hle : nextNode ≤ next) :
    m.Ready programs o next :=
  ⟨h.faithful, h.kept, fun n hn => h.below n (Nat.le_trans hle hn),
    fun p hp n hn => Nat.lt_of_lt_of_le (h.drawn p hp n hn) hle⟩

/-- What a program noted earlier is not disturbed by the notes of another one. -/
theorem resolved (h : m.Ready programs o nextNode) {p : Parsed} (hp : p.Proper nextNode) :
    Ready programs o { m with depths := m.depths.recordAll (analyse p.statements) } p.nextNode := by
  obtain ⟨hbelow, hsame, -⟩ := Depths.recordAll_analyse hp.drawn h.below hp.nextNode
  refine ⟨h.faithful, ⟨h.kept.rooted, h.kept.distinct, h.kept.supers, h.kept.remembers,
    fun q hq => ⟨(h.kept.accepted q hq).1, fun note hn => ?_⟩⟩, hbelow,
    fun q hq n hn => Nat.lt_of_lt_of_le (h.drawn q hq n hn) hp.nextNode⟩
  have hholds := (h.kept.accepted q hq).2 note hn
  cases note with
  | error e => exact hholds
  | bound target depth =>
    have hnoted : target.node ∈ noted (analyse q) := List.mem_filterMap.mpr ⟨_, hn, rfl⟩
    have hnode := (Stmt.notedOfAll_subperm .topLevel [] q).subset hnoted
    exact (hsame target.node (h.drawn q hq _ hnode)).trans hholds

theorem accepted (h : m.Ready programs o nextNode) {p : Parsed} (hp : p.Proper nextNode)
    (ha : Accepted (analyse p.statements)) :
    Ready (p.statements :: programs) o
      { m with depths := m.depths.recordAll (analyse p.statements) } p.nextNode := by
  have hresolved := h.resolved hp
  have hnotes := (Depths.recordAll_analyse hp.drawn h.below hp.nextNode).2.2 ha
  refine ⟨hresolved.faithful, ⟨hresolved.kept.rooted, hresolved.kept.distinct,
    hresolved.kept.supers, hresolved.kept.remembers.mono (List.subset_cons_self _ _), ?_⟩,
    hresolved.below, ?_⟩
  · rintro q (_ | ⟨_, hq⟩)
    · exact ⟨hp.wellFormed, hnotes⟩
    · exact hresolved.kept.accepted q hq
  · rintro q (_ | ⟨_, hq⟩) n hn
    · exact (hp.drawn.range n hn).2
    · exact hresolved.drawn q hq n hn

theorem step {c : Config} (h : c.machine.Ready programs o nextNode)
    (hc : c.control.Stands programs o c.machine.environment c.frames) :
    c.step.machine.Ready programs (o.performAll c.deeds) nextNode ∧
      c.step.control.Stands programs (o.performAll c.deeds) c.step.machine.environment
        c.step.frames := by
  have hkept := Config.Kept.step ⟨h.kept, hc⟩ h.faithful
  have henv : ∀ s, c.control = .exec s →
      (c.machine.heap.environment? c.machine.environment).isSome = true := by
    intro s hs
    rw [hs] at hc
    obtain ⟨Γ, hstands, -⟩ := hc
    have hlt := hstands.chain.index_lt h.kept.rooted
    rw [h.faithful.size] at hlt
    simpa [Heap.environment?] using hlt
  exact ⟨⟨Config.step_faithful h.faithful henv, hkept.machine,
    (Config.depths_step c).symm ▸ h.below, h.drawn⟩, hkept.control⟩

end Machine.Ready

/-- Every state that can be reached satisfies the invariant. -/
theorem Activity.Reachable.invariant {o : Origins} {programs : List (List Stmt)} {a : Activity}
    (h : Activity.Reachable o programs a) : a.Invariant programs o := by
  induction h with
  | start now => exact ⟨.start now, rfl⟩
  | adjusted printed maxCallDepth now report _ ih =>
    obtain ⟨hm, he⟩ := ih
    exact ⟨⟨hm.faithful, ⟨hm.kept.rooted, hm.kept.distinct, hm.kept.supers, hm.kept.remembers,
      hm.kept.accepted⟩, hm.below, hm.drawn⟩, he⟩
  | @unread o programs s source _ _ ih =>
    have hp := s.read_proper source
    rw [Session.read_eq]
    generalize parse (tokensOf source) s.nextNode = p at hp
    exact ⟨ih.1.later hp.nextNode, ih.2⟩
  | @refused o programs s source _ _ _ ih =>
    have hp := s.read_proper source
    rw [Session.read_eq]
    generalize parse (tokensOf source) s.nextNode = p at hp
    exact ⟨ih.1.resolved hp, ih.2⟩
  | @accepted o programs s source _ _ hquiet ih =>
    have hp := s.read_proper source
    rw [Session.read_eq] at hquiet ⊢
    generalize parse (tokensOf source) s.nextNode = p at hp hquiet
    exact ⟨ih.1.accepted hp (Session.resolve_quiet hquiet).2, ih.2, _, .head _, .top⟩
  | finished _ ih => exact ⟨ih.1, ih.2.1⟩
  | begun _ ih =>
    obtain ⟨hm, he, hn⟩ := ih
    refine ⟨hm, ⟨.top, ?_, hn.part .first, ?_⟩, by simpa using hn.part .rest⟩
    · exact he ▸ ⟨.globals, by simp [Place.top]⟩
    · simpa [he] using Fits.top
  | step _ ih => exact ⟨(ih.1.step ih.2.1).1, (ih.1.step ih.2.1).2, ih.2.2⟩
  | completed hc _ ih =>
    obtain ⟨hm, ⟨hole, -, hfs⟩, hn⟩ := ih
    exact ⟨hm, hfs.of_nil.2, hn⟩
  | failed _ ih =>
    obtain ⟨hm, ⟨hole, -, hfs⟩, hn⟩ := ih
    exact ⟨hm, hfs.of_nil.2⟩

end Lox
