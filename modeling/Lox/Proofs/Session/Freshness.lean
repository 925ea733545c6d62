import Lox.Proofs.Session.Invariant
import Lox.Proofs.Session.Requests

/-! Identities that are not drawn yet.

Nothing that a session holds has an identity from its counter on, so these may be moved: a session
with a later counter, and with other entries in its table of depths from its own counter on, is the
same session under another naming. -/

namespace Lox

/-- Identities from the given one on become higher ones. -/
def shift (start count : Nat) (n : NodeId) : NodeId :=
  if n.index < start then n else ⟨n.index + count⟩

theorem shift_injective (start count : Nat) : (shift start count).Injective := by
  rintro ⟨i⟩ ⟨j⟩ h
  unfold shift at h
  split at h <;> split at h <;> simp_all <;> omega

theorem shift_below {start count : Nat} {n : NodeId} (h : n.index < start) :
    shift start count n = n := if_pos h

theorem shift_above (start count i : Nat) : shift start count ⟨start + i⟩ = ⟨start + count + i⟩ := by
  rw [shift, if_neg (by simp), Nat.add_right_comm]

/-- The tables agree on what is drawn, and hold nothing from their own counters on. -/
theorem Depths.Below.renames_shift {d d' : Depths} {start count : Nat} (hd : d.Below start)
    (hd' : d'.Below (start + count)) (hsame : ∀ n : NodeId, n.index < start → d'.get? n = d.get? n) :
    d.Renames (shift start count) d' := by
  intro n
  by_cases hn : n.index < start
  · rw [shift_below hn, hsame n hn]
  · rw [shift, if_neg hn, hd n (Nat.not_lt.mp hn)]
    exact hd' _ (Nat.add_le_add_right (Nat.not_lt.mp hn) count)

section

variable {programs : List (List Stmt)} {o : Origins} {g : NodeId → NodeId}

theorem Known.relabel_callable {Γ : Place} {kind : FunctionContext} {f : FunctionDecl}
    (hn : Known programs Γ (.callable kind f))
    (hg : ∀ p ∈ programs, ∀ n ∈ Stmt.nodesOfAll p, g n = n) : f.relabel (.ofNodes g) = f := by
  obtain ⟨p, hp, hmeets⟩ := hn
  exact f.relabel_eq_self fun n hn => hg p hp n (hmeets.nodes hn)

/-- Every function and method of a heap that remembers its programs comes from one of them. -/
theorem Heap.Remembers.rename_eq_self {h : Heap} (hr : h.Remembers programs o)
    (hg : ∀ p ∈ programs, ∀ n ∈ Stmt.nodesOfAll p, g n = n) : h.rename g = h := by
  refine Heap.rename_eq_self (fun f closure hf => ?_) fun c cls name method hc hm => ?_
  · obtain ⟨Γ, kind, hn, -⟩ := hr.functions f closure hf
    rw [Closure.rename, hn.relabel_callable hg]
  · obtain ⟨Γ, outer, hn, -⟩ := hr.methods c cls name method hc hm
    rw [Closure.rename, hn.relabel_callable hg]

theorem Machine.Ready.rename_heap {m : Machine} {start : Nat} (h : m.Ready programs o start)
    (count : Nat) : m.heap.rename (shift start count) = m.heap :=
  h.kept.remembers.rename_eq_self fun p hp n hn => shift_below (h.drawn p hp n hn)

theorem Machine.Ready.rename_machine {m : Machine} {start : Nat} (h : m.Ready programs o start)
    (count : Nat) (d : Depths) : m.rename (shift start count) d = { m with depths := d } := by
  rw [Machine.rename, h.rename_heap]

/-- A later counter and stale entries in the table are another naming of the same session. -/
theorem Session.Renames.of_later {s : Session} (h : s.machine.Ready programs o s.nextNode)
    {d : Depths} (count : Nat) (hd : d.Below (s.nextNode + count))
    (hsame : ∀ n : NodeId, n.index < s.nextNode → d.get? n = s.machine.depths.get? n) :
    s.Renames (shift s.nextNode count)
      ⟨{ s.machine with depths := d }, s.report, s.nextNode + count⟩ := by
  have hr := Renames.intro (s := s) d (s.nextNode + count) (h.below.renames_shift hd hsame)
    (shift_above s.nextNode count)
  rwa [rename, h.rename_machine] at hr

end

/-- A session that has read and analysed a text, whatever it reported of that. -/
def Session.noting (s : Session) (p : Parsed) : Session :=
  ⟨{ s.machine with depths := s.machine.depths.recordAll (analyse p.statements) }, s.report,
    p.nextNode⟩

@[simp] theorem Session.noting_printed (s : Session) (p : Parsed) :
    (s.noting p).machine.printed = s.machine.printed := rfl

@[simp] theorem Session.noting_report (s : Session) (p : Parsed) :
    (s.noting p).report = s.report := rfl

@[simp] theorem Session.noting_nextNode (s : Session) (p : Parsed) :
    (s.noting p).nextNode = p.nextNode := rfl

/-- Reading and analysing a text draws identities and enters depths of these only. -/
theorem Parsed.Proper.renames {p : Parsed} {s : Session} {programs : List (List Stmt)} {o : Origins}
    (hp : p.Proper s.nextNode) (h : s.machine.Ready programs o s.nextNode) :
    ∃ count, p.nextNode = s.nextNode + count ∧
      s.Renames (shift s.nextNode count) (s.noting p) := by
  obtain ⟨count, hcount⟩ := Nat.exists_eq_add_of_le hp.nextNode
  obtain ⟨hbelow, hsame, -⟩ := Depths.recordAll_analyse hp.drawn h.below hp.nextNode
  rw [Session.noting, hcount] at *
  exact ⟨count, rfl, .of_later h count hbelow hsame⟩

/-- What is executed before the identities of a text are used does not depend on them. -/
theorem Activity.Reachable.execute?_noting {o : Origins} {programs : List (List Stmt)} {s : Session}
    {ss : List Stmt} (h : Activity.Reachable o programs (.between s ss)) {p : Parsed}
    (hp : p.Proper s.nextNode) (steps : Nat) :
    (s.noting p).execute? steps ss = (s.execute? steps ss).map (·.noting p) := by
  obtain ⟨hm, -, q, hq, hmeets⟩ := h.invariant
  obtain ⟨count, hcount⟩ := Nat.exists_eq_add_of_le hp.nextNode
  obtain ⟨hbelow, hsame, -⟩ := Depths.recordAll_analyse hp.drawn hm.below hp.nextNode
  rw [hcount] at hbelow
  have hss : ss.map (Stmt.relabel (.ofNodes (shift s.nextNode count))) = ss := by
    rw [← Stmt.relabelAll_eq_map]
    exact Stmt.relabelAll_eq_self ss fun n hn =>
      shift_below (hm.drawn q hq n (hmeets.nodes (by simpa [Node.nodes] using hn)))
  have hrun := Session.execute?_rename steps p.nextNode ss
    (hm.below.renames_shift hbelow hsame)
  rw [hss, Session.rename, hm.rename_machine] at hrun
  refine hrun.trans ?_
  rcases ht : s.execute? steps ss with _ | t
  · rfl
  · obtain ⟨o', hwaiting⟩ := h.execute? ht
    obtain ⟨hdepths, hnext⟩ := Session.execute?_table ss ht
    have hready := hwaiting.invariant.1
    rw [hnext] at hready
    rw [Option.map_some, Option.map_some, Session.rename, hready.rename_machine, Session.noting,
      hdepths]

end Lox
