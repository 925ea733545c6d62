import Lox.Proofs.Grammar.Bounds
import Lox.Proofs.Grammar.Concatenation
import Lox.Proofs.Scope.Table
import Lox.Proofs.Token.Concatenation
import Mathlib.Data.List.Nodup

/-! Identities over many parses.

Whatever its tokens are, a parse takes identities from a count that only goes up, and no tree holds
one of them twice. So all trees of a process have identities of their own, and when their notes are
taken over into a table, each entry is made once, for one occurrence. -/

namespace Lox

/-- Spells every token soundly. Reading looks at kinds only, so it draws the same identities. -/
def soundly : Respelling where
  node := id
  token t := { t with
    lexeme := if t.kind = .kwThis then "this" else if t.kind = .kwSuper then "super" else "" }
  kind _ := rfl
  literal _ := rfl

theorem sound_soundly (t : Token) : (soundly.token t).Sound := by
  refine ⟨fun hk => ?_, fun hk => ?_, fun hk => ?_⟩
  all_goals
    have hkind : t.kind = _ := hk
    simp [soundly, hkind]

/-- Any tokens at all give a tree with identities of its own. -/
theorem parse_drawn (tokens : List Token) (next : Nat) :
    Drawn next (parse tokens next).nextNode (Stmt.nodesOfAll (parse tokens next).statements) ∧
      next ≤ (parse tokens next).nextNode := by
  have hnode : ∀ i, soundly.node ⟨next + i⟩ = ⟨next + i⟩ := fun _ => rfl
  obtain ⟨used, hused, hparse⟩ := parse_respell hnode (closed_eof tokens)
  have hsound : ∀ t ∈ (closed tokens).map soundly.token, t.Sound :=
    List.forall_mem_map.mpr fun t _ => sound_soundly t
  have hproper := parse_proper hsound next
  rw [parse_closed] at hused hparse
  rw [hparse] at hproper
  have hnodes := Stmt.nodesOfAll_respell (f := soundly) (parse tokens next).statements
  rw [Stmt.respellAll_eq_map, show soundly.node = id from rfl, List.map_id] at hnodes
  have hdrawn := hproper.drawn
  rw [hnodes, ← hused] at hdrawn
  exact ⟨hdrawn, hused ▸ Nat.le_add_right next used⟩

/-- Token lists that are read one after another, each from the count that the one before it left. -/
def parseAll (next : Nat) : List (List Token) → List Parsed
  | [] => []
  | tokens :: rest => parse tokens next :: parseAll (parse tokens next).nextNode rest

/-- The trees of all these parses, with or without errors. -/
def treesOf (next : Nat) (lists : List (List Token)) : List (List Stmt) :=
  (parseAll next lists).map (·.statements)

theorem treesOf_drawn (lists : List (List Token)) : ∀ next : Nat,
    ∃ hi, next ≤ hi ∧ Drawn next hi ((treesOf next lists).flatMap Stmt.nodesOfAll) := by
  induction lists with
  | nil => exact fun next => ⟨next, Nat.le_refl _, .nil _ _⟩
  | cons tokens rest ih =>
    intro next
    obtain ⟨hfirst, hle⟩ := parse_drawn tokens next
    obtain ⟨hi, hle', hrest⟩ := ih (parse tokens next).nextNode
    exact ⟨hi, Nat.le_trans hle hle', hfirst.append hrest hle hle'⟩

/-- What is noted of many trees is about nodes of these, each noted once at most. -/
theorem noted_flatMap_subperm (programs : List (List Stmt)) :
    (noted (programs.flatMap analyse)).Subperm (programs.flatMap Stmt.nodesOfAll) := by
  induction programs with
  | nil => exact .refl _
  | cons program rest ih =>
    rw [List.flatMap_cons, List.flatMap_cons, noted_append]
    exact (Stmt.notedOfAll_subperm _ _ program).append ih

/-- Notes that make each entry of a table once, for one occurrence. -/
structure RecordedOnce (notes : List ScopeNote) : Prop where
  /-- No depth is recorded over another. -/
  fresh : ∀ (before after : List ScopeNote) (target : Reference) (depth : Nat),
    notes = before ++ .bound target (some depth) :: after →
      (Depths.empty.recordAll before).get? target.node = none
  /-- An entry is that of one note, and no other is about its node. -/
  single : ∀ (n : NodeId) (depth : Nat), (Depths.empty.recordAll notes).get? n = some depth →
    ∃ before target after, notes = before ++ .bound target (some depth) :: after ∧
      target.node = n ∧ n ∉ noted before ∧ n ∉ noted after

theorem Depths.get?_empty (n : NodeId) : Depths.empty.get? n = none := rfl

theorem recordedOnce_of_nodup {notes : List ScopeNote} (h : (noted notes).Nodup) :
    RecordedOnce notes := by
  have hsplit {before after : List ScopeNote} {target : Reference} {depth : Option Nat}
      (he : notes = before ++ .bound target depth :: after) :
      target.node ∉ noted before ∧ target.node ∉ noted after := by
    rw [he, noted_append] at h
    have hnoted : noted (.bound target depth :: after) = target.node :: noted after := rfl
    rw [hnoted, List.nodup_append] at h
    obtain ⟨-, hafter, hapart⟩ := h
    exact ⟨fun hb => hapart _ hb _ (.head _) rfl, (List.nodup_cons.mp hafter).1⟩
  constructor
  case fresh =>
    intro before after target depth he
    rw [Depths.get?_recordAll _ _ _ (hsplit he).1, Depths.get?_empty]
  case single =>
    intro n depth hn
    have hmem : n ∈ noted notes := by
      by_contra hnot
      rw [Depths.get?_recordAll _ _ _ hnot, Depths.get?_empty] at hn
      cases hn
    obtain ⟨note, hnote, hnode⟩ := List.mem_filterMap.mp hmem
    cases note with
    | error e => cases hnode
    | bound target bound =>
      obtain rfl := Option.some.inj hnode
      have hread := Depths.get?_recordAll_of_bound notes Depths.empty h
        (fun n _ => Depths.get?_empty n) hnote
      obtain rfl : bound = some depth := hread.symm.trans hn
      obtain ⟨before, after, he⟩ := List.append_of_mem hnote
      exact ⟨before, target, after, he, rfl, hsplit he⟩

/-- In a process that reads any lists of tokens, faulty or not, no two nodes of the trees have the
same identity. Analysis binds no node of a program more often than it occurs; so in a table that
takes over the notes of any programs made of these trees, no depth is recorded over another, and
each entry is that of one note about one occurrence. -/
theorem identities_are_resolved_once (next : Nat) (lists : List (List Token)) :
    ((treesOf next lists).flatMap Stmt.nodesOfAll).Nodup ∧
      (∀ program, (noted (analyse program)).Subperm (Stmt.nodesOfAll program)) ∧
      ∀ programs : List (List Stmt),
        (programs.flatMap Stmt.nodesOfAll).Subperm ((treesOf next lists).flatMap Stmt.nodesOfAll) →
          RecordedOnce (programs.flatMap analyse) ∧
          ∀ n depth, (Depths.empty.recordAll (programs.flatMap analyse)).get? n = some depth →
            ((treesOf next lists).flatMap Stmt.nodesOfAll).count n = 1 := by
  obtain ⟨hi, -, hdrawn⟩ := treesOf_drawn lists next
  have hnodup := hdrawn.nodup
  refine ⟨hnodup, Stmt.notedOfAll_subperm _ _, fun programs hamong => ?_⟩
  have hnoted := (noted_flatMap_subperm programs).trans hamong
  have honce := recordedOnce_of_nodup (hdrawn.subperm hnoted).nodup
  refine ⟨honce, fun n depth hn => ?_⟩
  obtain ⟨before, target, after, hnotes, rfl, -, -⟩ := honce.single n depth hn
  have hmem : target.node ∈ noted (programs.flatMap analyse) := by
    rw [hnotes, noted_append]
    exact List.mem_append_right _ (.head _)
  exact List.count_eq_one_of_mem hnodup (hnoted.subset hmem)

/-- The first text has an error, and the class that it declares is dropped with the identity of its
superclass. The second has an assignment, whose target was read as a variable first. -/
theorem identities_are_resolved_once_after_an_error :
    ∃ lists : List (List Token),
      lists = [tokensOf "class A < B { ; } { var a; a; }", tokensOf "{ var b; b = b; }"] ∧
      (parseAll 0 lists).map (fun p => (p.errors.isEmpty, p.nextNode)) =
        [(false, 2), (true, 5)] ∧
      noted ((treesOf 0 lists).flatMap analyse) = [⟨1⟩, ⟨3⟩, ⟨4⟩] ∧
      RecordedOnce ((treesOf 0 lists).flatMap analyse) := by
  refine ⟨_, rfl, ?_, ?_, ?_⟩
  · decide +kernel
  · decide +kernel
  · exact ((identities_are_resolved_once 0 _).2.2 _ (.refl _)).1

end Lox
