import Lox.Proofs.Session.Outcomes
import Lox.Proofs.Session.Respelling
import Lox.Proofs.Token.Renaming

/-! The occurrences of a local variable in a text.

A token knows its line, but two tokens of one line can look the same. To tell an occurrence from
others, a text is read with the numbers of its tokens for their lines. What is found out about such
a program holds of the text itself, which is the same program on other lines. -/

namespace Lox

/-- The tokens, with their numbers from the given one on for lines. -/
def numbered (first : Nat) (ts : List Token) : List Token :=
  ts.mapIdx fun i t => { t with line := first + i }

/-- Puts the lines back in the places of the numbers. -/
def unnumbering (first : Nat) (ts : List Token) : Relabelling where
  node := id
  line k := if k < first then k else (ts[k - first]?.map (·.line)).getD k

/-- Numbers from another one on, and identities from another one on. -/
def renumbering (first next : Nat) : Relabelling where
  node n := ⟨next + n.index⟩
  line k := first + k

section Numbers

variable {first : Nat} {ts : List Token}

theorem mem_numbered {t : Token} :
    t ∈ numbered first ts ↔
      ∃ (i : Nat) (u : Token), ts[i]? = some u ∧ t = { u with line := first + i } := by
  refine List.mem_mapIdx.trans ⟨fun ⟨i, hi, ht⟩ => ⟨i, ts[i], List.getElem?_eq_getElem hi, ht.symm⟩,
    fun ⟨i, u, hu, ht⟩ => ?_⟩
  obtain ⟨hi, rfl⟩ := List.getElem?_eq_some_iff.mp hu
  exact ⟨i, hi, ht.symm⟩

theorem numbered_eof (first : Nat) (h : ∃ t ∈ ts, t.kind = .eof) : ∃ t ∈ numbered first ts, t.kind = .eof := by
  obtain ⟨t, ht, hk⟩ := h
  obtain ⟨i, hi⟩ := List.mem_iff_getElem?.mp ht
  exact ⟨_, mem_numbered.mpr ⟨i, t, hi, rfl⟩, hk⟩

theorem numbered_sound (h : ∀ t ∈ ts, t.Sound) : ∀ t ∈ numbered first ts, t.Sound := by
  intro t ht
  obtain ⟨i, u, hu, rfl⟩ := mem_numbered.mp ht
  have hsound := h u (List.mem_of_getElem? hu)
  exact ⟨hsound.name, hsound.receiver, hsound.superclass⟩

theorem nodup_numbered : ((numbered first ts).map (·.line)).Nodup := by
  have hlines : (numbered first ts).map (·.line) = List.range' first ts.length :=
    List.ext_getElem (by simp [numbered]) fun i _ _ => by simp [numbered]
  rw [hlines]
  exact List.nodup_range'

theorem numbered_eq_map (first next : Nat) (ts : List Token) :
    numbered first ts = (numbered 0 ts).map (Token.relabel (renumbering first next)) :=
  List.ext_getElem (by simp [numbered]) fun i _ _ => by
    simp [numbered, Token.relabel, renumbering]

theorem renumbering_injective (first next : Nat) :
    Function.Injective (renumbering first next).respelling.token := by
  rintro ⟨kind, lexeme, literal, line⟩ ⟨kind', lexeme', literal', line'⟩ h
  obtain ⟨rfl, rfl, rfl, hline⟩ := Token.mk.injEq .. ▸ h
  obtain rfl := Nat.add_left_cancel hline
  rfl

theorem relabel_unnumbering (first : Nat) {i : Nat} {t : Token} (h : ts[i]? = some t) :
    Token.relabel (unnumbering first ts) { t with line := first + i } = t := by
  have hline : (unnumbering first ts).line (first + i) = t.line := by
    simp [unnumbering, h, Nat.not_lt.mpr (Nat.le_add_right first i)]
  rw [Token.relabel, hline]

theorem map_unnumbering (first : Nat) (ts : List Token) :
    (numbered first ts).map (Token.relabel (unnumbering first ts)) = ts :=
  List.ext_getElem (by simp [numbered]) fun i _ hi => by
    simpa [numbered] using relabel_unnumbering first (List.getElem?_eq_getElem hi)

end Numbers

/-- The names of a text, each with the number of its token for a line. -/
def namesOf (source : String) : List Naming :=
  namings (parse (numbered 0 (tokensOf source)) 0).statements

/-- A numbered token of a text declares a local variable or a parameter. -/
def DeclaresLocal (source : String) (x : Token) : Prop := (⟨x, some x⟩ : Naming) ∈ namesOf source

instance (source : String) (x : Token) : Decidable (DeclaresLocal source x) :=
  inferInstanceAs (Decidable (_ ∈ _))

/-- The token with this number is the declaration itself or an occurrence that is bound to it. -/
def boundTo (source : String) (x : Token) (i : Nat) : Bool :=
  (namesOf source).any fun n => n.name.line == i && n.declaration == some x

/-- The text with another name for a local variable. -/
def renamed (source : String) (x : Token) (y : String) : String :=
  respelled (boundTo source x) y source

section Texts

variable {source : String}

theorem numbered_proper (source : String) (first next : Nat) :
    (parse (numbered first (tokensOf source)) next).Proper next :=
  parse_proper (numbered_sound fun _ ht => scan_sound ht) next

/-- A clean text is as clean with numbers for lines. -/
theorem Clean.numbered (h : Clean source) (first next : Nat) :
    (Lox.parse (numbered first (tokensOf source)) next).errors = [] ∧
      Accepted (analyse (Lox.parse (numbered first (tokensOf source)) next).statements) := by
  have hsame : ∀ i, (unnumbering first (tokensOf source)).node ⟨next + i⟩ = ⟨next + i⟩ := fun _ => rfl
  obtain ⟨used, -, hp⟩ := parse_relabel hsame (numbered_eof first (tokensOf_eof source))
  obtain ⟨herrors, haccepted⟩ := h.parse next
  rw [map_unnumbering] at hp
  generalize Lox.parse (Lox.numbered first (tokensOf source)) next = p at hp ⊢
  rw [hp] at herrors haccepted
  rw [analyse_relabel] at haccepted
  exact ⟨List.map_eq_nil_iff.mp herrors, accepted_of_relabel haccepted⟩

/-- Numbers from another one on make no difference to the names. -/
theorem namings_numbered (source : String) (first next : Nat) :
    namings (parse (numbered first (tokensOf source)) next).statements =
      (namesOf source).map (Naming.respell (renumbering first next).respelling) := by
  have hnode : ∀ i, (renumbering first next).node ⟨0 + i⟩ = ⟨next + i⟩ := fun i => by
    simp [renumbering]
  obtain ⟨used, -, hp⟩ := parse_relabel hnode (numbered_eof 0 (tokensOf_eof source))
  rw [← numbered_eq_map] at hp
  rw [hp, Stmt.relabel_eq, namings_respell fun _ => rfl, namesOf]

theorem proper_namesOf (source : String) : ∀ n ∈ namesOf source, n.Proper :=
  proper_namings (numbered_proper source 0 0).wellFormed

namespace Clean

/-- A name has the number that it has among the tokens. -/
theorem token_of_name (h : Clean source) {n : Naming} (hn : n ∈ namesOf source) :
    ∃ t, (tokensOf source)[n.name.line]? = some t ∧ n.name = { t with line := n.name.line } := by
  have hspells := spells_of_parse (h.numbered 0 0).1
  rw [namesOf] at hn
  generalize Lox.parse (Lox.numbered 0 (tokensOf source)) 0 = p at hn hspells
  have hmem := (names_subperm hspells).subset (List.mem_map_of_mem hn)
  obtain ⟨i, t, ht, hname⟩ := mem_numbered.mp ((List.takeWhile_sublist _).subset hmem)
  rw [Nat.zero_add] at hname
  refine ⟨t, ?_, ?_⟩
  · rw [hname]
    exact ht
  · rw [hname]

theorem name_unique (h : Clean source) {n m : Naming} (hn : n ∈ namesOf source)
    (hm : m ∈ namesOf source) (hline : n.name.line = m.name.line) : n = m := by
  have hspells := spells_of_parse (h.numbered 0 0).1
  rw [namesOf] at hn hm
  generalize Lox.parse (Lox.numbered 0 (tokensOf source)) 0 = p at hn hm hspells
  exact naming_unique hspells (nodup_numbered.sublist ((List.takeWhile_sublist _).map _)) hn hm hline

theorem boundTo_iff (h : Clean source) {n : Naming} (hn : n ∈ namesOf source) (x : Token) :
    boundTo source x n.name.line = true ↔ n.declaration = some x := by
  constructor
  · intro hb
    obtain ⟨m, hm, he⟩ := List.any_eq_true.mp hb
    obtain ⟨hline, hdeclaration⟩ : m.name.line = n.name.line ∧ m.declaration = some x := by
      simpa using he
    rwa [← h.name_unique hm hn hline]
  · intro hdeclaration
    exact List.any_eq_true.mpr ⟨n, hn, by simp [hdeclaration]⟩

/-- What is bound to a local variable is an identifier that is spelled like it. -/
theorem token_of_boundTo (h : Clean source) {x t : Token} {i : Nat}
    (ht : (tokensOf source)[i]? = some t) (hb : boundTo source x i = true) :
    t.kind = .identifier ∧ t.lexeme = x.lexeme := by
  obtain ⟨n, hn, he⟩ := List.any_eq_true.mp hb
  obtain ⟨rfl, hdeclaration⟩ : n.name.line = i ∧ n.declaration = some x := by simpa using he
  obtain ⟨u, hu, hname⟩ := h.token_of_name hn
  obtain rfl := Option.some.inj (ht.symm.trans hu)
  obtain ⟨hisName, hlexeme⟩ := proper_namesOf source n hn x hdeclaration
  rw [hname] at hisName hlexeme
  exact ⟨hisName.kind, hlexeme.symm⟩

end Clean

end Texts

end Lox
