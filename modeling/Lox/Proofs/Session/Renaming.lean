import Lox.Proofs.Session.Numbering

/-! Another name for a local variable.

The text and the renamed text are one program of numbered tokens, respelled in two ways. What that
program does in a session, either text does, at its own tokens. -/

namespace Lox

section Respellings

namespace Respelling

/-- Numbered tokens become those of a text again, and picked ones get another lexeme. -/
def unnumber (first : Nat) (ts : List Token) (picked : Nat → Bool) (y : String) : Respelling where
  node := id
  token t := (t.relabel (unnumbering first ts)).respelledAt
    (fun k => decide (first ≤ k) && picked (k - first)) y t.line
  kind t := by
    unfold Token.respelledAt
    split <;> rfl
  literal t := by
    unfold Token.respelledAt
    split <;> rfl

variable {first : Nat} {ts : List Token} {picked : Nat → Bool} {y : String}

theorem unnumber_token {i : Nat} {t : Token} (h : ts[i]? = some t) :
    (unnumber first ts picked y).token { t with line := first + i } =
      t.respelledAt picked y i := by
  simp only [unnumber, relabel_unnumbering first h]
  simp [Token.respelledAt]

theorem map_unnumber (first : Nat) (ts : List Token) (picked : Nat → Bool) (y : String) :
    (numbered first ts).map (unnumber first ts picked y).token =
      ts.mapIdx (Token.respelledAt picked y) :=
  List.ext_getElem (by simp [numbered]) fun i _ hi => by
    rw [List.length_mapIdx] at hi
    simpa [numbered] using unnumber_token (List.getElem?_eq_getElem hi)

/-- Tokens of smaller numbers are other tokens. -/
theorem unnumber_below {t : Token} (h : t.line < first) :
    (unnumber first ts picked y).token t = t := by
  have hline : (unnumbering first ts).line t.line = t.line := if_pos h
  simp [unnumber, Token.respelledAt, Token.relabel, hline, Nat.not_le.mpr h]

theorem unnumber_keepsTexts : (unnumber first ts (fun _ => false) y).KeepsTexts := by
  intro t
  simp [unnumber, Token.respelledAt, Token.relabel]

/-- Names that keep their texts are respected. -/
theorem Respects.of_kept {f : Respelling} {ns : List Naming} (hp : ∀ n ∈ ns, n.Proper)
    (hk : ∀ n ∈ ns, (f.token n.name).lexeme = n.name.lexeme) : f.Respects id ns where
  free n hn _ := hk n hn
  bound n hn t ht hd := by
    obtain ⟨m, hm, rfl, -⟩ := hd
    rw [hk n hn, hk m hm, (hp n hn _ ht).2]
  undone := hk
  receiver := rfl
  superclass := rfl

/-- What a session held before a text was read is left alone. -/
structure Spares (f : Respelling) (programs : List (List Stmt)) (o : Origins) (h : Heap) :
    Prop where
  node : ∀ n, f.node n = n
  names : ∀ p ∈ programs, ∀ n ∈ namings p, (f.token n.name).lexeme = n.name.lexeme
  heap : ∀ t ∈ h.tokens, f.token t = t
  binders : ∀ e origin, o.of? e = some origin → ∀ b ∈ origin.scope.binders,
    (b.respell f).name = b.name

theorem Spares.of_keepsTexts {f : Respelling} {programs : List (List Stmt)} {o : Origins} {h : Heap}
    (hf : f.KeepsTexts) (hn : ∀ n, f.node n = n) (hh : ∀ t ∈ h.tokens, f.token t = t) :
    f.Spares programs o h :=
  ⟨hn, fun _ _ _ _ => hf _, hh, fun _ _ _ _ _ => Binder.name_respell hf _⟩

end Respelling

/-- The tokens of the declarations that environments were made for. -/
def Origins.tokens (o : Origins) : List Token :=
  o.toList.flatMap fun origin => origin.scope.binders.filterMap fun
    | .named t => some t
    | .receiver | .superclass => none

theorem exists_line_above (ts : List Token) : ∃ first, ∀ t ∈ ts, t.line < first := by
  induction ts with
  | nil => exact ⟨0, List.forall_mem_nil _⟩
  | cons t rest ih =>
    obtain ⟨first, hrest⟩ := ih
    refine ⟨max first (t.line + 1), List.forall_mem_cons.mpr ⟨by omega, fun u hu => ?_⟩⟩
    have hline := hrest u hu
    omega

/-- Numbers that no token of a session has spare what the session holds. -/
theorem exists_numbers (programs : List (List Stmt)) (o : Origins) (h : Heap) :
    ∃ first, ∀ ts picked y, (Respelling.unnumber first ts picked y).Spares programs o h := by
  obtain ⟨first, habove⟩ :=
    exists_line_above (programs.flatMap (namedTokens <| namings ·) ++ h.tokens ++ o.tokens)
  simp only [List.forall_mem_append] at habove
  obtain ⟨⟨hprograms, hheap⟩, horigins⟩ := habove
  refine ⟨first, fun ts picked y => ⟨fun _ => rfl, fun p hp n hn => ?_, fun t ht => ?_,
    fun e origin ho b hb => ?_⟩⟩
  · rw [Respelling.unnumber_below (hprograms _ (List.mem_flatMap.mpr
      ⟨p, hp, List.mem_map_of_mem hn⟩))]
  · exact Respelling.unnumber_below (hheap t ht)
  · cases b with
    | named t =>
      have ht : t ∈ o.tokens := List.mem_flatMap.mpr
        ⟨origin, Array.mem_toList_iff.mpr (Array.mem_of_getElem? ho),
          List.mem_filterMap.mpr ⟨_, hb, rfl⟩⟩
      exact congrArg Token.lexeme (Respelling.unnumber_below (horigins t ht))
    | _ => rfl

end Respellings

section Courses

variable {s : Session} {programs : List (List Stmt)} {o : Origins}

/-- What executing a text in a session brings to light. -/
def Session.course (steps : Nat) (s : Session) (source : String) : Course :=
  ((s.read source).2.resolve (s.read source).1).machine.course steps (s.read source).1

theorem Session.course_clean {source : String} (h : Clean source) (steps : Nat) :
    s.course steps source = (s.noting (parse (tokensOf source) s.nextNode)).machine.course steps
      (parse (tokensOf source) s.nextNode).statements := by
  rw [course, resolve_read_clean h, read_clean h]

/-- A run of a clean text ends with what has come to light by then. -/
theorem Session.run?_course {source : String} (h : Clean source)
    (hquiet : s.report.syntaxError = false) (steps : Nat) :
    ((s.course steps source).ended = false → s.run? steps source = none) ∧
      ((s.course steps source).ended = true → ∃ t, s.run? steps source = some t ∧
        t.machine.printed = (s.course steps source).printed ∧
        t.report = (s.course steps source).report s.report) := by
  rw [run?_clean hquiet h, course_clean h]
  exact execute?_course steps s.report _ _ _

/-- The notes of a respelled program, also before anything of it is in a table. -/
theorem analyse_respell_of_accepted {p : Parsed} {next : Nat} {f : Respelling}
    {back : String → String} (hp : p.Proper next) (ha : Accepted (analyse p.statements))
    (hr : f.Respects back (namings p.statements)) :
    analyse (p.statements.map (Stmt.respell f)) =
      (analyse p.statements).map (ScopeNote.respell f) := by
  have hbelow : Depths.empty.Below next := fun n _ => by simp [Depths.empty, Depths.get?]
  exact analyse_respell ⟨hp.wellFormed,
    (Depths.recordAll_analyse hp.drawn hbelow hp.nextNode).2.2 ha, hr⟩

/-- In a session that has read a program, the respelled program takes the course of the program. -/
theorem Session.course_noting (hm : s.machine.Ready programs o s.nextNode)
    (hglobal : s.machine.environment = Heap.globals) {p : Parsed} (hp : p.Proper s.nextNode)
    (ha : Accepted (analyse p.statements)) {f : Respelling} {back : String → String}
    (hs : f.Spares programs o s.machine.heap) (hr : f.Respects back (namings p.statements))
    (steps : Nat) :
    (s.noting p).machine.course steps (p.statements.map (Stmt.respell f)) =
      ((s.noting p).machine.course steps p.statements).respell f := by
  have hready := hm.accepted hp ha
  have hsuits : f.Suits (p.statements :: programs) := by
    refine ⟨hs.node, List.forall_mem_cons.mpr ⟨⟨back, hr⟩, fun q hq => ⟨id, ?_⟩⟩⟩
    exact .of_kept (proper_namings (hm.kept.accepted q hq).1) (hs.names q hq)
  have hrespells : (s.noting p).machine.Respells f (p.statements :: programs) p.nextNode
      (s.noting p).machine := by
    refine ⟨rfl, hglobal, o, hready, ?_⟩
    exact .refl hm.faithful hm.kept.distinct ⟨hs.node, hs.heap⟩ hs.binders
  exact hrespells.course hsuits steps ⟨_, .head _, .top⟩

/-- A failure is at a token of the program or of a function from an earlier one. -/
theorem Session.token_of_failure (hm : s.machine.Ready programs o s.nextNode)
    (hglobal : s.machine.environment = Heap.globals) {ts : List Token}
    (hend : ∃ t ∈ ts, t.kind = .eof) {p : Parsed} (hts : parse ts s.nextNode = p)
    (hp : p.Proper s.nextNode) (ha : Accepted (analyse p.statements)) (steps : Nat)
    {e : RuntimeError}
    (he : ((s.noting p).machine.course steps p.statements).failure = some e) :
    e.token ∈ ts ∨ e.token ∈ s.machine.heap.tokens := by
  -- All other tokens could have another line, and nothing would be known of it.
  let known := ts ++ s.machine.heap.tokens
  let f : Respelling := ⟨id, fun t => if t ∈ known then t else { t with line := t.line + 1 },
    fun t => by split <;> rfl, fun t => by split <;> rfl⟩
  have hkeeps : f.KeepsTexts := fun t => by
    change (if t ∈ known then t else { t with line := t.line + 1 }).lexeme = t.lexeme
    split <;> rfl
  have hknown : ∀ t ∈ known, f.token t = t := fun t ht => if_pos ht
  have hsame : ts.map f.token = ts :=
    (List.map_congr_left fun t ht => hknown t (List.mem_append_left _ ht)).trans (List.map_id _)
  have hnode : ∀ i, f.node ⟨s.nextNode + i⟩ = ⟨s.nextNode + i⟩ := fun _ => rfl
  obtain ⟨used, -, hrespelled⟩ := parse_respell hnode hend
  rw [hsame, hts] at hrespelled
  have hstatements : p.statements.map (Stmt.respell f) = p.statements :=
    (congrArg Parsed.statements hrespelled).symm
  have hcourse := course_noting hm hglobal hp ha
    (.of_keepsTexts hkeeps (fun _ => rfl) fun t ht => hknown t (List.mem_append_right _ ht))
    (.of_kept (proper_namings hp.wellFormed) fun n _ => hkeeps n.name) steps
  rw [hstatements] at hcourse
  have hfailure := congrArg Course.failure hcourse
  rw [Course.respell, he] at hfailure
  have htoken : f.token e.token = e.token :=
    (congrArg RuntimeError.token (Option.some.inj hfailure)).symm
  by_contra hnot
  have hline : f.token e.token = { e.token with line := e.token.line + 1 } :=
    if_neg fun hmem => hnot (List.mem_append.mp hmem)
  have hlines := congrArg Token.line (htoken.symm.trans hline)
  exact absurd hlines (Nat.ne_of_lt (Nat.lt_succ_self _))

end Courses

section Names

variable {source y : String} {x : Token}

/-- The picked token of a name is the declaration, or is bound to it. -/
theorem Clean.lexeme_of_name (h : Clean source) {n : Naming} (hn : n ∈ namesOf source)
    (first next : Nat) :
    ((Respelling.unnumber first (tokensOf source) (boundTo source x) y).token
      ((renumbering first next).respelling.token n.name)).lexeme =
        if n.declaration = some x then y else n.name.lexeme := by
  obtain ⟨t, ht, hname⟩ := h.token_of_name hn
  have hbound := h.boundTo_iff hn x
  have htoken : (renumbering first next).respelling.token n.name =
      { t with line := first + n.name.line } := by
    rw [hname]
    rfl
  have hlexeme : n.name.lexeme = t.lexeme := by rw [hname]
  rw [htoken, Respelling.unnumber_token ht, Token.respelledAt, hlexeme]
  by_cases hd : n.declaration = some x
  · rw [if_pos (hbound.mpr hd), if_pos hd]
  · rw [if_neg (hbound.not.mpr hd), if_neg hd]

/-- A new name for a local variable is respected by all names of the text. -/
theorem Clean.respects (h : Clean source) (hx : DeclaresLocal source x)
    (hy : wordKind y = .identifier) (hfresh : ∀ t ∈ tokensOf source, t.lexeme ≠ y)
    (first next : Nat) :
    (Respelling.unnumber first (tokensOf source) (boundTo source x) y).Respects
      (fun z => if z = y then x.lexeme else z)
      (namings (Lox.parse (Lox.numbered first (tokensOf source)) next).statements) := by
  have hnew : ∀ n ∈ namesOf source, n.name.lexeme ≠ y := fun n hn => by
    obtain ⟨t, ht, hname⟩ := h.token_of_name hn
    rw [hname]
    exact hfresh t (List.mem_of_getElem? ht)
  have hword (z : String) (hz : wordKind z ≠ .identifier) : z ≠ y := by
    rintro rfl
    exact hz hy
  rw [namings_numbered]
  refine ⟨List.forall_mem_map.mpr fun n hn hfree => ?_,
    List.forall_mem_map.mpr fun n hn t ht hdeclares => ?_,
    List.forall_mem_map.mpr fun n hn => ?_, if_neg (hword _ (by decide)), if_neg (hword _ (by decide))⟩
  · have hnone : n.declaration = none := Option.map_eq_none_iff.mp hfree
    rw [Naming.respell, h.lexeme_of_name hn, hnone, if_neg (by simp)]
    rfl
  · obtain ⟨own, hown, rfl⟩ := Option.map_eq_some_iff.mp ht
    obtain ⟨_, hmem, hname, hself⟩ := hdeclares
    obtain ⟨m, hm, rfl⟩ := List.mem_map.mp hmem
    obtain rfl : m.name = own := renumbering_injective first next hname
    rw [Naming.respell, h.lexeme_of_name hn, h.lexeme_of_name hm, hown]
    by_cases hmx : m.name = x
    · obtain rfl : m = ⟨x, some x⟩ := h.name_unique hm hx (congrArg Token.line hmx)
      rw [if_pos rfl, if_pos rfl]
    · have hnot : m.declaration ≠ some x := fun hd => by
        have hsame := hself _ (Option.mem_map_of_mem _ hd)
        exact hmx (renumbering_injective first next hsame).symm
      rw [if_neg fun hd => hmx (Option.some.inj hd), if_neg hnot]
      exact ((proper_namesOf source n hn m.name hown).2).symm
  · rw [Naming.respell, h.lexeme_of_name hn]
    by_cases hd : n.declaration = some x
    · rw [if_pos hd]
      exact (if_pos rfl).trans (proper_namesOf source n hn x hd).2
    · rw [if_neg hd]
      exact if_neg (hnew n hn)

end Names

section Texts

variable {s : Session} {programs : List (List Stmt)} {o : Origins} {source y : String} {x : Token}

/-- A text whose tokens are respelled ones of a clean text is another text of the same program. -/
theorem Session.course_of_tokens (hm : s.machine.Ready programs o s.nextNode)
    (hglobal : s.machine.environment = Heap.globals) (h : Clean source) {first : Nat} {p : Parsed}
    (hparsed : parse (numbered first (tokensOf source)) s.nextNode = p) {f : Respelling}
    {back : String → String} (hs : f.Spares programs o s.machine.heap)
    (hr : f.Respects back (namings p.statements)) {source' : String}
    (hscanned : lexicalErrors source' = [])
    (htokens : tokensOf source' = (numbered first (tokensOf source)).map f.token) :
    Clean source' ∧ s.noting (parse (tokensOf source') s.nextNode) = s.noting p ∧
      ∀ steps, s.course steps source' =
        ((s.noting p).machine.course steps p.statements).respell f := by
  have hnode : ∀ i, f.node ⟨s.nextNode + i⟩ = ⟨s.nextNode + i⟩ := fun _ => hs.node _
  obtain ⟨used, hnext, hrespelled⟩ :=
    parse_respell hnode (numbered_eof first (tokensOf_eof source))
  obtain ⟨herrors, haccepted⟩ := h.numbered first s.nextNode
  have hproper := numbered_proper source first s.nextNode
  rw [← htokens] at hrespelled
  rw [hparsed] at hnext hrespelled herrors haccepted hproper
  have hnotes := analyse_respell_of_accepted hproper haccepted hr
  have herrors' : (parse (tokensOf source') s.nextNode).errors = [] := by
    rw [hrespelled, herrors, List.map_nil]
  have haccepted' : Accepted (analyse (parse (tokensOf source') s.nextNode).statements) := by
    rw [hrespelled, hnotes]
    exact accepted_respell.mpr haccepted
  have hclean : Clean source' := .of_parse hscanned herrors' haccepted'
  have hnoting : s.noting (parse (tokensOf source') s.nextNode) = s.noting p := by
    rw [hrespelled, noting, hnotes, Depths.recordAll_respell hs.node, ← hnext, noting]
  refine ⟨hclean, hnoting, fun steps => ?_⟩
  rw [course_clean hclean, hnoting, hrespelled]
  exact course_noting hm hglobal hproper haccepted hs hr steps

/-- What the renamed text has for a failure of the text. Only at the renamed variable is it another
one, which has the new name. -/
inductive RuntimeError.Renamed (s : Session) (source : String) (x : Token) (y : String) :
    RuntimeError → RuntimeError → Prop where
  | earlier {e : RuntimeError} : e.token ∈ s.machine.heap.tokens → Renamed s source x y e e
  | kept {e : RuntimeError} {i : Nat} : (tokensOf source)[i]? = some e.token →
    boundTo source x i = false → Renamed s source x y e e
  | spelled {e : RuntimeError} {i : Nat} : (tokensOf source)[i]? = some e.token →
    boundTo source x i = true → Renamed s source x y e (e.onto { e.token with lexeme := y })

/-- The courses of the text and of the renamed text. -/
structure Course.Agrees (s : Session) (source : String) (x : Token) (y : String)
    (c c' : Course) : Prop where
  printed : c'.printed = c.printed
  ended : c'.ended = c.ended
  failure : Option.Rel (RuntimeError.Renamed s source x y) c.failure c'.failure

/-- The sessions that the text and the renamed text end with. -/
structure Session.Agrees (s : Session) (source : String) (x : Token) (y : String)
    (t t' : Session) : Prop where
  printed : t'.machine.printed = t.machine.printed
  report : t.report = s.report ∧ t'.report = s.report ∨
    ∃ e e' : RuntimeError, e.Renamed s source x y e' ∧
      t.report = s.report.add e.diagnostic ∧ t'.report = s.report.add e'.diagnostic

theorem RuntimeError.onto_onto (e : RuntimeError) (t u : Token) :
    (e.onto t).onto u = e.onto u := by
  obtain ⟨_, fault⟩ := e
  cases fault <;> rfl

/-- One failure of the numbered program, as each of the two texts has it. -/
theorem RuntimeError.renamed_of_numbered {first : Nat}
    (hs : ∀ picked, (Respelling.unnumber first (tokensOf source) picked y).Spares programs o
      s.machine.heap) {e : RuntimeError}
    (he : e.token ∈ numbered first (tokensOf source) ∨ e.token ∈ s.machine.heap.tokens) :
    (e.respell (.unnumber first (tokensOf source) (fun _ => false) y)).Renamed s source x y
      (e.respell (.unnumber first (tokensOf source) (boundTo source x) y)) := by
  rcases he with hown | hheap
  · obtain ⟨i, u, hu, htoken⟩ := mem_numbered.mp hown
    rw [respell, respell, htoken, Respelling.unnumber_token hu, Respelling.unnumber_token hu,
      Token.respelledAt, Token.respelledAt, if_neg Bool.false_ne_true]
    cases hb : boundTo source x i with
    | true =>
      have hspelled : (e.onto u).Renamed s source x y ((e.onto u).onto { u with lexeme := y }) :=
        .spelled hu hb
      rwa [onto_onto] at hspelled
    | false =>
      rw [if_neg Bool.false_ne_true]
      exact .kept hu hb
  · rw [respell, respell, (hs _).heap _ hheap, (hs _).heap _ hheap]
    exact .earlier hheap

/-- The renamed text is read and analysed as the text is, and takes the same course. -/
theorem Session.course_renamed (hs : s.Reachable) (h : Clean source)
    (hx : DeclaresLocal source x) (hword : wordKind y = .identifier)
    (hfresh : ∀ t ∈ tokensOf source, t.lexeme ≠ y)
    (hscanned : lexicalErrors (renamed source x y) = [])
    (htokens : tokensOf (renamed source x y) =
      (tokensOf source).mapIdx (Token.respelledAt (boundTo source x) y)) :
    Clean (renamed source x y) ∧
      s.noting (parse (tokensOf (renamed source x y)) s.nextNode) =
        s.noting (parse (tokensOf source) s.nextNode) ∧
      ∀ steps, (s.course steps source).Agrees s source x y
        (s.course steps (renamed source x y)) := by
  obtain ⟨o, programs, hwaiting⟩ := hs
  obtain ⟨hm, hglobal⟩ := hwaiting.invariant
  obtain ⟨first, hspares⟩ := exists_numbers programs o s.machine.heap
  generalize hp : parse (numbered first (tokensOf source)) s.nextNode = p
  have haccepted := (h.numbered first s.nextNode).2
  have hproper := numbered_proper source first s.nextNode
  have hrespects := h.respects hx hword hfresh first s.nextNode
  rw [hp] at haccepted hproper hrespects
  have hsame : (tokensOf source).mapIdx (Token.respelledAt (fun _ => false) y) =
      tokensOf source :=
    List.ext_getElem (by simp) fun i _ _ => by simp [Token.respelledAt]
  obtain ⟨-, hnoting, hcourse⟩ := course_of_tokens hm hglobal h hp (hspares _ _ y)
    (.of_kept (proper_namings hproper.wellFormed) fun n _ => Respelling.unnumber_keepsTexts n.name)
    h.scanned (hsame.symm.trans (Respelling.map_unnumber first _ _ y).symm)
  obtain ⟨hclean, hnoting', hcourse'⟩ := course_of_tokens hm hglobal h hp (hspares _ _ y)
    hrespects hscanned (htokens.trans (Respelling.map_unnumber first _ _ y).symm)
  refine ⟨hclean, hnoting'.trans hnoting.symm, fun steps => ?_⟩
  have hfailure (e : RuntimeError) := token_of_failure hm hglobal
    (numbered_eof first (tokensOf_eof source)) hp hproper haccepted steps (e := e)
  rw [hcourse, hcourse']
  generalize (s.noting p).machine.course steps p.statements = c at hfailure
  obtain ⟨printed, failure, ended⟩ := c
  refine ⟨by simp, by simp, ?_⟩
  cases failure with
  | none => exact .none
  | some e => exact .some (RuntimeError.renamed_of_numbered (hspares _ · y) (hfailure e rfl))

/-- Where the courses agree, the runs do. -/
theorem Session.run?_agrees {source' : String} (h : Clean source) (h' : Clean source')
    {steps : Nat} (hcourse : (s.course steps source).Agrees s source x y (s.course steps source')) :
    Option.Rel (s.Agrees source x y) (s.run? steps source) (s.run? steps source') := by
  cases hquiet : s.report.syntaxError with
  | true =>
    have hrefused {text : String} (hclean : Clean text) :
        s.run? steps text = some (s.read text).2 ∧ (s.read text).2.machine = s.machine ∧
          (s.read text).2.report = s.report := by
      rw [run?_eq, read_clean hclean, if_pos hquiet]
      exact ⟨rfl, rfl, rfl⟩
    obtain ⟨hrun, hmachine, hreport⟩ := hrefused h
    obtain ⟨hrun', hmachine', hreport'⟩ := hrefused h'
    rw [hrun, hrun']
    exact .some ⟨by rw [hmachine, hmachine'], .inl ⟨hreport, hreport'⟩⟩
  | false =>
    obtain ⟨hcut, hends⟩ := run?_course h hquiet steps
    obtain ⟨hcut', hends'⟩ := run?_course h' hquiet steps
    obtain ⟨hprinted, hended, hfailure⟩ := hcourse
    generalize s.course steps source = c, s.course steps source' = c' at *
    cases hend : c.ended with
    | false =>
      rw [hcut hend, hcut' (hended.trans hend)]
      exact .none
    | true =>
      obtain ⟨t, hrun, htprinted, htreport⟩ := hends hend
      obtain ⟨t', hrun', htprinted', htreport'⟩ := hends' (hended.trans hend)
      rw [hrun, hrun']
      refine .some ⟨by rw [htprinted, htprinted', hprinted], ?_⟩
      rw [htreport, htreport', Course.report, Course.report]
      generalize c.failure = failure, c'.failure = failure' at hfailure
      cases hfailure with
      | none => exact .inl ⟨rfl, rfl⟩
      | some hrenamed => exact .inr ⟨_, _, hrenamed, rfl, rfl⟩

end Texts

/-- A local variable may have any other name that does not occur in its text. The renamed text is
clean too and leaves the same session behind when it is read and analysed, depths included; and
executed in any session that can be reached it prints the same, cut off or not, and ends the same,
with the new name in a diagnostic at an occurrence of the variable. -/
theorem rename_local {source y : String} {x : Token} (h : Clean source)
    (hx : DeclaresLocal source x) (hy : Lexeme .word y.toList) (hword : wordKind y = .identifier)
    (hfresh : ∀ t ∈ tokensOf source, t.lexeme ≠ y) :
    Clean (renamed source x y) ∧
      tokensOf (renamed source x y) =
        (tokensOf source).mapIdx (Token.respelledAt (boundTo source x) y) ∧
      ∀ s : Session, s.Reachable →
        (s.read (renamed source x y)).2.resolve (s.read (renamed source x y)).1 =
          (s.read source).2.resolve (s.read source).1 ∧
        ∀ steps,
          (s.course steps (renamed source x y)).printed = (s.course steps source).printed ∧
          Option.Rel (s.Agrees source x y) (s.run? steps source)
            (s.run? steps (renamed source x y)) := by
  have hidentifier : ∀ i t, (tokensOf source)[i]? = some t → boundTo source x i = true →
      t.kind = .identifier := fun i t ht hb => (h.token_of_boundTo ht hb).1
  obtain ⟨hscanned, htokens⟩ := tokensOf_respelled h.scanned hy hword hidentifier
  obtain ⟨hclean, -, -⟩ := Session.course_renamed (s := Session.start (⟨0⟩ : Number)) ⟨_, _, .start (⟨0⟩ : Number)⟩
    h hx hword hfresh hscanned htokens
  refine ⟨hclean, htokens, fun s hs => ?_⟩
  obtain ⟨-, hnoting, hcourse⟩ := Session.course_renamed hs h hx hword hfresh hscanned htokens
  refine ⟨?_, fun steps => ⟨(hcourse steps).printed, Session.run?_agrees h hclean (hcourse steps)⟩⟩
  rw [Session.resolve_read_clean hclean, Session.resolve_read_clean h, hnoting]

/-- A variable that is called like a global. Its initializer assigns to it before it is there. -/
theorem rename_local_called_like_a_global :
    ∃ t t', (Session.start (⟨0⟩ : Number)).run? 30 "var a = true; { print a; var a = (a = nil); }" = some t ∧
      (Session.start (⟨0⟩ : Number)).run? 30 "var a = true; { print a; var b = (b = nil); }" = some t' ∧
      t.machine.printed = #["true"] ∧ t'.machine.printed = #["true"] ∧
      t.report.messages = ["[line 1] Error at 'a': Undefined variable 'a'."] ∧
      t'.report.messages = ["[line 1] Error at 'b': Undefined variable 'b'."] := by
  let source := "var a = true; { print a; var a = (a = nil); }"
  let x : Token := ⟨.identifier, "a", none, 10⟩
  have hscanned : lexicalErrors source = [] := by decide +kernel
  have hparsed : (parse (tokensOf source) 0).errors = [] := by decide +kernel
  have hresolved : (analyse (parse (tokensOf source) 0).statements).filterMap
      ScopeNote.error? = [] := by decide +kernel
  have hlocal : DeclaresLocal source x := by decide +kernel
  have hword : Lexeme .word "b".toList := by
    rw [show "b".toList = ['b'] by decide]
    exact .word (by decide) (List.forall_mem_nil _)
  have hfresh : ∀ t ∈ tokensOf source, t.lexeme ≠ "b" := by decide +kernel
  have hrenamed : renamed source x "b" = "var a = true; { print a; var b = (b = nil); }" := by
    decide +kernel
  have hrun : ((Session.start (⟨0⟩ : Number)).run? 30 source).map
      (fun t => (t.machine.printed, t.report.messages)) =
        some (#["true"], ["[line 1] Error at 'a': Undefined variable 'a'."]) := by decide +kernel
  have hrun' : ((Session.start (⟨0⟩ : Number)).run? 30 "var a = true; { print a; var b = (b = nil); }").map
      (fun t => t.report.messages) =
        some ["[line 1] Error at 'b': Undefined variable 'b'."] := by decide +kernel
  obtain ⟨-, -, hagrees⟩ := rename_local
    ⟨hscanned, hparsed, (accepted_iff _).mpr hresolved⟩ hlocal hword (by decide) hfresh
  obtain ⟨t, ht, hshown⟩ := Option.map_eq_some_iff.mp hrun
  obtain ⟨t', ht', hshown'⟩ := Option.map_eq_some_iff.mp hrun'
  obtain ⟨hprinted, hmessages⟩ := Prod.mk.inj hshown
  have hends := ((hagrees (Session.start (⟨0⟩ : Number)) ⟨_, _, .start (⟨0⟩ : Number)⟩).2 30).2
  rw [hrenamed, ht, ht'] at hends
  cases hends with
  | some hends =>
    exact ⟨t, t', ht, ht', hprinted, hends.printed.trans hprinted, hmessages, hshown'⟩

end Lox
