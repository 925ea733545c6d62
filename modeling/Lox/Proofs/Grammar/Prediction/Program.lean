import Lox.Proofs.Grammar.Prediction.Statement

/-! The first error is at the earliest token.

What was read before an error begins a program, so that the parser could not have stopped sooner,
and with the token at fault it begins none, so that it had to stop there. -/

namespace Lox

open scoped Computability

namespace Grammar

open Lox.Parser Ebnf

/-- The declarations of a program, before the end of input. -/
theorem predicts_program {depth : Nat} {c : Cursor} (hf : c.finish.kind = .eof)
    (hown : ∀ t ∈ c.pending, t.kind ≠ .eof) (hdepth : 2 * (c.pending.length + 1) ≤ depth) :
    Predicted False (Heads (· = .eof)) declarationWords∗ c (program depth c) := by
  have hgathers := gathers_declareNext depth
  have hdeclares := (predicts_levels depth (c.pending.length + 1)).2 hdepth
  have hnil {c : Cursor} (hc : c.atEnd = true) : c.pending = [] := by simpa [Cursor.atEnd] using hc
  rw [program_eq]
  refine Predicted.silently ?_ fun body => .pure _
  rw [(loopsEnd depth).program.iterate_eq hf (Nat.le_refl _)]
  refine Predicted.repeated
    (P := fun c => c.finish.kind = .eof ∧ ∀ t ∈ c.pending, t.kind ≠ .eof)
    (S := fun c => c.atEnd = true) (B := ElseClosed) ?_ (fun c _ hc => by simp [Cursor.atEnd, hc])
    ((heads_rule .declaration).mono fun _ _ => trivial) ?_ ?_ ?_
    (.inr (hgathers.reads (reads_declarationUpTo depth))) ?_
    (fun body c hc hn hs => hgathers.goes_on body hs (hdeclares c hc.1 hn)) _ #[] c ⟨hf, hown⟩
    (Nat.le_refl _) (Nat.lt_succ_self _)
  · rintro c d us ⟨hf, hown⟩ hpending hfinish
    refine ⟨hfinish ▸ hf, fun t ht => hown t ?_⟩
    rw [hpending]
    exact List.mem_append_right us ht
  · rintro c ⟨hf, -⟩ hc
    refine (heads_rule .declaration).mono fun k hk he => ?_
    rw [he, Cursor.peek, hnil hc, List.headD_nil, hf] at hk
    cases hk
  · rintro c ⟨-, hown⟩ hc K hK
    refine hK.mono fun k hk he => ?_
    cases hp : c.pending with
    | nil => exact hc (by simp [Cursor.atEnd, hp])
    | cons t rest =>
      rw [Predicted.peek_of_pending hp] at he
      exact hown t (by simp [hp]) (he.symm.trans hk)
  · exact fun K hK => .declarations (hK.mono fun k hk => by simp [hk])
  · rintro body c - hc
    rw [hgathers.turn, if_pos hc]

theorem lang_program : lang (.rule .program) = declarationWords∗ * single (· = .eof) := by
  rw [lang_rule]
  simp only [relaxed, unlimited, rules, lang_append, lang_many, lang_token]

end Grammar

/-- Tokens that a program of the relaxed grammar begins with. -/
def Viable (us : List Token) : Prop :=
  ∃ vs, Grammar.DerivesBy Grammar.relaxed (.rule .program) (us ++ vs)

theorem Viable.of_prefix {us vs : List Token} (h : Viable vs) (hp : us <+: vs) : Viable us := by
  obtain ⟨ws, hws⟩ := h
  obtain ⟨more, rfl⟩ := hp
  exact ⟨more ++ ws, by rwa [← List.append_assoc]⟩

/-- The token up to which, and no further, a program of the relaxed grammar can be read. -/
structure FirstFault (tokens : List Token) (i : Nat) (t : Token) : Prop where
  token : (closed tokens)[i]? = some t
  before : ∀ j ≤ i, Viable ((closed tokens).take j)
  at_fault : ¬Viable ((closed tokens).take (i + 1))

/-- Tokens that derive from the relaxed grammar are read without an error but mild ones. -/
theorem graves_of_derives (tokens : List Token)
    (h : Grammar.DerivesBy Grammar.relaxed (.many (.rule .declaration)) (beforeEnd tokens))
    (next : Nat) : grave (parse tokens next).errors = [] := by
  obtain ⟨before, rest, -, -, hown, hend⟩ := ofTokens_at tokens next
  have hword : beforeEnd tokens ∈ (Grammar.declarationWords)∗ := by rwa [← Grammar.lang_many]
  have hpredicted := Grammar.predicts_program (c := Cursor.ofTokens tokens next) hend
    (fun t ht => hown t (List.mem_append_right _ ht)) (Nat.le_refl _)
  obtain ⟨body, d, hd, -, -, hgraves⟩ := hpredicted.quiet_of_word (List.append_nil _).symm hword
    (by rintro _ rfl; exact ⟨_, rfl, hend⟩)
  rw [parse_of_program hd]
  exact hgraves

/-- Apart from mild ones, there are no errors if the tokens derive from the relaxed grammar, and
otherwise the first error is at the first token that no program goes on with. -/
theorem first_error_at_first_fault (tokens : List Token) (next : Nat) :
    (Grammar.DerivesBy Grammar.relaxed (.many (.rule .declaration)) (beforeEnd tokens) →
      grave (parse tokens next).errors = []) ∧
    (¬Grammar.DerivesBy Grammar.relaxed (.many (.rule .declaration)) (beforeEnd tokens) →
      ∃ i e, i ≤ (beforeEnd tokens).length ∧ FirstFault tokens i e.token ∧
        (grave (parse tokens next).errors).head? = some e) := by
  refine ⟨fun h => graves_of_derives tokens h next, fun hno => ?_⟩
  obtain ⟨before, rest, hclosed, hnil, hown, hend⟩ := ofTokens_at tokens next
  obtain rfl := List.eq_nil_of_length_eq_zero hnil
  have hpredicted := Grammar.predicts_program hend hown (Nat.le_refl _)
  obtain ⟨body, d, hd, hdone⟩ := Grammar.program_ends
    (2 * ((Cursor.ofTokens tokens next).pending.length + 1)) hend
  have hparse : grave (parse tokens next).errors = d.graves := by
    rw [parse_of_program hd]
    rfl
  have hviable (us : List Token) : Viable us ↔
      ∃ vs, us ++ vs ∈ (Grammar.declarationWords)∗ * Grammar.single (· = .eof) := by
    rw [← Grammar.lang_program]
    rfl
  rw [← Grammar.mem_lang, Grammar.lang_many] at hno
  rw [hd] at hpredicted
  cases hpredicted with
  | quiet us hpending hfinish hgraves hus hK =>
    rw [hdone, List.append_nil] at hpending
    obtain rfl : beforeEnd tokens = us := hpending
    exact absurd hus hno
  | faulty us more e later hpending ht hgraves hus hK =>
    -- The token at fault stands right behind those that begin a program.
    have hclosed' : closed tokens = us ++ e.token ::
        (more ++ (Cursor.ofTokens tokens next).finish :: rest).tail := by
      have hhead : (more ++ (Cursor.ofTokens tokens next).finish :: rest).head? = some e.token := by
        rw [ht]
        cases more <;> rfl
      rw [List.cons_head?_tail hhead, hclosed, hpending, List.nil_append, List.append_assoc]
    refine ⟨us.length, e, ?_, ⟨?_, fun j hj => ?_, ?_⟩, by rw [hparse, hgraves]; rfl⟩
    · have hlength := congrArg List.length hpending
      rw [List.length_append] at hlength
      exact hlength ▸ Nat.le_add_right _ _
    · rw [hclosed', List.getElem?_append_right (Nat.le_refl _), Nat.sub_self,
        List.getElem?_cons_zero]
    · obtain ⟨ws, hws⟩ := hus
      have hus : Viable us := (hviable us).mpr ⟨ws ++ [Token.endOfInput 0], Language.mem_mul.mpr
        ⟨us ++ ws, hws, _, ⟨_, rfl, rfl⟩, List.append_assoc ..⟩⟩
      refine hus.of_prefix ?_
      rw [hclosed', List.take_append_of_le_length hj]
      exact List.take_prefix j us
    · rw [hclosed', List.take_append, List.take_of_length_le (Nat.le_succ _),
        Nat.add_sub_cancel_left, List.take_succ_cons, List.take_zero, hviable]
      rintro ⟨vs, hvs⟩
      rw [List.append_assoc] at hvs
      exact hK _ (Grammar.heads_single (· = .eof)) ([e.token] ++ vs) rfl hvs

end Lox
