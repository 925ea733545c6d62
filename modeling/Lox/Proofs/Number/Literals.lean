import Lox.Proofs.Number.Nearest
import Lox.Proofs.Session.Numbers

/-! The literals of numbers in a text.

A number is spelled by digits, with at most one point among them, of whatever length. The text is
always one that can be read, and what it is read as is the double nearest to the rational that it
stands for. -/

namespace Lox

/-- Every token of a number stands for a rational, and its literal is the one double that is nearest
to that rational; the value for texts that are no numerals is never used. -/
theorem literals_are_nearest (source : String) :
    ∀ t ∈ tokensOf source, t.kind = .number → ∃ q x, StandsFor t.lexeme.toList q ∧
      Number.ofNumeral? t.lexeme.toList = some x ∧ t.literal = some (.number x) ∧
      ∀ y : Number, y.NearestTo q ↔ y = x := by
  intro t ht hkind
  obtain ⟨cs, hlexeme, htext, hliteral⟩ := numeral_of_number ht hkind
  obtain ⟨q, hq⟩ := StandsFor.of_lexeme hlexeme
  rw [htext, String.toList_ofList]
  refine ⟨q, _, hq, hq.read, ?_, fun y => ?_⟩
  · rw [hliteral, hq.ofNumeral]
  · rw [← hq.value]
    exact Decimal.nearestTo_iff _ y

/-- An odd natural of 54 bits is in the middle between two doubles, and the even one is taken. -/
theorem literals_are_nearest_in_the_middle :
    ⟨.number, "9007199254740993", some (.number ⟨0x4340000000000000⟩), 1⟩ ∈
      tokensOf "9007199254740993" ∧
    ∀ y : Number, y.NearestTo 9007199254740993 ↔ y = ⟨0x4340000000000000⟩ := by
  have ht : ⟨.number, "9007199254740993", some (.number ⟨0x4340000000000000⟩), 1⟩ ∈
      tokensOf "9007199254740993" := by
    decide +kernel
  refine ⟨ht, ?_⟩
  obtain ⟨q, x, hq, -, hliteral, hnearest⟩ := literals_are_nearest "9007199254740993" _ ht rfl
  cases hliteral
  have hvalue : q = 9007199254740993 := by
    have hdecimal : Decimal.ofNumeral "9007199254740993".toList = ⟨9007199254740993, 0⟩ := by
      decide +kernel
    rw [← hq.value, hdecimal, Decimal.value]
    norm_num
  rwa [hvalue] at hnearest

end Lox
