import LoxLang.Proofs.Attempts

/-! # Syntax errors stand at the first token that cannot go on

When a declaration cannot be read, the tokens before the one that is blamed are
the beginning of some valid declaration, and together with it they are the
beginning of none (`declaration_error_position`).  So an error is reported neither
too early nor too late.  Where no token is blamed because the input ends, all of
it is the beginning of a valid declaration that has not been finished.

The token that is blamed is the first that was not consumed.  The one exception is
a unary operator for which there is no room, which has been consumed.
-/
namespace LoxLang.Program
open Grammar

/-- A demand that is not met by a token is reported at that token. -/
theorem unmet_some {t : Token} (ht : t.kind ≠ .eof) (demand : Demand) :
    SyntaxError.unmet demand (some t) = .unexpectedToken t.lexeme demand.text t.line :=
  if_neg ht

/-- **An error stands at the first token that cannot go on.**  Let no declaration
be read from tokens among which the input does not end.  Then either the error
blames a token `t`, at position `k`: the tokens before it begin a valid
declaration, those up to it begin none, and `t` is the first token that was not
consumed or a unary operator that was refused for want of room.  Or the error
blames the end of the input: the tokens begin a valid declaration, but neither
they nor any first part of them is one. -/
theorem declaration_error_position (ts rest : List Token) (e : SyntaxError)
    (hts : ∀ t ∈ ts, t.kind ≠ .eof) (hrun : declaration.run ts = (.error e, rest)) :
    (∃ (k : Nat) (t : Token) (demand : Demand), ts[k]? = some t ∧
      e = .unexpectedToken t.lexeme demand.text t.line ∧
      (rest = ts.drop k ∨
        demand = .lessNesting ∧ (t.kind = .bang ∨ t.kind = .minus) ∧ rest = ts.drop (k + 1)) ∧
      ValidDeclaration.Begins (ts.take k) ∧ ¬ ValidDeclaration.Begins (ts.take (k + 1))) ∨
    (∃ demand : Demand, e = .unexpectedEnd demand.text 0 ∧ rest = [] ∧
      (∃ us s, us ≠ [] ∧ ValidDeclaration (ts ++ us) s) ∧
      ∀ us s, us <+: ts → ¬ ValidDeclaration us s) := by
  have hnone : ∀ us s, us <+: ts → ¬ ValidDeclaration us s :=
    fun us s hus => not_valid_of_run_error hrun hus s
  obtain ⟨us, vs, demand, consumed, rfl, hfail, hbegins⟩ := reads_declaration.exists_failsAt hrun
  rw [hfail.run_eq vs rfl] at hrun
  cases hrun
  cases vs with
  | nil =>
    right
    obtain ⟨ws, s, hv⟩ := hbegins
    rw [List.append_nil] at hnone ⊢
    refine ⟨demand, rfl, List.drop_nil, ⟨ws, s, ?_, hv⟩, hnone⟩
    rintro rfl
    rw [List.append_nil] at hv
    exact hnone us s List.prefix_rfl hv
  | cons t vs =>
    left
    have ht : t.kind ≠ .eof := hts t (by simp)
    have htake : (us ++ t :: vs).take (us.length + 1) = us ++ [t] := by
      rw [← List.singleton_append, ← List.append_assoc]
      exact List.take_left' (by simp)
    refine ⟨us.length, t, demand, by simp, unmet_some ht demand, ?_, ?_, ?_⟩
    · rcases hfail.consumed_eq with rfl | ⟨rfl, hdemand, u, hu, hkind⟩
      · exact Or.inl (by simp)
      · cases hu
        exact Or.inr ⟨hdemand, hkind, by simp⟩
    · rwa [List.take_left]
    · rw [htake]
      exact reads_declaration.not_begins hfail

/-- `print - )` can go on behind the operator, and no longer behind the parenthesis. -/
theorem declaration_error_position_print :
    let ts : List Token :=
      [⟨.kwPrint, "print", none, 1⟩, ⟨.minus, "-", none, 1⟩, ⟨.rightParen, ")", none, 1⟩]
    declaration.run ts =
        (.error (.unexpectedToken ")" "Expect expression." 1), [⟨.rightParen, ")", none, 1⟩]) ∧
      ∃ k, ValidDeclaration.Begins (ts.take k) ∧ ¬ ValidDeclaration.Begins (ts.take (k + 1)) := by
  intro ts
  have hrun : declaration.run ts =
      (.error (.unexpectedToken ")" "Expect expression." 1), [⟨.rightParen, ")", none, 1⟩]) := rfl
  refine ⟨hrun, ?_⟩
  rcases declaration_error_position ts _ _ (by decide) hrun with
    ⟨k, _, _, _, _, _, hbegins, hnot⟩ | ⟨_, hend, _⟩
  · exact ⟨k, hbegins, hnot⟩
  · cases hend

end LoxLang.Program
