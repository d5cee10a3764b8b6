import LoxLang.Cli.Command
import LoxLang.Proofs.Attempts

/-! # Parsed programs meet no operator without a rule

The grammar and the evaluation each have a table of operators.  Evaluation faults on
exactly the binary operators that no level of the grammar has, and on exactly the
unary ones that the grammar does not put before an operand (`applyBinary_fault_iff`,
`applyUnary_fault_iff`).  So a tree that was derived never makes evaluation fault,
however deep its operators stand, and neither does a program of which only some
statements could be read.

An outcome without a fault is `Faultless`; the property goes through `bind`, so that
expressions, statements, runs and sessions have it one from another.  The command
therefore never ends on a fault (`parsed_programs_faultless`).
-/
namespace LoxLang
open Grammar (Level Derives)

/-! ### Outcomes without a fault -/

/-- An outcome that is a success or an error of the program. -/
def Faultless {α : Type} (r : Except Failure α) : Prop := ∀ f, r ≠ .error (.fault f)

namespace Faultless
variable {α β : Type}

theorem ok (a : α) : Faultless (.ok a) := nofun

theorem error (e : RuntimeError) : Faultless (.error (.error e) : Except Failure α) := nofun

/-- What fails with an error of the program is no fault. -/
theorem mapError (r : Except RuntimeError α) : Faultless (r.mapError Failure.error) := by
  cases r with
  | ok a => exact ok a
  | error e => exact error e

theorem bind {r : Except Failure α} {next : α → Except Failure β} (hr : Faultless r)
    (hnext : ∀ a, Faultless (next a)) : Faultless (r >>= next) := by
  cases r with
  | ok a => exact hnext a
  | error failure =>
    intro f hf
    cases hf
    exact hr f rfl

end Faultless

/-! ### The two tables agree -/

theorem faultless_onNumbers (operator : Token) (left right : Value) (f : Float → Float → Value) :
    Faultless (onNumbers operator left right f) := by
  unfold onNumbers
  split
  · exact .ok _
  · exact .error _

theorem faultless_plus (operator : Token) (left right : Value) :
    Faultless (plus operator left right) := by
  unfold plus
  split
  · exact .ok _
  · exact .ok _
  · exact .error _

/-- **Evaluation has a rule for a unary operator iff the grammar has one.** -/
theorem applyUnary_fault_iff {operator : Token} {operand : Value} :
    (∃ f, applyUnary operator operand = .error (.fault f)) ↔
      ¬ (operator.kind = .bang ∨ operator.kind = .minus) := by
  unfold applyUnary
  split
  · rename_i hk
    cases operand <;> simp [hk]
  · rename_i hk
    simp [hk]
  · rename_i hminus hbang
    exact ⟨fun _ hk => hk.elim hbang hminus, fun _ => ⟨_, rfl⟩⟩

theorem faultless_applyBinary {operator : Token} {level : Level}
    (h : operator.kind ∈ level.operators) (left right : Value) :
    Faultless (applyBinary operator left right) := by
  unfold applyBinary
  split
  case h_1 => exact faultless_plus _ _ _
  case h_2 | h_3 | h_4 | h_5 | h_6 | h_7 | h_8 => exact faultless_onNumbers _ _ _ _
  case h_9 | h_10 => exact .ok _
  case h_11 => cases level <;> simp_all [Level.operators]

/-- **Evaluation has a rule for a binary operator iff some level of the grammar
does.** -/
theorem applyBinary_fault_iff {operator : Token} {left right : Value} :
    (∃ f, applyBinary operator left right = .error (.fault f)) ↔
      ∀ level : Level, operator.kind ∉ level.operators := by
  constructor
  · rintro ⟨f, hf⟩ level h
    exact faultless_applyBinary h left right f hf
  · intro h
    have hne (level : Level) (k : Kind) (hk : k ∈ level.operators) : operator.kind ≠ k :=
      fun heq => h level (heq ▸ hk)
    unfold applyBinary
    split
    · exact absurd ‹_› (hne .term .plus (by decide))
    · exact absurd ‹_› (hne .term .minus (by decide))
    · exact absurd ‹_› (hne .factor .star (by decide))
    · exact absurd ‹_› (hne .factor .slash (by decide))
    · exact absurd ‹_› (hne .comparison .greater (by decide))
    · exact absurd ‹_› (hne .comparison .greaterEqual (by decide))
    · exact absurd ‹_› (hne .comparison .less (by decide))
    · exact absurd ‹_› (hne .comparison .lessEqual (by decide))
    · exact absurd ‹_› (hne .equality .equalEqual (by decide))
    · exact absurd ‹_› (hne .equality .bangEqual (by decide))
    · exact ⟨_, rfl⟩

/-! ### Trees whose operators have a rule -/

/-- Every operator of an expression is one that the grammar puts in its place. -/
def Expr.Operable : Expr → Prop
  | literal _ => True
  | var _ => True
  | unary operator operand =>
    (operator.kind = .bang ∨ operator.kind = .minus) ∧ operand.Operable
  | binary left operator right =>
    (∃ level : Level, operator.kind ∈ level.operators) ∧ left.Operable ∧ right.Operable
  | group inner => inner.Operable

/-- Every operator of a statement is one that the grammar puts in its place. -/
def Stmt.Operable (s : Stmt) : Prop := ∀ e ∈ s.expr?, e.Operable

/-- **A derived expression holds no other operators.** -/
theorem Grammar.Derives.operable {c : Grammar.Category} {ts : List Token} {e : Expr}
    (h : Derives c ts e) : e.Operable := by
  induction h with
  | operand _ ih => exact ih
  | @operation level _ _ _ _ _ _ ho _ ihl ihr => exact ⟨⟨level, ho⟩, ihl, ihr⟩
  | unary ho _ ih => exact ⟨ho, ih⟩
  | primary _ ih => exact ih
  | constant | true | false | nil | identifier => trivial
  | group _ _ _ ih => exact ih

/-- Every statement of a program is operable, whatever else could not be read. -/
theorem Program.operable_of_mem_statements {ts : List Token} {s : Stmt}
    (hs : s ∈ (parse ts).statements) : s.Operable := by
  obtain ⟨_, _, hv⟩ := exists_valid_of_mem_statements hs
  intro e he
  obtain ⟨_, hd⟩ := hv.1.exists_derives he
  exact hd.operable

/-! ### Evaluation and execution -/

/-- **Evaluation of an operable expression does not fault.** -/
theorem Expr.Operable.faultless_eval {e : Expr} (h : e.Operable) (env : Environment) :
    Faultless (e.eval env) := by
  induction e with
  | literal value => exact .ok value
  | var name => exact .mapError (env.get name)
  | unary operator operand ih =>
    obtain ⟨ho, hoperand⟩ := h
    refine (ih hoperand).bind fun value f hf => ?_
    exact applyUnary_fault_iff.mp ⟨f, hf⟩ ho
  | binary left operator right ihl ihr =>
    obtain ⟨⟨level, ho⟩, hleft, hright⟩ := h
    refine (ihl hleft).bind fun l => (ihr hright).bind fun r => ?_
    exact faultless_applyBinary ho l r
  | group inner ih => exact ih h

theorem Stmt.Operable.execute_ne_fault {s : Stmt} (h : s.Operable) (env : Environment)
    (f : OperatorFault) : (s.execute env).failure ≠ some (.fault f) := by
  intro hfailure
  obtain ⟨e, he, heval⟩ := Stmt.failure_execute_iff.mp hfailure
  exact (h e he).faultless_eval env f heval

/-- **A run of operable statements ends without a fault.** -/
theorem Run.failure_ne_fault {ss : List Stmt} (h : ∀ s ∈ ss, s.Operable) (env : Environment)
    (f : OperatorFault) : (Run.of env ss).failure ≠ some (.fault f) := by
  intro hfailure
  obtain ⟨earlier, s, later, rfl, -, hfails⟩ := failure_eq_some_iff.mp hfailure
  exact (h s (List.mem_append_right _ List.mem_cons_self)).execute_ne_fault _ f hfails

/-! ### Sessions and the command -/

namespace Session
variable {R O : Type} [Reporter R] [Sink O]

/-- Operable statements are run without a fault. -/
theorem runStatements_snd {ss : List Stmt} (h : ∀ s ∈ ss, s.Operable) (s : Session R O) :
    (s.runStatements ss).2 = none := by
  induction ss generalizing s with
  | nil => rfl
  | cons statement ss ih =>
    obtain ⟨hstatement, hss⟩ := List.forall_mem_cons.mp h
    rw [runStatements]
    split
    · exact ih hss _
    · rfl
    · rename_i next f hrun
      exact absurd (congrArg Prod.snd hrun) (hstatement.execute_ne_fault s.globals f)

/-- **A source is run without a fault**, in every session. -/
theorem run_snd (s : Session R O) (source : String) : (s.run source).2 = none := by
  unfold run
  dsimp only
  generalize reportSyntax (R := R) (O := O) _ _ = reported
  by_cases h : Reporter.hadSyntaxError reported.diagnostics = true
  · rw [if_pos h]
  · rw [if_neg h]
    exact runStatements_snd (fun _ hmem => Program.operable_of_mem_statements hmem) _

end Session

namespace Cli

theorem runScript_of_decode {contents : Except ReadError (List UInt8)} {source : String}
    (h : contents >>= decode = .ok source) (s : Session Console Stdout) (path : String) :
    runScript s path contents =
      let s := (s.run source).1
      s.exit (s.exitCode?.getD 0) := by
  have hrun : s.run source = ((s.run source).1, none) := Prod.ext rfl (s.run_snd source)
  simp only [runScript, h]
  rw [hrun]

theorem turn_eq (s : Session Console Stdout) (line : String) :
    turn s line = ((s.run line).1.forgive, none) := by
  have hrun : s.run line = ((s.run line).1, none) := Prod.ext rfl (s.run_snd line)
  rw [turn, hrun]

/-- Whatever is typed at the prompt, the command goes on to the end of its input. -/
theorem code_converse (s : Session Console Stdout) (lines : List (List UInt8)) :
    (converse s lines).code = 0 := by
  induction lines generalizing s with
  | nil => rfl
  | cons bytes rest ih =>
    rw [converse]
    split
    · rfl
    · rw [turn_eq]
      exact ih _

end Cli

/-- **Parsed programs meet no operator without a rule.**  No statement that is parsed
from any tokens faults in any environment.  Hence no run of a source hands back a
fault, in any session, with any options and whatever it reports and writes to, and the
command never reports one: a script ends with the exit code that its session calls for,
and the prompt goes on behind every line. -/
theorem parsed_programs_faultless :
    (∀ (ts : List Token), ∀ s ∈ (parse ts).statements, ∀ (env : Environment) (f : OperatorFault),
      (s.execute env).failure ≠ some (.fault f)) ∧
    (∀ (R O : Type) [Reporter R] [Sink O] (s : Session R O) (source : String),
      (s.run source).2 = none) ∧
    (∀ (s : Session Console Stdout) (path : String) (contents : Except Cli.ReadError (List UInt8))
      (source : String), contents >>= Cli.decode = .ok source →
      Cli.runScript s path contents =
        let s := (s.run source).1
        s.exit (s.exitCode?.getD 0)) ∧
    (∀ (s : Session Console Stdout) (line : String),
      Cli.turn s line = ((s.run line).1.forgive, none)) ∧
    ∀ (s : Session Console Stdout) (lines : List (List UInt8)),
      (Cli.converse s lines).code = 0 := by
  refine ⟨?_, fun R O _ _ => Session.run_snd, ?_, Cli.turn_eq, Cli.code_converse⟩
  · intro ts s hs env
    exact (Program.operable_of_mem_statements hs).execute_ne_fault env
  · intro s path contents source h
    exact Cli.runScript_of_decode h s path

/-- A minus with a misleading lexeme, before a string and in front of a statement that
cannot be read. -/
theorem parsed_programs_faultless_mislabelled :
    let minus : Token := ⟨.minus, "&&", none, 1⟩
    let ts : List Token :=
      [minus, ⟨.string, "x", some (.string "x"), 1⟩, ⟨.semicolon, ";", none, 1⟩,
        ⟨.plus, "+", none, 2⟩, ⟨.semicolon, ";", none, 2⟩]
    let s : Stmt := .expression (.unary minus (.literal (.string "x")))
    s ∈ (parse ts).statements ∧
      (∀ env f, (s.execute env).failure ≠ some (.fault f)) ∧
      (s.execute .empty).failure = some (.error ⟨.operandNotNumber, minus⟩) := by
  intro minus ts s
  have hmem : s ∈ (parse ts).statements := by decide +kernel
  exact ⟨hmem, parsed_programs_faultless.1 ts s hmem, rfl⟩

end LoxLang
