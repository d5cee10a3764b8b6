import Mathlib.Data.List.Forall2
import LoxLang.Proofs.RelinedParse

/-! # Lines show in reports only

Two tokens agree if they differ in nothing but their lines, and so do trees, errors and
failures.  Tokens that agree are parsed to statements and errors that agree, and
statements that agree do the same when they are run and look the same when they are
dumped (`lines_show_in_reports_only`).

Agreement is equality once every line is moved to line 0 (`Token.agrees_iff` and its
like), and what has been said of moving to other lines applies.
-/
namespace LoxLang

/-! ### Agreement -/

/-- Two tokens that differ in nothing but their lines. -/
structure Token.Agrees (t u : Token) : Prop where
  kind : t.kind = u.kind
  lexeme : t.lexeme = u.lexeme
  literal : t.literal = u.literal

/-- Two expressions of the same shape with tokens that agree. -/
inductive Expr.Agrees : Expr → Expr → Prop
  | literal (value : Value) : Agrees (.literal value) (.literal value)
  | var {name name' : Token} (h : name.Agrees name') : Agrees (.var name) (.var name')
  | unary {operator operator' : Token} {operand operand' : Expr}
      (ho : operator.Agrees operator') (h : Agrees operand operand') :
      Agrees (.unary operator operand) (.unary operator' operand')
  | binary {operator operator' : Token} {left left' right right' : Expr}
      (ho : operator.Agrees operator') (hl : Agrees left left') (hr : Agrees right right') :
      Agrees (.binary left operator right) (.binary left' operator' right')
  | group {inner inner' : Expr} (h : Agrees inner inner') : Agrees (.group inner) (.group inner')

/-- Two statements of the same shape with tokens that agree. -/
inductive Stmt.Agrees : Stmt → Stmt → Prop
  | expression {expr expr' : Expr} (h : expr.Agrees expr') :
      Agrees (.expression expr) (.expression expr')
  | print {expr expr' : Expr} (h : expr.Agrees expr') : Agrees (.print expr) (.print expr')
  | declare {name name' : Token} {initial initial' : Option Expr} (hn : name.Agrees name')
      (h : Option.Rel Expr.Agrees initial initial') :
      Agrees (.declare name initial) (.declare name' initial')

/-- Two syntax errors of the same sort, with the same lexeme or character and the same
message. -/
inductive SyntaxError.Agrees : SyntaxError → SyntaxError → Prop
  | strayCharacter (character : Char) (line line' : Nat) :
      Agrees (.strayCharacter character line) (.strayCharacter character line')
  | unclosedString (line line' : Nat) : Agrees (.unclosedString line) (.unclosedString line')
  | unexpectedToken (lexeme message : String) (line line' : Nat) :
      Agrees (.unexpectedToken lexeme message line) (.unexpectedToken lexeme message line')
  | unexpectedEnd (message : String) (line line' : Nat) :
      Agrees (.unexpectedEnd message line) (.unexpectedEnd message line')

/-- Two failures of the same sort, from the same cause, at tokens that agree. -/
inductive Failure.Agrees : Failure → Failure → Prop
  | error (cause : Cause) {token token' : Token} (h : token.Agrees token') :
      Agrees (.error ⟨cause, token⟩) (.error ⟨cause, token'⟩)
  | unary (lexeme : String) (line line' : Nat) :
      Agrees (.fault (.unary lexeme line)) (.fault (.unary lexeme line'))
  | binary (lexeme : String) (line line' : Nat) :
      Agrees (.fault (.binary lexeme line)) (.fault (.binary lexeme line'))

/-! ### Agreement as equality on line 0 -/

/-- Moves every line to line 0. -/
def unlined (_ : Nat) : Nat := 0

theorem Token.agrees_iff {t u : Token} : t.Agrees u ↔ t.reline unlined = u.reline unlined := by
  constructor
  · rintro ⟨hkind, hlexeme, hliteral⟩
    rw [reline, reline, hkind, hlexeme, hliteral]
    rfl
  · intro h
    obtain ⟨hkind, hlexeme, hliteral, -⟩ := Token.mk.inj h
    exact ⟨hkind, hlexeme, hliteral⟩

theorem Expr.Agrees.reline_eq {e e' : Expr} (h : e.Agrees e') :
    e.reline unlined = e'.reline unlined := by
  induction h with
  | literal value => rfl
  | var h => rw [reline, reline, Token.agrees_iff.mp h]
  | unary ho _ ih => rw [reline, reline, Token.agrees_iff.mp ho, ih]
  | binary ho _ _ ihl ihr => rw [reline, reline, Token.agrees_iff.mp ho, ihl, ihr]
  | group _ ih => rw [reline, reline, ih]

theorem Expr.agrees_of_reline_eq {e e' : Expr} (h : e.reline unlined = e'.reline unlined) :
    e.Agrees e' := by
  induction e generalizing e' with
  | literal value =>
    cases e' with
    | literal value' =>
      cases h
      exact .literal value
    | _ => cases h
  | var name =>
    cases e' with
    | var name' => exact .var (Token.agrees_iff.mpr (Expr.var.inj h))
    | _ => cases h
  | unary operator operand ih =>
    cases e' with
    | unary operator' operand' =>
      obtain ⟨hoperator, hoperand⟩ := Expr.unary.inj h
      exact .unary (Token.agrees_iff.mpr hoperator) (ih hoperand)
    | _ => cases h
  | binary left operator right ihl ihr =>
    cases e' with
    | binary left' operator' right' =>
      obtain ⟨hleft, hoperator, hright⟩ := Expr.binary.inj h
      exact .binary (Token.agrees_iff.mpr hoperator) (ihl hleft) (ihr hright)
    | _ => cases h
  | group inner ih =>
    cases e' with
    | group inner' => exact .group (ih (Expr.group.inj h))
    | _ => cases h

theorem Expr.agrees_iff {e e' : Expr} : e.Agrees e' ↔ e.reline unlined = e'.reline unlined :=
  ⟨Agrees.reline_eq, agrees_of_reline_eq⟩

section Collections
variable {α β : Type} {R : α → α → Prop} {g : α → β} (h : ∀ a b, R a b ↔ g a = g b)
include h

theorem rel_iff_map_eq {x y : Option α} : Option.Rel R x y ↔ x.map g = y.map g := by
  cases x with
  | none => cases y <;> simp
  | some a => cases y <;> simp [h]

theorem forall₂_iff_map_eq {xs ys : List α} : List.Forall₂ R xs ys ↔ xs.map g = ys.map g := by
  have hR : R = fun a b => g a = g b := funext fun a => funext fun b => propext (h a b)
  rw [hR, ← List.forall₂_eq_eq_eq, List.forall₂_map_left_iff, List.forall₂_map_right_iff]

end Collections

theorem Stmt.agrees_iff {s s' : Stmt} : s.Agrees s' ↔ s.reline unlined = s'.reline unlined := by
  constructor
  · intro h
    cases h with
    | expression h => exact congrArg Stmt.expression (Expr.agrees_iff.mp h)
    | print h => exact congrArg Stmt.print (Expr.agrees_iff.mp h)
    | declare hn h =>
      have hinitial := (rel_iff_map_eq (R := Expr.Agrees) fun _ _ => Expr.agrees_iff).mp h
      rw [reline, reline, Token.agrees_iff.mp hn, hinitial]
  · intro h
    cases s with
    | expression expr =>
      cases s' with
      | expression expr' => exact .expression (Expr.agrees_iff.mpr (Stmt.expression.inj h))
      | _ => cases h
    | print expr =>
      cases s' with
      | print expr' => exact .print (Expr.agrees_iff.mpr (Stmt.print.inj h))
      | _ => cases h
    | declare name initial =>
      cases s' with
      | declare name' initial' =>
        obtain ⟨hname, hinitial⟩ := Stmt.declare.inj h
        exact .declare (Token.agrees_iff.mpr hname)
          ((rel_iff_map_eq (R := Expr.Agrees) fun _ _ => Expr.agrees_iff).mpr hinitial)
      | _ => cases h

theorem SyntaxError.agrees_iff {e e' : SyntaxError} :
    e.Agrees e' ↔ e.reline unlined = e'.reline unlined := by
  constructor
  · rintro ⟨⟩ <;> rfl
  · intro h
    cases e <;> cases e' <;> cases h <;> constructor

theorem Failure.agrees_iff {x x' : Failure} :
    x.Agrees x' ↔ x.reline unlined = x'.reline unlined := by
  constructor
  · intro h
    cases h with
    | error cause h => simp only [reline, RuntimeError.reline, Token.agrees_iff.mp h]
    | unary | binary => rfl
  · intro h
    cases x with
    | error e =>
      cases x' with
      | error e' =>
        obtain ⟨cause, token⟩ := e
        obtain ⟨cause', token'⟩ := e'
        obtain ⟨rfl, htoken⟩ := RuntimeError.mk.inj (Failure.error.inj h)
        exact .error cause (Token.agrees_iff.mpr htoken)
      | fault => cases h
    | fault f =>
      cases x' with
      | error => cases h
      | fault f' => cases f <;> cases f' <;> cases h <;> constructor

/-! ### Dumps -/

theorem Token.Agrees.text_eq {t u : Token} (h : t.Agrees u) : t.text = u.text := by
  rw [text, text, h.kind, h.lexeme, h.literal]

theorem Expr.Agrees.text_eq {e e' : Expr} (h : e.Agrees e') : e.text = e'.text := by
  induction h with
  | literal value => rfl
  | var h => exact h.lexeme
  | unary ho _ ih => rw [text, text, ho.lexeme, ih]
  | binary ho _ _ ihl ihr => rw [text, text, ho.lexeme, ihl, ihr]
  | group _ ih => rw [text, text, ih]

theorem Stmt.Agrees.text_eq {s s' : Stmt} (h : s.Agrees s') : s.text = s'.text := by
  cases h with
  | expression h => rw [text, text, h.text_eq]
  | print h => rw [text, text, h.text_eq]
  | declare hn h =>
    rw [text, text, hn.lexeme]
    cases h with
    | none => rfl
    | some h => rw [Option.map_some, Option.map_some, h.text_eq]

/-! ### Parses and runs -/

/-- **Tokens that agree are parsed alike.** -/
theorem parse_agrees {ts us : List Token} (h : List.Forall₂ Token.Agrees ts us) :
    List.Forall₂ Stmt.Agrees (parse ts).statements (parse us).statements ∧
      List.Forall₂ SyntaxError.Agrees (parse ts).errors (parse us).errors := by
  have hlines := (forall₂_iff_map_eq (R := Token.Agrees) fun _ _ => Token.agrees_iff).mp h
  have hparse := congrArg parse hlines
  rw [Program.parse_reline rfl, Program.parse_reline rfl] at hparse
  obtain ⟨hstatements, herrors⟩ := Program.mk.inj hparse
  exact ⟨(forall₂_iff_map_eq (R := Stmt.Agrees) fun _ _ => Stmt.agrees_iff).mpr hstatements,
    (forall₂_iff_map_eq (R := SyntaxError.Agrees) fun _ _ => SyntaxError.agrees_iff).mpr herrors⟩

/-- **Statements that agree run alike.** -/
theorem run_agrees {ss ss' : List Stmt} (h : List.Forall₂ Stmt.Agrees ss ss')
    (env : Environment) :
    (Run.of env ss).env = (Run.of env ss').env ∧
      (Run.of env ss).output = (Run.of env ss').output ∧
      Option.Rel Failure.Agrees (Run.of env ss).failure (Run.of env ss').failure := by
  have hlines := (forall₂_iff_map_eq (R := Stmt.Agrees) fun _ _ => Stmt.agrees_iff).mp h
  have hrun := congrArg (Run.of env) hlines
  rw [Run.of_reline, Run.of_reline] at hrun
  obtain ⟨henv, houtput, hfailure⟩ := Run.mk.inj hrun
  exact ⟨henv, houtput,
    (rel_iff_map_eq (R := Failure.Agrees) fun _ _ => Failure.agrees_iff).mpr hfailure⟩

/-- **Lines show in reports only.**  Tokens that agree are parsed to as many statements
and as many errors, which agree one by one.  Statements that agree, run from the same
environment, leave the same variables and write the same lines, and one run fails iff
the other does, for the same cause at a token that agrees.  The dumps of tokens and of
statements that agree are equal. -/
theorem lines_show_in_reports_only :
    (∀ ts us : List Token, List.Forall₂ Token.Agrees ts us →
      List.Forall₂ Stmt.Agrees (parse ts).statements (parse us).statements ∧
      List.Forall₂ SyntaxError.Agrees (parse ts).errors (parse us).errors ∧
      ts.map Token.text = us.map Token.text) ∧
    ∀ ss ss' : List Stmt, List.Forall₂ Stmt.Agrees ss ss' →
      (∀ env : Environment,
        (Run.of env ss).env = (Run.of env ss').env ∧
        (Run.of env ss).output = (Run.of env ss').output ∧
        Option.Rel Failure.Agrees (Run.of env ss).failure (Run.of env ss').failure) ∧
      ss.map Stmt.text = ss'.map Stmt.text := by
  constructor
  · intro ts us h
    obtain ⟨hstatements, herrors⟩ := parse_agrees h
    have htexts : List.Forall₂ (fun t u => t.text = u.text) ts us := h.imp fun _ _ h => h.text_eq
    exact ⟨hstatements, herrors, (forall₂_iff_map_eq fun _ _ => Iff.rfl).mp htexts⟩
  · intro ss ss' h
    have htexts : List.Forall₂ (fun s s' => s.text = s'.text) ss ss' := h.imp fun _ _ h => h.text_eq
    exact ⟨run_agrees h, (forall₂_iff_map_eq fun _ _ => Iff.rfl).mp htexts⟩

/-- The tokens of `-nil; )`, once on the lines 1 and 2 and once on lines that go up and
down.  The error at `)` and the failure at `-` are moved, and nothing else is. -/
theorem lines_show_in_reports_only_minus :
    let tokens (m n : Nat) : List Token :=
      [⟨.minus, "-", none, m⟩, ⟨.kwNil, "nil", none, n⟩, ⟨.semicolon, ";", none, m⟩,
        ⟨.rightParen, ")", none, n⟩]
    let statements (m : Nat) : List Stmt :=
      [.expression (.unary ⟨.minus, "-", none, m⟩ (.literal .nil))]
    List.Forall₂ Token.Agrees (tokens 1 2) (tokens 9 4) ∧
      parse (tokens 1 2) = ⟨statements 1, [.unexpectedToken ")" "Expect expression." 2]⟩ ∧
      parse (tokens 9 4) = ⟨statements 9, [.unexpectedToken ")" "Expect expression." 4]⟩ ∧
      List.Forall₂ SyntaxError.Agrees (parse (tokens 1 2)).errors (parse (tokens 9 4)).errors ∧
      (Run.of .empty (statements 1)).failure =
        some (.error ⟨.operandNotNumber, ⟨.minus, "-", none, 1⟩⟩) ∧
      Option.Rel Failure.Agrees (Run.of .empty (statements 1)).failure
        (Run.of .empty (statements 9)).failure := by
  intro tokens statements
  have htokens : List.Forall₂ Token.Agrees (tokens 1 2) (tokens 9 4) := by
    refine .cons ⟨rfl, rfl, rfl⟩ (.cons ⟨rfl, rfl, rfl⟩ (.cons ⟨rfl, rfl, rfl⟩ ?_))
    exact .cons ⟨rfl, rfl, rfl⟩ .nil
  have hstatements : List.Forall₂ Stmt.Agrees (statements 1) (statements 9) :=
    .cons (.expression (.unary ⟨rfl, rfl, rfl⟩ (.literal .nil))) .nil
  have hparse := lines_show_in_reports_only.1 _ _ htokens
  have hrun := lines_show_in_reports_only.2 _ _ hstatements
  exact ⟨htokens, by decide +kernel, by decide +kernel, hparse.2.1, rfl, (hrun.1 .empty).2.2⟩

end LoxLang
