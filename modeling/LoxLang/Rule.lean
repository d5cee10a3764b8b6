import LoxLang.Expr
import LoxLang.SyntaxError

/-! # Rules of a grammar over tokens

A rule reads a list of tokens from the front and either builds something or
fails with a syntax error.  Either way it hands back the tokens it has not
consumed, so that a caller can go on behind a failure.  What it hands back is
always a suffix of what it was given; the type carries the proof, and loops over
rules terminate by it.
-/
namespace LoxLang

/-- A rule that builds an `α` from the front of a list of tokens. -/
structure Rule (α : Type) where
  /-- What the rule builds, or why it fails, and the tokens it leaves. -/
  run : List Token → Except SyntaxError α × List Token
  /-- A rule leaves a suffix of what it is given. -/
  suffix : ∀ ts, (run ts).2 <:+ ts

namespace Rule
variable {α β : Type}

theorem length_le (p : Rule α) (ts : List Token) : (p.run ts).2.length ≤ ts.length :=
  (p.suffix ts).length_le

/-- Builds `a` and consumes nothing. -/
protected def pure (a : α) : Rule α where
  run ts := (.ok a, ts)
  suffix _ := List.suffix_rfl

/-- Runs `p`, then the rule that `f` makes of its result.  A failure of `p` ends
the rule with the tokens `p` left. -/
protected def bind (p : Rule α) (f : α → Rule β) : Rule β where
  run ts :=
    let r := p.run ts
    match r.1 with
    | .ok a => (f a).run r.2
    | .error e => (.error e, r.2)
  suffix ts := by
    dsimp only
    split
    · exact ((f _).suffix _).trans (p.suffix ts)
    · exact p.suffix ts

instance : Monad Rule where
  pure := Rule.pure
  bind := Rule.bind

/-- Fails and consumes nothing. -/
def fail (e : SyntaxError) : Rule α where
  run ts := (.error e, ts)
  suffix _ := List.suffix_rfl

/-- The next token, which is not consumed. -/
def peek : Rule (Option Token) where
  run ts := (.ok ts.head?, ts)
  suffix _ := List.suffix_rfl

/-- Consumes the next token, if there is one. -/
def skip : Rule Unit where
  run ts := (.ok (), ts.drop 1)
  suffix ts := List.drop_suffix 1 ts

/-- Consumes the next token if it is of one of the given kinds. -/
def accept (kinds : List Kind) : Rule (Option Token) where
  run
    | [] => (.ok none, [])
    | t :: ts => if t.kind ∈ kinds then (.ok (some t), ts) else (.ok none, t :: ts)
  suffix
    | [] => List.suffix_rfl
    | t :: ts => by
      dsimp only
      split
      · exact List.suffix_cons t ts
      · exact List.suffix_rfl

/-- Consumes the next token, which has to be of the given kind. -/
def expect (kind : Kind) (demand : Demand) : Rule Token where
  run
    | [] => (.error (.unmet demand none), [])
    | t :: ts =>
      if t.kind = kind then (.ok t, ts) else (.error (.unmet demand (some t)), t :: ts)
  suffix
    | [] => List.suffix_rfl
    | t :: ts => by
      dsimp only
      split
      · exact List.suffix_cons t ts
      · exact List.suffix_rfl

/-! ### How the rules run -/

@[simp] theorem run_pure (a : α) (ts : List Token) : (pure a : Rule α).run ts = (.ok a, ts) := rfl

theorem run_bind (p : Rule α) (f : α → Rule β) (ts : List Token) :
    (p >>= f).run ts =
      match (p.run ts).1 with
      | .ok a => (f a).run (p.run ts).2
      | .error e => (.error e, (p.run ts).2) := rfl

theorem run_bind_ok {p : Rule α} {ts rest : List Token} {a : α}
    (h : p.run ts = (.ok a, rest)) (f : α → Rule β) : (p >>= f).run ts = (f a).run rest := by
  rw [run_bind, h]

theorem run_bind_error {p : Rule α} {ts rest : List Token} {e : SyntaxError}
    (h : p.run ts = (.error e, rest)) (f : α → Rule β) : (p >>= f).run ts = (.error e, rest) := by
  rw [run_bind, h]

/-- A rule built of two succeeds iff the two succeed one after the other. -/
theorem run_bind_eq_ok_iff {p : Rule α} {f : α → Rule β} {ts rest : List Token} {b : β} :
    (p >>= f).run ts = (.ok b, rest) ↔
      ∃ a mid, p.run ts = (.ok a, mid) ∧ (f a).run mid = (.ok b, rest) := by
  constructor
  · intro h
    rcases hp : p.run ts with ⟨_ | a, mid⟩
    · rw [run_bind_error hp] at h; simp at h
    · exact ⟨a, mid, rfl, by rwa [run_bind_ok hp] at h⟩
  · rintro ⟨a, mid, hp, hf⟩
    rw [run_bind_ok hp, hf]

@[simp] theorem run_fail (e : SyntaxError) (ts : List Token) :
    (fail e : Rule α).run ts = (.error e, ts) := rfl

@[simp] theorem run_peek (ts : List Token) : peek.run ts = (.ok ts.head?, ts) := rfl

@[simp] theorem run_skip (ts : List Token) : skip.run ts = (.ok (), ts.drop 1) := rfl

@[simp] theorem run_accept_nil (kinds : List Kind) : (accept kinds).run [] = (.ok none, []) := rfl

theorem run_accept_cons (kinds : List Kind) (t : Token) (ts : List Token) :
    (accept kinds).run (t :: ts) =
      if t.kind ∈ kinds then (.ok (some t), ts) else (.ok none, t :: ts) := rfl

@[simp] theorem run_expect_nil (kind : Kind) (demand : Demand) :
    (expect kind demand).run [] = (.error (.unmet demand none), []) := rfl

theorem run_expect_cons (kind : Kind) (demand : Demand) (t : Token) (ts : List Token) :
    (expect kind demand).run (t :: ts) =
      if t.kind = kind then (.ok t, ts) else (.error (.unmet demand (some t)), t :: ts) := rfl

/-! ### Progress -/

/-- A rule advances when its successes consume at least one token. -/
def Advances (p : Rule α) : Prop :=
  ∀ ts a, (p.run ts).1 = .ok a → (p.run ts).2.length < ts.length

theorem advances_expect (kind : Kind) (demand : Demand) : (expect kind demand).Advances := by
  intro ts a h
  cases ts with
  | nil => simp at h
  | cons t ts =>
    rw [run_expect_cons] at h ⊢
    split at h
    · simp_all
    · simp at h

theorem Advances.bind {p : Rule α} (hp : p.Advances) (f : α → Rule β) : (p >>= f).Advances := by
  intro ts b h
  rw [run_bind] at h ⊢
  split at h
  · rename_i a ha
    exact Nat.lt_of_le_of_lt ((f a).length_le _) (hp ts a ha)
  · simp at h

theorem Advances.bind_right (p : Rule α) {f : α → Rule β} (hf : ∀ a, (f a).Advances) :
    (p >>= f).Advances := by
  intro ts b h
  rw [run_bind] at h ⊢
  split at h
  · exact Nat.lt_of_lt_of_le (hf _ _ b h) (p.length_le ts)
  · simp at h

end Rule
end LoxLang
