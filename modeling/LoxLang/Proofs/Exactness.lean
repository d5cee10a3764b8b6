import LoxLang.Proofs.Derivation
import LoxLang.Proofs.Reading

/-! # The rules read their grammar

Every rule of the grammar reads exactly the phrases that its category derives
within the room it is given: `reads_unary` for all that room bounds,
`reads_declaration` for whole declarations.  The proof follows the definitions.
A binary level is treated once for all four, over any rule that reads the operands
(`reads_leftAssociative`); the recursion through groups and unary operators is an
induction on the room.
-/
namespace LoxLang.Grammar
open Rule

/-- The phrases of a category whose trees nest at most `room` deep. -/
def Within (c : Category) (room : Nat) : Phrases Expr := fun ts e =>
  Derives c ts e ∧ e.nesting ≤ room

/-- Declarations whose groups and unary operators nest at most `maxNesting` deep. -/
def ValidDeclaration : Phrases Stmt := fun ts s =>
  DerivesDeclaration ts s ∧ s.nesting ≤ maxNesting

/-- A phrase starts with none of the kinds that its category does not start with. -/
theorem Within.free {c : Category} {room : Nat} {kinds : List Kind} {ts rest : List Token}
    {e : Expr} (h : Within c room ts e) (hk : ∀ k ∈ c.starts, k ∉ kinds) :
    Free kinds (ts ++ rest) := by
  obtain ⟨t, us, rfl, ht⟩ := h.1.exists_cons
  exact free_cons.mpr (hk _ ht)

/-! ### Binary levels -/

/-- What extends `left` to a longer phrase of its level: operators, each with a
right operand. -/
inductive Operations (kinds : List Kind) (L : Phrases Expr) : Expr → List Token → Expr → Prop
  | none {left : Expr} : Operations kinds L left [] left
  | more {left right e : Expr} {operator : Token} {us vs : List Token}
      (ho : operator.kind ∈ kinds) (hr : L us right)
      (h : Operations kinds L (.binary left operator right) vs e) :
      Operations kinds L left (operator :: us ++ vs) e

namespace Operations
variable {kinds stop : List Kind} {L : Phrases Expr} {left right e : Expr} {ts us rest : List Token}

theorem concat (h : Operations kinds L left ts e) {operator : Token}
    (ho : operator.kind ∈ kinds) (hr : L us right) :
    Operations kinds L left (ts ++ operator :: us) (.binary e operator right) := by
  induction h with
  | none => simpa using Operations.more ho hr .none
  | more hop hv _ ih =>
    have hmore := Operations.more hop hv ih
    rwa [List.cons_append, ← List.append_assoc, ← List.cons_append] at hmore

/-- Operators of a level end the operands before them. -/
theorem free (h : Operations kinds L left ts e) (hdisj : ∀ k ∈ kinds, k ∉ stop)
    (hrest : Free (kinds ++ stop) rest) : Free stop (ts ++ rest) := by
  cases h with
  | none => exact hrest.append_right
  | more ho _ _ => exact free_cons.mpr (hdisj _ ho)

end Operations

/-- The rule behind the first operand of a level. -/
def chained (kinds : List Kind) (operand : Rule Expr) (left : Expr) : Rule Expr where
  run := chain kinds operand left
  suffix := chain_suffix kinds operand left

theorem leftAssociative_eq (kinds : List Kind) (operand : Rule Expr) :
    leftAssociative kinds operand = operand >>= chained kinds operand := rfl

section Chain
variable {kinds stop : List Kind} {operand : Rule Expr} {L : Phrases Expr}
  {left right e : Expr} {t : Token} {ts rest : List Token} {error : SyntaxError}

theorem chain_free (h : Free kinds ts) : chain kinds operand left ts = (.ok left, ts) := by
  cases ts with
  | nil => rw [chain]
  | cons t ts => rw [chain, if_neg (free_cons.mp h)]

theorem chain_ok (ht : t.kind ∈ kinds) (h : operand.run ts = (.ok right, rest)) :
    chain kinds operand left (t :: ts) = chain kinds operand (.binary left t right) rest := by
  rw [chain, if_pos ht, h]

theorem chain_error (ht : t.kind ∈ kinds) (h : operand.run ts = (.error error, rest)) :
    chain kinds operand left (t :: ts) = (.error error, rest) := by
  rw [chain, if_pos ht, h]

theorem of_chain_ok (h : operand.Reads L stop) (hts : Free stop ts)
    (hrun : chain kinds operand left ts = (.ok e, rest)) :
    ∃ us, ts = us ++ rest ∧ Operations kinds L left us e ∧ Free (kinds ++ stop) rest := by
  fun_induction chain kinds operand left ts with
  | case1 left =>
    cases hrun
    exact ⟨[], rfl, .none, free_nil⟩
  | case2 left t ts ht r right hr ih =>
    have hop : operand.run ts = (.ok right, r.2) := Prod.ext hr rfl
    obtain ⟨us, hus, hL, hmid⟩ := h.run_eq_ok_iff.mp hop
    obtain ⟨vs, hvs, hops, hrest⟩ := ih hmid hrun
    refine ⟨t :: us ++ vs, ?_, .more ht hL hops, hrest⟩
    rw [hus, hvs, List.append_assoc, List.cons_append]
  | case3 => cases congrArg Prod.fst hrun
  | case4 left t ts ht =>
    cases hrun
    exact ⟨[], rfl, .none, Free.append (free_cons.mpr ht) hts⟩

theorem of_chain_error (h : operand.Reads L stop)
    (hrun : chain kinds operand left ts = (.error error, rest)) :
    ∃ us vs demand consumed, ts = us ++ vs ∧
      (chained kinds operand left).FailsAt us vs.head? demand consumed ∧
      Phrases.Begins (Operations kinds L left) us := by
  fun_induction chain kinds operand left ts with
  | case1 => cases congrArg Prod.fst hrun
  | case2 left t ts ht r right hr ih =>
    have hop : operand.run ts = (.ok right, r.2) := Prod.ext hr rfl
    obtain ⟨us, hus, hL, hmid⟩ := h.run_eq_ok_iff.mp hop
    obtain ⟨vs, ws, demand, consumed, hvs, hfail, xs, e, hops⟩ := ih hrun
    refine ⟨t :: us ++ vs, ws, demand, consumed, ?_, hfail.of_run_eq fun rest hrest => ?_,
      xs, e, ?_⟩
    · rw [hus, hvs, List.append_assoc, List.cons_append]
    · -- the operand still ends where the next turn of the loop begins
      have hsame : Free stop (vs ++ rest) := by
        rw [hvs] at hmid
        exact hmid.of_head?_eq (head?_append_congr vs hrest)
      rw [List.append_assoc, List.cons_append]
      exact chain_ok ht (h.run_ok hL hsame)
    · rw [List.append_assoc, List.cons_append]
      exact .more ht hL hops
  | case3 left t ts ht r error' hr =>
    have hop : operand.run ts = (.error error', r.2) := Prod.ext hr rfl
    obtain ⟨us, vs, demand, consumed, hus, hfail, xs, right, hL⟩ := h.exists_failsAt hop
    refine ⟨t :: us, vs, demand, consumed, by rw [hus, List.cons_append],
      ⟨fun rest hrest => ?_, hfail.consumed_eq⟩, xs, .binary left t right, ?_⟩
    · exact chain_error ht (hfail.run_eq rest hrest)
    · have hone : Operations kinds L left (t :: (us ++ xs) ++ []) _ := .more ht hL .none
      rwa [List.append_nil] at hone
  | case4 => cases congrArg Prod.fst hrun

/-- **The loop of a level.**  Behind an operand it reads operators with their right
operands, for as long as one follows. -/
theorem reads_chained (h : operand.Reads L stop) (hdisj : ∀ k ∈ kinds, k ∉ stop)
    (left : Expr) :
    ReadsBehind stop (chained kinds operand left) (Operations kinds L left) (kinds ++ stop) where
  run_ok := by
    intro ts e rest hops hrest
    induction hops with
    | none => exact chain_free hrest.append_left
    | more ho hr hops ih =>
      rw [List.append_assoc, List.cons_append]
      exact (chain_ok ho (h.run_ok hr (hops.free hdisj hrest))).trans ih
  of_run_ok := of_chain_ok h
  of_run_error := fun _ => of_chain_error h

end Chain

/-- The operators that a phrase of a level would be extended by. -/
def Level.continuations : Level → List Kind
  | factor => factor.operators
  | term => term.operators ++ factor.operators
  | comparison => comparison.operators ++ (term.operators ++ factor.operators)
  | equality =>
    equality.operators ++ (comparison.operators ++ (term.operators ++ factor.operators))

/-- Reading a level from the left finds the same trees as deriving it does. -/
theorem seq_operations_iff (level : Level) (room : Nat) (ts : List Token) (e : Expr) :
    (Within level.operand room).seq
        (Operations level.operators (Within level.operand room)) ts e ↔
      Within (.binary level) room ts e := by
  constructor
  · rintro ⟨us, vs, left, rfl, ⟨hd, hn⟩, hops⟩
    -- the part read so far is itself a phrase of the level
    have hleft : Within (.binary level) room us left := ⟨.operand hd, hn⟩
    clear hd hn
    induction hops generalizing us with
    | none => rwa [List.append_nil]
    | @more left right e operator vs ws ho hr _ ih =>
      have hnext : Within (.binary level) room (us ++ operator :: vs)
          (.binary left operator right) :=
        ⟨.operation hleft.1 ho hr.1, Nat.max_le.mpr ⟨hleft.2, hr.2⟩⟩
      have hall := ih _ hnext
      rwa [List.append_assoc] at hall
  · rintro ⟨hd, hn⟩
    generalize hc : Category.binary level = c at hd
    induction hd with
    | operand h =>
      cases hc
      exact ⟨_, [], _, (List.append_nil _).symm, ⟨h, hn⟩, .none⟩
    | operation _ ho hr ihl _ =>
      cases hc
      obtain ⟨hnl, hnr⟩ := Nat.max_le.mp hn
      obtain ⟨us, vs, first, rfl, hfirst, hops⟩ := ihl hnl rfl
      exact ⟨us, _, first, List.append_assoc .., hfirst, hops.concat ho ⟨hr, hnr⟩⟩
    | _ => cases hc

/-- **A level reads its category**, over any rule that reads the operands. -/
theorem reads_leftAssociative (level : Level) {room : Nat} {operand : Rule Expr}
    {stop : List Kind} (h : operand.Reads (Within level.operand room) stop)
    (hdisj : ∀ k ∈ level.operators, k ∉ stop) :
    (leftAssociative level.operators operand).Reads (Within (.binary level) room)
      (level.operators ++ stop) := by
  rw [leftAssociative_eq]
  refine (h.bind (reads_chained h hdisj) ?_ ?_).congr (seq_operations_iff level room)
  · exact fun hops hrest => hops.free hdisj hrest
  · exact fun left => ⟨[], left, .none⟩

section Levels
variable {room : Nat} {operand : Rule Expr}

theorem reads_factorOf (h : operand.Reads (Within .unary room) []) :
    (factorOf operand).Reads (Within (.binary .factor) room) Level.factor.continuations :=
  reads_leftAssociative .factor h (by simp)

theorem reads_termOf (h : operand.Reads (Within .unary room) []) :
    (termOf operand).Reads (Within (.binary .term) room) Level.term.continuations :=
  reads_leftAssociative .term (reads_factorOf h) (by decide)

theorem reads_comparisonOf (h : operand.Reads (Within .unary room) []) :
    (comparisonOf operand).Reads (Within (.binary .comparison) room)
      Level.comparison.continuations :=
  reads_leftAssociative .comparison (reads_termOf h) (by decide)

theorem reads_equalityOf (h : operand.Reads (Within .unary room) []) :
    (equalityOf operand).Reads (Within (.binary .equality) room) Level.equality.continuations :=
  reads_leftAssociative .equality (reads_comparisonOf h) (by decide)

end Levels

/-! ### Unary operators, groups and atoms -/

/-- An atom is a primary expression of a single token. -/
theorem atom?_eq_some_iff {t : Token} {e : Expr} :
    atom? t = some e ↔ Derives .primary [t] e := by
  constructor
  · intro h
    unfold atom? at h
    split at h
    all_goals cases h
    · exact .false ‹_›
    · exact .true ‹_›
    · exact .nil ‹_›
    · exact .constant (Or.inl ‹_›) ‹_›
    · exact .constant (Or.inr ‹_›) ‹_›
    · exact .identifier ‹_›
  · intro h
    generalize hts : [t] = ts at h
    cases h with
    | constant hk hl =>
      cases hts
      rcases hk with hk | hk <;> simp [atom?, hk, hl]
    | true hk | false hk | nil hk | identifier hk =>
      cases hts
      simp [atom?, hk]
    | group _ _ _ => simp at hts

theorem atom?_leftParen {t : Token} (h : t.kind = .leftParen) : atom? t = none := by
  simp [atom?, h]

/-- What is read behind an opening parenthesis. -/
def groupOf (inner : Rule Expr) : Rule Expr := do
  let e ← inner
  let _ ← Rule.expect .rightParen .closingParen
  return .group e

section Primary
variable {t : Token} {e : Expr}

theorem run_primaryOf_atom (inner : Option (Rule Expr)) (h : atom? t = some e)
    (ts : List Token) : (primaryOf inner).run (t :: ts) = (.ok e, ts) := by
  rw [primaryOf, run_bind_ok (run_peek _)]
  simp only [List.head?_cons, h]
  rfl

theorem run_primaryOf_other (inner : Option (Rule Expr)) (h : atom? t = none)
    (hk : t.kind ≠ .leftParen) (ts : List Token) :
    (primaryOf inner).run (t :: ts) = (.error (.unmet .expression (some t)), t :: ts) := by
  rw [primaryOf, run_bind_ok (run_peek _)]
  simp only [List.head?_cons, h, if_neg hk]
  rfl

theorem run_primaryOf_none (hk : t.kind = .leftParen) (ts : List Token) :
    (primaryOf none).run (t :: ts) = (.error (.unmet .lessNesting (some t)), t :: ts) := by
  rw [primaryOf, run_bind_ok (run_peek _)]
  simp only [List.head?_cons, atom?_leftParen hk, if_pos hk]
  rfl

theorem run_primaryOf_some (inner : Rule Expr) (hk : t.kind = .leftParen) (ts : List Token) :
    (primaryOf (some inner)).run (t :: ts) = (groupOf inner).run ts := by
  rw [primaryOf, run_bind_ok (run_peek _)]
  simp only [List.head?_cons, atom?_leftParen hk, if_pos hk]
  rfl

end Primary

/-- What stands behind the first token of a primary expression: nothing behind an
atom, and behind a parenthesis the rest of a group with one level less of room. -/
def BehindFirst (room : Nat) (t : Token) : Phrases Expr := fun us e =>
  (us = [] ∧ atom? t = some e) ∨
    t.kind = .leftParen ∧ ∃ r, room = r + 1 ∧
      (Within (.binary .equality) r).closed .rightParen .group us e

theorem within_primary_iff {room : Nat} {ts : List Token} {e : Expr} :
    (∃ t us, ts = t :: us ∧ BehindFirst room t us e) ↔ Within .primary room ts e := by
  constructor
  · rintro ⟨t, us, rfl, ⟨rfl, ha⟩ | ⟨ht, r, rfl, vs, inner, closing, rfl, ⟨h, hn⟩, hc, rfl⟩⟩
    · refine ⟨atom?_eq_some_iff.mp ha, ?_⟩
      have hd := atom?_eq_some_iff.mp ha
      generalize hts : [t] = ts at hd
      cases hd with
      | group _ _ _ => simp at hts
      | _ => exact Nat.zero_le room
    · exact ⟨.group ht h hc, Nat.succ_le_succ hn⟩
  · rintro ⟨hd, hn⟩
    have hatom {t : Token} (h : Derives .primary [t] e) :
        ∃ u us, [t] = u :: us ∧ BehindFirst room u us e :=
      ⟨t, [], rfl, Or.inl ⟨rfl, atom?_eq_some_iff.mpr h⟩⟩
    cases hd with
    | constant hk hl => exact hatom (.constant hk hl)
    | true hk => exact hatom (.true hk)
    | false hk => exact hatom (.false hk)
    | nil hk => exact hatom (.nil hk)
    | identifier hk => exact hatom (.identifier hk)
    | @group us opening closing inner ho h hc =>
      obtain ⟨r, rfl⟩ := Nat.exists_eq_add_of_le' (Nat.le_trans (Nat.le_add_left 1 _) hn)
      exact ⟨opening, us ++ [closing], rfl, Or.inr ⟨ho, r, rfl,
        us, inner, closing, rfl, ⟨h, Nat.le_of_succ_le_succ hn⟩, hc, rfl⟩⟩

/-- What a primary expression is given to read inside parentheses: nothing when
there is no room, and otherwise an expression with one level less of it. -/
inductive Opens : Nat → Option (Rule Expr) → Prop
  | full : Opens 0 none
  | inside {room : Nat} {inner : Rule Expr}
      (h : inner.Reads (Within (.binary .equality) room) Level.equality.continuations) :
      Opens (room + 1) (some inner)

section Primary
variable {room : Nat} {inner : Option (Rule Expr)} {t : Token}

theorem not_behindFirst (ha : atom? t = none) (ht : t.kind ≠ .leftParen) (us : List Token)
    (e : Expr) : ¬ BehindFirst room t us e := by
  rintro (⟨_, ha'⟩ | ⟨ht', _⟩)
  · rw [ha] at ha'
    cases ha'
  · exact ht ht'

/-- **The first token of a primary expression decides.** -/
theorem decides_primaryOf (h : Opens room inner) (t : Token) :
    (primaryOf inner).Decides t (BehindFirst room t) [] := by
  cases ha : atom? t with
  | some a =>
    have hpure : (pure a : Rule Expr).Reads (fun us e => us = [] ∧ e = a) [] := Reads.pure [] a
    refine Or.inl ⟨pure a, hpure.congr fun us e => ?_, run_primaryOf_atom inner ha⟩
    have ht : t.kind ≠ .leftParen := by
      intro ht
      rw [atom?_leftParen ht] at ha
      cases ha
    simp [BehindFirst, ha, ht, eq_comm]
  | none =>
    by_cases ht : t.kind = .leftParen
    · cases h with
      | full =>
        refine Or.inr ⟨?_, .lessNesting, 0, failsAt_first (run_primaryOf_none ht)⟩
        rintro us e (⟨_, ha'⟩ | ⟨_, r, hr, _⟩)
        · rw [ha] at ha'
          cases ha'
        · cases hr
      | @inside r p hp =>
        have hgroup := hp.closed (show Kind.rightParen ∉ Level.equality.continuations by decide)
          .closingParen Expr.group
        refine Or.inl ⟨groupOf p, hgroup.congr fun us e => ?_, run_primaryOf_some p ht⟩
        simp [BehindFirst, ha, ht]
    · exact Or.inr ⟨not_behindFirst ha ht, .expression, 0,
        failsAt_first (run_primaryOf_other inner ha ht)⟩

theorem exists_behindFirst (room : Nat) : ∃ t us e, BehindFirst room t us e :=
  ⟨⟨.kwNil, "nil", none, 0⟩, [], .literal .nil, Or.inl ⟨rfl, rfl⟩⟩

theorem reads_primaryOf (h : Opens room inner) :
    (primaryOf inner).Reads (Within .primary room) [] :=
  (Reads.of_decides rfl (decides_primaryOf h) (exists_behindFirst room)).congr
    fun _ _ => within_primary_iff

end Primary

/-- A unary operator before a unary expression, or a primary expression. -/
theorem within_unary_iff {room : Nat} {ts : List Token} {e : Expr} :
    Within .unary room ts e ↔
      (∃ t us r operand, ts = t :: us ∧ (t.kind = .bang ∨ t.kind = .minus) ∧ room = r + 1 ∧
        Within .unary r us operand ∧ e = .unary t operand) ∨
      Within .primary room ts e := by
  constructor
  · rintro ⟨hd, hn⟩
    cases hd with
    | @unary us operator operand ho h =>
      obtain ⟨r, rfl⟩ := Nat.exists_eq_add_of_le' (Nat.le_trans (Nat.le_add_left 1 _) hn)
      exact Or.inl ⟨operator, us, r, operand, rfl, ho, rfl, ⟨h, Nat.le_of_succ_le_succ hn⟩, rfl⟩
    | primary h => exact Or.inr ⟨h, hn⟩
  · rintro (⟨t, us, r, operand, rfl, ho, rfl, ⟨h, hn⟩, rfl⟩ | ⟨h, hn⟩)
    · exact ⟨.unary ho h, Nat.succ_le_succ hn⟩
    · exact ⟨.primary h, hn⟩

/-- Without room a unary operator is consumed and refused. -/
theorem run_unary_zero_mem {t : Token} (ht : t.kind ∈ [.bang, .minus]) (ts : List Token) :
    (unary 0).run (t :: ts) = (.error (.unmet .lessNesting (some t)), ts) := by
  rw [unary, run_accept_bind_mem ht]
  rfl

theorem run_unary_zero_free {ts : List Token} (hts : Free [.bang, .minus] ts) :
    (unary 0).run ts = (primaryOf none).run ts := by
  rw [unary, run_accept_bind_free hts]

theorem reads_unary_zero : (unary 0).Reads (Within .unary 0) [] := by
  have hdecides (t : Token) : (unary 0).Decides t (BehindFirst 0 t) [] := by
    by_cases ht : t.kind ∈ [.bang, .minus]
    · have hother : atom? t = none ∧ t.kind ≠ .leftParen := by
        rcases (by simpa using ht : t.kind = .bang ∨ t.kind = .minus) with hk | hk <;>
          simp [atom?, hk]
      refine Or.inr ⟨not_behindFirst hother.1 hother.2, .lessNesting, 1, fun rest hrest => ?_,
        Or.inr ⟨rfl, rfl, t, rfl, by simpa using ht⟩⟩
      obtain ⟨ts, rfl⟩ := List.head?_eq_some_iff.mp hrest
      exact run_unary_zero_mem ht ts
    · exact (decides_primaryOf .full t).of_run_eq
        fun ts => run_unary_zero_free (free_cons.mpr ht)
  refine (Reads.of_decides rfl hdecides (exists_behindFirst 0)).congr fun ts e => ?_
  rw [within_primary_iff, within_unary_iff]
  -- without room no operator stands before a primary expression
  refine ⟨Or.inr, fun h => h.resolve_left ?_⟩
  rintro ⟨_, _, r, _, _, _, hroom, _⟩
  cases hroom

/-- **Unary expressions**, for every room.  All recursion of the grammar runs
through this rule. -/
theorem reads_unary (room : Nat) : (unary room).Reads (Within .unary room) [] := by
  induction room with
  | zero => exact reads_unary_zero
  | succ room ih =>
    have hp := reads_primaryOf (.inside (reads_equalityOf ih))
    refine (Reads.accept_bind (fun t _ => ih.map (Expr.unary t)) hp ?_).congr fun ts e => ?_
    · exact fun hw _ => hw.free (by decide)
    · rw [within_unary_iff]
      refine or_congr_left ⟨?_, ?_⟩
      · rintro ⟨t, us, rfl, ht, operand, hw, rfl⟩
        exact ⟨t, us, room, operand, rfl, by simpa using ht, rfl, hw, rfl⟩
      · rintro ⟨t, us, r, operand, rfl, ht, hr, hw, rfl⟩
        cases hr
        exact ⟨t, us, rfl, by simpa using ht, operand, hw, rfl⟩

/-! ### Statements -/

theorem reads_expression (room : Nat) :
    (expression room).Reads (Within (.binary .equality) room) Level.equality.continuations :=
  reads_equalityOf (reads_unary room)

/-- An expression closed by a semicolon, built into a statement. -/
def Sentence (build : Expr → Stmt) : Phrases Stmt :=
  (Within (.binary .equality) maxNesting).closed .semicolon build

theorem reads_sentence (demand : Demand) (build : Expr → Stmt) :
    (expression maxNesting >>= fun e => Rule.expect .semicolon demand >>= fun _ =>
      pure (build e)).Reads (Sentence build) [] :=
  (reads_expression maxNesting).closed (by decide) demand build

theorem Sentence.free {build : Expr → Stmt} {kinds : List Kind} {ts rest : List Token} {s : Stmt}
    (h : Sentence build ts s) (hk : ∀ k ∈ (Category.binary .equality).starts, k ∉ kinds) :
    Free kinds (ts ++ rest) := by
  obtain ⟨us, e, closing, rfl, hw, _, _⟩ := h
  rw [List.append_assoc]
  exact hw.free hk

/-- Statements whose groups and unary operators nest at most `maxNesting` deep. -/
def ValidStatement : Phrases Stmt := fun ts s => DerivesStatement ts s ∧ s.nesting ≤ maxNesting

theorem validStatement_iff {ts : List Token} {s : Stmt} :
    ValidStatement ts s ↔
      (∃ t us, ts = t :: us ∧ t.kind = .kwPrint ∧ Sentence .print us s) ∨
      Sentence .expression ts s := by
  constructor
  · rintro ⟨h, hn⟩
    cases h with
    | @print us keyword closing e hk h hc =>
      exact Or.inl ⟨keyword, us ++ [closing], rfl, hk, us, e, closing, rfl, ⟨h, hn⟩, hc, rfl⟩
    | @expression us closing e h hc =>
      exact Or.inr ⟨us, e, closing, rfl, ⟨h, hn⟩, hc, rfl⟩
  · rintro (⟨t, us, rfl, ht, vs, e, closing, rfl, ⟨h, hn⟩, hc, rfl⟩ |
      ⟨us, e, closing, rfl, ⟨h, hn⟩, hc, rfl⟩)
    · exact ⟨.print ht h hc, hn⟩
    · exact ⟨.expression h hc, hn⟩

theorem reads_statement : statement.Reads ValidStatement [] := by
  refine (Reads.accept_bind (fun _ _ => reads_sentence .endOfPrint .print)
    (reads_sentence .endOfExpression .expression) ?_).congr fun ts s => ?_
  · exact fun h _ => h.free (by decide)
  · rw [validStatement_iff]
    simp only [List.mem_singleton]

/-- What follows the name of a variable. -/
def initialOf (name : Token) : Option Token → Rule Stmt
  | some _ => do
    let value ← expression maxNesting
    let _ ← Rule.expect .semicolon .endOfDeclaration
    return .declare name (some value)
  | none => do
    let _ ← Rule.expect .semicolon .endOfDeclaration
    return .declare name none

theorem variableDeclaration_eq :
    variableDeclaration =
      Rule.expect .identifier .variableName >>= fun name =>
        Rule.accept [.equal] >>= initialOf name := by
  unfold variableDeclaration initializer
  congr 1
  funext name
  rw [Rule.bind_assoc]
  congr 1
  funext equal
  cases equal with
  | none => rfl
  | some t => exact Rule.bind_assoc ..

theorem reads_initialOf (name : Token) :
    (Rule.accept [.equal] >>= initialOf name).Reads
      (fun ts s => (∃ t us, ts = t :: us ∧ t.kind = .equal ∧
          Sentence (fun e => .declare name (some e)) us s) ∨
        ∃ closing, ts = [closing] ∧ closing.kind = .semicolon ∧ s = .declare name none) [] := by
  have hnone := (Reads.expect .semicolon .endOfDeclaration).map fun _ => Stmt.declare name none
  refine (Reads.accept_bind
    (fun _ _ => reads_sentence .endOfDeclaration fun e => .declare name (some e))
    hnone ?_).congr fun ts s => ?_
  · rintro us s rest ⟨closing, ⟨rfl, hc⟩, rfl⟩ _
    rw [List.singleton_append, free_cons, hc]
    decide
  · simp only [List.mem_singleton, and_assoc]

theorem reads_variableDeclaration :
    variableDeclaration.Reads
      (fun ts s => ∃ name us, ts = name :: us ∧ name.kind = .identifier ∧
        ((∃ t vs, us = t :: vs ∧ t.kind = .equal ∧
          Sentence (fun e => .declare name (some e)) vs s) ∨
        ∃ closing, us = [closing] ∧ closing.kind = .semicolon ∧ s = .declare name none)) [] := by
  rw [variableDeclaration_eq]
  refine ((Reads.expect _ _).bind (fun name => (reads_initialOf name).behind _) ?_ ?_).congr
    fun ts s => ?_
  · exact fun _ _ => free_none
  · exact fun name => ⟨_, _, Or.inr ⟨⟨.semicolon, ";", none, 0⟩, rfl, rfl, rfl⟩⟩
  · constructor
    · rintro ⟨us, vs, name, rfl, ⟨rfl, hn⟩, h⟩
      exact ⟨name, vs, rfl, hn, h⟩
    · rintro ⟨name, us, rfl, hn, h⟩
      exact ⟨[name], us, name, rfl, ⟨rfl, hn⟩, h⟩

/-- **Declarations.**  The rule accepts a declaration of the grammar within the
nesting limit, whatever follows it, and nothing else. -/
theorem reads_declaration : declaration.Reads ValidDeclaration [] := by
  refine (Reads.accept_bind (fun _ _ => reads_variableDeclaration) reads_statement ?_).congr
    fun ts s => ?_
  · intro us s rest h _
    rcases validStatement_iff.mp h with ⟨t, vs, rfl, ht, _⟩ | h
    · rw [List.cons_append, free_cons, ht]
      decide
    · exact h.free (by decide)
  · constructor
    · rintro (⟨t, us, rfl, ht, name, vs, rfl, hn, hrest⟩ | ⟨h, hn⟩)
      · rw [List.mem_singleton] at ht
        rcases hrest with ⟨t', ws, rfl, ht', xs, e, closing, rfl, ⟨h, hnest⟩, hc, rfl⟩ |
          ⟨closing, rfl, hc, rfl⟩
        · exact ⟨.initialized ht hn ht' h hc, hnest⟩
        · exact ⟨.bare ht hn hc, Nat.zero_le _⟩
      · exact ⟨.statement h, hn⟩
    · rintro ⟨h, hnest⟩
      cases h with
      | @bare keyword name closing hk hn hc =>
        exact Or.inl ⟨keyword, _, rfl, List.mem_singleton.mpr hk, name, _, rfl, hn,
          Or.inr ⟨closing, rfl, hc, rfl⟩⟩
      | @initialized us keyword name equal closing e hk hn he h hc =>
        exact Or.inl ⟨keyword, _, rfl, List.mem_singleton.mpr hk, name, _, rfl, hn,
          Or.inl ⟨equal, _, rfl, he, us, e, closing, rfl, ⟨h, hnest⟩, hc, rfl⟩⟩
      | statement h => exact Or.inr ⟨h, hnest⟩

end LoxLang.Grammar
