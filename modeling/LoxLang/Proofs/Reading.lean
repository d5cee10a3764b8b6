import LoxLang.Rule

/-! # What a rule reads

A rule *reads* a set of phrases when it succeeds on exactly those, and fails only
where no phrase can go on (`Rule.Reads`).  The definition looks at most one token
ahead.  A success consumes one phrase and depends on the next token only through
the kinds in `stop`, those that would have extended the phrase.  A failure is
decided by the tokens before some place and the one found there
(`Rule.FailsAt`): whatever comes later, the rule fails in the same way, and the
tokens before that place are the beginning of a phrase.

Each way of building a rule from others gets one lemma here, and the phrases of
the built rule are computed from those of its parts.
-/
namespace LoxLang

/-- A set of phrases: lists of tokens, each with what it builds. -/
abbrev Phrases (α : Type) : Type := List Token → α → Prop

namespace Phrases
variable {α β : Type}

/-- `ts` is the beginning of a phrase. -/
def Begins (L : Phrases α) (ts : List Token) : Prop := ∃ us a, L (ts ++ us) a

/-- A phrase of `L`, and behind it one of what its result asks for. -/
def seq (L : Phrases α) (M : α → Phrases β) : Phrases β := fun ts b =>
  ∃ us vs a, ts = us ++ vs ∧ L us a ∧ M a vs b

/-- A phrase of `L` and a closing token. -/
def closed (L : Phrases α) (kind : Kind) (build : α → β) : Phrases β := fun ts b =>
  ∃ us a closing, ts = us ++ [closing] ∧ L us a ∧ closing.kind = kind ∧ b = build a

end Phrases

/-- The next token, if there is one, is of none of the kinds. -/
def Free (kinds : List Kind) (ts : List Token) : Prop := ∀ t ∈ ts.head?, t.kind ∉ kinds

section Free
variable {kinds : List Kind} {ts us : List Token} {t : Token}

@[simp] theorem free_none : Free [] ts := fun _ _ => List.not_mem_nil

@[simp] theorem free_nil : Free kinds [] := fun _ h => by cases h

@[simp] theorem free_cons : Free kinds (t :: ts) ↔ t.kind ∉ kinds := by simp [Free]

theorem Free.of_head?_eq (h : Free kinds ts) (he : us.head? = ts.head?) : Free kinds us := by
  unfold Free
  rwa [he]

theorem Free.append_left {more : List Kind} (h : Free (kinds ++ more) ts) : Free kinds ts :=
  fun t ht hk => h t ht (List.mem_append_left _ hk)

theorem Free.append_right {more : List Kind} (h : Free (more ++ kinds) ts) : Free kinds ts :=
  fun t ht hk => h t ht (List.mem_append_right _ hk)

theorem Free.append {more : List Kind} (h₁ : Free kinds ts) (h₂ : Free more ts) :
    Free (kinds ++ more) ts := by
  intro t ht hk
  rcases List.mem_append.mp hk with hk | hk
  · exact h₁ t ht hk
  · exact h₂ t ht hk

theorem mem_or_free (kinds : List Kind) (ts : List Token) :
    (∃ t us, ts = t :: us ∧ t.kind ∈ kinds) ∨ Free kinds ts := by
  cases ts with
  | nil => exact Or.inr free_nil
  | cons t ts =>
    by_cases ht : t.kind ∈ kinds
    · exact Or.inl ⟨t, ts, rfl, ht⟩
    · exact Or.inr (free_cons.mpr ht)

theorem head?_append_congr (ws : List Token) (h : us.head? = ts.head?) :
    (ws ++ us).head? = (ws ++ ts).head? := by
  cases ws with
  | nil => exact h
  | cons w ws => rfl

end Free

namespace Rule
variable {α β : Type}

theorem bind_assoc {γ : Type} (p : Rule α) (f : α → Rule β) (g : β → Rule γ) :
    (p >>= f) >>= g = p >>= fun a => f a >>= g := by
  have hrun : ((p >>= f) >>= g).run = (p >>= fun a => f a >>= g).run := by
    funext ts
    simp only [run_bind]
    cases (p.run ts).1 <;> rfl
  generalize (p >>= f) >>= g = q at hrun
  generalize (p >>= fun a => f a >>= g) = r at hrun
  cases q
  cases r
  cases hrun
  rfl

theorem run_accept_bind_mem {kinds : List Kind} {t : Token} (ht : t.kind ∈ kinds)
    (f : Option Token → Rule α) (ts : List Token) :
    (accept kinds >>= f).run (t :: ts) = (f (some t)).run ts :=
  run_bind_ok (by rw [run_accept_cons, if_pos ht]) f

theorem run_accept_bind_free {kinds : List Kind} {ts : List Token} (hts : Free kinds ts)
    (f : Option Token → Rule α) : (accept kinds >>= f).run ts = (f none).run ts := by
  refine run_bind_ok ?_ f
  cases ts with
  | nil => rfl
  | cons t ts => rw [run_accept_cons, if_neg (free_cons.mp hts)]

/-- Behind `ts`, on finding `found` next, the rule fails for want of `demand`.  It
leaves what it found, unless that is a unary operator for which there is no room:
then it consumes it first. -/
structure FailsAt (p : Rule α) (ts : List Token) (found : Option Token) (demand : Demand)
    (consumed : Nat) : Prop where
  run_eq : ∀ rest, rest.head? = found →
    p.run (ts ++ rest) = (.error (.unmet demand found), rest.drop consumed)
  consumed_eq : consumed = 0 ∨ consumed = 1 ∧ demand = .lessNesting ∧
    ∃ t, found = some t ∧ (t.kind = .bang ∨ t.kind = .minus)

/-- A rule that runs like a failing one fails like it. -/
theorem FailsAt.of_run_eq {p q : Rule α} {ts us : List Token} {found : Option Token}
    {demand : Demand} {consumed : Nat} (h : q.FailsAt us found demand consumed)
    (hrun : ∀ rest, rest.head? = found → p.run (ts ++ rest) = q.run (us ++ rest)) :
    p.FailsAt ts found demand consumed :=
  ⟨fun rest hrest => (hrun rest hrest).trans (h.run_eq rest hrest), h.consumed_eq⟩

/-- A rule that refuses the first token. -/
theorem failsAt_first {p : Rule α} {t : Token} {demand : Demand}
    (hrun : ∀ ts, p.run (t :: ts) = (.error (.unmet demand (some t)), t :: ts)) :
    p.FailsAt [] (some t) demand 0 := by
  refine ⟨fun rest hrest => ?_, Or.inl rfl⟩
  obtain ⟨ts, rfl⟩ := List.head?_eq_some_iff.mp hrest
  exact hrun ts

/-- A rule that refuses to end here. -/
theorem failsAt_end {p : Rule α} {demand : Demand}
    (hrun : p.run [] = (.error (.unmet demand none), [])) : p.FailsAt [] none demand 0 := by
  refine ⟨fun rest hrest => ?_, Or.inl rfl⟩
  rw [List.head?_eq_none_iff.mp hrest]
  exact hrun

/-- Where no token of `start` comes next, the rule reads the phrases of `L`, each
up to a token that is not in `stop`. -/
structure ReadsBehind (start : List Kind) (p : Rule α) (L : Phrases α) (stop : List Kind) :
    Prop where
  run_ok : ∀ {ts a rest}, L ts a → Free stop rest → p.run (ts ++ rest) = (.ok a, rest)
  of_run_ok : ∀ {ts a rest}, Free start ts → p.run ts = (.ok a, rest) →
    ∃ us, ts = us ++ rest ∧ L us a ∧ Free stop rest
  of_run_error : ∀ {ts e rest}, Free start ts → p.run ts = (.error e, rest) →
    ∃ us vs demand consumed, ts = us ++ vs ∧ p.FailsAt us vs.head? demand consumed ∧ L.Begins us

/-- The rule reads the phrases of `L`, each up to a token that is not in `stop`. -/
def Reads (p : Rule α) (L : Phrases α) (stop : List Kind) : Prop := ReadsBehind [] p L stop

/-- A first token `t` decides: behind it the rule goes on with one that reads the rest
of the phrases, which `M` are, or there are none and it refuses `t`. -/
def Decides (p : Rule α) (t : Token) (M : Phrases α) (stop : List Kind) : Prop :=
  (∃ q : Rule α, q.Reads M stop ∧ ∀ ts, p.run (t :: ts) = q.run ts) ∨
    (∀ us a, ¬ M us a) ∧ ∃ demand consumed, p.FailsAt [] (some t) demand consumed

theorem Decides.of_run_eq {p q : Rule α} {t : Token} {M : Phrases α} {stop : List Kind}
    (h : q.Decides t M stop) (hrun : ∀ ts, p.run (t :: ts) = q.run (t :: ts)) :
    p.Decides t M stop := by
  rcases h with ⟨next, hnext, hq⟩ | ⟨hnone, demand, consumed, hfail⟩
  · exact Or.inl ⟨next, hnext, fun ts => (hrun ts).trans (hq ts)⟩
  · refine Or.inr ⟨hnone, demand, consumed, hfail.of_run_eq fun rest hrest => ?_⟩
    obtain ⟨ts, rfl⟩ := List.head?_eq_some_iff.mp hrest
    exact hrun ts

namespace Reads
variable {p : Rule α} {L : Phrases α} {stop : List Kind}

theorem run_ok (h : p.Reads L stop) {ts rest : List Token} {a : α} (hL : L ts a)
    (hrest : Free stop rest) : p.run (ts ++ rest) = (.ok a, rest) :=
  ReadsBehind.run_ok h hL hrest

/-- **Success, exactly.** -/
theorem run_eq_ok_iff (h : p.Reads L stop) {ts rest : List Token} {a : α} :
    p.run ts = (.ok a, rest) ↔ ∃ us, ts = us ++ rest ∧ L us a ∧ Free stop rest := by
  constructor
  · exact ReadsBehind.of_run_ok h free_none
  · rintro ⟨us, rfl, hL, hfree⟩
    exact h.run_ok hL hfree

/-- **Failure, exactly.** -/
theorem exists_failsAt (h : p.Reads L stop) {ts rest : List Token} {e : SyntaxError}
    (hrun : p.run ts = (.error e, rest)) :
    ∃ us vs demand consumed, ts = us ++ vs ∧ p.FailsAt us vs.head? demand consumed ∧
      L.Begins us :=
  ReadsBehind.of_run_error h free_none hrun

theorem behind (h : p.Reads L stop) (start : List Kind) : ReadsBehind start p L stop where
  run_ok := h.run_ok
  of_run_ok := fun _ hrun => h.run_eq_ok_iff.mp hrun
  of_run_error := fun _ hrun => h.exists_failsAt hrun

/-- Equal phrases are read alike. -/
theorem congr {M : Phrases α} (h : p.Reads L stop) (he : ∀ ts a, L ts a ↔ M ts a) :
    p.Reads M stop := by
  have hL : L = M := funext fun ts => funext fun a => propext (he ts a)
  exact hL ▸ h

/-- **One list of tokens builds one thing.** -/
theorem unique (h : p.Reads L stop) {ts : List Token} {a b : α} (ha : L ts a) (hb : L ts b) :
    a = b := by
  have hrun := (h.run_ok ha free_nil).symm.trans (h.run_ok hb free_nil)
  exact Except.ok.inj (congrArg Prod.fst hrun)

/-- **What a rule refuses cannot go on.**  No phrase begins with the tokens before
the place of a failure and the token found there. -/
theorem not_begins (h : p.Reads L stop) {ts : List Token} {t : Token} {demand : Demand}
    {consumed : Nat} (hfail : p.FailsAt ts (some t) demand consumed) :
    ¬ L.Begins (ts ++ [t]) := by
  rintro ⟨us, a, hL⟩
  have hok := h.run_ok hL free_nil
  have herr := hfail.run_eq (t :: us) rfl
  rw [List.append_nil, List.append_assoc, List.singleton_append, herr] at hok
  cases congrArg Prod.fst hok

/-! ### The rules -/

theorem pure (stop : List Kind) (a : α) :
    ReadsBehind stop (pure a : Rule α) (fun ts b => ts = [] ∧ b = a) stop where
  run_ok := by
    rintro ts b rest ⟨rfl, rfl⟩ _
    rfl
  of_run_ok := by
    intro ts b rest hts h
    cases h
    exact ⟨[], rfl, ⟨rfl, rfl⟩, hts⟩
  of_run_error := by
    intro ts e rest _ h
    cases congrArg Prod.fst h

/-- A rule that cannot end at once and that every first token decides. -/
theorem of_decides {M : Token → Phrases α} {demand : Demand}
    (hnil : p.run [] = (.error (.unmet demand none), [])) (hcons : ∀ t, p.Decides t (M t) stop)
    (hne : ∃ t us a, M t us a) :
    p.Reads (fun ts a => ∃ t us, ts = t :: us ∧ M t us a) stop where
  run_ok := by
    rintro ts a rest ⟨t, us, rfl, hM⟩ hrest
    rcases hcons t with ⟨q, hq, hrun⟩ | ⟨hnone, _⟩
    · rw [List.cons_append, hrun]
      exact hq.run_ok hM hrest
    · exact absurd hM (hnone us a)
  of_run_ok := by
    intro ts a rest _ h
    cases ts with
    | nil =>
      rw [hnil] at h
      cases congrArg Prod.fst h
    | cons t ts =>
      rcases hcons t with ⟨q, hq, hrun⟩ | ⟨_, _, _, hfail⟩
      · rw [hrun] at h
        obtain ⟨us, rfl, hM, hrest⟩ := hq.run_eq_ok_iff.mp h
        exact ⟨t :: us, rfl, ⟨t, us, rfl, hM⟩, hrest⟩
      · rw [← List.nil_append (t :: ts), hfail.run_eq (t :: ts) rfl] at h
        cases congrArg Prod.fst h
  of_run_error := by
    intro ts e rest _ h
    have hbegins : Phrases.Begins (fun ts a => ∃ t us, ts = t :: us ∧ M t us a) [] := by
      obtain ⟨t, us, a, hM⟩ := hne
      exact ⟨t :: us, a, t, us, rfl, hM⟩
    cases ts with
    | nil => exact ⟨[], [], demand, 0, rfl, failsAt_end hnil, hbegins⟩
    | cons t ts =>
      rcases hcons t with ⟨q, hq, hrun⟩ | ⟨_, demand, consumed, hfail⟩
      · rw [hrun] at h
        obtain ⟨us, vs, demand, consumed, rfl, hfail, xs, a, hM⟩ := hq.exists_failsAt h
        exact ⟨t :: us, vs, demand, consumed, rfl, hfail.of_run_eq fun rest _ => hrun (us ++ rest),
          xs, a, t, us ++ xs, rfl, hM⟩
      · exact ⟨[], t :: ts, demand, consumed, rfl, hfail, hbegins⟩

theorem expect (kind : Kind) (demand : Demand) :
    (expect kind demand).Reads (fun ts t => ts = [t] ∧ t.kind = kind) [] := by
  have hdecides (t : Token) : (Rule.expect kind demand).Decides t
      (fun us t' => t.kind = kind ∧ us = [] ∧ t' = t) [] := by
    by_cases ht : t.kind = kind
    · have hpure : (Pure.pure t : Rule Token).Reads (fun us t' => us = [] ∧ t' = t) [] := pure [] t
      refine Or.inl ⟨Pure.pure t, hpure.congr fun us t' => (and_iff_right ht).symm, fun ts => ?_⟩
      rw [run_expect_cons, if_pos ht]
      rfl
    · refine Or.inr ⟨fun us t' h => ht h.1, demand, 0, failsAt_first fun ts => ?_⟩
      rw [run_expect_cons, if_neg ht]
  refine (of_decides rfl hdecides ⟨⟨kind, "", none, 0⟩, [], _, rfl, rfl, rfl⟩).congr fun ts t' => ?_
  constructor
  · rintro ⟨t, us, rfl, ht, rfl, rfl⟩
    exact ⟨rfl, ht⟩
  · rintro ⟨rfl, ht⟩
    exact ⟨t', [], rfl, ht, rfl, rfl⟩

/-- One rule and then another.  What the second can begin with, or what can follow
where it may read nothing, must not extend a phrase of the first. -/
theorem bind {f : α → Rule β} {M : α → Phrases β} {stop' : List Kind} (hp : p.Reads L stop)
    (hf : ∀ a, ReadsBehind stop (f a) (M a) stop')
    (hfree : ∀ {a us b rest}, M a us b → Free stop' rest → Free stop (us ++ rest))
    (hne : ∀ a, ∃ us b, M a us b) : (p >>= f).Reads (L.seq M) stop' where
  run_ok := by
    rintro ts b rest ⟨us, vs, a, rfl, hL, hM⟩ hrest
    rw [List.append_assoc, run_bind_ok (hp.run_ok hL (hfree hM hrest)) f]
    exact (hf a).run_ok hM hrest
  of_run_ok := by
    intro ts b rest _ h
    obtain ⟨a, mid, hpa, hfa⟩ := run_bind_eq_ok_iff.mp h
    obtain ⟨us, rfl, hL, hmid⟩ := hp.run_eq_ok_iff.mp hpa
    obtain ⟨vs, rfl, hM, hrest⟩ := (hf a).of_run_ok hmid hfa
    exact ⟨us ++ vs, (List.append_assoc ..).symm, ⟨us, vs, a, rfl, hL, hM⟩, hrest⟩
  of_run_error := by
    intro ts e rest _ h
    rcases hrun : p.run ts with ⟨_ | a, mid⟩
    · obtain ⟨us, vs, demand, consumed, rfl, hfail, ws, a, hL⟩ := hp.exists_failsAt hrun
      obtain ⟨xs, b, hM⟩ := hne a
      exact ⟨us, vs, demand, consumed, rfl,
        ⟨fun rest hrest => run_bind_error (hfail.run_eq rest hrest) f, hfail.consumed_eq⟩,
        ws ++ xs, b, us ++ ws, xs, a, (List.append_assoc ..).symm, hL, hM⟩
    · rw [run_bind_ok hrun] at h
      obtain ⟨us, rfl, hL, hmid⟩ := hp.run_eq_ok_iff.mp hrun
      obtain ⟨vs, ws, demand, consumed, rfl, hfail, xs, b, hM⟩ := (hf a).of_run_error hmid h
      refine ⟨us ++ vs, ws, demand, consumed, (List.append_assoc ..).symm,
        hfail.of_run_eq fun rest hrest => ?_, xs, b, us, vs ++ xs, a, List.append_assoc .., hL, hM⟩
      -- the first rule sees the same next token as before, so it stops at the same place
      have hsame := hmid.of_head?_eq (head?_append_congr vs hrest)
      rw [List.append_assoc, run_bind_ok (hp.run_ok hL hsame)]

/-- A rule whose result is built into another. -/
theorem map (h : p.Reads L stop) (build : α → β) :
    (p >>= fun a => Pure.pure (build a)).Reads (fun ts b => ∃ a, L ts a ∧ b = build a) stop := by
  refine (h.bind (fun a => pure stop (build a)) ?_ ?_).congr fun ts b => ?_
  · rintro a us b rest ⟨rfl, rfl⟩ hrest
    exact hrest
  · exact fun a => ⟨[], build a, rfl, rfl⟩
  · constructor
    · rintro ⟨us, vs, a, rfl, hL, rfl, rfl⟩
      exact ⟨a, by rwa [List.append_nil], rfl⟩
    · rintro ⟨a, hL, rfl⟩
      exact ⟨ts, [], a, (List.append_nil ts).symm, hL, rfl, rfl⟩

/-- A rule and then a token of one kind. -/
theorem closed (h : p.Reads L stop) {kind : Kind} (hk : kind ∉ stop) (demand : Demand)
    (build : α → β) :
    (p >>= fun a => Rule.expect kind demand >>= fun _ => Pure.pure (build a)).Reads
      (L.closed kind build) [] := by
  have hclose (b : β) : (Rule.expect kind demand >>= fun _ => Pure.pure b).Reads
      (fun ts b' => ∃ t, ts = [t] ∧ t.kind = kind ∧ b' = b) [] := by
    refine ((expect kind demand).bind (fun _ => pure [] b) (fun _ _ => free_none)
      (fun _ => ⟨[], b, rfl, rfl⟩)).congr fun ts b' => ?_
    constructor
    · rintro ⟨us, vs, t, rfl, ⟨rfl, ht⟩, rfl, rfl⟩
      exact ⟨t, rfl, ht, rfl⟩
    · rintro ⟨t, rfl, ht, rfl⟩
      exact ⟨[t], [], t, rfl, ⟨rfl, ht⟩, rfl, rfl⟩
  refine (h.bind (fun a => (hclose (build a)).behind _) ?_ ?_).congr fun ts b => ?_
  · rintro a us b rest ⟨t, rfl, ht, _⟩ _
    rw [List.singleton_append, free_cons, ht]
    exact hk
  · exact fun a => ⟨[⟨kind, "", none, 0⟩], build a, _, rfl, rfl, rfl⟩
  · constructor
    · rintro ⟨us, vs, a, rfl, hL, t, rfl, ht, rfl⟩
      exact ⟨us, a, t, rfl, hL, ht, rfl⟩
    · rintro ⟨us, a, t, rfl, hL, ht, rfl⟩
      exact ⟨us, [t], a, rfl, hL, t, rfl, ht, rfl⟩

/-- A choice by the next token: one rule behind a token of the given kinds, which
is consumed, another one otherwise. -/
theorem accept_bind {kinds : List Kind} {f : Option Token → Rule α} {M : Token → Phrases α}
    (hsome : ∀ t, t.kind ∈ kinds → (f (some t)).Reads (M t) stop)
    (hnone : (f none).Reads L stop)
    (hfree : ∀ {us a rest}, L us a → Free stop rest → Free kinds (us ++ rest)) :
    (accept kinds >>= f).Reads
      (fun ts a => (∃ t us, ts = t :: us ∧ t.kind ∈ kinds ∧ M t us a) ∨ L ts a) stop := by
  refine ⟨?_, ?_, ?_⟩
  · rintro ts a rest (⟨t, us, rfl, ht, hM⟩ | hL) hrest
    · rw [List.cons_append, run_accept_bind_mem ht]
      exact (hsome t ht).run_ok hM hrest
    · rw [run_accept_bind_free (hfree hL hrest)]
      exact hnone.run_ok hL hrest
  · intro ts a rest _ h
    rcases mem_or_free kinds ts with ⟨t, us, rfl, ht⟩ | hts
    · rw [run_accept_bind_mem ht] at h
      obtain ⟨vs, rfl, hM, hrest⟩ := (hsome t ht).run_eq_ok_iff.mp h
      exact ⟨t :: vs, rfl, Or.inl ⟨t, vs, rfl, ht, hM⟩, hrest⟩
    · rw [run_accept_bind_free hts] at h
      obtain ⟨us, rfl, hL, hrest⟩ := hnone.run_eq_ok_iff.mp h
      exact ⟨us, rfl, Or.inr hL, hrest⟩
  · intro ts e rest _ h
    rcases mem_or_free kinds ts with ⟨t, us, rfl, ht⟩ | hts
    · rw [run_accept_bind_mem ht] at h
      obtain ⟨vs, ws, demand, consumed, rfl, hfail, xs, a, hM⟩ := (hsome t ht).exists_failsAt h
      refine ⟨t :: vs, ws, demand, consumed, rfl, hfail.of_run_eq fun rest _ => ?_,
        xs, a, Or.inl ⟨t, vs ++ xs, rfl, ht, hM⟩⟩
      rw [List.cons_append, run_accept_bind_mem ht]
    · rw [run_accept_bind_free hts] at h
      obtain ⟨us, vs, demand, consumed, rfl, hfail, xs, a, hL⟩ := hnone.exists_failsAt h
      refine ⟨us, vs, demand, consumed, rfl, hfail.of_run_eq fun rest hrest => ?_,
        xs, a, Or.inr hL⟩
      rw [run_accept_bind_free (hts.of_head?_eq (head?_append_congr us hrest))]

end Reads
end Rule
end LoxLang
