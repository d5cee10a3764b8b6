import LoxLang.Cli.Arguments

/-! # The arguments of a run

A word behind two dashes names a switch, letters behind one dash are switches side by side,
and any other argument stands for itself (`Word`), as do all behind `--` (`Words`).  They are
the arguments of a run if no switch is spelled twice and at most one word is left, which is
the script (`Spells`).

`Args.tryParse_eq_ok_iff` says that these arguments are read, each switch as what it is,
and no others.  Reading takes in one argument after another.  So the proof says what is added
to what has been read before (`Adds`), for one argument (`argument_eq_ok_iff`) and then, by
induction, for all.
-/
namespace LoxLang.Cli

/-- What can be switched on for a run. -/
inductive Switch where
  | tokens | ast
deriving Repr, DecidableEq

namespace Switch

/-- The name behind two dashes. -/
def name : Switch → String
  | tokens => "tokens"
  | ast => "ast"

/-- The letter behind one dash. -/
def letter : Switch → Char
  | tokens => 't'
  | ast => 'a'

/-- The flag that is read. -/
def flag : Switch → Flag
  | tokens => .tokens
  | ast => .ast

end Switch

/-- An argument that does not end the flags, the switches that it spells in their order, and
the word that it is if it stands for itself. -/
inductive Word : String → List Switch → List String → Prop
  | long (switch : Switch) : Word ("--" ++ switch.name) [switch] []
  | short {cluster : List Switch} (hne : cluster ≠ []) :
    Word ("-" ++ String.ofList (cluster.map Switch.letter)) cluster []
  | plain {word : String} (h : word = "-" ∨ word.toList.head? ≠ some '-') : Word word [] [word]

/-- Such an argument is not `--` itself. -/
theorem Word.ne_dashes {arg : String} {switches : List Switch} {words : List String}
    (h : Word arg switches words) : arg ≠ "--" := by
  cases h with
  | long switch => cases switch <;> decide
  | short hne =>
    obtain ⟨switch, cluster, rfl⟩ := List.exists_cons_of_ne_nil hne
    intro hdashes
    have hlist : '-' :: switch.letter :: cluster.map Switch.letter = ['-', '-'] := by
      simpa using congrArg String.toList hdashes
    have hletter : switch.letter = '-' := (List.cons.inj (List.cons.inj hlist).2).1
    cases switch <;> cases hletter
  | plain hplain =>
    rintro rfl
    exact hplain.elim (by decide) fun h => h rfl

/-- Arguments, the switches that they spell in their order, and the words that stand for
themselves. -/
inductive Words : List String → List Switch → List String → Prop
  | nil : Words [] [] []
  | cons {arg : String} {argv : List String} {switches switches' : List Switch}
    {words words' : List String} (h : Word arg switches words)
    (tail : Words argv switches' words') :
    Words (arg :: argv) (switches ++ switches') (words ++ words')
  | rest (words : List String) : Words ("--" :: words) [] words

/-- The arguments are those of a run, with these switches on and this script. -/
def Spells (argv : List String) (args : Args) : Prop :=
  ∃ switches words, Words argv switches words ∧ switches.Nodup ∧
    (args.tokens = true ↔ .tokens ∈ switches) ∧ (args.ast = true ↔ .ast ∈ switches) ∧
    args.script.toList = words ∧ "" ∉ words

namespace Args

/-! ### What is added to what was read before -/

/-- Whether a switch is on. -/
def has (args : Args) : Switch → Bool
  | .tokens => args.tokens
  | .ast => args.ast

/-- Switches a switch on. -/
def switchOn (args : Args) : Switch → Args
  | .tokens => { args with tokens := true }
  | .ast => { args with ast := true }

theorem has_switchOn (args : Args) (switch other : Switch) :
    (args.switchOn switch).has other = true ↔ args.has other = true ∨ other = switch := by
  cases switch <;> cases other <;> simp [has, switchOn]

theorem script_switchOn (args : Args) (switch : Switch) :
    (args.switchOn switch).script = args.script := by
  cases switch <;> rfl

/-- Switches that were off and words that name the script lead from `args` to `after`. -/
structure Adds (args : Args) (switches : List Switch) (words : List String) (after : Args) :
    Prop where
  nodup : switches.Nodup
  off : ∀ switch ∈ switches, args.has switch = false
  has_iff : ∀ switch, after.has switch = true ↔ args.has switch = true ∨ switch ∈ switches
  script : after.script.toList = args.script.toList ++ words
  named : "" ∉ words

section Adds
variable {args after : Args} {switch : Switch} {switches : List Switch} {word : String}
  {words : List String}

theorem adds_nil_iff : args.Adds [] [] after ↔ after = args := by
  constructor
  · intro h
    have htokens := h.has_iff .tokens
    have hast := h.has_iff .ast
    have hscript := h.script
    obtain ⟨tokens, ast, script⟩ := args
    obtain ⟨tokens', ast', script'⟩ := after
    simp only [has, List.not_mem_nil, or_false, List.append_nil] at htokens hast hscript
    obtain rfl : script' = script := Option.ext fun path => by
      rw [← Option.mem_toList, hscript, Option.mem_toList]
    rw [Bool.eq_iff_iff.mpr htokens, Bool.eq_iff_iff.mpr hast]
  · rintro rfl
    exact ⟨.nil, nofun, fun _ => by simp, (List.append_nil _).symm, List.not_mem_nil⟩

theorem adds_switch_iff :
    args.Adds (switch :: switches) words after ↔
      args.has switch = false ∧ (args.switchOn switch).Adds switches words after := by
  constructor
  · rintro ⟨hnodup, hoff, hhas, hscript, hnamed⟩
    obtain ⟨hnew, hnodup⟩ := List.nodup_cons.mp hnodup
    obtain ⟨hfirst, hoff⟩ := List.forall_mem_cons.mp hoff
    refine ⟨hfirst, hnodup, ?_, ?_, by rwa [script_switchOn], hnamed⟩
    · intro other hother
      rw [Bool.eq_false_iff, ne_eq, has_switchOn, hoff other hother]
      rintro (h | rfl)
      · cases h
      · exact hnew hother
    · intro other
      rw [hhas, has_switchOn, List.mem_cons, or_assoc]
  · rintro ⟨hfirst, hnodup, hoff, hhas, hscript, hnamed⟩
    have hoff' (other : Switch) (hother : other ∈ switches) :
        args.has other = false ∧ other ≠ switch := by
      have hne := hoff other hother
      rw [Bool.eq_false_iff, ne_eq, has_switchOn, not_or, Bool.not_eq_true] at hne
      exact hne
    refine ⟨List.nodup_cons.mpr ⟨fun h => (hoff' switch h).2 rfl, hnodup⟩,
      List.forall_mem_cons.mpr ⟨hfirst, fun other h => (hoff' other h).1⟩, ?_,
      by rwa [script_switchOn] at hscript, hnamed⟩
    intro other
    rw [hhas, has_switchOn, List.mem_cons, or_assoc]

theorem adds_word_iff :
    args.Adds switches (word :: words) after ↔
      args.script = none ∧ word ≠ "" ∧
        { args with script := some word }.Adds switches words after := by
  have hhas : { args with script := some word }.has = args.has := by
    funext switch
    cases switch <;> rfl
  have hnamed : "" ∉ word :: words ↔ word ≠ "" ∧ "" ∉ words := by
    rw [List.mem_cons, not_or, ne_comm]
  constructor
  · intro h
    obtain ⟨hword, hwords⟩ := hnamed.mp h.named
    have hscript := h.script
    cases hbefore : args.script with
    | none =>
      rw [hbefore] at hscript
      exact ⟨rfl, hword, h.nodup, hhas ▸ h.off, hhas ▸ h.has_iff, hscript, hwords⟩
    | some path =>
      -- there is one script at most
      rw [hbefore] at hscript
      cases hafter : after.script <;> rw [hafter] at hscript <;> cases hscript
  · rintro ⟨hbefore, hword, h⟩
    refine ⟨h.nodup, hhas ▸ h.off, hhas ▸ h.has_iff, ?_, hnamed.mpr ⟨hword, h.named⟩⟩
    rw [hbefore]
    exact h.script

/-- One addition behind another is one addition. -/
theorem adds_append_iff {switches' : List Switch} {words' : List String} :
    args.Adds (switches ++ switches') (words ++ words') after ↔
      ∃ mid, args.Adds switches words mid ∧ mid.Adds switches' words' after := by
  induction switches generalizing args with
  | nil =>
    induction words generalizing args with
    | nil => simp [adds_nil_iff]
    | cons word words ih =>
      rw [List.nil_append] at ih ⊢
      rw [List.cons_append]
      simp only [adds_word_iff, ih, and_assoc, exists_and_left]
  | cons switch switches ih =>
    rw [List.cons_append]
    simp only [adds_switch_iff, ih, and_assoc, exists_and_left]

end Adds

/-! ### Reading what is added -/

section Reading
variable {args after : Args} {arg : String}

/-- One computation behind another succeeds where both do. -/
theorem bind_eq_ok_iff {α β : Type} {r : Except ArgsError α} {next : α → Except ArgsError β}
    {b : β} : (r >>= next) = .ok b ↔ ∃ a, r = .ok a ∧ next a = .ok b := by
  cases r <;> simp [bind, Except.bind]

theorem flag_switch (args : Args) (arg : String) (switch : Switch) :
    args.flag arg switch.flag =
      if args.has switch then refuse (.repeatedFlag arg) else .ok (args.switchOn switch) := by
  cases switch <;> rfl

/-- The flags that are taken in are the switches that are off. -/
theorem flag?_eq_ok_iff {flag? : Option Flag} :
    args.flag? arg flag? = .ok after ↔
      ∃ switch : Switch, flag? = some switch.flag ∧ args.has switch = false ∧
        after = args.switchOn switch := by
  constructor
  · intro h
    -- the other flags end the reading
    obtain ⟨switch, rfl⟩ : ∃ switch : Switch, flag? = some switch.flag := by
      match flag? with
      | some .tokens => exact ⟨.tokens, rfl⟩
      | some .ast => exact ⟨.ast, rfl⟩
    rw [Args.flag?, flag_switch] at h
    split at h
    · cases h
    · rename_i hoff
      cases h
      exact ⟨switch, rfl, Bool.eq_false_iff.mpr hoff, rfl⟩
  · rintro ⟨switch, rfl, hoff, rfl⟩
    rw [Args.flag?, flag_switch, if_neg (ne_true_of_eq_false hoff)]

theorem positional_eq_ok_iff :
    args.positional arg = .ok after ↔
      args.script = none ∧ arg ≠ "" ∧ after = { args with script := some arg } := by
  unfold positional
  split
  · rename_i hsome
    refine iff_of_false nofun ?_
    rintro ⟨hnone, -⟩
    rw [hnone] at hsome
    cases hsome
  · rename_i hnone
    rw [Bool.not_eq_true, Option.isSome_eq_false_iff, Option.isNone_iff_eq_none] at hnone
    split
    · rename_i hempty
      exact iff_of_false nofun fun h => h.2.1 hempty
    · rename_i hne
      rw [Except.ok.injEq, eq_comm]
      exact ⟨fun h => ⟨hnone, hne, h⟩, fun h => h.2.2⟩

/-- Words that are taken in are added. -/
theorem foldlM_positional_eq_ok_iff {words : List String} :
    words.foldlM positional args = .ok after ↔ args.Adds [] words after := by
  induction words generalizing args with
  | nil =>
    show Except.ok args = .ok after ↔ _
    rw [adds_nil_iff, Except.ok.injEq, eq_comm]
  | cons word words ih =>
    rw [List.foldlM_cons, bind_eq_ok_iff, adds_word_iff]
    simp only [positional_eq_ok_iff, ih]
    constructor
    · rintro ⟨_, ⟨hnone, hne, rfl⟩, h⟩
      exact ⟨hnone, hne, h⟩
    · rintro ⟨hnone, hne, h⟩
      exact ⟨_, ⟨hnone, hne, rfl⟩, h⟩

theorem ofLetter?_eq_some_iff {c : Char} {switch : Switch} :
    Flag.ofLetter? c = some switch.flag ↔ c = switch.letter := by
  constructor
  · intro h
    unfold Flag.ofLetter? at h
    split at h <;> cases switch <;> cases h <;> rfl
  · rintro rfl
    cases switch <;> rfl

theorem ofName?_eq_some_iff {name : String} {switch : Switch} :
    Flag.ofName? name = some switch.flag ↔ name = switch.name := by
  constructor
  · intro h
    unfold Flag.ofName? at h
    split at h <;> cases switch <;> cases h <;> rfl
  · rintro rfl
    cases switch <;> rfl

/-- Letters that are taken in are switches that are added. -/
theorem foldlM_letters_eq_ok_iff {letters : List Char} :
    letters.foldlM (fun args c => args.flag? arg (Flag.ofLetter? c)) args = .ok after ↔
      ∃ cluster : List Switch,
        letters = cluster.map Switch.letter ∧ args.Adds cluster [] after := by
  induction letters generalizing args with
  | nil =>
    show Except.ok args = .ok after ↔ _
    simp only [List.map_eq_nil_iff, exists_eq_left, adds_nil_iff, Except.ok.injEq,
      eq_comm]
  | cons c letters ih =>
    rw [List.foldlM_cons, bind_eq_ok_iff]
    simp only [flag?_eq_ok_iff, ofLetter?_eq_some_iff, ih]
    constructor
    · rintro ⟨_, ⟨switch, rfl, hoff, rfl⟩, cluster, rfl, h⟩
      exact ⟨switch :: cluster, rfl, adds_switch_iff.mpr ⟨hoff, h⟩⟩
    · rintro ⟨cluster, hcluster, h⟩
      cases cluster with
      | nil => cases hcluster
      | cons switch cluster =>
        obtain ⟨rfl, rfl⟩ := List.cons.inj hcluster
        obtain ⟨hoff, h⟩ := adds_switch_iff.mp h
        exact ⟨_, ⟨switch, rfl, hoff, rfl⟩, cluster, rfl, h⟩

/-! ### One argument -/

theorem argument_long (args : Args) (name : String) :
    args.argument ("--" ++ name) = args.flag? ("--" ++ name) (Flag.ofName? name) := by
  have hlist : ("--" ++ name).toList = '-' :: '-' :: name.toList := String.toList_append
  simp only [argument, hlist, String.ofList_toList]

theorem argument_short (args : Args) {c : Char} (hc : c ≠ '-') (cs : List Char) :
    args.argument ("-" ++ String.ofList (c :: cs)) =
      (c :: cs).foldlM (fun args d =>
        args.flag? ("-" ++ String.ofList (c :: cs)) (Flag.ofLetter? d)) args := by
  have hlist : ("-" ++ String.ofList (c :: cs)).toList = '-' :: c :: cs := by simp
  unfold argument
  rw [hlist]
  split
  · rename_i h
    exact absurd (List.cons.inj (List.cons.inj h).2).1 hc
  · rename_i h
    obtain ⟨rfl, rfl⟩ := List.cons.inj (List.cons.inj h).2
    rfl
  · rename_i h
    exact absurd rfl (h c cs)

theorem argument_word (args : Args) (hword : arg = "-" ∨ arg.toList.head? ≠ some '-') :
    args.argument arg = args.positional arg := by
  have hlist (c : Char) (cs : List Char) : arg.toList ≠ '-' :: c :: cs := by
    intro h
    rcases hword with rfl | hhead
    · cases h
    · exact hhead (by rw [h]; rfl)
  unfold argument
  split
  · exact absurd ‹_› (hlist _ _)
  · exact absurd ‹_› (hlist _ _)
  · rfl

/-- **The three forms of an argument.** -/
theorem forms (arg : String) :
    (∃ name, arg = "--" ++ name) ∨
      (∃ c cs, c ≠ '-' ∧ arg = "-" ++ String.ofList (c :: cs)) ∨
      (arg = "-" ∨ arg.toList.head? ≠ some '-') := by
  by_cases hhead : arg.toList.head? = some '-'
  · obtain ⟨cs, hcs⟩ := List.head?_eq_some_iff.mp hhead
    cases cs with
    | nil => exact .inr (.inr (.inl (String.toList_inj.mp hcs)))
    | cons c cs =>
      by_cases hc : c = '-'
      · refine .inl ⟨String.ofList cs, String.toList_inj.mp ?_⟩
        rw [hcs, hc]
        simp
      · refine .inr (.inl ⟨c, cs, hc, String.toList_inj.mp ?_⟩)
        rw [hcs]
        simp
  · exact .inr (.inr (.inr hhead))

/-- **One argument is read** as the switches that it spells, or as the word that it is. -/
theorem argument_eq_ok_iff :
    args.argument arg = .ok after ↔
      ∃ switches words, Word arg switches words ∧ args.Adds switches words after := by
  constructor
  · intro h
    rcases forms arg with ⟨name, rfl⟩ | ⟨c, cs, hc, rfl⟩ | hword
    · rw [argument_long, flag?_eq_ok_iff] at h
      obtain ⟨switch, hname, hoff, rfl⟩ := h
      rw [ofName?_eq_some_iff.mp hname]
      exact ⟨_, _, .long switch, adds_switch_iff.mpr ⟨hoff, adds_nil_iff.mpr rfl⟩⟩
    · rw [argument_short args hc, foldlM_letters_eq_ok_iff] at h
      obtain ⟨cluster, hcluster, hadds⟩ := h
      have hne : cluster ≠ [] := by
        rintro rfl
        cases hcluster
      rw [hcluster]
      exact ⟨_, _, .short hne, hadds⟩
    · rw [argument_word args hword, positional_eq_ok_iff] at h
      obtain ⟨hnone, hne, rfl⟩ := h
      exact ⟨_, _, .plain hword, adds_word_iff.mpr ⟨hnone, hne, adds_nil_iff.mpr rfl⟩⟩
  · rintro ⟨switches, words, hword, hadds⟩
    cases hword with
    | long switch =>
      obtain ⟨hoff, hnil⟩ := adds_switch_iff.mp hadds
      rw [argument_long, flag?_eq_ok_iff]
      exact ⟨switch, ofName?_eq_some_iff.mpr rfl, hoff, adds_nil_iff.mp hnil⟩
    | short hne =>
      obtain ⟨switch, cluster, rfl⟩ := List.exists_cons_of_ne_nil hne
      have hletter : switch.letter ≠ '-' := by cases switch <;> decide
      rw [List.map_cons, argument_short args hletter, foldlM_letters_eq_ok_iff]
      exact ⟨switch :: cluster, rfl, hadds⟩
    | plain hplain =>
      obtain ⟨hnone, hne, hnil⟩ := adds_word_iff.mp hadds
      rw [argument_word args hplain, positional_eq_ok_iff]
      exact ⟨hnone, hne, adds_nil_iff.mp hnil⟩

end Reading

/-! ### All arguments -/

/-- **Arguments are read** as the switches and the words that they are made of. -/
theorem arguments_eq_ok_iff {args after : Args} {argv : List String} :
    args.arguments argv = .ok after ↔
      ∃ switches words, Words argv switches words ∧ args.Adds switches words after := by
  constructor
  · intro h
    induction argv generalizing args with
    | nil =>
      cases h
      exact ⟨[], [], .nil, adds_nil_iff.mpr rfl⟩
    | cons arg argv ih =>
      rw [arguments] at h
      split at h
      · rename_i hdashes
        rw [hdashes]
        exact ⟨[], argv, .rest argv, foldlM_positional_eq_ok_iff.mp h⟩
      · obtain ⟨mid, harg, hmore⟩ := bind_eq_ok_iff.mp h
        obtain ⟨switches, words, hword, hmid⟩ := argument_eq_ok_iff.mp harg
        obtain ⟨switches', words', hwords, hafter⟩ := ih hmore
        exact ⟨_, _, .cons hword hwords, adds_append_iff.mpr ⟨mid, hmid, hafter⟩⟩
  · rintro ⟨switches, words, hwords, hadds⟩
    induction hwords generalizing args with
    | nil =>
      rw [adds_nil_iff.mp hadds]
      rfl
    | cons hword _ ih =>
      obtain ⟨mid, hmid, hafter⟩ := adds_append_iff.mp hadds
      rw [arguments, if_neg hword.ne_dashes, bind_eq_ok_iff]
      exact ⟨mid, argument_eq_ok_iff.mpr ⟨_, _, hword, hmid⟩, ih hafter⟩
    | rest words =>
      rw [arguments, if_pos rfl]
      exact foldlM_positional_eq_ok_iff.mpr hadds

/-- **Exactly the arguments of runs are read**, each switch as what it is. -/
theorem tryParse_eq_ok_iff {argv : List String} {args : Args} :
    tryParse argv = .ok args ↔ Spells argv args := by
  have hadds {switches : List Switch} {words : List String} :
      ({} : Args).Adds switches words args ↔
        switches.Nodup ∧ (args.tokens = true ↔ .tokens ∈ switches) ∧
          (args.ast = true ↔ .ast ∈ switches) ∧ args.script.toList = words ∧ "" ∉ words := by
    constructor
    · rintro ⟨hnodup, -, hhas, hscript, hnamed⟩
      exact ⟨hnodup, by simpa [has] using hhas .tokens, by simpa [has] using hhas .ast, hscript,
        hnamed⟩
    · rintro ⟨hnodup, htokens, hast, hscript, hnamed⟩
      refine ⟨hnodup, ?_, ?_, hscript, hnamed⟩
      · intro switch _
        cases switch <;> rfl
      · intro switch
        cases switch
        · simpa [has] using htokens
        · simpa [has] using hast
  rw [tryParse, arguments_eq_ok_iff, Spells]
  simp only [hadds]

end Args
end LoxLang.Cli
