import LoxLang.Proofs.Acceptance
import LoxLang.Proofs.LineBreak
import LoxLang.Proofs.Segmentation
import LoxLang.Proofs.SessionRuns

/-! # Sources line by line and as one script

Sources that a session runs one after another can be put below each other and run as
one script.  Three things come together.  Each source without faults is scanned alone
and moved down by the line breaks before it (`scan_join`); the declarations of all of
them are derived one behind the other on these lines (`readable_join`); and programs
behind each other run one after the other (`Run.of_append`), on whatever lines they
stand (`Run.of_reline`).

So the variables, the output and the flags of the session are the same both ways, and
so are the messages, but that a runtime error of the last source is reported on the
line it has in the script (`session_agrees_with_script`).
-/
namespace LoxLang
open Grammar Program

/-! ### Two sources below each other -/

theorem Grammar.DerivesProgram.append {ts us : List Token} {ss ss' : List Stmt}
    (h : DerivesProgram ts ss) (h' : DerivesProgram us ss') :
    DerivesProgram (ts ++ us) (ss ++ ss') := by
  induction h with
  | nil => exact h'
  | cons hd _ ih =>
    rw [List.append_assoc]
    exact .cons hd ih

/-- A source without faults is read whole. -/
theorem derivesProgram_readable {source : String} (h : faults source = []) :
    DerivesProgram (scan source).tokens.dropLast (readable source) ∧
      ∀ s ∈ readable source, s.nesting ≤ maxNesting := by
  obtain ⟨ts, line, htokens, hts⟩ := tokens_scan source
  have hparse : parse (scan source).tokens = ⟨readable source, []⟩ := by
    rw [readable, ← (List.append_eq_nil_iff.mp h).2]
  rw [htokens] at hparse ⊢
  rw [List.dropLast_concat]
  exact derivesProgram_of_attempts rfl hts (parse_eq_iff.mp hparse)

/-- **Two sources below each other** have no faults if none of them has, and are read
one behind the other. -/
theorem readable_join {a b : String} (ha : faults a = []) (hb : faults b = []) :
    faults (a ++ "\n" ++ b) = [] ∧
      readable (a ++ "\n" ++ b) =
        readable a ++ (readable b).map (Stmt.reline (· + linesOf a)) := by
  obtain ⟨hda, hna⟩ := derivesProgram_readable ha
  obtain ⟨hdb, hnb⟩ := derivesProgram_readable hb
  have hscan := (List.append_eq_nil_iff.mp ha).1
  obtain ⟨htokens, herrors⟩ := scan_join (a := a) (by simp [hscan]) b
  rw [hscan, (List.append_eq_nil_iff.mp hb).1] at herrors
  -- the end of the input stands behind the declarations of both
  obtain ⟨ts, line, hts, _⟩ := tokens_scan b
  rw [hts, List.dropLast_concat] at hdb
  rw [hts, List.map_append, ← List.append_assoc] at htokens
  have hd := hda.append (hdb.reline (f := (· + linesOf a)))
  have hn : ∀ s ∈ readable a ++ (readable b).map (Stmt.reline (· + linesOf a)),
      s.nesting ≤ maxNesting := by
    refine List.forall_mem_append.mpr ⟨hna, List.forall_mem_map.mpr fun s hs => ?_⟩
    rw [Stmt.nesting_reline]
    exact hnb s hs
  have hparse : parse (scan (a ++ "\n" ++ b)).tokens =
      ⟨readable a ++ (readable b).map (Stmt.reline (· + linesOf a)), []⟩ := by
    rw [htokens]
    exact parse_eq_iff.mpr (attempts_of_derivesProgram rfl hd hn)
  rw [faults, readable, herrors, hparse]
  exact ⟨rfl, rfl⟩

/-! ### Many sources below each other -/

/-- What stands before the last of several sources that are put below each other. -/
def before : List String → String
  | a :: b :: rest => a ++ "\n" ++ before (b :: rest)
  | _ => ""

theorem intercalate_eq_before_append {sources : List String} {last : String}
    (h : last ∈ sources.getLast?) : "\n".intercalate sources = before sources ++ last := by
  induction sources with
  | nil => cases h
  | cons a rest ih =>
    cases rest with
    | nil =>
      cases h
      simp [before]
    | cons b rest =>
      rw [List.getLast?_cons_cons] at h
      rw [String.intercalate_cons_cons, ih h, before, ← String.append_assoc]

/-- How many line breaks stand before the last of several sources that are put below
each other. -/
def linesBefore (sources : List String) : Nat := (before sources).toList.count '\n'

theorem linesBefore_cons_cons (a b : String) (rest : List String) :
    linesBefore (a :: b :: rest) = linesOf a + linesBefore (b :: rest) := by
  simp [linesBefore, before, linesOf, Nat.add_assoc, Nat.add_comm 1]

theorem faults_intercalate {sources : List String} (h : ∀ source ∈ sources, faults source = []) :
    faults ("\n".intercalate sources) = [] := by
  induction sources with
  | nil => decide +kernel
  | cons a rest ih =>
    obtain ⟨ha, hrest⟩ := List.forall_mem_cons.mp h
    cases rest with
    | nil => simpa using ha
    | cons b rest =>
      rw [String.intercalate_cons_cons]
      exact (readable_join ha (ih hrest)).1

namespace Session

/-- The session after several sources, run one after another. -/
def runAll (s : Session) (sources : List String) : Session :=
  sources.foldl (fun s source => (s.run source).1) s

@[simp] theorem runAll_nil (s : Session) : s.runAll [] = s := rfl

@[simp] theorem runAll_cons (s : Session) (source : String) (sources : List String) :
    s.runAll (source :: sources) = (s.run source).1.runAll sources := rfl

/-- The runtime error that the last of several sources raises, when they are run one
after another. -/
def lastRaised (s : Session) (sources : List String) : Option RuntimeError :=
  sources.getLast?.bind (s.runAll sources.dropLast).raised

/-- No source but the last raises a runtime error, when they are run one after
another. -/
def QuietBeforeLast (s : Session) (sources : List String) : Prop :=
  ∀ earlier source later, sources = earlier ++ source :: later → later ≠ [] →
    (s.runAll earlier).raised source = none

/-- A session that executes every source without faults, and dumps nothing. -/
structure Ready (s : Session) : Prop where
  /-- No syntax error is left to be forgiven. -/
  clear : s.diagnostics.hadSyntaxError = false
  /-- Neither tokens nor trees are shown. -/
  options : s.options = { dumpTokens := false, dumpTrees := false }

section Ready
variable {s : Session} {source : String}

theorem Ready.executes (h : s.Ready) (hsource : faults source = []) : s.executes source = true :=
  executes_iff.mpr ⟨h.clear, hsource⟩

theorem Ready.run (h : s.Ready) (hsource : faults source = []) : (s.run source).1.Ready := by
  rw [run_fst h.options, hsource]
  exact ⟨by simp [h.clear], h.options⟩

/-- A source that raises nothing only changes the variables and the output. -/
theorem Ready.run_quiet (h : s.Ready) (hsource : faults source = [])
    (hquiet : s.raised source = none) :
    (Run.of s.globals (readable source)).failure = none ∧
      (s.run source).1 =
        { s with
          globals := (Run.of s.globals (readable source)).env
          output := s.output ++ (Run.of s.globals (readable source)).output } := by
  have hfailure := s.failure_effect source
  rw [hquiet, effect_of_executes (h.executes hsource)] at hfailure
  refine ⟨hfailure, ?_⟩
  rw [run_fst h.options, hquiet, hsource, effect_of_executes (h.executes hsource)]
  simp

end Ready

/-- Two sources below each other run one after the other. -/
theorem of_readable_join {env : Environment} {a b : String} (ha : faults a = [])
    (hb : faults b = []) (hquiet : (Run.of env (readable a)).failure = none) :
    Run.of env (readable (a ++ "\n" ++ b)) =
      let first := Run.of env (readable a)
      let second := Run.of first.env (readable b)
      { env := second.env
        output := first.output ++ second.output
        failure := second.failure.map (Failure.reline (· + linesOf a)) } := by
  rw [(readable_join ha hb).2, Run.of_append hquiet, Run.of_reline]
  rfl

/-- An error that is moved down twice. -/
theorem map_reline_error (e? : Option RuntimeError) (j k : Nat) :
    ((e?.map (RuntimeError.reline (· + j))).map Failure.error).map (Failure.reline (· + k)) =
      (e?.map (RuntimeError.reline (· + (k + j)))).map Failure.error := by
  cases e? with
  | none => rfl
  | some e =>
    simp [Failure.reline, RuntimeError.reline, Token.reline, Nat.add_assoc, Nat.add_comm k j]

/-- **Sources one after another, told by the script of all of them.**  The induction
is on the sources: the first runs by itself in both ways, and what is left is moved
down by its lines. -/
theorem Ready.runAll_eq {s : Session} {sources : List String} (h : s.Ready)
    (hfaults : ∀ source ∈ sources, faults source = []) (hquiet : s.QuietBeforeLast sources) :
    let whole := Run.of s.globals (readable ("\n".intercalate sources))
    let error? := s.lastRaised sources
    s.runAll sources =
        { options := s.options
          globals := whole.env
          output := s.output ++ whole.output
          diagnostics :=
            { messages := s.diagnostics.messages ++ error?.toList.map RuntimeError.text
              hadSyntaxError := s.diagnostics.hadSyntaxError
              hadRuntimeError := s.diagnostics.hadRuntimeError || error?.isSome } } ∧
      whole.failure =
        (error?.map (RuntimeError.reline (· + linesBefore sources))).map Failure.error := by
  induction sources generalizing s with
  | nil =>
    have hempty : readable "" = [] := by decide +kernel
    simp [lastRaised, hempty]
  | cons a rest ih =>
    obtain ⟨ha, hrest⟩ := List.forall_mem_cons.mp hfaults
    cases rest with
    | nil =>
      have hlastRaised : s.lastRaised [a] = s.raised a := rfl
      have hone : (Run.of s.globals (readable a)) = s.effect a :=
        (effect_of_executes (h.executes ha)).symm
      rw [String.intercalate_singleton, hone, hlastRaised, runAll_cons, runAll_nil,
        run_fst h.options, ha]
      refine ⟨by simp, ?_⟩
      -- nothing stands before a single source
      have hsame : RuntimeError.reline (· + linesBefore [a]) = id := rfl
      rw [hsame, Option.map_id_fun, id]
      exact failure_effect s a
    | cons b rest =>
      have hraised : s.raised a = none := hquiet [] a (b :: rest) rfl (List.cons_ne_nil _ _)
      have htail : (s.run a).1.QuietBeforeLast (b :: rest) := by
        intro earlier source later hsplit hlater
        exact hquiet (a :: earlier) source later (by rw [hsplit]; rfl) hlater
      obtain ⟨hfailure, hrun⟩ := h.run_quiet ha hraised
      obtain ⟨hsession, hlast⟩ := ih (h.run ha) hrest htail
      have hlastRaised : s.lastRaised (a :: b :: rest) = (s.run a).1.lastRaised (b :: rest) := rfl
      have hglobals : (s.run a).1.globals = (Run.of s.globals (readable a)).env := by rw [hrun]
      rw [String.intercalate_cons_cons, of_readable_join ha (faults_intercalate hrest) hfailure,
        hlastRaised, linesBefore_cons_cons]
      rw [hglobals] at hsession hlast
      refine ⟨?_, ?_⟩
      · rw [runAll_cons, hsession, hrun]
        simp
      · dsimp only
        rw [hlast, map_reline_error]

/-- The script of several sources raises what the last of them raises, further
down. -/
theorem Ready.raised_intercalate {s : Session} {sources : List String} (h : s.Ready)
    (hfaults : ∀ source ∈ sources, faults source = []) (hquiet : s.QuietBeforeLast sources) :
    s.raised ("\n".intercalate sources) =
      (s.lastRaised sources).map (RuntimeError.reline (· + linesBefore sources)) := by
  have hscript := s.failure_effect ("\n".intercalate sources)
  rw [effect_of_executes (h.executes (faults_intercalate hfaults)),
    (h.runAll_eq hfaults hquiet).2] at hscript
  exact (Option.map_injective (fun _ _ he => Failure.error.inj he) hscript).symm

end Session

/-- **A session run line by line agrees with a script.**  Let a session dump nothing
and have no syntax error left to be forgiven.  Of sources without faults, none of
which but the last raises a runtime error when they are run one after another, it
makes the same as of the script that has them below each other: the same variables,
output, flags and exit code, and the same messages, but that the runtime error of the
last source is reported further down by the line breaks before that source. -/
theorem session_agrees_with_script (s : Session) (sources : List String)
    (hclear : s.diagnostics.hadSyntaxError = false)
    (hoptions : s.options = { dumpTokens := false, dumpTrees := false })
    (hfaults : ∀ source ∈ sources, faults source = [])
    (hquiet : ∀ earlier source later, sources = earlier ++ source :: later → later ≠ [] →
      (s.runAll earlier).raised source = none) :
    let script := "\n".intercalate sources
    let byLine := s.runAll sources
    let whole := (s.run script).1
    let error? := sources.getLast?.bind (s.runAll sources.dropLast).raised
    whole.globals = byLine.globals ∧ whole.output = byLine.output ∧
      whole.diagnostics.hadSyntaxError = byLine.diagnostics.hadSyntaxError ∧
      whole.diagnostics.hadRuntimeError = byLine.diagnostics.hadRuntimeError ∧
      whole.exitCode? = byLine.exitCode? ∧
      byLine.diagnostics.messages =
        s.diagnostics.messages ++ error?.toList.map RuntimeError.text ∧
      whole.diagnostics.messages = s.diagnostics.messages ++
        (error?.map (RuntimeError.reline
          (· + (before sources).toList.count '\n'))).toList.map RuntimeError.text ∧
      ∀ last ∈ sources.getLast?, script = before sources ++ last := by
  intro script byLine whole error?
  have hready : s.Ready := ⟨hclear, hoptions⟩
  have hscript : faults script = [] := faults_intercalate hfaults
  have hby := (hready.runAll_eq hfaults hquiet).1
  have hraised := hready.raised_intercalate hfaults hquiet
  have hwhole := Session.run_fst hoptions script
  rw [Session.effect_of_executes (hready.executes hscript), hscript, hraised] at hwhole
  have hflags : whole.diagnostics.hadSyntaxError = byLine.diagnostics.hadSyntaxError ∧
      whole.diagnostics.hadRuntimeError = byLine.diagnostics.hadRuntimeError := by
    rw [show whole = _ from hwhole, show byLine = _ from hby]
    simp
  refine ⟨?_, ?_, hflags.1, hflags.2, ?_, ?_, ?_, fun last => intercalate_eq_before_append⟩
  · rw [show whole = _ from hwhole, show byLine = _ from hby]
  · rw [show whole = _ from hwhole, show byLine = _ from hby]
  · rw [Session.exitCode?_eq, Session.exitCode?_eq, hflags.1, hflags.2]
  · rw [show byLine = _ from hby]
    rfl
  · rw [show whole = _ from hwhole]
    rfl

/-- The second source fails on its second line, which is the third of the script. -/
theorem session_agrees_with_script_undefined :
    let sources := ["var a = nil;", "print a;\nprint b;"]
    let byLine := Session.runAll {} sources
    let whole : Session := (Session.run {} ("\n".intercalate sources)).1
    (∀ source ∈ sources, faults source = []) ∧
      whole.globals = byLine.globals ∧ whole.output = byLine.output ∧
      byLine.diagnostics.messages = ["Undefined variable 'b'.\n[line 2]"] ∧
      whole.diagnostics.messages = ["Undefined variable 'b'.\n[line 3]"] := by
  intro sources byLine whole
  have hfaults : ∀ source ∈ sources, faults source = [] := by decide +kernel
  have hraised : Session.raised {} "var a = nil;" = none := by decide +kernel
  have hquiet : ∀ earlier source later, sources = earlier ++ source :: later → later ≠ [] →
      (Session.runAll {} earlier).raised source = none := by
    intro earlier source later hsplit hlater
    match earlier with
    | [] =>
      obtain rfl : "var a = nil;" = source := (List.cons.inj hsplit).1
      exact hraised
    | [_] => exact absurd (List.cons.inj (List.cons.inj hsplit).2).2.symm hlater
    | _ :: _ :: _ => simp [sources] at hsplit
  obtain ⟨hglobals, houtput, -, -, -, hby, hwhole, -⟩ :=
    session_agrees_with_script {} sources rfl rfl hfaults hquiet
  refine ⟨hfaults, hglobals, houtput, hby.trans ?_, hwhole.trans ?_⟩
  · decide +kernel
  · decide +kernel

end LoxLang
