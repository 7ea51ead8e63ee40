import Mathlib
import SemiThue.CommandLine.Run
import SemiThue.Proofs.Reparse
import SemiThue.Proofs.Runs

/-!
# SemiThue.Proofs.Commands — programs that run one after the other

A command runs its sources on one engine.  What a source does depends on the tape and on the input
that the sources before it left, and on nothing else of them: not on what they wrote, nor on what
was noted about them.

* `Machine.output_advance`: a run writes what its passes print, in their order.
* `Engine.Matches` is what has to be the same for two engines to run alike, and `runText_alike`,
  `run_alike` say that they do.
* `runSource_eq` splits the run of a source into loading its text and running that.
* `run_append`: a command with more sources is a command with the first of them and, unless it
  fails, a command with the others.
-/

namespace SemiThue

/-! ### What a run writes -/

/-- What a rule writes. -/
def Kind.printed : Kind → Word
  | .print message => if message = [] then ['\n'] else message
  | _ => []

/-- What a pass writes. -/
def Pass.printed {C : Type} (p : Pass C) : Word := p.applied.elim [] (·.rule.kind.printed)

theorem Kind.output_perform (k : Kind) (t : Terminal) :
    (k.perform t).2.output = t.output ++ k.printed := by
  cases k with
  | standard text => exact (List.append_nil _).symm
  | print message =>
    show t.output ++ (if message.isEmpty then ['\n'] else message) = _
    simp only [printed, List.isEmpty_iff]
  | read => exact (List.append_nil _).symm

namespace Machine

theorem output_pass (m : Machine Terminal) :
    m.pass.machine.console.output = m.console.output ++ m.pass.printed := by
  cases h : m.pass.applied with
  | none =>
    rw [(m.pass_machine_of_none h).1, Pass.printed, h]
    exact (List.append_nil _).symm
  | some a =>
    obtain ⟨-, -, -, -, u, v, -, -, -, hconsole⟩ := split_of_applied h
    rw [hconsole, Kind.output_perform, Pass.printed, h]
    rfl

/-- **A run writes what its passes print**, in their order. -/
theorem output_advance (n : Nat) (m : Machine Terminal) :
    (m.advance n).2.console.output = m.console.output ++ (m.trace n).flatMap Pass.printed := by
  induction n generalizing m with
  | zero => exact (List.append_nil _).symm
  | succ n ih =>
    cases hc : m.pass.changed with
    | false =>
      rw [advance_of_unchanged n hc, trace_of_unchanged n hc, List.flatMap_singleton]
      exact m.output_pass
    | true =>
      rw [advance_of_changed n hc, trace_of_changed n hc, ih, output_pass, List.flatMap_cons,
        List.append_assoc]

end Machine

/-! ### Engines that run alike -/

/-- The same tape, and consoles that `R` relates.  The journals and the orders left by earlier
passes may differ. -/
structure Engine.Matches {C D : Type} (R : C → D → Prop) (e : Engine C) (e' : Engine D) : Prop where
  tape : e.tape = e'.tape
  console : R e.console e'.console

namespace Terminal

/-- The same input.  What was written may differ. -/
def SameInput (t t' : Terminal) : Prop := t.input = t'.input

/-- The same input, and the terminal `t` has written what `t'` has, after a text that it wrote
before. -/
structure WritesAfter (before : Word) (t t' : Terminal) : Prop where
  input : t.input = t'.input
  output : t.output = before ++ t'.output

theorem readLine_of_input {t t' : Terminal} (h : t.input = t'.input) :
    (t.readLine).1 = (t'.readLine).1 ∧ (t.readLine).2.input = (t'.readLine).2.input := by
  unfold readLine
  rw [h]
  exact ⟨rfl, rfl⟩

theorem simulation_sameInput : Console.Simulation SameInput where
  write h _ := h
  line_eq h := (readLine_of_input h).1
  readLine h := (readLine_of_input h).2

theorem simulation_writesAfter (before : Word) : Console.Simulation (WritesAfter before) where
  write h text := ⟨h.input, by
    show _ ++ text = before ++ (_ ++ text)
    rw [h.output, List.append_assoc]⟩
  line_eq h := (readLine_of_input h.input).1
  readLine h := ⟨(readLine_of_input h.input).2, h.output⟩

end Terminal

namespace CommandLine

variable {o : Options} {fuel : Nat} {opening : Opening}

/-- What a final state adds to the output. -/
def finalText (o : Options) (state : Word) : Word := if o.quiet then [] else finalLine state

theorem writeFinal_eq (o : Options) (state : Word) (e : Engine Terminal) :
    writeFinal o state e = { e with console := e.console.write (finalText o state) } := by
  unfold writeFinal finalText
  split_ifs
  · simp [Terminal.write]
  · rfl

/-! ### Texts -/

/-- The machine on which the program of a text starts to run. -/
def startMachine (text : Word) (p : Program) (e : Engine Terminal) : Machine Terminal :=
  { (e.recordAll (Program.parseEvents text)).record (.started p.rules.length) with program := p }

/-- A text without a program changes nothing but the output. -/
theorem runText_of_error {text : Word} {cause : ProgramError}
    (h : Program.parse text = .error cause) (e : Engine Terminal) :
    runText o fuel text e =
      (.error (.program cause), writeFinal o [] (e.recordAll (Program.parseEvents text))) := by
  simp only [runText, Engine.parse, h]

theorem runText_of_unfinished {text : Word} {p : Program} (h : Program.parse text = .ok p)
    {e : Engine Terminal} (hm : execute o fuel (startMachine text p e) = none) :
    runText o fuel text e = (.error .unfinished, e.recordAll (Program.parseEvents text)) := by
  unfold startMachine at hm
  simp only [runText, Engine.parse, h, hm]

theorem runText_of_finished {text : Word} {p : Program} (h : Program.parse text = .ok p)
    {e : Engine Terminal} {m : Machine Terminal}
    (hm : execute o fuel (startMachine text p e) = some m) :
    runText o fuel text e = (.ok m.program.state, writeFinal o m.program.state m.toEngine) := by
  unfold startMachine at hm
  simp only [runText, Engine.parse, h, hm]

theorem execute_of_bound {n : Nat} (hn : o.maxPasses = some n) (m : Machine Terminal) :
    execute o fuel m = some (noteLimit n (m.runBounded n).2 (m.runBounded n).1) := by
  simp only [execute, hn]

section Alike

variable {R : Terminal → Terminal → Prop}

/-- The same result, and engines that match. -/
structure Alike {α : Type} (R : Terminal → Terminal → Prop) (r r' : α × Engine Terminal) :
    Prop where
  result : r.1 = r'.1
  engine : r.2.Matches R r'.2

theorem noteLimit_matches {m m' : Machine Terminal} (h : m.Matches R m') (n : Nat) (halt : Halt) :
    (noteLimit n m halt).Matches R (noteLimit n m' halt) := by
  cases halt with
  | fixpoint => exact h
  | limit => exact h.record _ _

theorem execute_matches (hR : Console.Simulation R) {m m' : Machine Terminal}
    (h : m.Matches R m') :
    (execute o fuel m = none ∧ execute o fuel m' = none) ∨
      ∃ f f', execute o fuel m = some f ∧ execute o fuel m' = some f' ∧ f.Matches R f' := by
  cases hn : o.maxPasses with
  | some n =>
    obtain ⟨hhalt, hfinal⟩ := h.runBounded hR n
    have hnoted := noteLimit_matches hfinal n (m.runBounded n).1
    rw [execute_of_bound hn, execute_of_bound hn, ← hhalt]
    exact .inr ⟨_, _, rfl, rfl, hnoted⟩
  | none =>
    obtain ⟨hhalt, hfinal⟩ := h.runBounded hR fuel
    simp only [execute, hn]
    cases hm : (m.runBounded fuel).1 with
    | fixpoint =>
      have hm' : (m'.runBounded fuel).1 = .fixpoint := hhalt ▸ hm
      exact .inr ⟨_, _, Machine.run?_eq_some_iff.mpr (Prod.ext hm rfl),
        Machine.run?_eq_some_iff.mpr (Prod.ext hm' rfl), hfinal⟩
    | limit =>
      exact .inl ⟨Machine.run?_eq_none_iff.mpr hm, Machine.run?_eq_none_iff.mpr (hhalt ▸ hm)⟩

theorem writeFinal_matches (hR : Console.Simulation R) {e e' : Engine Terminal}
    (h : e.Matches R e') (state : Word) :
    (writeFinal o state e).Matches R (writeFinal o state e') := by
  rw [writeFinal_eq, writeFinal_eq]
  exact ⟨h.tape, hR.write h.console _⟩

/-- **Texts run alike** on engines that match. -/
theorem runText_alike (hR : Console.Simulation R) {e e' : Engine Terminal} (h : e.Matches R e')
    (text : Word) : Alike R (runText o fuel text e) (runText o fuel text e') := by
  have hnoted : (e.recordAll (Program.parseEvents text)).Matches R
      (e'.recordAll (Program.parseEvents text)) := ⟨h.tape, h.console⟩
  cases hp : Program.parse text with
  | error cause =>
    rw [runText_of_error hp, runText_of_error hp]
    exact ⟨rfl, writeFinal_matches hR hnoted []⟩
  | ok p =>
    have hstart : (startMachine text p e).Matches R (startMachine text p e') :=
      ⟨rfl, h.tape, h.console⟩
    rcases execute_matches hR hstart with ⟨hm, hm'⟩ | ⟨m, m', hm, hm', hfinal⟩
    · rw [runText_of_unfinished hp hm, runText_of_unfinished hp hm']
      exact ⟨rfl, hnoted⟩
    · have hengine : m.toEngine.Matches R m'.toEngine := ⟨hfinal.tape, hfinal.console⟩
      rw [runText_of_finished hp hm, runText_of_finished hp hm', hfinal.program]
      exact ⟨rfl, writeFinal_matches hR hengine _⟩

end Alike

@[simp] theorem noteLimit_program (n : Nat) (m : Machine Terminal) (halt : Halt) :
    (noteLimit n m halt).program = m.program := by
  cases halt <;> rfl

@[simp] theorem noteLimit_console (n : Nat) (m : Machine Terminal) (halt : Halt) :
    (noteLimit n m halt).console = m.console := by
  cases halt <;> rfl

@[simp] theorem noteLimit_tape (n : Nat) (m : Machine Terminal) (halt : Halt) :
    (noteLimit n m halt).tape = m.tape := by
  cases halt <;> rfl

/-- **What the program of a text writes**: the messages of its rules as they are applied, and its
final state. -/
theorem runText_of_bound (fuel : Nat) {text : Word} {p : Program} (h : Program.parse text = .ok p)
    {n : Nat} (hn : o.maxPasses = some n) (e : Engine Terminal) :
    let m : Machine Terminal := { console := e.console, tape := e.tape, program := p }
    let final := (m.runBounded n).2
    let r := runText o fuel text e
    r.1 = .ok final.program.state ∧
      r.2.console.output = e.console.output ++ (m.trace n).flatMap Pass.printed ++
        finalText o final.program.state ∧
      r.2.console.input = final.console.input ∧ r.2.tape = final.tape := by
  intro m final r
  have hstart : (startMachine text p e).Matches Eq m := ⟨rfl, rfl, rfl⟩
  obtain ⟨hhalt, hmatch⟩ := hstart.runBounded Console.Simulation.eq n
  have houtput : final.console.output = e.console.output ++ (m.trace n).flatMap Pass.printed := by
    show ((m.advance n).2.noteHalt n _).console.output = _
    rw [Machine.console_noteHalt, Machine.output_advance]
  have hr : r = _ := runText_of_finished h (execute_of_bound hn _)
  rw [hr, writeFinal_eq]
  simp only [noteLimit_program, noteLimit_console, noteLimit_tape, hmatch.program, hmatch.tape,
    hmatch.console]
  exact ⟨rfl, congrArg (· ++ _) houtput, rfl, rfl⟩

/-! ### Sources -/

/-- Opens and reads the source at a path. -/
def load (opening : Opening) (path : Word) (e : Engine Terminal) :
    Except SourceError Word × Engine Terminal :=
  match Source.ofPath opening path with
  | .error cause => (.error cause, e)
  | .ok source =>
    let (text, console) := source.read e.console
    (text, { e.record (.opened source.name) with console })

/-- **A source is loaded, and then its text is run.** -/
theorem runSource_eq (path : Word) (e : Engine Terminal) :
    runSource o fuel opening path e =
      match load opening path e with
      | (.error cause, e') => (.error (.source cause), e')
      | (.ok text, e') => runText o fuel text e' := by
  unfold runSource load
  cases Source.ofPath opening path with
  | error cause => rfl
  | ok source =>
    rcases hread : source.read e.console with ⟨result, console⟩
    have hread' : source.read (e.record (.opened source.name)).console = (result, console) := hread
    simp only [hread, hread']
    cases result <;> rfl

theorem runSource_of_error {path : Word} {e : Engine Terminal} {cause : SourceError}
    (h : (load opening path e).1 = .error cause) :
    runSource o fuel opening path e = (.error (.source cause), (load opening path e).2) := by
  rw [runSource_eq]
  rcases hload : load opening path e with ⟨result, e'⟩
  obtain rfl : result = .error cause := by rw [← h, hload]
  rfl

theorem runSource_of_ok {path : Word} {e : Engine Terminal} {text : Word}
    (h : (load opening path e).1 = .ok text) :
    runSource o fuel opening path e = runText o fuel text (load opening path e).2 := by
  rw [runSource_eq]
  rcases hload : load opening path e with ⟨result, e'⟩
  obtain rfl : result = .ok text := by rw [← h, hload]
  rfl

@[simp] theorem tape_load (path : Word) (e : Engine Terminal) :
    (load opening path e).2.tape = e.tape := by
  unfold load
  cases Source.ofPath opening path <;> rfl

@[simp] theorem output_load (path : Word) (e : Engine Terminal) :
    (load opening path e).2.console.output = e.console.output := by
  unfold load
  cases Source.ofPath opening path with
  | error cause => rfl
  | ok source => cases source <;> rfl

/-! ### Sequences -/

/-- What follows a success.  A failure is the end. -/
def andThen {α : Type} (r : Except Failure α × Engine Terminal)
    (next : Engine Terminal → Except Failure Unit × Engine Terminal) :
    Except Failure Unit × Engine Terminal :=
  match r with
  | (.ok _, e) => next e
  | (.error failure, e) => (.error failure, e)

theorem andThen_assoc {α : Type} (r : Except Failure α × Engine Terminal)
    (f g : Engine Terminal → Except Failure Unit × Engine Terminal) :
    andThen (andThen r f) g = andThen r fun e => andThen (f e) g := by
  obtain ⟨result, e⟩ := r
  cases result <;> rfl

theorem andThen_eq_ok {α : Type} {r : Except Failure α × Engine Terminal}
    {next : Engine Terminal → Except Failure Unit × Engine Terminal} {e' : Engine Terminal}
    (h : andThen r next = (.ok (), e')) :
    ∃ value e, r = (.ok value, e) ∧ next e = (.ok (), e') := by
  obtain ⟨result, e⟩ := r
  cases result with
  | error failure => simp [andThen] at h
  | ok value => exact ⟨value, e, rfl, h⟩

theorem runSources_cons (path : Word) (paths : List Word) (e : Engine Terminal) :
    runSources o fuel opening (path :: paths) e =
      andThen (runSource o fuel opening path e) (runSources o fuel opening paths) := by
  rw [runSources]
  rcases runSource o fuel opening path e with ⟨result, e'⟩
  cases result <;> rfl

theorem run_eq (o : Options) (e : Engine Terminal) :
    run o fuel opening e =
      if o.sample then
        andThen (runText o fuel Sample.binaryIncrement e) (runSources o fuel opening o.files)
      else runSources o fuel opening o.files e := by
  unfold run
  split_ifs with h
  · rcases runText o fuel Sample.binaryIncrement e with ⟨result, e'⟩
    cases result <;> rfl
  · rfl

theorem runSources_append (gs hs : List Word) (e : Engine Terminal) :
    runSources o fuel opening (gs ++ hs) e =
      andThen (runSources o fuel opening gs e) (runSources o fuel opening hs) := by
  induction gs generalizing e with
  | nil => rfl
  | cons path gs ih =>
    rw [List.cons_append, runSources_cons, runSources_cons, andThen_assoc]
    exact congrArg _ (funext ih)

section Options

variable {o' : Options} (hmax : o.maxPasses = o'.maxPasses) (hquiet : o.quiet = o'.quiet)
include hmax hquiet

/-- Of the options, only the bound on the passes and whether to be quiet matter to a text. -/
theorem runText_congr : runText o fuel = runText o' fuel := by
  unfold runText execute writeFinal
  rw [hmax, hquiet]

theorem runSources_congr : runSources o fuel opening = runSources o' fuel opening := by
  have hsource : runSource o fuel opening = runSource o' fuel opening := by
    unfold runSource
    rw [runText_congr hmax hquiet]
  ext1 paths
  induction paths with
  | nil => rfl
  | cons path paths ih =>
    ext1 e
    rw [runSources_cons, runSources_cons, hsource, ih]

end Options

/-- Without the sample, a command runs its files. -/
theorem run_files (o : Options) (paths : List Word) :
    run { o with sample := false, files := paths } fuel opening =
      runSources o fuel opening paths := by
  have hsources : runSources { o with sample := false, files := paths } fuel opening =
      runSources o fuel opening := runSources_congr rfl rfl
  ext1 e
  rw [run_eq, if_neg Bool.false_ne_true, hsources]

/-- **Commands run in sequence.**  With more files, a command goes on after a success as a command
with the other files alone, and stays with a failure. -/
theorem run_append (o : Options) (gs hs : List Word) (e : Engine Terminal) :
    run { o with files := gs ++ hs } fuel opening e =
      andThen (run { o with files := gs } fuel opening e)
        (run { o with sample := false, files := hs } fuel opening) := by
  have hboth : runSources { o with files := gs ++ hs } fuel opening = runSources o fuel opening :=
    runSources_congr rfl rfl
  have hfirst : runSources { o with files := gs } fuel opening = runSources o fuel opening :=
    runSources_congr rfl rfl
  have htext : runText { o with files := gs ++ hs } fuel = runText { o with files := gs } fuel :=
    runText_congr rfl rfl
  rw [run_files, run_eq, run_eq, hboth, hfirst, htext]
  split_ifs
  · rw [andThen_assoc]
    exact congrArg _ (funext (runSources_append gs hs))
  · exact runSources_append gs hs e

/-! ### Files that are not opened -/

theorem runSource_of_opening {opening' : Opening} {path : Word}
    (h : opening' path = opening path) :
    runSource o fuel opening' path = runSource o fuel opening path := by
  unfold runSource Source.ofPath
  rw [h]

theorem runSources_of_opening {opening' : Opening} {paths : List Word}
    (h : ∀ path ∈ paths, opening' path = opening path) :
    runSources o fuel opening' paths = runSources o fuel opening paths := by
  induction paths with
  | nil => rfl
  | cons path paths ih =>
    rw [List.forall_mem_cons] at h
    ext1 e
    rw [runSources_cons, runSources_cons, runSource_of_opening h.1, ih h.2]

/-- What would come of opening other files than those of a command does not matter to it. -/
theorem run_of_opening {opening' : Opening} (h : ∀ path ∈ o.files, opening' path = opening path) :
    run o fuel opening' = run o fuel opening := by
  ext1 e
  rw [run_eq, run_eq, runSources_of_opening h]

/-- **Nothing is opened after a failure.**  Whatever the other files are, the command ends as it
does without them. -/
theorem run_append_of_error {gs : List Word} {failure : Failure} {e e' : Engine Terminal}
    (h : run { o with files := gs } fuel opening e = (.error failure, e')) (hs : List Word)
    {opening' : Opening} (hgs : ∀ path ∈ gs, opening' path = opening path) :
    run { o with files := gs ++ hs } fuel opening' e = (.error failure, e') := by
  have hfirst : run { o with files := gs } fuel opening' e = (.error failure, e') := by
    rw [run_of_opening hgs, h]
  rw [run_append, hfirst]
  rfl

/-! ### What was written before -/

section WritesAfter

variable {before : Word} {e e' : Engine Terminal}

theorem load_alike (opening : Opening) (h : e.Matches (Terminal.WritesAfter before) e')
    (path : Word) :
    Alike (Terminal.WritesAfter before) (load opening path e) (load opening path e') := by
  unfold load
  cases Source.ofPath opening path with
  | error cause => exact ⟨rfl, h⟩
  | ok source =>
    cases source with
    | file path content => exact ⟨rfl, h.tape, h.console⟩
    | standardInput =>
      have hinput := h.console.input
      refine ⟨?_, h.tape, ?_, h.console.output⟩
      · show decode e.console.input.takeAll.1 = decode e'.console.input.takeAll.1
        rw [hinput]
      · show e.console.input.takeAll.2 = e'.console.input.takeAll.2
        rw [hinput]

theorem runSource_alike (o : Options) (fuel : Nat) (opening : Opening)
    (h : e.Matches (Terminal.WritesAfter before) e') (path : Word) :
    Alike (Terminal.WritesAfter before) (runSource o fuel opening path e)
      (runSource o fuel opening path e') := by
  obtain ⟨hresult, hload⟩ := load_alike opening h path
  cases hl : (load opening path e).1 with
  | error cause =>
    rw [runSource_of_error hl, runSource_of_error (hresult ▸ hl)]
    exact ⟨rfl, hload⟩
  | ok text =>
    rw [runSource_of_ok hl, runSource_of_ok (hresult ▸ hl)]
    exact runText_alike (Terminal.simulation_writesAfter before) hload text

theorem andThen_alike {α : Type} {R : Terminal → Terminal → Prop}
    {r r' : Except Failure α × Engine Terminal} (h : Alike R r r')
    {next : Engine Terminal → Except Failure Unit × Engine Terminal}
    (hnext : ∀ {e e' : Engine Terminal}, e.Matches R e' → Alike R (next e) (next e')) :
    Alike R (andThen r next) (andThen r' next) := by
  obtain ⟨result, e⟩ := r
  obtain ⟨result', e'⟩ := r'
  obtain rfl : result = result' := h.result
  cases result with
  | error failure => exact ⟨rfl, h.engine⟩
  | ok value => exact hnext h.engine

theorem runSources_alike (o : Options) (fuel : Nat) (opening : Opening) (paths : List Word)
    (h : e.Matches (Terminal.WritesAfter before) e') :
    Alike (Terminal.WritesAfter before) (runSources o fuel opening paths e)
      (runSources o fuel opening paths e') := by
  induction paths generalizing e e' with
  | nil => exact ⟨rfl, h⟩
  | cons path paths ih =>
    rw [runSources_cons, runSources_cons]
    exact andThen_alike (runSource_alike o fuel opening h path) ih

theorem run_alike (o : Options) (fuel : Nat) (opening : Opening)
    (h : e.Matches (Terminal.WritesAfter before) e') :
    Alike (Terminal.WritesAfter before) (run o fuel opening e) (run o fuel opening e') := by
  rw [run_eq, run_eq]
  split_ifs
  · exact andThen_alike (runText_alike (Terminal.simulation_writesAfter before) h _)
      (runSources_alike o fuel opening o.files)
  · exact runSources_alike o fuel opening o.files h

end WritesAfter

/-- **What was written before has no influence** on a command, and stays in front of what the
command writes. -/
theorem run_eq_of_output (o : Options) (fuel : Nat) (opening : Opening) (e : Engine Terminal) :
    let r := run o fuel opening e
    let fresh := run o fuel opening { e with console := { e.console with output := [] } }
    r.1 = fresh.1 ∧ r.2.tape = fresh.2.tape ∧ r.2.console.input = fresh.2.console.input ∧
      r.2.console.output = e.console.output ++ fresh.2.console.output := by
  intro r fresh
  have hstart : e.Matches (Terminal.WritesAfter e.console.output)
      { e with console := { e.console with output := [] } } :=
    ⟨rfl, rfl, (List.append_nil _).symm⟩
  have halike : Alike _ r fresh := run_alike o fuel opening hstart
  exact ⟨halike.result, halike.engine.tape, halike.engine.console.input,
    halike.engine.console.output⟩

/-! ### Texts without a program -/

/-- Whether a text holds a program. -/
def holdsProgram (text : Word) : Bool := (Program.parse text).isOk

/-- A text without a program leaves the tape and the input as they are. -/
theorem runText_matches_of_error {text : Word} {cause : ProgramError}
    (h : Program.parse text = .error cause) (e : Engine Terminal) :
    (runText o fuel text e).2.Matches Terminal.SameInput e := by
  rw [runText_of_error h, writeFinal_eq]
  exact ⟨rfl, rfl⟩

theorem runTexts_cons (text : Word) (texts : List Word) (e : Engine Terminal) :
    (runTexts o fuel (text :: texts) e).1 =
      (runText o fuel text e).1 :: (runTexts o fuel texts (runText o fuel text e).2).1 := rfl

theorem length_runTexts (o : Options) (fuel : Nat) (texts : List Word) (e : Engine Terminal) :
    (runTexts o fuel texts e).1.length = texts.length := by
  induction texts generalizing e with
  | nil => rfl
  | cons text texts ih => rw [runTexts_cons, List.length_cons, List.length_cons, ih]

/-- **Texts without a program do not matter** to the texts around them. -/
theorem runTexts_filter (o : Options) (fuel : Nat) (texts : List Word) {e e' : Engine Terminal}
    (h : e.Matches Terminal.SameInput e') :
    (texts.zip (runTexts o fuel texts e).1).filter (fun x => holdsProgram x.1) =
      (texts.filter holdsProgram).zip (runTexts o fuel (texts.filter holdsProgram) e').1 := by
  induction texts generalizing e e' with
  | nil => rfl
  | cons text texts ih =>
    rw [runTexts_cons, List.zip_cons_cons, List.filter_cons, List.filter_cons]
    cases hp : Program.parse text with
    | error cause =>
      have hdrop : holdsProgram text = false := by rw [holdsProgram, hp]; rfl
      have hskip : (runText o fuel text e).2.Matches Terminal.SameInput e :=
        runText_matches_of_error hp e
      simp only [hdrop, Bool.false_eq_true, if_false]
      -- only what was written differs, and the other texts do not look at that
      exact ih ⟨hskip.tape.trans h.tape, hskip.console.trans h.console⟩
    | ok p =>
      have hkeep : holdsProgram text = true := by rw [holdsProgram, hp]; rfl
      obtain ⟨hresult, hengine⟩ : Alike _ (runText o fuel text e) (runText o fuel text e') :=
        runText_alike Terminal.simulation_sameInput h text
      simp only [hkeep, if_true]
      rw [runTexts_cons, List.zip_cons_cons, hresult, ih hengine]

/-! ### Commands -/

/-- A command with one file runs that file. -/
theorem run_single (o : Options) (fuel : Nat) (opening : Opening) (path : Word)
    (e : Engine Terminal) :
    let r := runSource o fuel opening path e
    run { o with sample := false, files := [path] } fuel opening e =
      (r.1.map fun _ => (), r.2) := by
  intro r
  rw [run_files, runSources_cons]
  rcases hr : runSource o fuel opening path e with ⟨result, e'⟩
  rw [show r = (result, e') from hr]
  cases result <;> rfl

/-- **The sources of a command run in sequence, and each of them fails alone.**

With the files `gs ++ hs` a command does what it does with `gs`.  If that fails, it is the end,
whatever the files `hs` are and even if they cannot be opened; otherwise `hs` is run on what `gs`
left, and its output comes after what is there already.  A single source that cannot be loaded
writes nothing.  One whose text holds no program writes an empty final state, without a draw or a
line of input.  Any other writes the messages of its rules as they are applied, and its final state.
Texts without a program can be left out of a sequence of texts, and nothing changes for the others.
-/
theorem run_in_sequence (o : Options) (fuel : Nat) (opening : Opening) (e : Engine Terminal) :
    (∀ gs hs, run { o with files := gs ++ hs } fuel opening e =
      andThen (run { o with files := gs } fuel opening e)
        (run { o with sample := false, files := hs } fuel opening)) ∧
    (∀ gs hs failure e', run { o with files := gs } fuel opening e = (.error failure, e') →
      ∀ opening' : Opening, (∀ path ∈ gs, opening' path = opening path) →
        run { o with files := gs ++ hs } fuel opening' e = (.error failure, e')) ∧
    (let r := run o fuel opening e
      let fresh := run o fuel opening { e with console := { e.console with output := [] } }
      r.1 = fresh.1 ∧ r.2.tape = fresh.2.tape ∧ r.2.console.input = fresh.2.console.input ∧
        r.2.console.output = e.console.output ++ fresh.2.console.output) ∧
    (∀ path, let loaded := load opening path e
      let r := run { o with sample := false, files := [path] } fuel opening e
      (∀ cause, loaded.1 = .error cause →
        r.1 = .error (.source cause) ∧ r.2.console.output = e.console.output ∧
          r.2.tape = e.tape ∧ r.2.console.input = loaded.2.console.input) ∧
      (∀ text cause, loaded.1 = .ok text → Script.parse text = .error cause →
        r.1 = .error (.program (.parse cause)) ∧
          r.2.console.output = e.console.output ++ (if o.quiet then [] else finalLine []) ∧
          r.2.tape = e.tape ∧ r.2.console.input = loaded.2.console.input) ∧
      ∀ text s n, loaded.1 = .ok text → Script.parse text = .ok s → o.maxPasses = some n →
        ∃ p, Program.parse text = .ok p ∧
          let m : Machine Terminal :=
            { console := loaded.2.console, tape := e.tape, program := p }
          let final := (m.runBounded n).2
          r.1 = .ok () ∧
            r.2.console.output = e.console.output ++ (m.trace n).flatMap Pass.printed ++
              (if o.quiet then [] else finalLine final.program.state) ∧
            r.2.tape = final.tape ∧ r.2.console.input = final.console.input) ∧
    ∀ texts : List Word, (runTexts o fuel texts e).1.length = texts.length ∧
      (texts.zip (runTexts o fuel texts e).1).filter (fun x => holdsProgram x.1) =
        (texts.filter holdsProgram).zip (runTexts o fuel (texts.filter holdsProgram) e).1 := by
  refine ⟨fun gs hs => run_append o gs hs e, fun gs hs failure e' h _ => run_append_of_error h hs,
    run_eq_of_output o fuel opening e, fun path => ?_,
    fun texts => ⟨length_runTexts o fuel texts e, runTexts_filter o fuel texts ⟨rfl, rfl⟩⟩⟩
  intro loaded r
  have hr : r = _ := run_single o fuel opening path e
  refine ⟨fun cause hl => ?_, fun text cause hl hs => ?_, fun text s n hl hs hn => ?_⟩
  · rw [hr, runSource_of_error hl]
    exact ⟨rfl, output_load path e, tape_load path e, rfl⟩
  · rw [hr, runSource_of_ok hl, runText_of_error (Program.parse_of_error hs), writeFinal_eq]
    exact ⟨rfl, congrArg (· ++ _) (output_load path e), tape_load path e, rfl⟩
  · obtain ⟨p, hp, -⟩ := Program.exists_parse_eq_ok hs
    refine ⟨p, hp, ?_⟩
    intro m final
    obtain ⟨hresult, houtput, hinput, htape⟩ := runText_of_bound fuel hp hn loaded.2
    have hm : { console := loaded.2.console, tape := loaded.2.tape, program := p } = m := by
      rw [show loaded.2.tape = e.tape from tape_load path e]
    rw [hm] at hresult houtput hinput htape
    rw [show loaded.2.console.output = e.console.output from output_load path e] at houtput
    rw [hr, runSource_of_ok hl]
    exact ⟨by rw [hresult]; rfl, houtput, htape, hinput⟩

/-- A missing source, a text without a program, and a program that writes, at paths of any form. -/
theorem run_in_sequence_each_kind :
    let missing : SourceError :=
      { kind := "NotFound".toList, code? := some 2, reason := "No such file or directory".toList }
    let opening : Opening := fun path =>
      if path = "/tmp/b".toList then .ok (.ok (Word.bytes ['y']))
      else if path = "../p".toList then .ok (.ok (Word.bytes "x::=~m\n::=\nx".toList))
      else .error missing
    let o : Options := { maxPasses := some 9 }
    let e : Engine Terminal := { console := .ofInput [], tape := .ofWords [] }
    let r (path : Word) := run { o with files := [path] } 0 opening e
    (r ['a']).1 = .error (.source missing) ∧ (r ['a']).2.console.output = [] ∧
      (r "/tmp/b".toList).1 = .error (.program (.parse (.declaration 1 .missingDelimiter))) ∧
      (r "/tmp/b".toList).2.console.output = finalLine [] ∧ (r "../p".toList).1 = .ok () ∧
      (run { o with files := [['a'], "../p".toList] } 0 opening e).1 =
        .error (.source missing) := by
  intro missing opening o e r
  obtain ⟨-, hfailed, -, hsource, -⟩ := run_in_sequence o 0 opening e
  obtain ⟨hmissing, houtput, -⟩ := (hsource ['a']).1 missing rfl
  obtain ⟨hbad, hempty, -⟩ :=
    (hsource "/tmp/b".toList).2.1 ['y'] (.declaration 1 .missingDelimiter)
      (by decide +kernel) (by decide +kernel)
  obtain ⟨p, -, hp, -⟩ :=
    (hsource "../p".toList).2.2 "x::=~m\n::=\nx".toList _ 9 (by decide +kernel) rfl rfl
  have hall := hfailed [['a']] ["../p".toList] _ _ (Prod.ext hmissing rfl) opening fun _ _ => rfl
  exact ⟨hmissing, houtput, hbad, hempty, hp, congrArg Prod.fst hall⟩

end CommandLine

end SemiThue
