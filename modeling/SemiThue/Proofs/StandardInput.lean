import Mathlib
import SemiThue.Proofs.Commands
import SemiThue.Proofs.Terminals

/-!
# SemiThue.Proofs.StandardInput — one stream for all programs of a command

Standard input is taken by the rules that read, a line for each, and by the source `-`, which takes
all the rest.  What a command gets from it is the list of its intakes, over all of its programs
(`intakes`).

* `Consumes bs is pieces bs'` says what intakes a stream allows: each takes the piece that comes
  next, and what the pieces leave is `bs'`.
* `run_supplies`: the intakes of a command consume its standard input in this way.
* After the rest was taken, there are only empty lines and empty texts (`Consumes.of_rest`).
-/

namespace SemiThue
namespace CommandLine

/-! ### Intakes -/

/-- What is got from standard input at one time. -/
inductive Intake where
  /-- A rule read a line, and this is what it got. -/
  | line (text : Word)
  /-- A source was read to the end, and this is what it was read as. -/
  | rest (text : Except SourceError Word)

/-- `Consumes bs is pieces bs'`: from the bytes `bs` the intakes `is` take the given pieces one
after the other, and leave `bs'`.  A line is taken with its line feed, or to the end of the input if
it has none. -/
inductive Consumes :
    List UInt8 → List Intake → List (List UInt8) → List UInt8 → Prop
  | nil (bs : List UInt8) : Consumes bs [] [] bs
  | line {l bs bs' : List UInt8} {is : List Intake} {pieces : List (List UInt8)} (hl : 10 ∉ l)
      (h : Consumes bs is pieces bs') :
      Consumes (l ++ 10 :: bs) (.line (lineText (dropLastIf 13 l)) :: is)
        ((l ++ [10]) :: pieces) bs'
  | lastLine {l bs' : List UInt8} {is : List Intake} {pieces : List (List UInt8)} (hl : 10 ∉ l)
      (h : Consumes [] is pieces bs') : Consumes l (.line (lineText l) :: is) (l :: pieces) bs'
  | rest {bs bs' : List UInt8} {is : List Intake} {pieces : List (List UInt8)}
      (h : Consumes [] is pieces bs') :
      Consumes bs (.rest (decode bs) :: is) (bs :: pieces) bs'

namespace Consumes

variable {bs bs' bs'' : List UInt8} {is is' : List Intake} {pieces pieces' : List (List UInt8)}

/-- **Nothing is lost and nothing is taken twice.** -/
theorem flatten_append (h : Consumes bs is pieces bs') : pieces.flatten ++ bs' = bs := by
  induction h with
  | nil bs => rfl
  | line hl h ih => simp [ih]
  | lastLine hl h ih => simp [ih]
  | rest h ih => simp [ih]

theorem append (h : Consumes bs is pieces bs') (h' : Consumes bs' is' pieces' bs'') :
    Consumes bs (is ++ is') (pieces ++ pieces') bs'' := by
  induction h with
  | nil bs => exact h'
  | line hl h ih => exact .line hl (ih h')
  | lastLine hl h ih => exact .lastLine hl (ih h')
  | rest h ih => exact .rest (ih h')

/-- At the end of the input there are only empty lines and empty texts. -/
theorem of_nil (h : Consumes bs is pieces bs') (hbs : bs = []) :
    bs' = [] ∧ ∀ i ∈ is, i = .line [] ∨ i = .rest (.ok []) := by
  induction h with
  | nil bs => exact ⟨hbs, by simp⟩
  | line hl h ih => simp at hbs
  | lastLine hl h ih =>
    subst hbs
    exact ⟨(ih rfl).1, List.forall_mem_cons.mpr ⟨.inl rfl, (ih rfl).2⟩⟩
  | rest h ih =>
    subst hbs
    exact ⟨(ih rfl).1, List.forall_mem_cons.mpr ⟨.inr rfl, (ih rfl).2⟩⟩

/-- **After the rest was taken** there are only empty lines and empty texts. -/
theorem of_rest {before after : List Intake} {text : Except SourceError Word}
    (h : Consumes bs (before ++ .rest text :: after) pieces bs') :
    ∀ i ∈ after, i = .line [] ∨ i = .rest (.ok []) := by
  induction before generalizing bs pieces with
  | nil =>
    cases h with
    | rest h => exact (h.of_nil rfl).2
  | cons i before ih =>
    cases h with
    | line hl h => exact ih h
    | lastLine hl h => exact ih h
    | rest h => exact ih h

end Consumes

/-! ### Streams -/

/-- From the stream `s`, the intakes `is` lead to the stream `s'`. -/
def Supplies (s : ByteStream) (is : List Intake) (s' : ByteStream) : Prop :=
  ∃ pieces, s'.taken = s.taken ++ pieces ∧ Consumes s.rest is pieces s'.rest

namespace Supplies

variable {s s' s'' : ByteStream} {is is' : List Intake}

theorem refl (s : ByteStream) : Supplies s [] s := ⟨[], by simp, .nil _⟩

theorem append (h : Supplies s is s') (h' : Supplies s' is' s'') : Supplies s (is ++ is') s'' := by
  obtain ⟨pieces, htaken, hconsumes⟩ := h
  obtain ⟨pieces', htaken', hconsumes'⟩ := h'
  exact ⟨pieces ++ pieces', by rw [htaken', htaken, List.append_assoc],
    hconsumes.append hconsumes'⟩

theorem takeLine (s : ByteStream) :
    Supplies s [.line (Reading.ofPiece s.takeLine.1).text] s.takeLine.2 := by
  obtain ⟨rest, taken⟩ := s
  by_cases h : 10 ∈ rest
  · obtain ⟨l, bs, rfl, hl⟩ := List.eq_append_cons_of_mem h
    rw [ByteStream.takeLine_append_feed hl, Reading.text_ofPiece_concat]
    exact ⟨[l ++ [10]], rfl, .line hl (.nil bs)⟩
  · rw [ByteStream.takeLine_of_notMem h, Reading.text_ofPiece_of_notMem h]
    exact ⟨[rest], rfl, .lastLine h (.nil [])⟩

theorem takeAll (s : ByteStream) : Supplies s [.rest (decode s.rest)] s.takeAll.2 :=
  ⟨[s.rest], rfl, .rest (.nil [])⟩

theorem rest_eq_nil (h : Supplies s is s') (hs : s.rest = []) : s'.rest = [] := by
  obtain ⟨pieces, -, hconsumes⟩ := h
  exact (hconsumes.of_nil hs).1

end Supplies

/-! ### The intakes of a run -/

/-- What a pass got from standard input. -/
def lineOfPass (p : Pass Terminal) : Option Intake :=
  p.applied.bind fun a => if a.rule.kind = .read then some (.line a.result.replacement) else none

theorem pass_supplies (m : Machine Terminal) :
    Supplies m.console.input (lineOfPass m.pass).toList m.pass.machine.console.input := by
  unfold lineOfPass
  cases h : m.pass.applied with
  | none =>
    rw [(m.pass_machine_of_none h).1]
    exact .refl _
  | some a =>
    obtain ⟨-, -, -, hreplacement, u, v, -, -, -, hconsole⟩ := Machine.split_of_applied h
    rw [hconsole, Option.bind_some, hreplacement]
    cases a.rule.kind with
    | read => exact .takeLine _
    | standard text => exact .refl _
    | print message => exact .refl _

/-- **A run takes a line for each rule that reads.** -/
theorem advance_supplies (n : Nat) (m : Machine Terminal) :
    Supplies m.console.input ((m.trace n).filterMap lineOfPass) (m.advance n).2.console.input := by
  induction n generalizing m with
  | zero => exact .refl _
  | succ n ih =>
    have hpass := pass_supplies m
    have hcons (ps : List (Pass Terminal)) : (m.pass :: ps).filterMap lineOfPass =
        (lineOfPass m.pass).toList ++ ps.filterMap lineOfPass := by
      rw [List.filterMap_cons]
      cases lineOfPass m.pass <;> rfl
    cases hc : m.pass.changed with
    | false =>
      rw [m.advance_of_unchanged n hc, m.trace_of_unchanged n hc, hcons]
      exact hpass.append (.refl _)
    | true =>
      rw [m.advance_of_changed n hc, m.trace_of_changed n hc, hcons]
      exact hpass.append (ih m.pass.machine)

/-! ### The intakes of a command -/

variable {o : Options} {fuel : Nat} {opening : Opening}

/-- What the program of a text gets from standard input, in the passes that it makes. -/
def textIntakes (o : Options) (fuel : Nat) (text : Word) (e : Engine Terminal) : List Intake :=
  match Program.parse text with
  | .error _ => []
  | .ok p =>
    let m := startMachine text p e
    if (execute o fuel m).isSome then
      (m.trace (o.maxPasses.getD fuel)).filterMap lineOfPass
    else []

/-- What is taken when a source is loaded: all the rest if it is `-`. -/
def loadIntakes (opening : Opening) (path : Word) (e : Engine Terminal) : List Intake :=
  if path = ['-'] then [.rest (load opening path e).1] else []

/-- What a source gets from standard input. -/
def sourceIntakes (o : Options) (fuel : Nat) (opening : Opening) (path : Word)
    (e : Engine Terminal) : List Intake :=
  loadIntakes opening path e ++
    match (load opening path e).1 with
    | .error _ => []
    | .ok text => textIntakes o fuel text (load opening path e).2

/-- The intakes of what follows a success. -/
def moreIntakes {α : Type} (r : Except Failure α × Engine Terminal)
    (next : Engine Terminal → List Intake) : List Intake :=
  match r with
  | (.ok _, e) => next e
  | (.error _, _) => []

def sourcesIntakes (o : Options) (fuel : Nat) (opening : Opening) :
    List Word → Engine Terminal → List Intake
  | [], _ => []
  | path :: paths, e =>
    sourceIntakes o fuel opening path e ++
      moreIntakes (runSource o fuel opening path e) (sourcesIntakes o fuel opening paths)

/-- What a command gets from standard input, over all of its programs. -/
def intakes (o : Options) (fuel : Nat) (opening : Opening) (e : Engine Terminal) : List Intake :=
  if o.sample then
    textIntakes o fuel Sample.binaryIncrement e ++
      moreIntakes (runText o fuel Sample.binaryIncrement e) (sourcesIntakes o fuel opening o.files)
  else sourcesIntakes o fuel opening o.files e

/-- A program that is executed ends where its passes end. -/
theorem console_execute {m m' : Machine Terminal} (h : execute o fuel m = some m') :
    m'.console = (m.advance (o.maxPasses.getD fuel)).2.console := by
  cases hn : o.maxPasses with
  | some n =>
    rw [execute_of_bound hn] at h
    rw [← Option.some.inj h, noteLimit_console, Machine.runBounded_eq, Machine.console_noteHalt]
    rfl
  | none =>
    simp only [execute, hn] at h
    have hrun := congrArg (·.2.console) (Machine.run?_eq_some_iff.mp h)
    rw [← hrun, Machine.runBounded_eq, Machine.console_noteHalt]
    rfl

theorem runText_supplies (text : Word) (e : Engine Terminal) :
    Supplies e.console.input (textIntakes o fuel text e)
      (runText o fuel text e).2.console.input := by
  unfold textIntakes
  cases hp : Program.parse text with
  | error cause =>
    rw [runText_of_error hp, writeFinal_eq]
    exact .refl _
  | ok p =>
    cases hm : execute o fuel (startMachine text p e) with
    | none =>
      rw [runText_of_unfinished hp hm]
      simp only [hm, Option.isSome_none, Bool.false_eq_true, if_false]
      exact .refl _
    | some m =>
      rw [runText_of_finished hp hm, writeFinal_eq]
      have hadvance := advance_supplies (o.maxPasses.getD fuel) (startMachine text p e)
      rw [← console_execute hm] at hadvance
      simp only [hm, Option.isSome_some, if_true]
      exact hadvance

theorem load_supplies (opening : Opening) (path : Word) (e : Engine Terminal) :
    Supplies e.console.input (loadIntakes opening path e)
      (load opening path e).2.console.input := by
  unfold loadIntakes load Source.ofPath
  split_ifs
  · exact .takeAll _
  · cases opening path <;> exact .refl _

theorem runSource_supplies (path : Word) (e : Engine Terminal) :
    Supplies e.console.input (sourceIntakes o fuel opening path e)
      (runSource o fuel opening path e).2.console.input := by
  refine (load_supplies opening path e).append ?_
  cases hl : (load opening path e).1 with
  | error cause =>
    rw [runSource_of_error hl]
    exact .refl _
  | ok text =>
    rw [runSource_of_ok hl]
    exact runText_supplies text _

/-- What follows a success takes what that left. -/
theorem andThen_supplies {α : Type} {s : ByteStream} {is : List Intake}
    {r : Except Failure α × Engine Terminal} (h : Supplies s is r.2.console.input)
    {next : Engine Terminal → Except Failure Unit × Engine Terminal}
    {more : Engine Terminal → List Intake}
    (hnext : ∀ e, Supplies e.console.input (more e) (next e).2.console.input) :
    Supplies s (is ++ moreIntakes r more) (andThen r next).2.console.input := by
  obtain ⟨result, e⟩ := r
  cases result with
  | error failure => exact h.append (.refl _)
  | ok value => exact h.append (hnext e)

theorem runSources_supplies (paths : List Word) (e : Engine Terminal) :
    Supplies e.console.input (sourcesIntakes o fuel opening paths e)
      (runSources o fuel opening paths e).2.console.input := by
  induction paths generalizing e with
  | nil => exact .refl _
  | cons path paths ih =>
    rw [runSources_cons]
    exact andThen_supplies (runSource_supplies path e) ih

/-- **A command takes its intakes from standard input**, one after the other. -/
theorem run_supplies (o : Options) (fuel : Nat) (opening : Opening) (e : Engine Terminal) :
    Supplies e.console.input (intakes o fuel opening e) (run o fuel opening e).2.console.input := by
  rw [run_eq]
  unfold intakes
  split_ifs
  · exact andThen_supplies (runText_supplies _ e) (runSources_supplies o.files)
  · exact runSources_supplies o.files e

/-! ### Commands without the source `-` -/

def Intake.IsLine : Intake → Prop
  | .line _ => True
  | .rest _ => False

theorem isLine_of_mem_textIntakes {text : Word} {e : Engine Terminal} {i : Intake}
    (h : i ∈ textIntakes o fuel text e) : i.IsLine := by
  unfold textIntakes at h
  cases hp : Program.parse text with
  | error cause => simp [hp] at h
  | ok p =>
    simp only [hp] at h
    split_ifs at h
    · obtain ⟨q, -, hq⟩ := List.mem_filterMap.mp h
      obtain ⟨a, -, ha⟩ := Option.bind_eq_some_iff.mp hq
      split_ifs at ha
      rw [← Option.some.inj ha]
      trivial
    · simp at h

theorem isLine_of_mem_moreIntakes {α : Type} {r : Except Failure α × Engine Terminal}
    {next : Engine Terminal → List Intake} (hnext : ∀ e, ∀ i ∈ next e, i.IsLine) {i : Intake}
    (h : i ∈ moreIntakes r next) : i.IsLine := by
  obtain ⟨result, e⟩ := r
  cases result with
  | error failure => simp [moreIntakes] at h
  | ok value => exact hnext e i h

theorem isLine_of_mem_sourceIntakes {path : Word} (hpath : path ≠ ['-']) {e : Engine Terminal}
    {i : Intake} (h : i ∈ sourceIntakes o fuel opening path e) : i.IsLine := by
  unfold sourceIntakes loadIntakes at h
  rw [if_neg hpath, List.nil_append] at h
  cases hl : (load opening path e).1 with
  | error cause => simp [hl] at h
  | ok text =>
    simp only [hl] at h
    exact isLine_of_mem_textIntakes h

theorem isLine_of_mem_sourcesIntakes {paths : List Word} (hpaths : ['-'] ∉ paths) :
    ∀ (e : Engine Terminal), ∀ i ∈ sourcesIntakes o fuel opening paths e, i.IsLine := by
  induction paths with
  | nil => simp [sourcesIntakes]
  | cons path paths ih =>
    intro e i hi
    rw [List.mem_cons, not_or] at hpaths
    rcases List.mem_append.mp hi with hi | hi
    · exact isLine_of_mem_sourceIntakes (Ne.symm hpaths.1) hi
    · exact isLine_of_mem_moreIntakes (ih hpaths.2) hi

/-- **Without the source `-`**, a command takes lines only. -/
theorem isLine_of_mem_intakes (hfiles : ['-'] ∉ o.files) {e : Engine Terminal} {i : Intake}
    (h : i ∈ intakes o fuel opening e) : i.IsLine := by
  unfold intakes at h
  split_ifs at h
  · rcases List.mem_append.mp h with h | h
    · exact isLine_of_mem_textIntakes h
    · exact isLine_of_mem_moreIntakes (isLine_of_mem_sourcesIntakes hfiles) h
  · exact isLine_of_mem_sourcesIntakes hfiles e i h

/-! ### Commands with the source `-` -/

theorem result_load_dash (e : Engine Terminal) :
    (load opening ['-'] e).1 = decode e.console.input.rest := rfl

theorem rest_runSource_dash (e : Engine Terminal) :
    (runSource o fuel opening ['-'] e).2.console.input.rest = [] := by
  have hload : (load opening ['-'] e).2.console.input.rest = [] := rfl
  cases hl : (load opening ['-'] e).1 with
  | error cause => rw [runSource_of_error hl, hload]
  | ok text =>
    rw [runSource_of_ok hl]
    exact (runText_supplies text _).rest_eq_nil hload

/-- A command with the source `-` leaves nothing, if it succeeds. -/
theorem rest_run_dash {gs hs : List Word} {e e' : Engine Terminal}
    (h : run { o with files := gs ++ ['-'] :: hs } fuel opening e = (.ok (), e')) :
    e'.console.input.rest = [] := by
  rw [run_append] at h
  obtain ⟨-, e₁, -, h⟩ := andThen_eq_ok h
  rw [run_files, runSources_cons] at h
  obtain ⟨value, e₂, hdash, h⟩ := andThen_eq_ok h
  -- nothing is left when `-` has run, and so nothing when the sources after it have
  have hrest : e₂.console.input.rest = [] := by
    have hnone : (runSource o fuel opening ['-'] e₁).2.console.input.rest = [] :=
      rest_runSource_dash e₁
    rwa [hdash] at hnone
  have hsupplies : Supplies e₂.console.input (sourcesIntakes o fuel opening hs e₂)
      (runSources o fuel opening hs e₂).2.console.input := runSources_supplies hs e₂
  rw [h] at hsupplies
  exact hsupplies.rest_eq_nil hrest

/-- What a command does from the source `-` on, if that is some text. -/
theorem run_dash {gs : List Word} (hs : List Word) {e e' : Engine Terminal} {text : Word}
    (h : run { o with files := gs } fuel opening e = (.ok (), e'))
    (htext : Word.ofBytes? e'.console.input.rest = some text) :
    (load opening ['-'] e').1 = .ok text ∧
      run { o with files := gs ++ ['-'] :: hs } fuel opening e =
        andThen (runText o fuel text (load opening ['-'] e').2)
          (run { o with sample := false, files := hs } fuel opening) := by
  have hload : (load opening ['-'] e').1 = .ok text := by
    rw [result_load_dash, decode, htext]
  refine ⟨hload, ?_⟩
  rw [run_append, h, run_files, run_files]
  show runSources o fuel opening (['-'] :: hs) e' = _
  rw [runSources_cons, runSource_of_ok hload]

/-- **Standard input is taken once and in order** by all programs of a command together.

The pieces that are taken, a line for each rule that reads and all the rest for each source `-`, are
those that come next in the input, so together they are its beginning.  The text of the first source
`-` is thus the input without the lines that rules read before.  After it there are only empty
lines, and a second source `-` is an empty text, with which the command ends since it has no
start. -/
theorem run_takes_input_once (o : Options) (fuel : Nat) (opening : Opening) (input : List UInt8)
    (tape : Tape) (journal : Journal) :
    let e : Engine Terminal := { console := .ofInput input, tape, journal }
    let final := (run o fuel opening e).2.console.input
    (Consumes input (intakes o fuel opening e) final.taken final.rest ∧
      final.taken.flatten <+: input) ∧
    (∀ gs hs e' text, run { o with files := gs } fuel opening e = (.ok (), e') →
      Word.ofBytes? e'.console.input.rest = some text → ['-'] ∉ gs →
        (∀ i ∈ intakes { o with files := gs } fuel opening e, i.IsLine) ∧
        Consumes input (intakes { o with files := gs } fuel opening e) e'.console.input.taken
          (Word.bytes text) ∧
        input = e'.console.input.taken.flatten ++ Word.bytes text ∧
        (load opening ['-'] e').1 = .ok text ∧
        run { o with files := gs ++ ['-'] :: hs } fuel opening e =
          andThen (runText o fuel text (load opening ['-'] e').2)
            (run { o with sample := false, files := hs } fuel opening)) ∧
    (∀ before text after, intakes o fuel opening e = before ++ .rest text :: after →
      ∀ i ∈ after, i = .line [] ∨ i = .rest (.ok [])) ∧
    ∀ gs hs ks e', run { o with files := gs ++ ['-'] :: hs } fuel opening e = (.ok (), e') →
      (load opening ['-'] e').1 = .ok [] ∧
        (run { o with files := gs ++ ['-'] :: hs ++ ['-'] :: ks } fuel opening e).1 =
          .error (.program (.parse .missingStart)) ∧
        run { o with files := gs ++ ['-'] :: hs ++ ['-'] :: ks } fuel opening e =
          run { o with files := gs ++ ['-'] :: hs ++ [['-']] } fuel opening e := by
  intro e final
  have hconsumes (o : Options) : Consumes input (intakes o fuel opening e)
      (run o fuel opening e).2.console.input.taken (run o fuel opening e).2.console.input.rest := by
    obtain ⟨pieces, htaken, hconsumes⟩ := run_supplies o fuel opening e
    rw [htaken]
    exact hconsumes
  refine ⟨⟨hconsumes o, _, (hconsumes o).flatten_append⟩, ?_, ?_, ?_⟩
  · intro gs hs e' text hrun htext hgs
    have hfirst := hconsumes { o with files := gs }
    rw [hrun, Word.ofBytes?_eq_some_iff.mp htext] at hfirst
    exact ⟨fun i hi => isLine_of_mem_intakes hgs hi, hfirst, hfirst.flatten_append.symm,
      run_dash hs hrun htext⟩
  · intro before text after h
    have hall := hconsumes o
    rw [h] at hall
    exact hall.of_rest
  · intro gs hs ks e' hrun
    have hempty : Word.ofBytes? e'.console.input.rest = some [] := by
      rw [rest_run_dash hrun]
      rfl
    have hparse : Program.parse [] = .error (.parse .missingStart) := rfl
    obtain ⟨hload, hall⟩ := run_dash ks hrun hempty
    obtain ⟨-, hfirst⟩ := run_dash [] hrun hempty
    rw [hall, hfirst, runText_of_error hparse]
    exact ⟨hload, rfl, rfl⟩

/-- A program reads the first line of the input, the source `-` holds the others, and at a second
source `-` the command ends. -/
theorem run_takes_input_once_two_dashes :
    let f : Word := "/tmp/f".toList
    let opening : Opening := fun path =>
      if path = f then .ok (.ok (Word.bytes "x::=:::\n::=\nx".toList))
      else .error { kind := "NotFound".toList, reason := [] }
    let text : Word := "::=\ny\n".toList
    let input : List UInt8 := Word.bytes ("hi\n".toList ++ text)
    let o : Options := { maxPasses := some 9 }
    let e : Engine Terminal := { console := .ofInput input, tape := .ofWords [] }
    let first := run { o with files := [f] } 0 opening e
    let both := run { o with files := [f, ['-']] } 0 opening e
    let all := run { o with files := [f, ['-'], ['-'], f] } 0 opening e
    first.1 = .ok () ∧ input = first.2.console.input.taken.flatten ++ Word.bytes text ∧
      both.1 = .ok () ∧ all.1 = .error (.program (.parse .missingStart)) := by
  intro f opening text input o e first both all
  have hfirst : first.1 = .ok () := by decide +kernel
  have hboth : both.1 = .ok () := by decide +kernel
  have htext : Word.ofBytes? first.2.console.input.rest = some text := by decide +kernel
  obtain ⟨-, hdash, -, htwice⟩ := run_takes_input_once o 0 opening input (.ofWords []) {}
  obtain ⟨-, -, hinput, -⟩ := hdash [f] [] first.2 text (Prod.ext hfirst rfl) htext (by decide)
  obtain ⟨-, hend, -⟩ := htwice [f] [] [f] both.2 (Prod.ext hboth rfl)
  exact ⟨hfirst, hinput, hboth, hend⟩
end CommandLine
end SemiThue
