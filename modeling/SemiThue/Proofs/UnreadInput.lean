import Mathlib
import SemiThue.Proofs.Runs

/-!
# SemiThue.Proofs.UnreadInput — what a run depends on

A run takes a line of its input for each rule that reads, and no other line has any influence on it.
The number of lines that matter is the number of reads of the run itself (`Machine.readCount`), so
consoles are compared by a relation that is indexed by the lines still to be read
(`Buffer.AgreesFor`): a pass that reads uses up one of them, and any other pass none.
-/

namespace SemiThue

variable {C : Type}

/-- Whether a pass read a line of input. -/
def Pass.reads (p : Pass C) : Bool := p.applied.any fun a => a.rule.kind = .read

variable [Console C]

namespace Machine

/-- The number of lines that a run of at most `n` passes reads. -/
def readCount (n : Nat) (m : Machine C) : Nat := (m.trace n).countP Pass.reads

/-! ### Passes that read -/

theorem reads_of_applied {m : Machine C} {a : Application} (h : m.pass.applied = some a) :
    m.pass.reads = decide (a.rule.kind = .read) := by
  rw [Pass.reads, h, Option.any_some]

theorem reads_of_unchanged {m : Machine C} (h : m.pass.changed = false) :
    m.pass.reads = false := by
  rw [Pass.reads, Pass.changed_eq_false_iff.mp h, Option.any_none]

theorem readCount_of_changed {m : Machine C} (n : Nat) (h : m.pass.changed = true) :
    m.readCount (n + 1) = m.pass.machine.readCount n + m.pass.reads.toNat := by
  rw [readCount, readCount, trace_of_changed n h, List.countP_cons, Bool.toNat]
  cases m.pass.reads <;> rfl

theorem readCount_of_unchanged {m : Machine C} (n : Nat) (h : m.pass.changed = false) :
    m.readCount (n + 1) = 0 := by
  rw [readCount, trace_of_unchanged n h, List.countP_singleton, reads_of_unchanged h]
  rfl

theorem Matches.reads_eq {D : Type} [Console D] {R : C → D → Prop} {m : Machine C}
    {m' : Machine D} (h : m.Matches R m') : m.pass.reads = m'.pass.reads := by
  have hrules := congrArg (Option.any fun r : Rule => decide (r.kind = .read)) h.rule_eq
  rwa [Option.any_map, Option.any_map] at hrules

end Machine

/-! ### The lines that are left -/

theorem Kind.input_perform (k : Kind) (b : Buffer) :
    (k.perform b).2.input = b.input.drop (decide (k = .read)).toNat := by
  cases k with
  | read => exact List.drop_one.symm
  | _ => rfl

namespace Machine

theorem input_pass (m : Machine Buffer) :
    m.pass.machine.console.input = m.console.input.drop m.pass.reads.toNat := by
  cases h : m.pass.applied with
  | none =>
    rw [(m.pass_machine_of_none h).1, reads_of_unchanged (Pass.changed_eq_false_iff.mpr h)]
    rfl
  | some a =>
    obtain ⟨-, -, -, -, u, v, -, -, -, hconsole⟩ := split_of_applied h
    rw [hconsole, Kind.input_perform, reads_of_applied h]

/-- **A run takes as many lines as it reads**, and leaves the others as they are. -/
theorem input_advance (n : Nat) (m : Machine Buffer) :
    (m.advance n).2.console.input = m.console.input.drop (m.readCount n) := by
  induction n generalizing m with
  | zero => rfl
  | succ n ih =>
    cases hc : m.pass.changed with
    | false =>
      rw [advance_of_unchanged n hc, readCount_of_unchanged n hc, (unchanged_pass hc).2]
      rfl
    | true =>
      rw [advance_of_changed n hc, readCount_of_changed n hc, ih, input_pass, List.drop_drop,
        Nat.add_comm]

end Machine

/-! ### Consoles with the same next lines -/

/-- The next `k` lines are the same, where a line that is missing counts as an empty one, and so is
what was written. -/
structure Buffer.AgreesFor (k : Nat) (b b' : Buffer) : Prop where
  input : ∀ i < k, b.input.getD i [] = b'.input.getD i []
  output : b.output = b'.output

namespace Buffer.AgreesFor

variable {b b' : Buffer} {k l : Nat}

theorem mono (h : b.AgreesFor l b') (hk : k ≤ l) : b.AgreesFor k b' :=
  ⟨fun i hi => h.input i (hi.trans_le hk), h.output⟩

/-- A rule that reads needs one line on which the consoles agree, and any other rule none. -/
theorem perform {kind : Kind} (h : b.AgreesFor (k + (decide (kind = .read)).toNat) b') :
    (kind.perform b).1 = (kind.perform b').1 ∧
      (kind.perform b).2.AgreesFor k (kind.perform b').2 := by
  cases kind with
  | standard text => exact ⟨rfl, h.mono (Nat.le_add_right k _)⟩
  | print message =>
    refine ⟨rfl, (h.mono (Nat.le_add_right k _)).input, ?_⟩
    show b.output ++ _ = b'.output ++ _
    rw [h.output]
  | read =>
    have hagree : ∀ i < k + 1, b.input.getD i [] = b'.input.getD i [] := h.input
    have hfirst := hagree 0 (Nat.succ_pos k)
    have htail (l : List Word) (i : Nat) : l.tail.getD i [] = l.getD (i + 1) [] := by
      simp only [List.getD_eq_getElem?_getD, List.getElem?_tail]
    refine ⟨?_, fun i hi => ?_, h.output⟩
    · show b.input.headD [] = b'.input.headD []
      simpa only [List.headD_eq_head?_getD, List.head?_eq_getElem?, List.getD_eq_getElem?_getD]
        using hfirst
    · show b.input.tail.getD i [] = b'.input.tail.getD i []
      rw [htail, htail]
      exact hagree (i + 1) (Nat.succ_lt_succ hi)

end Buffer.AgreesFor

/-! ### Lockstep -/

/-- What can be seen after a pass of its program, of the draws so far and of what was written. -/
def Pass.seen (p : Pass Buffer) : Program × Tape × Word :=
  (p.machine.program, p.machine.tape, p.machine.console.output)

namespace Machine

variable {m m' : Machine Buffer}

theorem Matches.pass_agreesFor {k : Nat}
    (h : m.Matches (Buffer.AgreesFor (k + m.pass.reads.toNat)) m') :
    m.pass.machine.Matches (Buffer.AgreesFor k) m'.pass.machine := by
  refine h.pass_of_perform (fun _ => h.console.mono (Nat.le_add_right k _)) fun a ha => ?_
  have hconsole := h.console
  rw [reads_of_applied ha] at hconsole
  exact hconsole.perform

theorem Matches.seen_eq {k : Nat}
    (h : m.pass.machine.Matches (Buffer.AgreesFor k) m'.pass.machine) :
    m.pass.seen = m'.pass.seen := by
  rw [Pass.seen, Pass.seen, h.program, h.tape, h.console.output]

/-- The run on the right makes the same passes, as long as its next lines are those that the run on
the left reads. -/
theorem Matches.advance_agreesFor (n : Nat)
    (h : m.Matches (Buffer.AgreesFor (m.readCount n)) m') :
    (m.advance n).1 = (m'.advance n).1 ∧
      (m.trace n).map Pass.seen = (m'.trace n).map Pass.seen ∧
      m.readCount n = m'.readCount n ∧
      (m.advance n).2.Matches (Buffer.AgreesFor 0) (m'.advance n).2 := by
  induction n generalizing m m' with
  | zero => exact ⟨rfl, rfl, rfl, h⟩
  | succ n ih =>
    cases hc : m.pass.changed with
    | false =>
      have hc' : m'.pass.changed = false := h.changed ▸ hc
      have hpass : m.pass.machine.Matches (Buffer.AgreesFor 0) m'.pass.machine := by
        refine Matches.pass_agreesFor ?_
        rwa [reads_of_unchanged hc, ← readCount_of_unchanged n hc]
      rw [advance_of_unchanged n hc, advance_of_unchanged n hc', trace_of_unchanged n hc,
        trace_of_unchanged n hc', readCount_of_unchanged n hc, readCount_of_unchanged n hc']
      exact ⟨rfl, congrArg (fun x => [x]) hpass.seen_eq, rfl, hpass⟩
    | true =>
      have hc' : m'.pass.changed = true := h.changed ▸ hc
      have hreads := h.reads_eq
      -- the pass uses up its own line, and the rest of the run has the others
      rw [readCount_of_changed n hc] at h
      have hpass := h.pass_agreesFor
      obtain ⟨hhalt, hseen, hcount, hfinal⟩ := ih hpass
      rw [advance_of_changed n hc, advance_of_changed n hc', trace_of_changed n hc,
        trace_of_changed n hc', readCount_of_changed n hc, readCount_of_changed n hc']
      refine ⟨hhalt, ?_, by rw [hcount, hreads], hfinal⟩
      rw [List.map_cons, List.map_cons, hpass.seen_eq, hseen]

/-- **Unread input has no influence.**  Let a run read `r` lines of its input.  Then it is the same
run on every input with the same first `r` lines: it ends in the same way, and after each pass the
state, the steps, the draws and what was written are the same.  Each run leaves its own input
without the first `r` lines. -/
theorem runBounded_eq_of_unread (m m' : Machine Buffer) (n : Nat)
    (hprogram : m.program = m'.program) (htape : m.tape = m'.tape)
    (houtput : m.console.output = m'.console.output)
    (hinput : ∀ i < m.readCount n, m.console.input.getD i [] = m'.console.input.getD i []) :
    (m.runBounded n).1 = (m'.runBounded n).1 ∧
      (m.trace n).map Pass.seen = (m'.trace n).map Pass.seen ∧
      (m.runBounded n).2.program = (m'.runBounded n).2.program ∧
      (m.runBounded n).2.tape = (m'.runBounded n).2.tape ∧
      (m.runBounded n).2.console.output = (m'.runBounded n).2.console.output ∧
      (m.runBounded n).2.console.input = m.console.input.drop (m.readCount n) ∧
      (m'.runBounded n).2.console.input = m'.console.input.drop (m.readCount n) := by
  have hstart : m.Matches (Buffer.AgreesFor (m.readCount n)) m' :=
    ⟨hprogram, htape, hinput, houtput⟩
  obtain ⟨hhalt, hseen, hcount, hfinal⟩ := hstart.advance_agreesFor n
  have hnoted : (m.runBounded n).2.Matches (Buffer.AgreesFor 0) (m'.runBounded n).2 := by
    rw [runBounded_eq, runBounded_eq, hhalt]
    exact hfinal.noteHalt n n _
  refine ⟨hhalt, hseen, hnoted.program, hnoted.tape, hnoted.console.output, ?_, ?_⟩
  · rw [runBounded_eq, console_noteHalt, input_advance]
  · rw [runBounded_eq, console_noteHalt, input_advance, hcount]

/-- Three lines are read, the third of them after the end of one input, where it counts as empty.
The second line brings another place to read, and the fourth line is never looked at. -/
theorem runBounded_eq_of_unread_three :
    let rules : List Rule :=
      [⟨['?'], .read, by decide⟩, ⟨['!'], .print ['m'], by decide⟩]
    let p : Program := { rules, state := ['?', '!', '?'] }
    let q : List Word := [['a'], ['b', '?']]
    let q' : List Word := [['a'], ['b', '?'], [], ['c']]
    let m : Machine Buffer := { console := ⟨q, []⟩, tape := .ofWords [], program := p }
    let m' : Machine Buffer := { console := ⟨q', []⟩, tape := .ofWords [], program := p }
    m.readCount 9 = 3 ∧ (m.runBounded 9).1 = (m'.runBounded 9).1 ∧
      (m.runBounded 9).2.program = (m'.runBounded 9).2.program ∧
      (m'.runBounded 9).2.console.input = [['c']] := by
  intro rules p q q' m m'
  have hcount : m.readCount 9 = 3 := by decide +kernel
  have hagree : ∀ i < 3, q.getD i [] = q'.getD i [] := by decide
  obtain ⟨hhalt, -, hprogram, -, -, -, hinput⟩ :=
    runBounded_eq_of_unread m m' 9 rfl rfl rfl (hcount ▸ hagree)
  rw [hcount] at hinput
  exact ⟨hcount, hhalt, hprogram, hinput⟩

end Machine

end SemiThue
