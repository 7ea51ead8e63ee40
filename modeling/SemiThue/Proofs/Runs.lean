import Mathlib
import SemiThue.Proofs.Simulation
import SemiThue.Proofs.Soundness

/-!
# SemiThue.Proofs.Runs — bounded runs, longer runs and runs without a bound

A run makes passes up to the first that applies no rule, or until its bound is reached.
`advance_cases` lists all that can happen, and the rest follows from it:

* `runBounded_add`: a run can be interrupted at any bound and taken up again.
* `halt_eq_fixpoint_iff`, `halt_eq_limit_iff`: when it ends for which reason.
* `settle?_eq_some_iff`, `run?_eq_some_iff`: the loop without a bound makes the same passes.
* `runBounded_of_le`, `run?_of_le`: once a run has ended by itself, a greater bound or none changes
  nothing.
* `runBounded_of_isNormal`: after that, nothing happens any more.
-/

namespace SemiThue

/-- No pattern occurs in the state. -/
def Program.IsNormal (p : Program) : Prop := ∀ r ∈ p.rules, ¬ r.pattern <:+: p.state

variable {C : Type}

namespace Machine

/-! ### Notes -/

@[simp] theorem program_noteHalt (n : Nat) (m : Machine C) (halt : Halt) :
    (m.noteHalt n halt).program = m.program := by
  cases halt <;> rfl

@[simp] theorem console_noteHalt (n : Nat) (m : Machine C) (halt : Halt) :
    (m.noteHalt n halt).console = m.console := by
  cases halt <;> rfl

@[simp] theorem tape_noteHalt (n : Nat) (m : Machine C) (halt : Halt) :
    (m.noteHalt n halt).tape = m.tape := by
  cases halt <;> rfl

variable [Console C]

/-! ### Passes -/

/-- Each of the first `k` passes applies a rule. -/
def Productive (k : Nat) (m : Machine C) : Prop := ∀ j < k, (m.after j).pass.changed = true

theorem changed_eq_false_iff {m : Machine C} : m.pass.changed = false ↔ m.program.IsNormal := by
  rw [Pass.changed_eq_false_iff, applied_eq_none_iff, Program.IsNormal]

theorem unchanged_pass {m : Machine C} (h : m.pass.changed = false) :
    m.pass.machine.program = m.program ∧ m.pass.machine.console = m.console := by
  obtain ⟨hc, hp, -⟩ := m.pass_machine_of_none (Pass.changed_eq_false_iff.mp h)
  exact ⟨hp, hc⟩

theorem steps_pass {m : Machine C} (h : m.pass.changed = true) :
    m.pass.machine.program.steps = m.program.steps + 1 := by
  obtain ⟨a, ha⟩ := Option.isSome_iff_exists.mp h
  rw [program_eq_of_applied ha]

theorem productive_succ_iff {k : Nat} {m : Machine C} :
    m.Productive (k + 1) ↔ m.pass.changed = true ∧ m.pass.machine.Productive k := by
  constructor
  · intro h
    exact ⟨h 0 (Nat.succ_pos k), fun j hj => h (j + 1) (Nat.succ_lt_succ hj)⟩
  · rintro ⟨hfirst, hrest⟩ j hj
    cases j with
    | zero => exact hfirst
    | succ j => exact hrest j (Nat.lt_of_succ_lt_succ hj)

/-- Every pass that applies a rule counts as one step. -/
theorem steps_after {k : Nat} {m : Machine C} (h : m.Productive k) :
    (m.after k).program.steps = m.program.steps + k := by
  induction k with
  | zero => rfl
  | succ k ih =>
    have hk := ih fun j hj => h j (Nat.lt_succ_of_lt hj)
    rw [after_succ, steps_pass (h k (Nat.lt_succ_self k)), hk, Nat.add_assoc]

/-! ### All that a run can do -/

theorem advance_of_changed {m : Machine C} (n : Nat) (h : m.pass.changed = true) :
    m.advance (n + 1) = m.pass.machine.advance n := if_pos h

theorem advance_of_unchanged {m : Machine C} (n : Nat) (h : m.pass.changed = false) :
    m.advance (n + 1) = (.fixpoint, m.pass.machine) := if_neg (by simp [h])

theorem trace_of_changed {m : Machine C} (n : Nat) (h : m.pass.changed = true) :
    m.trace (n + 1) = m.pass :: m.pass.machine.trace n := congrArg _ (if_pos h)

theorem trace_of_unchanged {m : Machine C} (n : Nat) (h : m.pass.changed = false) :
    m.trace (n + 1) = [m.pass] := congrArg _ (if_neg (by simp [h]))

/-- **What a run of at most `n` passes does.**  Either some pass among them is the first to apply no
rule, and the run ends with it, or all `n` passes apply a rule. -/
theorem advance_cases (n : Nat) (m : Machine C) :
    (∃ k < n, m.Productive k ∧ (m.after k).pass.changed = false ∧
      m.advance n = (.fixpoint, m.after (k + 1)) ∧ m.trace n = m.passes (k + 1)) ∨
    (m.Productive n ∧ m.advance n = (.limit, m.after n) ∧ m.trace n = m.passes n) := by
  induction n generalizing m with
  | zero => exact .inr ⟨fun j hj => absurd hj (Nat.not_lt_zero j), rfl, rfl⟩
  | succ n ih =>
    cases hc : m.pass.changed with
    | false =>
      refine .inl ⟨0, Nat.succ_pos n, fun j hj => absurd hj (Nat.not_lt_zero j), hc, ?_, ?_⟩
      · exact advance_of_unchanged n hc
      · exact trace_of_unchanged n hc
    | true =>
      rw [advance_of_changed n hc, trace_of_changed n hc]
      rcases ih m.pass.machine with ⟨k, hk, hprod, hlast, hadv, htrace⟩ | ⟨hprod, hadv, htrace⟩
      · have hprod' := productive_succ_iff.mpr ⟨hc, hprod⟩
        refine .inl ⟨k + 1, Nat.succ_lt_succ hk, hprod', hlast, hadv, ?_⟩
        rw [htrace, passes_succ_cons (k + 1) m]
      · refine .inr ⟨productive_succ_iff.mpr ⟨hc, hprod⟩, hadv, ?_⟩
        rw [htrace, passes_succ_cons n m]

/-- The run goes on where it was interrupted. -/
theorem advance_add (a b : Nat) (m : Machine C) :
    m.advance (a + b) =
      if (m.advance a).1 = .limit then (m.advance a).2.advance b else m.advance a := by
  induction a generalizing m with
  | zero => rw [Nat.zero_add]; rfl
  | succ a ih =>
    rw [Nat.succ_add]
    cases hc : m.pass.changed with
    | false =>
      rw [advance_of_unchanged _ hc, advance_of_unchanged _ hc]
      rfl
    | true =>
      rw [advance_of_changed _ hc, advance_of_changed _ hc]
      exact ih m.pass.machine

/-! ### Interrupted runs -/

theorem runBounded_eq (n : Nat) (m : Machine C) :
    m.runBounded n = ((m.advance n).1, (m.advance n).2.noteHalt n (m.advance n).1) := rfl

/-- **A run can be interrupted.**  With a bound of `a + b` passes it ends as with a bound of `a`
passes and, if that bound is reached, `b` passes more. -/
theorem runBounded_add (a b : Nat) (m : Machine C) :
    let first := m.runBounded a
    let both := if first.1 = .limit then first.2.runBounded b else first
    (m.runBounded (a + b)).1 = both.1 ∧ (m.runBounded (a + b)).2.Matches Eq both.2 := by
  intro first both
  have hadd := advance_add a b m
  rw [runBounded_eq (a + b)]
  by_cases hlimit : (m.advance a).1 = .limit
  · have hboth : both = first.2.runBounded b := if_pos hlimit
    rw [if_pos hlimit] at hadd
    -- the note about the interruption is the only difference
    have hnoted : (m.advance a).2.Matches Eq first.2 := by
      rw [show first.2 = (m.advance a).2.noteHalt a (m.advance a).1 from rfl, hlimit]
      exact ⟨rfl, rfl, rfl⟩
    obtain ⟨hhalt, hmatch⟩ := hnoted.advance Console.Simulation.eq b
    rw [hboth, runBounded_eq b, hadd, hhalt]
    exact ⟨rfl, hmatch.noteHalt (a + b) b _⟩
  · have hboth : both = first := if_neg hlimit
    rw [if_neg hlimit] at hadd
    rw [hboth, hadd]
    exact ⟨rfl, (Matches.refl _).noteHalt (a + b) a _⟩

/-! ### How runs end -/

/-- A run that ends by itself, pass by pass: `k` passes apply a rule, and the one after them
applies none. -/
theorem exists_of_halt_eq_fixpoint {n : Nat} {m : Machine C} (h : (m.runBounded n).1 = .fixpoint) :
    ∃ k < n, m.Productive k ∧ (m.after k).pass.changed = false ∧
      (m.runBounded n).2.program = (m.after (k + 1)).program ∧ m.trace n = m.passes (k + 1) := by
  rcases advance_cases n m with ⟨k, hk, hprod, hlast, hadv, htrace⟩ | ⟨-, hadv, -⟩
  · refine ⟨k, hk, hprod, hlast, ?_, htrace⟩
    rw [runBounded_eq, program_noteHalt, hadv]
  · rw [runBounded_eq, hadv] at h
    cases h

/-- Every run makes some number of steps, and leaves the program as it is after them. -/
theorem exists_productive_runBounded (n : Nat) (m : Machine C) :
    ∃ k ≤ n, m.Productive k ∧ (m.runBounded n).2.program = (m.after k).program := by
  rw [runBounded_eq, program_noteHalt]
  rcases advance_cases n m with ⟨k, hk, hprod, hlast, hadv, -⟩ | ⟨hprod, hadv, -⟩
  · refine ⟨k, hk.le, hprod, ?_⟩
    rw [hadv, after_succ, (unchanged_pass hlast).1]
  · exact ⟨n, le_rfl, hprod, by rw [hadv]⟩

/-- **A run ends by itself exactly if some pass within its bound applies no rule.** -/
theorem halt_eq_fixpoint_iff {n : Nat} {m : Machine C} :
    (m.runBounded n).1 = .fixpoint ↔ ∃ p ∈ m.passes n, p.changed = false := by
  constructor
  · intro h
    obtain ⟨k, hk, -, hlast, -⟩ := exists_of_halt_eq_fixpoint h
    exact ⟨_, List.mem_map_of_mem (List.mem_range.mpr hk), hlast⟩
  · rintro ⟨p, hp, hlast⟩
    obtain ⟨k, hk, rfl⟩ := List.mem_map.mp hp
    rcases advance_cases n m with ⟨j, -, -, -, hadv, -⟩ | ⟨hprod, -⟩
    · rw [runBounded_eq, hadv]
    · rw [hprod k (List.mem_range.mp hk)] at hlast
      cases hlast

/-- **A run reaches its bound exactly if all passes within it are steps.** -/
theorem halt_eq_limit_iff {n : Nat} {m : Machine C} :
    (m.runBounded n).1 = .limit ↔
      (m.runBounded n).2.program.steps = m.program.steps + n := by
  rw [runBounded_eq, program_noteHalt]
  rcases advance_cases n m with ⟨k, hk, hprod, hlast, hadv, -⟩ | ⟨hprod, hadv, -⟩
  · have hsteps : (m.after (k + 1)).program.steps = m.program.steps + k := by
      rw [after_succ, (unchanged_pass hlast).1, steps_after hprod]
    rw [hadv]
    constructor
    · intro h
      cases h
    · intro h
      rw [hsteps] at h
      omega
  · rw [hadv]
    exact ⟨fun _ => steps_after hprod, fun _ => rfl⟩

/-! ### Runs that have ended by themselves -/

theorem isNormal_of_fixpoint {n : Nat} {m : Machine C} (h : (m.runBounded n).1 = .fixpoint) :
    (m.runBounded n).2.program.IsNormal := by
  obtain ⟨k, -, -, hlast, hfinal, -⟩ := exists_of_halt_eq_fixpoint h
  rw [hfinal, after_succ, (unchanged_pass hlast).1]
  exact changed_eq_false_iff.mp hlast

/-- Each pass of such a run was a step, except the last one. -/
theorem steps_of_fixpoint {n : Nat} {m : Machine C} (h : (m.runBounded n).1 = .fixpoint) :
    ∃ k < n, m.trace n = m.passes (k + 1) ∧
      (m.runBounded n).2.program.steps = m.program.steps + k := by
  obtain ⟨k, hk, hprod, hlast, hfinal, htrace⟩ := exists_of_halt_eq_fixpoint h
  refine ⟨k, hk, htrace, ?_⟩
  rw [hfinal, after_succ, (unchanged_pass hlast).1, steps_after hprod]

/-- **A greater bound changes nothing.** -/
theorem runBounded_of_le {n k : Nat} {m : Machine C} (h : (m.runBounded n).1 = .fixpoint)
    (hk : n ≤ k) : m.runBounded k = m.runBounded n := by
  obtain ⟨d, rfl⟩ := Nat.exists_eq_add_of_le hk
  have hfix : (m.advance n).1 = .fixpoint := h
  have hadd := advance_add n d m
  rw [if_neg (by simp [hfix])] at hadd
  rw [runBounded_eq, runBounded_eq, hadd, hfix]
  rfl

/-! ### Runs without a bound -/

theorem settle?_of_changed {m : Machine C} (fuel : Nat) (h : m.pass.changed = true) :
    m.settle? (fuel + 1) = m.pass.machine.settle? fuel := if_pos h

theorem settle?_of_unchanged {m : Machine C} (fuel : Nat) (h : m.pass.changed = false) :
    m.settle? (fuel + 1) = some m.pass.machine := if_neg (by simp [h])

/-- **The two loops agree**, pass by pass: without a bound the passes come to an end within `fuel`
of them exactly if they do so with `fuel` as the bound, and on the same machine. -/
theorem settle?_eq_some_iff {fuel : Nat} {m m' : Machine C} :
    m.settle? fuel = some m' ↔ m.advance fuel = (.fixpoint, m') := by
  induction fuel generalizing m with
  | zero =>
    show none = some m' ↔ (Halt.limit, m) = (Halt.fixpoint, m')
    simp
  | succ fuel ih =>
    by_cases hc : m.pass.changed = true
    · rw [settle?_of_changed fuel hc, advance_of_changed fuel hc]
      exact ih
    · rw [Bool.not_eq_true] at hc
      rw [settle?_of_unchanged fuel hc, advance_of_unchanged fuel hc]
      simp

/-- A run without a bound has a result within `fuel` passes exactly if the run with that bound ends
by itself, and then both end alike, with the same note. -/
theorem run?_eq_some_iff {fuel : Nat} {m m' : Machine C} :
    m.run? fuel = some m' ↔ m.runBounded fuel = (.fixpoint, m') := by
  rw [run?, Option.bind_eq_bind, Option.bind_eq_some_iff]
  constructor
  · rintro ⟨m₁, hsettle, hm'⟩
    rw [settle?_eq_some_iff] at hsettle
    rw [runBounded_eq, hsettle, ← Option.some.inj hm']
    rfl
  · intro h
    rw [runBounded_eq, Prod.mk.injEq] at h
    obtain ⟨hfix, hm'⟩ := h
    rw [hfix] at hm'
    exact ⟨_, settle?_eq_some_iff.mpr (Prod.ext hfix rfl), congrArg some hm'⟩

theorem run?_eq_none_iff {fuel : Nat} {m : Machine C} :
    m.run? fuel = none ↔ (m.runBounded fuel).1 = .limit := by
  rw [Option.eq_none_iff_forall_ne_some]
  constructor
  · intro h
    cases hhalt : (m.runBounded fuel).1 with
    | limit => rfl
    | fixpoint => exact absurd (run?_eq_some_iff.mpr (Prod.ext hhalt rfl)) (h _)
  · intro h m' hm'
    rw [run?_eq_some_iff.mp hm'] at h
    cases h

/-- **A run without a bound ends in the same way**, and it ends in one way only. -/
theorem run?_of_le {n fuel : Nat} {m : Machine C} (h : (m.runBounded n).1 = .fixpoint)
    (hfuel : n ≤ fuel) : m.run? fuel = some (m.runBounded n).2 := by
  rw [run?_eq_some_iff, runBounded_of_le h hfuel, ← h]

theorem eq_of_run?_eq_some {n fuel : Nat} {m m' : Machine C} (h : (m.runBounded n).1 = .fixpoint)
    (h' : m.run? fuel = some m') : m' = (m.runBounded n).2 := by
  have hrun := run?_eq_some_iff.mp h'
  have hfix : (m.runBounded fuel).1 = .fixpoint := by rw [hrun]
  rcases Nat.le_total n fuel with hle | hle
  · rw [← runBounded_of_le h hle, hrun]
  · rw [runBounded_of_le hfix hle, hrun]

/-- **Where no pattern occurs, nothing happens.** -/
theorem runBounded_of_isNormal {m : Machine C} (h : m.program.IsNormal) (n : Nat) :
    (m.runBounded n).2.program = m.program ∧ (m.runBounded n).2.console = m.console := by
  rw [runBounded_eq, program_noteHalt, console_noteHalt]
  cases n with
  | zero => exact ⟨rfl, rfl⟩
  | succ n =>
    have hc := changed_eq_false_iff.mpr h
    rw [advance_of_unchanged n hc]
    exact unchanged_pass hc

theorem run?_of_isNormal {m : Machine C} (h : m.program.IsNormal) {fuel : Nat} (hfuel : 0 < fuel) :
    ∃ m', m.run? fuel = some m' ∧ m'.program = m.program ∧ m'.console = m.console := by
  have hfix : (m.runBounded 1).1 = .fixpoint :=
    halt_eq_fixpoint_iff.mpr ⟨m.pass, List.mem_singleton.mpr rfl, changed_eq_false_iff.mpr h⟩
  exact ⟨_, run?_of_le hfix hfuel, runBounded_of_isNormal h 1⟩

/-- **Bounded runs, longer runs and runs without a bound agree.**  A run with bound `a + b` is one
with bound `a` and, if that is reached, one with bound `b` after it.  A run ends by itself exactly
if one of the passes within its bound applies no rule.  Then no pattern occurs any more, all passes
but the last were steps, a greater bound or none gives the very same end, and whatever is run
afterwards changes neither program nor console.  A run without a bound that ends within some number
of passes is the run with that bound, and it does not end within them exactly if that run reaches
its bound.  A run reaches its bound exactly if it made as many steps as the bound allows. -/
theorem runBounded_agrees (m : Machine C) (a b n : Nat) :
    (let first := m.runBounded a
      let both := if first.1 = .limit then first.2.runBounded b else first
      (m.runBounded (a + b)).1 = both.1 ∧
        (m.runBounded (a + b)).2.program = both.2.program ∧
        (m.runBounded (a + b)).2.console = both.2.console ∧
        (m.runBounded (a + b)).2.tape = both.2.tape) ∧
    ((m.runBounded n).1 = .fixpoint ↔ ∃ p ∈ m.passes n, p.changed = false) ∧
    ((m.runBounded n).1 = .fixpoint →
      let final := (m.runBounded n).2
      (∀ r ∈ m.program.rules, ¬ r.pattern <:+: final.program.state) ∧
      (∃ k < n, m.trace n = m.passes (k + 1) ∧ final.program.steps = m.program.steps + k) ∧
      (∀ k ≥ n, m.runBounded k = (.fixpoint, final)) ∧
      (∀ fuel ≥ n, m.run? fuel = some final) ∧
      (∀ fuel m', m.run? fuel = some m' → m' = final) ∧
      (∀ k, (final.runBounded k).2.program = final.program ∧
        (final.runBounded k).2.console = final.console) ∧
      ∀ fuel > 0, ∃ m', final.run? fuel = some m' ∧ m'.program = final.program ∧
        m'.console = final.console) ∧
    (∀ fuel m', m.run? fuel = some m' ↔ m.runBounded fuel = (.fixpoint, m')) ∧
    (∀ fuel, m.run? fuel = none ↔ (m.runBounded fuel).1 = .limit) ∧
    ((m.runBounded n).1 = .limit ↔
      (m.runBounded n).2.program.steps = m.program.steps + n) := by
  obtain ⟨hhalt, hmatch⟩ := runBounded_add a b m
  refine ⟨⟨hhalt, hmatch.program, hmatch.console, hmatch.tape⟩, halt_eq_fixpoint_iff, ?_,
    fun _ _ => run?_eq_some_iff, fun _ => run?_eq_none_iff, halt_eq_limit_iff⟩
  intro h final
  have hnormal : final.program.IsNormal := isNormal_of_fixpoint h
  have hrules : final.program.rules = m.program.rules := by
    obtain ⟨k, -, -, -, hfinal, -⟩ := exists_of_halt_eq_fixpoint h
    rw [hfinal, rules_after]
  refine ⟨hrules ▸ hnormal, steps_of_fixpoint h, fun k hk => ?_,
    fun fuel hfuel => run?_of_le h hfuel, fun fuel m' hm' => eq_of_run?_eq_some h hm',
    runBounded_of_isNormal hnormal, fun fuel hfuel => run?_of_isNormal hnormal hfuel⟩
  rw [runBounded_of_le h hk, ← h]

end Machine

end SemiThue
