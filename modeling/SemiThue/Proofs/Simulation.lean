import Mathlib
import SemiThue.Proofs.Occurrences
import SemiThue.Proofs.Pass

/-!
# SemiThue.Proofs.Simulation — machines that run alike

Two machines with the same program and the same tape make the same choices, whatever their journals
hold and whatever order an earlier pass has left on them.  They run alike for as long as their
consoles give the same lines, so consoles are compared by a relation that writing and reading
preserve.

* `Machine.Matches R m m'`: the same program, the same tape, and consoles that `R` relates.
* `Console.Simulation R`: consoles that `R` relates give the same lines, and stay related.
* `Machine.Matches.pass` is the step, and `Machine.Matches.runBounded` the run.  A step needs less
  than a simulation: the one rule that it applies has to do the same (`pass_of_perform`).
-/

namespace SemiThue

variable {C D : Type}

/-! ### Machines with the same choices -/

namespace Machine

/-- The same program and the same tape, and consoles that `R` relates.  The journals and the orders
left by earlier passes may differ. -/
structure Matches (R : C → D → Prop) (m : Machine C) (m' : Machine D) : Prop where
  program : m.program = m'.program
  tape : m.tape = m'.tape
  console : R m.console m'.console

namespace Matches

theorem refl (m : Machine C) : m.Matches Eq m := ⟨rfl, rfl, rfl⟩

variable {R : C → D → Prop} {m : Machine C} {m' : Machine D}

theorem orderDraws (h : m.Matches R m') : m.orderDraws = m'.orderDraws := by
  rw [Machine.orderDraws, Machine.orderDraws, h.program, h.tape]

theorem shuffledTape (h : m.Matches R m') : m.shuffledTape = m'.shuffledTape := by
  rw [Machine.shuffledTape, Machine.shuffledTape, h.program, h.tape]

/-- What is noted does not matter. -/
theorem record (h : m.Matches R m') (e e' : Event) : (m.record e).Matches R (m'.record e') :=
  ⟨h.program, h.tape, h.console⟩

theorem noteHalt (h : m.Matches R m') (n n' : Nat) (halt : Halt) :
    (m.noteHalt n halt).Matches R (m'.noteHalt n' halt) := by
  cases halt <;> exact h.record _ _

end Matches

end Machine

variable [Console C] [Console D]

/-! ### Consoles that cannot be told apart -/

/-- Consoles that are related give the same lines, and whatever is written to both or read from both
leaves them related. -/
structure Console.Simulation (R : C → D → Prop) : Prop where
  write {c : C} {d : D} (h : R c d) (text : Word) : R (Console.write c text) (Console.write d text)
  line_eq {c : C} {d : D} (h : R c d) : (Console.readLine c).1 = (Console.readLine d).1
  readLine {c : C} {d : D} (h : R c d) : R (Console.readLine c).2 (Console.readLine d).2

namespace Console.Simulation

theorem eq : Console.Simulation (Eq : C → C → Prop) where
  write := by rintro c _ rfl text; rfl
  line_eq := by rintro c _ rfl; rfl
  readLine := by rintro c _ rfl; rfl

/-- All that a rule does with a console is to write or to read. -/
theorem perform {R : C → D → Prop} (hR : Console.Simulation R) {c : C} {d : D} (h : R c d)
    (k : Kind) : (k.perform c).1 = (k.perform d).1 ∧ R (k.perform c).2 (k.perform d).2 := by
  cases k with
  | standard text => exact ⟨rfl, h⟩
  | print message => exact ⟨rfl, hR.write h _⟩
  | read => exact ⟨hR.line_eq h, hR.readLine h⟩

end Console.Simulation

/-! ### Lockstep -/

namespace Machine

theorem program_eq_of_applied {m : Machine C} {a : Application} (h : m.pass.applied = some a) :
    m.pass.machine.program =
      { m.program with state := m.pass.machine.program.state, steps := m.program.steps + 1 } := by
  rw [(substitute_of_applied h).2.2.2]
  rfl

/-- The rule that a pass applies is the one at its place in the program. -/
theorem applied_map_rule (m : Machine C) :
    m.pass.applied.map (·.rule) =
      (m.pass.applied.map (·.index)).bind fun i => m.program.rules[i]? := by
  cases h : m.pass.applied with
  | none => rfl
  | some a => exact (split_of_applied h).1.symm

namespace Matches

variable {R : C → D → Prop} {m : Machine C} {m' : Machine D}

theorem index_eq (h : m.Matches R m') :
    m.pass.applied.map (·.index) = m'.pass.applied.map (·.index) := by
  rw [applied_map_index, applied_map_index, h.orderDraws, h.program]

theorem changed (h : m.Matches R m') : m.pass.changed = m'.pass.changed := by
  have hindex := congrArg Option.isSome h.index_eq
  rwa [Option.isSome_map, Option.isSome_map] at hindex

theorem rule_eq (h : m.Matches R m') :
    m.pass.applied.map (·.rule) = m'.pass.applied.map (·.rule) := by
  rw [applied_map_rule, applied_map_rule, h.index_eq, h.program]

/-- **Passes run alike** if the rule that is applied does the same on both consoles.  The same rule
is applied at the same place, with the same replacement. -/
theorem pass_of_perform (h : m.Matches R m') {S : C → D → Prop}
    (hnone : m.pass.applied = none → S m.console m'.console)
    (hsome : ∀ a, m.pass.applied = some a →
      (a.rule.kind.perform m.console).1 = (a.rule.kind.perform m'.console).1 ∧
        S (a.rule.kind.perform m.console).2 (a.rule.kind.perform m'.console).2) :
    m.pass.machine.Matches S m'.pass.machine := by
  have hrules := h.rule_eq
  cases ha : m.pass.applied with
  | none =>
    rw [ha, Option.map_none] at hrules
    have ha' := Option.map_eq_none_iff.mp hrules.symm
    obtain ⟨hc, hp, ht⟩ := m.pass_machine_of_none ha
    obtain ⟨hc', hp', ht'⟩ := m'.pass_machine_of_none ha'
    refine ⟨by rw [hp, hp', h.program], by rw [ht, ht', h.shuffledTape], ?_⟩
    rw [hc, hc']
    exact hnone ha
  | some a =>
    rw [ha, Option.map_some] at hrules
    obtain ⟨a', ha', hrule⟩ := Option.map_eq_some_iff.mp hrules.symm
    obtain ⟨-, hpos, ht, -, u, v, hs, hu, hs', hc⟩ := split_of_applied ha
    obtain ⟨-, hpos', ht', -, u', v', hs₂, hu', hs₂', hc'⟩ := split_of_applied ha'
    obtain ⟨hreplacement, hconsole⟩ := hsome a ha
    -- the draw is the same, so the state is cut at the same place
    rw [h.program, h.shuffledTape, ← hrule] at hpos ht
    have hposition : a.result.position = a'.result.position :=
      Option.some.inj (hpos.symm.trans hpos')
    have hsplit : u ++ (a.rule.pattern ++ v) = u' ++ (a'.rule.pattern ++ v') := by
      rw [← List.append_assoc, ← List.append_assoc, ← hs, ← hs₂, h.program]
    obtain ⟨rfl, hv⟩ :=
      Word.append_inj_of_byteLength hsplit (hu.symm.trans (hposition.trans hu'))
    rw [← hrule] at hv hs' hc hreplacement hconsole
    obtain rfl := List.append_cancel_left hv
    have hstate : m.pass.machine.program.state = m'.pass.machine.program.state := by
      rw [hs', hs₂', hreplacement]
    refine ⟨?_, by rw [ht, ht'], ?_⟩
    · rw [program_eq_of_applied ha, program_eq_of_applied ha', hstate, h.program]
    · rw [hc, hc']
      exact hconsole

theorem pass (h : m.Matches R m') (hR : Console.Simulation R) :
    m.pass.machine.Matches R m'.pass.machine :=
  h.pass_of_perform (fun _ => h.console) fun a _ => hR.perform h.console a.rule.kind

theorem advance (h : m.Matches R m') (hR : Console.Simulation R) (n : Nat) :
    (m.advance n).1 = (m'.advance n).1 ∧ (m.advance n).2.Matches R (m'.advance n).2 := by
  induction n generalizing m m' with
  | zero => exact ⟨rfl, h⟩
  | succ n ih =>
    unfold Machine.advance
    by_cases hc : m.pass.changed = true
    · rw [if_pos hc, if_pos (h.changed ▸ hc)]
      exact ih (h.pass hR)
    · rw [if_neg hc, if_neg (h.changed ▸ hc)]
      exact ⟨rfl, h.pass hR⟩

/-- **Runs run alike.**  They end in the same way, and the machines still match. -/
theorem runBounded (h : m.Matches R m') (hR : Console.Simulation R) (n : Nat) :
    (m.runBounded n).1 = (m'.runBounded n).1 ∧
      (m.runBounded n).2.Matches R (m'.runBounded n).2 := by
  obtain ⟨hhalt, hm⟩ := h.advance hR n
  refine ⟨hhalt, ?_⟩
  show ((m.advance n).2.noteHalt n (m.advance n).1).Matches R
    ((m'.advance n).2.noteHalt n (m'.advance n).1)
  rw [hhalt]
  exact hm.noteHalt n n _

end Matches

end Machine

end SemiThue
